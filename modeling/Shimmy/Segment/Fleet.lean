import Shimmy.Segment.Lifecycle

namespace Shimmy

open Concurrency Function

deriving instance DecidableEq for RingConfig

structure Fleet (H P : Type) where
  home : H → P
  ring : H → RingConfig

inductive HandleLabel (H : Type) where
  | construct (h : H)
  | make (h : H) (factory : Factory) (ans : Answers)
  | moveConstruct (h t : H)
  | moveAssign (h t : H) (ans : Answers)
  | releaseNameOwnership (h : H)
  | destroy (h : H) (ans : Answers)
  | write (object : Nat) (contents : SharedObject)

structure FactoryCall where
  factory : Factory
  hugetlb : Bool
  deriving DecidableEq, Repr

def FactoryCall.mayUnlink (c : FactoryCall) : Bool :=
  match c.factory with
  | .create _ _ => !c.hugetlb
  | .openSegment _ => false

structure World (H P : Type) where
  kernel : Kernel P
  handle : H → Option SegmentHandle
  origin : H → Nat
  calls : List FactoryCall
  charged : List Nat

namespace Kernel

variable {P : Type}

def charge (call : Nat) (k k' : Kernel P) : List Nat :=
  List.replicate (k'.unlinkCalls.length - k.unlinkCalls.length) call

def boot (names : String → Option Nat) (objects : Nat → SharedObject) (modes : Nat → Nat)
    (created : Nat) : Kernel P where
  names := names
  objects := objects
  modes := modes
  created := created
  fds _ := none
  maps _ := none
  fdCalls := []
  mapCalls := []
  unlinkCalls := []

end Kernel

def hugetlbOf : Except Thrown SegmentHandle → Bool
  | .ok seg => seg.hugepagesActive
  | .error _ => false

def World.start {H P : Type} (names : String → Option Nat) (objects : Nat → SharedObject)
    (modes : Nat → Nat) (created : Nat) : World H P where
  kernel := .boot names objects modes created
  handle _ := none
  origin _ := 0
  calls := []
  charged := []

namespace Fleet

variable {H P : Type} [DecidableEq H] [DecidableEq P]

def kin (F : Fleet H P) (h t : H) : Bool :=
  decide (F.home h = F.home t) && decide (F.ring h = F.ring t)

def made (F : Fleet H P) (h : H) (factory : Factory) (ans : Answers) (w : World H P) :
    World H P :=
  let (result, kernel) := factory.call ans (F.home h) (F.ring h) w.kernel
  { kernel := kernel
    handle := update w.handle h result.toOption
    origin := update w.origin h w.calls.length
    calls := w.calls ++ [⟨factory, hugetlbOf result⟩]
    charged := w.charged ++ w.kernel.charge w.calls.length kernel }

def moved (h t : H) (seg other : SegmentHandle) (w : World H P) : World H P :=
  let (seg, other) := seg.swap other
  { w with
    handle := update (update w.handle h (some seg)) t (some other)
    origin := update w.origin h (w.origin t) }

def torn (F : Fleet H P) (h : H) (seg : SegmentHandle) (ans : Answers) (w : World H P) :
    SegmentHandle × World H P :=
  let f := (Frame.mk seg w.kernel).reset ans (F.home h)
  (f.seg,
    { w with
      kernel := f.kernel
      handle := update w.handle h none
      charged := w.charged ++ w.kernel.charge (w.origin h) f.kernel })

def step (F : Fleet H P) : HandleLabel H → World H P → Option (World H P)
  | .construct h, w =>
    match w.handle h with
    | none => some { w with handle := update w.handle h (some .empty) }
    | some _ => none
  | .make h factory ans, w =>
    match w.handle h with
    | none => if factory.lawful ans (F.home h) w.kernel then some (F.made h factory ans w) else none
    | some _ => none
  | .moveConstruct h t, w =>
    match w.handle h, w.handle t with
    | none, some other => if F.kin h t then some (moved h t .empty other w) else none
    | _, _ => none
  | .moveAssign h t ans, w =>
    match w.handle h, w.handle t with
    | some seg, some other =>
      if F.kin h t then
        if h = t then some w
        else
          let (seg, w) := F.torn h seg ans w
          some (moved h t seg other w)
      else none
    | _, _ => none
  | .releaseNameOwnership h, w =>
    match w.handle h with
    | some seg => some { w with handle := update w.handle h (some seg.releaseNameOwnership) }
    | none => none
  | .destroy h ans, w =>
    match w.handle h with
    | some seg => some (F.torn h seg ans w).2
    | none => none
  | .write object contents, w =>
    some { w with kernel := w.kernel.write object fun _ => contents }

def lts (F : Fleet H P) : Lts (HandleLabel H) (World H P) := ⟨F.step⟩

inductive Step (F : Fleet H P) (w : World H P) : HandleLabel H → World H P → Prop
  | construct {h : H} (hh : w.handle h = none) :
      Step F w (.construct h) { w with handle := update w.handle h (some .empty) }
  | make {h : H} {factory : Factory} {ans : Answers} (hh : w.handle h = none)
      (hl : factory.lawful ans (F.home h) w.kernel = true) :
      Step F w (.make h factory ans) (F.made h factory ans w)
  | moveConstruct {h t : H} {other : SegmentHandle} (hh : w.handle h = none)
      (ht : w.handle t = some other) (hne : h ≠ t) (hkin : F.kin h t = true) :
      Step F w (.moveConstruct h t) (moved h t .empty other w)
  | moveSelf {h : H} {seg : SegmentHandle} {ans : Answers} (hh : w.handle h = some seg) :
      Step F w (.moveAssign h h ans) w
  | moveAssign {h t : H} {seg other : SegmentHandle} {ans : Answers} (hh : w.handle h = some seg)
      (ht : w.handle t = some other) (hne : h ≠ t) (hkin : F.kin h t = true) :
      Step F w (.moveAssign h t ans)
        (moved h t (F.torn h seg ans w).1 other (F.torn h seg ans w).2)
  | releaseNameOwnership {h : H} {seg : SegmentHandle} (hh : w.handle h = some seg) :
      Step F w (.releaseNameOwnership h)
        { w with handle := update w.handle h (some seg.releaseNameOwnership) }
  | destroy {h : H} {seg : SegmentHandle} {ans : Answers} (hh : w.handle h = some seg) :
      Step F w (.destroy h ans) (F.torn h seg ans w).2
  | write {object : Nat} {contents : SharedObject} :
      Step F w (.write object contents)
        { w with kernel := w.kernel.write object fun _ => contents }

theorem step_cases {F : Fleet H P} {w w' : World H P} {l : HandleLabel H}
    (hs : F.step l w = some w') : F.Step w l w' := by
  cases l with
  | construct h =>
    simp only [step] at hs
    split at hs
    · cases hs
      exact .construct ‹_›
    · cases hs
  | make h factory ans =>
    simp only [step] at hs
    split at hs
    · split at hs
      · cases hs
        exact .make ‹_› ‹_›
      · cases hs
    · cases hs
  | moveConstruct h t =>
    simp only [step] at hs
    split at hs
    · split at hs
      · cases hs
        rename_i other hh ht hkin
        refine .moveConstruct hh ht ?_ hkin
        rintro rfl
        rw [hh] at ht
        cases ht
      · cases hs
    · cases hs
  | moveAssign h t ans =>
    simp only [step] at hs
    split at hs
    · split at hs
      · split at hs
        · cases hs
          rename_i heq
          subst heq
          exact .moveSelf ‹_›
        · cases hs
          exact .moveAssign ‹_› ‹_› ‹_› ‹_›
      · cases hs
    · cases hs
  | releaseNameOwnership h =>
    simp only [step] at hs
    split at hs
    · cases hs
      exact .releaseNameOwnership ‹_›
    · cases hs
  | destroy h ans =>
    simp only [step] at hs
    split at hs
    · cases hs
      exact .destroy ‹_›
    · cases hs
  | write object contents =>
    cases hs
    exact .write

end Fleet

end Shimmy
