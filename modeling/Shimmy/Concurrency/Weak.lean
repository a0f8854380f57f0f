import Mathlib.Algebra.Group.Pi.Basic
import Mathlib.Algebra.GroupWithZero.Nat
import Mathlib.Order.Lattice
import Shimmy.Concurrency.Memory

namespace Concurrency

open Function

inductive MemoryOrder where
  | plain
  | relaxed
  | acquire
  | release
  | acqRel
  | seqCst
  deriving DecidableEq, Repr

def MemoryOrder.acquires : MemoryOrder → Bool
  | .acquire => true
  | .acqRel => true
  | .seqCst => true
  | _ => false

def MemoryOrder.releases : MemoryOrder → Bool
  | .release => true
  | .acqRel => true
  | .seqCst => true
  | _ => false

structure Access where
  order : MemoryOrder
  acquireFence : Bool := false
  releaseFence : Bool := false
  deriving DecidableEq, Repr

abbrev Frontier (Loc : Type) := Loc → Nat

structure Write (Loc Val : Type) where
  time : Nat
  val : Val
  front : Frontier Loc

structure Fronts (Loc : Type) where
  current : Frontier Loc
  acquired : Frontier Loc
  released : Frontier Loc

structure WeakMemory (Tid Loc Val : Type) where
  history : Loc → List (Write Loc Val)
  fronts : Tid → Fronts Loc

namespace Fronts

variable {Loc Val : Type}

def start : Fronts Loc := ⟨fun _ => 0, fun _ => 0, fun _ => 0⟩

def joins (order : MemoryOrder) (front : Frontier Loc) : Frontier Loc :=
  if order.acquires then front else fun _ => 0

def fenceAcquire (v : Fronts Loc) (fence : Bool) : Fronts Loc :=
  if fence then { v with current := v.current ⊔ v.acquired } else v

def fenceRelease (v : Fronts Loc) (fence : Bool) : Fronts Loc :=
  if fence then { v with released := v.current } else v

def join (v u : Fronts Loc) : Fronts Loc where
  current := v.current ⊔ u.current
  acquired := v.acquired ⊔ u.acquired
  released := v.released

variable [DecidableEq Loc]

def read (v : Fronts Loc) (order : MemoryOrder) (a : Loc) (w : Write Loc Val) : Fronts Loc where
  current := v.current ⊔ Pi.single a w.time ⊔ joins order w.front
  acquired := v.acquired ⊔ Pi.single a w.time ⊔ w.front
  released := v.released

def write (v : Fronts Loc) (a : Loc) (time : Nat) : Fronts Loc where
  current := v.current ⊔ Pi.single a time
  acquired := v.acquired ⊔ Pi.single a time
  released := v.released

def front (v : Fronts Loc) (order : MemoryOrder) (a : Loc) (time : Nat) : Frontier Loc :=
  (if order.releases then v.current else v.released) ⊔ Pi.single a time

end Fronts

namespace WeakMemory

variable {Tid Loc Val State : Type}

def start (cells : Loc → Val) : WeakMemory Tid Loc Val where
  history a := [⟨0, cells a, fun _ => 0⟩]
  fronts _ := .start

def visible (m : WeakMemory Tid Loc Val) (v : Fronts Loc) (a : Loc) (time : Nat) :
    Option (Write Loc Val) :=
  (m.history a).find? fun w => w.time = time ∧ v.current a ≤ w.time

def Fresh (m : WeakMemory Tid Loc Val) (v : Fronts Loc) (a : Loc) (time : Nat) : Prop :=
  v.current a < time ∧ ∀ w ∈ m.history a, w.time ≠ time

instance (m : WeakMemory Tid Loc Val) (v : Fronts Loc) (a : Loc) (time : Nat) :
    Decidable (m.Fresh v a time) :=
  inferInstanceAs (Decidable (_ ∧ _))

def entering (m : WeakMemory Tid Loc Val) (acc : Access) (t : Tid) : Fronts Loc :=
  (m.fronts t).fenceAcquire acc.acquireFence

variable [DecidableEq Tid]

def look (m : WeakMemory Tid Loc Val) (t : Tid) (v : Fronts Loc) : WeakMemory Tid Loc Val :=
  { m with fronts := update m.fronts t v }

def synchronize (m : WeakMemory Tid Loc Val) (t u : Tid) : WeakMemory Tid Loc Val :=
  m.look u ((m.fronts u).join (m.fronts t))

variable [DecidableEq Loc]

def add (m : WeakMemory Tid Loc Val) (t : Tid) (v : Fronts Loc) (a : Loc) (w : Write Loc Val) :
    WeakMemory Tid Loc Val where
  history := update m.history a (w :: m.history a)
  fronts := update m.fronts t v

variable [DecidableEq Val]

def exec (m : WeakMemory Tid Loc Val) (acc : Access) (t : Tid) (time : Nat) :
    Instr Loc Val State → Option (State × WeakMemory Tid Loc Val)
  | .load a next =>
      (m.visible (m.entering acc t) a time).map fun w =>
        (next w.val,
          m.look t (((m.entering acc t).read acc.order a w).fenceRelease acc.releaseFence))
  | .store a x next =>
      if m.Fresh (m.entering acc t) a time then
        some (next, m.add t (((m.entering acc t).write a time).fenceRelease acc.releaseFence) a
          ⟨time, x, (m.entering acc t).front acc.order a time⟩)
      else none
  | .rmw a f next =>
      (m.visible (m.entering acc t) a time).bind fun w =>
        if f w.val = w.val then some (next w.val, m.look t ((m.entering acc t).read .relaxed a w))
        else
          let v := (m.entering acc t).read acc.order a w
          if m.Fresh v a (time + 1) then
            some (next w.val, m.add t (v.write a (time + 1)) a
              ⟨time + 1, f w.val, v.front acc.order a (time + 1) ⊔ w.front⟩)
          else none
  | .futexWait a same parked skipped =>
      (m.visible (m.entering acc t) a time).map fun w =>
        (if same w.val then parked else skipped, m.look t (m.entering acc t))
  | .futexWake _ next => some (next, m.look t (m.entering acc t))
  | .blocked next => some (next, m.look t (m.entering acc t))

end WeakMemory

namespace Fronts

variable {Loc Val : Type} {u v w : Fronts Loc} {a b : Loc}

structure Grows (v v' : Fronts Loc) : Prop where
  current : v.current ≤ v'.current
  acquired : v.acquired ≤ v'.acquired

theorem Grows.refl : Grows v v := ⟨le_rfl, le_rfl⟩

theorem Grows.trans (h : Grows u v) (h' : Grows v w) : Grows u w :=
  ⟨h.current.trans h'.current, h.acquired.trans h'.acquired⟩

theorem grows_fenceAcquire (fence : Bool) : Grows v (v.fenceAcquire fence) := by
  cases fence
  · exact .refl
  · exact ⟨le_sup_left, le_rfl⟩

theorem grows_fenceRelease (fence : Bool) : Grows v (v.fenceRelease fence) := by
  cases fence <;> exact ⟨le_rfl, le_rfl⟩

@[simp] theorem current_fenceRelease (fence : Bool) :
    (v.fenceRelease fence).current = v.current := by
  cases fence <;> rfl

@[simp] theorem acquired_fenceRelease (fence : Bool) :
    (v.fenceRelease fence).acquired = v.acquired := by
  cases fence <;> rfl

@[simp] theorem released_fenceAcquire (fence : Bool) :
    (v.fenceAcquire fence).released = v.released := by
  cases fence <;> rfl

theorem acquired_le_current : v.acquired ≤ (v.fenceAcquire true).current := le_sup_right

variable [DecidableEq Loc]

theorem grows_read (order : MemoryOrder) (e : Write Loc Val) : Grows v (v.read order a e) :=
  ⟨le_sup_left.trans le_sup_left, le_sup_left.trans le_sup_left⟩

theorem grows_write (time : Nat) : Grows v (v.write a time) := ⟨le_sup_left, le_sup_left⟩

theorem front_le_acquired (order : MemoryOrder) (e : Write Loc Val) :
    e.front ≤ (v.read order a e).acquired :=
  le_sup_right

theorem front_le_current {order : MemoryOrder} (h : order.acquires = true) (e : Write Loc Val) :
    e.front ≤ (v.read order a e).current := by
  simp only [read, joins, h, if_true]
  exact le_sup_right

theorem current_write_self {n : Nat} (h : v.current a < n) : (v.write a n).current a = n := by
  simp only [write, Pi.sup_apply, Pi.single_eq_same]
  omega

theorem current_write_of_ne (n : Nat) (h : b ≠ a) : (v.write a n).current b = v.current b := by
  simp [write, h]

end Fronts

namespace WeakMemory

variable {Tid Loc Val State : Type} {m m' : WeakMemory Tid Loc Val} {acc : Access} {t u : Tid}
  {time : Nat} {s : State} {i : Instr Loc Val State} {a : Loc} {v : Fronts Loc}
  {w : Write Loc Val}

theorem of_visible (h : m.visible v a time = some w) :
    w ∈ m.history a ∧ w.time = time ∧ v.current a ≤ w.time := by
  have hp := List.find?_some h
  simp only [Bool.decide_and, Bool.and_eq_true, decide_eq_true_eq] at hp
  exact ⟨List.mem_of_find?_eq_some h, hp⟩

variable [DecidableEq Tid]

theorem fronts_look : (m.look t v).fronts t = v := update_self _ _ _

theorem grows_synchronize (r : Tid) :
    (m.fronts r).Grows ((m.synchronize t u).fronts r) := by
  rcases eq_or_ne r u with rfl | hr
  · rw [synchronize, fronts_look]
    exact ⟨le_sup_left, le_sup_left⟩
  · simp only [synchronize, look, update_of_ne hr]
    exact .refl

variable [DecidableEq Loc]

theorem fronts_add : (m.add t v a w).fronts t = v := update_self _ _ _

theorem mem_history_add {b : Loc} {e : Write Loc Val} :
    e ∈ (m.add t v a w).history b ↔ b = a ∧ e = w ∨ e ∈ m.history b := by
  rcases eq_or_ne b a with rfl | hb
  · simp [add]
  · simp [add, hb]

inductive Effect (m : WeakMemory Tid Loc Val) (acc : Access) (t : Tid) :
    Instr Loc Val State → State → WeakMemory Tid Loc Val → Prop
  | loaded {a : Loc} {next : Val → State} {w : Write Loc Val} (hw : w ∈ m.history a)
      (ht : (m.entering acc t).current a ≤ w.time) :
      Effect m acc t (.load a next) (next w.val)
        (m.look t (((m.entering acc t).read acc.order a w).fenceRelease acc.releaseFence))
  | stored {a : Loc} {x : Val} {next : State} {time : Nat}
      (hf : m.Fresh (m.entering acc t) a time) :
      Effect m acc t (.store a x next) next
        (m.add t (((m.entering acc t).write a time).fenceRelease acc.releaseFence) a
          ⟨time, x, (m.entering acc t).front acc.order a time⟩)
  | refused {a : Loc} {f : Val → Val} {next : Val → State} {w : Write Loc Val}
      (hw : w ∈ m.history a) (ht : (m.entering acc t).current a ≤ w.time)
      (hv : f w.val = w.val) :
      Effect m acc t (.rmw a f next) (next w.val)
        (m.look t ((m.entering acc t).read .relaxed a w))
  | swapped {a : Loc} {f : Val → Val} {next : Val → State} {w : Write Loc Val}
      (hw : w ∈ m.history a) (ht : (m.entering acc t).current a ≤ w.time) (hv : f w.val ≠ w.val)
      (hf : m.Fresh ((m.entering acc t).read acc.order a w) a (w.time + 1)) :
      Effect m acc t (.rmw a f next) (next w.val)
        (m.add t (((m.entering acc t).read acc.order a w).write a (w.time + 1)) a
          ⟨w.time + 1, f w.val,
            ((m.entering acc t).read acc.order a w).front acc.order a (w.time + 1) ⊔ w.front⟩)
  | quiet {i : Instr Loc Val State} {s : State} (hi : i.Leads s) (hw : i.writes = none)
      (hl : ∀ a next, i ≠ .load a next) : Effect m acc t i s (m.look t (m.entering acc t))

theorem exec_effect [DecidableEq Val] (h : m.exec acc t time i = some (s, m')) :
    Effect m acc t i s m' := by
  cases i with
  | load a next =>
    obtain ⟨w, hw, he⟩ := Option.map_eq_some_iff.mp h
    obtain ⟨hmem, -, ht⟩ := of_visible hw
    cases he
    exact .loaded hmem ht
  | store a x next =>
    simp only [exec] at h
    split at h <;> cases h
    exact .stored ‹_›
  | rmw a f next =>
    obtain ⟨w, hw, he⟩ := Option.bind_eq_some_iff.mp h
    obtain ⟨hmem, rfl, ht⟩ := of_visible hw
    split at he
    · cases he
      exact .refused hmem ht ‹_›
    · dsimp only at he
      split at he <;> cases he
      exact .swapped hmem ht ‹_› ‹_›
  | futexWait a same parked skipped =>
    obtain ⟨w, -, he⟩ := Option.map_eq_some_iff.mp h
    cases he
    refine .quiet ?_ rfl (by simp)
    split
    · exact .inl rfl
    · exact .inr rfl
  | futexWake a next =>
    cases h
    exact .quiet rfl rfl (by simp)
  | blocked next =>
    cases h
    exact .quiet rfl rfl (by simp)

theorem Effect.load {next : Val → State} (h : Effect m acc t (.load a next) s m') :
    ∃ w ∈ m.history a, (m.entering acc t).current a ≤ w.time ∧ s = next w.val ∧
      m' = m.look t
        (((m.entering acc t).read acc.order a w).fenceRelease acc.releaseFence) := by
  cases h with
  | @loaded _ _ w hw ht => exact ⟨w, hw, ht, rfl, rfl⟩
  | quiet _ _ hl => exact absurd rfl (hl _ _)

theorem Effect.store {x : Val} {next : State} (h : Effect m acc t (.store a x next) s m')
    (hacc : acc.acquireFence = false) :
    s = next ∧ ∃ time, m.Fresh (m.fronts t) a time ∧
      m' = m.add t (((m.fronts t).write a time).fenceRelease acc.releaseFence) a
        ⟨time, x, (m.fronts t).front acc.order a time⟩ := by
  have henter : m.entering acc t = m.fronts t := by
    rw [entering, hacc]
    rfl
  cases h with
  | @stored _ _ _ time hf =>
    rw [henter] at hf
    exact ⟨rfl, time, hf, by rw [henter]⟩
  | quiet _ hw => cases hw

theorem Effect.leads (h : Effect m acc t i s m') : i.Leads s := by
  cases h with
  | loaded => exact ⟨_, rfl⟩
  | stored => exact rfl
  | refused => exact ⟨_, rfl⟩
  | swapped => exact ⟨_, rfl⟩
  | quiet hi => exact hi

theorem Effect.grows (h : Effect m acc t i s m') : (m.fronts t).Grows (m'.fronts t) := by
  have henter : (m.fronts t).Grows (m.entering acc t) := Fronts.grows_fenceAcquire _
  cases h with
  | loaded =>
    rw [fronts_look]
    exact henter.trans ((Fronts.grows_read _ _).trans (Fronts.grows_fenceRelease _))
  | stored =>
    rw [fronts_add]
    exact henter.trans ((Fronts.grows_write _).trans (Fronts.grows_fenceRelease _))
  | refused =>
    rw [fronts_look]
    exact henter.trans (Fronts.grows_read _ _)
  | swapped =>
    rw [fronts_add]
    exact henter.trans ((Fronts.grows_read _ _).trans (Fronts.grows_write _))
  | quiet =>
    rw [fronts_look]
    exact henter

theorem Effect.fronts_of_ne (h : Effect m acc t i s m') (hu : u ≠ t) :
    m'.fronts u = m.fronts u := by
  cases h <;> exact update_of_ne hu _ _

theorem Effect.grows_all (h : Effect m acc t i s m') (u : Tid) :
    (m.fronts u).Grows (m'.fronts u) := by
  by_cases hu : u = t
  · exact hu ▸ h.grows
  · rw [h.fronts_of_ne hu]
    exact .refl

theorem Effect.history_of_ne (h : Effect m acc t i s m') (ha : i.writes ≠ some a) :
    m'.history a = m.history a := by
  cases h with
  | stored => exact update_of_ne (fun e => ha (by rw [e]; rfl)) _ _
  | swapped => exact update_of_ne (fun e => ha (by rw [e]; rfl)) _ _
  | _ => rfl

theorem Effect.mem_history (h : Effect m acc t i s m') {b : Loc} {e : Write Loc Val}
    (he : e ∈ m.history b) : e ∈ m'.history b := by
  cases h with
  | stored => exact mem_history_add.mpr (.inr he)
  | swapped => exact mem_history_add.mpr (.inr he)
  | _ => exact he

end WeakMemory

end Concurrency
