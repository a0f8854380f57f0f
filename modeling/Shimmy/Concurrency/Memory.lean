import Shimmy.Concurrency.Lts

namespace Concurrency

open Function

inductive Model where
  | sc
  | tso
  deriving DecidableEq, Repr

inductive Instr (Loc Val State : Type) where
  | load (a : Loc) (next : Val → State)
  | store (a : Loc) (v : Val) (next : State)
  | rmw (a : Loc) (f : Val → Val) (next : Val → State)
  | futexWait (a : Loc) (same : Val → Bool) (parked skipped : State)
  | futexWake (a : Loc) (next : State)
  | blocked (next : State)

structure Memory (Tid Loc Val Key : Type) where
  cells : Loc → Val
  buffer : Tid → List (Loc × Val)
  parked : Tid → Option Key

namespace Instr

variable {Loc Val State : Type}

def writes : Instr Loc Val State → Option Loc
  | .store a _ _ => some a
  | .rmw a _ _ => some a
  | _ => none

def wakes : Instr Loc Val State → Option Loc
  | .futexWake a _ => some a
  | _ => none

def Simple (A : Loc → Prop) : Instr Loc Val State → Prop
  | .load a _ => A a
  | .store _ _ _ => True
  | _ => False

def Leads : Instr Loc Val State → State → Prop
  | .load _ next, s => ∃ v, s = next v
  | .store _ _ next, s => s = next
  | .rmw _ _ next, s => ∃ v, s = next v
  | .futexWait _ _ parked skipped, s => s = parked ∨ s = skipped
  | .futexWake _ next, s => s = next
  | .blocked next, s => s = next

def LeadsFrom (value : Loc → Val) : Instr Loc Val State → State → Prop
  | .load a next, s => s = next (value a)
  | i, s => i.Leads s

end Instr

def applyStores {Loc Val : Type} [DecidableEq Loc] (cells : Loc → Val) :
    List (Loc × Val) → Loc → Val
  | [] => cells
  | e :: es => applyStores (update cells e.1 e.2) es

namespace Memory

variable {Tid Loc Val Key State : Type} [DecidableEq Loc]

def read (m : Memory Tid Loc Val Key) (t : Tid) (a : Loc) : Val :=
  applyStores m.cells (m.buffer t) a

def write (m : Memory Tid Loc Val Key) (a : Loc) (v : Val) : Memory Tid Loc Val Key :=
  { m with cells := update m.cells a v }

variable [DecidableEq Tid]

def push (m : Memory Tid Loc Val Key) (t : Tid) (a : Loc) (v : Val) :
    Memory Tid Loc Val Key :=
  { m with buffer := update m.buffer t (m.buffer t ++ [(a, v)]) }

def park (m : Memory Tid Loc Val Key) (t : Tid) (k : Key) : Memory Tid Loc Val Key :=
  { m with parked := update m.parked t (some k) }

def land (m : Memory Tid Loc Val Key) (t : Tid) (e : Loc × Val) (es : List (Loc × Val)) :
    Memory Tid Loc Val Key where
  cells := update m.cells e.1 e.2
  buffer := update m.buffer t es
  parked := m.parked

def drain (m : Memory Tid Loc Val Key) (t : Tid) : Option (Memory Tid Loc Val Key) :=
  match m.buffer t with
  | [] => none
  | e :: es => some (m.land t e es)

variable [DecidableEq Key]

def wake (m : Memory Tid Loc Val Key) (k : Key) : Memory Tid Loc Val Key :=
  { m with parked := fun u => if m.parked u = some k then none else m.parked u }

def exec (model : Model) (key : Loc → Key) (t : Tid) (m : Memory Tid Loc Val Key) :
    Instr Loc Val State → Option (State × Memory Tid Loc Val Key)
  | .load a next => some (next (m.read t a), m)
  | .store a v next =>
      match model with
      | .sc => some (next, m.write a v)
      | .tso => some (next, m.push t a v)
  | .rmw a f next =>
      if m.buffer t = [] then some (next (m.cells a), m.write a (f (m.cells a))) else none
  | .futexWait a same parked skipped =>
      if same (m.cells a) then some (parked, m.park t (key a)) else some (skipped, m)
  | .futexWake a next => some (next, m.wake (key a))
  | .blocked next => if m.parked t = none then some (next, m) else none

end Memory

theorem applyStores_of_ne {Loc Val : Type} [DecidableEq Loc] {cells : Loc → Val}
    {es : List (Loc × Val)} {a : Loc} (h : ∀ e ∈ es, e.1 ≠ a) :
    applyStores cells es a = cells a := by
  induction es generalizing cells with
  | nil => rfl
  | cons e es ih =>
    have hne : a ≠ e.1 := (h e List.mem_cons_self).symm
    rw [applyStores, ih fun f hf => h f (List.mem_cons_of_mem _ hf), update_of_ne hne]

theorem applyStores_congr {Loc Val : Type} [DecidableEq Loc] {cells cells' : Loc → Val}
    {es : List (Loc × Val)} {a : Loc} (h : cells a = cells' a) :
    applyStores cells es a = applyStores cells' es a := by
  induction es generalizing cells cells' with
  | nil => exact h
  | cons e es ih =>
    refine ih ?_
    by_cases hae : a = e.1
    · rw [hae, update_self, update_self]
    · rw [update_of_ne hae, update_of_ne hae, h]

theorem Memory.wake_eq_self {Tid Loc Val Key : Type} [DecidableEq Key]
    {m : Memory Tid Loc Val Key} (k : Key) (h : ∀ u, m.parked u = none) : m.wake k = m := by
  obtain ⟨cells, buffer, parked⟩ := m
  have hnone : parked = fun _ => none := funext h
  simp [Memory.wake, hnone]

namespace Memory

variable {Tid Loc Val Key State : Type} [DecidableEq Loc] {model : Model} {key : Loc → Key}
  {t u : Tid} {m m' : Memory Tid Loc Val Key} {i : Instr Loc Val State} {s : State} {a : Loc}

theorem read_eq_cells (h : ∀ e ∈ m.buffer t, e.1 ≠ a) : m.read t a = m.cells a :=
  applyStores_of_ne h

variable [DecidableEq Tid]

theorem drain_eq_some : m.drain t = some m' ↔
    ∃ e es, m.buffer t = e :: es ∧ m' = m.land t e es := by
  unfold drain
  split
  · simp_all
  · rename_i e es h
    simp only [h, Option.some.injEq, List.cons.injEq]
    constructor
    · intro hm
      exact ⟨e, es, ⟨rfl, rfl⟩, hm.symm⟩
    · rintro ⟨e', es', ⟨rfl, rfl⟩, hm⟩
      exact hm.symm

variable [DecidableEq Key]

theorem exec_cells (h : m.exec model key t i = some (s, m')) (ha : i.writes ≠ some a) :
    m'.cells a = m.cells a := by
  cases i with
  | load b next => cases h; rfl
  | store b v next =>
    have hne : a ≠ b := fun e => ha (by rw [e]; rfl)
    cases model <;> cases h
    · exact update_of_ne hne _ _
    · rfl
  | rmw b f next =>
    have hne : a ≠ b := fun e => ha (by rw [e]; rfl)
    simp only [exec] at h
    split at h <;> cases h
    exact update_of_ne hne _ _
  | futexWait b same parked skipped =>
    simp only [exec] at h
    split at h <;> cases h <;> rfl
  | futexWake b next => cases h; rfl
  | blocked next =>
    simp only [exec] at h
    split at h <;> cases h
    rfl

theorem exec_buffer (h : m.exec model key t i = some (s, m')) :
    m'.buffer = m.buffer ∨
      ∃ b v next, i = .store b v next ∧ model = .tso ∧
        m'.buffer = update m.buffer t (m.buffer t ++ [(b, v)]) := by
  cases i with
  | load b next => cases h; exact .inl rfl
  | store b v next =>
    cases model <;> cases h
    · exact .inl rfl
    · exact .inr ⟨b, v, _, rfl, rfl, rfl⟩
  | rmw b f next =>
    simp only [exec] at h
    split at h <;> cases h
    exact .inl rfl
  | futexWait b same parked skipped =>
    simp only [exec] at h
    split at h <;> cases h <;> exact .inl rfl
  | futexWake b next => cases h; exact .inl rfl
  | blocked next =>
    simp only [exec] at h
    split at h <;> cases h
    exact .inl rfl

theorem exec_rmw {f : Val → Val} {next : Val → State}
    (h : m.exec model key t (.rmw a f next) = some (s, m')) :
    m.buffer t = [] ∧ s = next (m.cells a) ∧ m' = m.write a (f (m.cells a)) := by
  simp only [exec] at h
  split at h <;> cases h
  exact ⟨‹_›, rfl, rfl⟩

theorem exec_rmw_of_drained {f : Val → Val} {next : Val → State} (h : m.buffer t = []) :
    m.exec model key t (.rmw a f next) = some (next (m.cells a), m.write a (f (m.cells a))) :=
  if_pos h

theorem exec_leads (h : m.exec model key t i = some (s, m')) : i.Leads s := by
  cases i with
  | load b next => cases h; exact ⟨_, rfl⟩
  | store b v next => cases model <;> cases h <;> exact rfl
  | rmw b f next =>
    simp only [exec] at h
    split at h <;> cases h
    exact ⟨_, rfl⟩
  | futexWait b same parked skipped =>
    simp only [exec] at h
    split at h <;> cases h
    · exact .inl rfl
    · exact .inr rfl
  | futexWake b next => cases h; exact rfl
  | blocked next =>
    simp only [exec] at h
    split at h <;> cases h
    exact rfl

theorem exec_leadsFrom (h : m.exec model key t i = some (s, m')) : i.LeadsFrom (m.read t) s := by
  have hleads := exec_leads h
  cases i with
  | load b next => cases h; exact rfl
  | _ => exact hleads

theorem exec_buffer_of_ne (h : m.exec model key t i = some (s, m')) (hu : u ≠ t) :
    m'.buffer u = m.buffer u := by
  rcases exec_buffer h with hb | ⟨b, v, next, -, -, hb⟩
  · rw [hb]
  · rw [hb, update_of_ne hu]

theorem exec_buffer_mem (h : m.exec model key t i = some (s, m')) {e : Loc × Val}
    (he : e ∈ m'.buffer u) : e ∈ m.buffer u ∨ u = t ∧ i.writes = some e.1 := by
  rcases exec_buffer h with hb | ⟨b, v, next, rfl, -, hb⟩
  · exact .inl (hb ▸ he)
  · rw [hb] at he
    rcases eq_or_ne u t with rfl | hu
    · rw [update_self, List.mem_append, List.mem_singleton] at he
      exact he.imp id fun h' => ⟨rfl, by rw [h']; rfl⟩
    · exact .inl (by rwa [update_of_ne hu] at he)

theorem exec_agree {A : Loc → Prop} {n : Memory Tid Loc Val Key}
    (hcells : ∀ b, A b → m.cells b = n.cells b) (hbuf : m.buffer t = n.buffer t)
    (hi : i.Simple A) (h : m.exec model key t i = some (s, m')) :
    ∃ n', n.exec model key t i = some (s, n') ∧ (∀ b, A b → m'.cells b = n'.cells b) ∧
      m'.buffer t = n'.buffer t := by
  cases i with
  | load a next =>
    have hread : m.read t a = n.read t a := by
      rw [read, read, hbuf]
      exact applyStores_congr (hcells a hi)
    cases h
    exact ⟨n, by rw [exec, hread], hcells, hbuf⟩
  | store a v next =>
    cases model <;> cases h
    · refine ⟨_, rfl, fun b hb => ?_, hbuf⟩
      by_cases hba : b = a
      · simp [write, hba]
      · simp [write, hba, hcells b hb]
    · exact ⟨_, rfl, hcells, by simp [push, hbuf]⟩
  | rmw a f next => exact hi.elim
  | futexWait a same parked skipped => exact hi.elim
  | futexWake a next => exact hi.elim
  | blocked next => exact hi.elim

inductive Parks (key : Loc → Key) (t : Tid) (m m' : Memory Tid Loc Val Key) (s : State) :
    Instr Loc Val State → Prop
  | kept {i : Instr Loc Val State} (hi : i.wakes = none) (h : m'.parked = m.parked) :
      Parks key t m m' s i
  | waited {a : Loc} {same : Val → Bool} {skipped : State} (hsame : same (m.cells a) = true)
      (h : m' = m.park t (key a)) : Parks key t m m' s (.futexWait a same s skipped)
  | woke {a : Loc} (h : m' = m.wake (key a)) : Parks key t m m' s (.futexWake a s)

theorem exec_parks (h : m.exec model key t i = some (s, m')) : Parks key t m m' s i := by
  cases i with
  | load b next => cases h; exact .kept rfl rfl
  | store b v next => cases model <;> cases h <;> exact .kept rfl rfl
  | rmw b f next =>
    simp only [exec] at h
    split at h <;> cases h
    exact .kept rfl rfl
  | futexWait b same parked skipped =>
    simp only [exec] at h
    split at h <;> cases h
    · exact .waited ‹_› rfl
    · exact .kept rfl rfl
  | futexWake b next => cases h; exact .woke rfl
  | blocked next =>
    simp only [exec] at h
    split at h <;> cases h
    exact .kept rfl rfl

theorem exec_sc_tso (hm : ∀ u, m.buffer u = []) (h : m.exec .sc key t i = some (s, m')) :
    (∀ u, m'.buffer u = []) ∧
      (m.exec .tso key t i = some (s, m') ∨
        ∃ m₁, m.exec .tso key t i = some (s, m₁) ∧ m₁.drain t = some m') := by
  constructor
  · intro u
    rcases exec_buffer h with hb | ⟨-, -, -, -, hsc, -⟩
    · rw [hb, hm]
    · cases hsc
  · cases i with
    | store b v next =>
      cases h
      refine .inr ⟨m.push t b v, rfl, drain_eq_some.mpr ⟨(b, v), [], by simp [push, hm], ?_⟩⟩
      simp only [land, push, write, update_idem]
      rw [← hm t, update_eq_self]
    | load b next => exact .inl h
    | rmw b f next => exact .inl h
    | futexWait b same parked skipped => exact .inl h
    | futexWake b next => exact .inl h
    | blocked next => exact .inl h

end Memory

end Concurrency
