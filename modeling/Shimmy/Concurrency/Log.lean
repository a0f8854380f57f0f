import Mathlib.Data.Option.Basic

namespace Concurrency

theorem exists_of_rel_left {α β : Type} {R : α → β → Prop} {x : Option α} {y : Option β} {a : α}
    (h : Option.Rel R x y) (hx : x = some a) : ∃ b, y = some b ∧ R a b := by
  cases h with
  | none => cases hx
  | some hab =>
    cases hx
    exact ⟨_, rfl, hab⟩

theorem exists_of_rel_right {α β : Type} {R : α → β → Prop} {x : Option α} {y : Option β} {b : β}
    (h : Option.Rel R x y) (hy : y = some b) : ∃ a, x = some a ∧ R a b := by
  cases h with
  | none => cases hy
  | some hab =>
    cases hy
    exact ⟨_, rfl, hab⟩

structure Machine (Op Reply State : Type) where
  step : Op → State → Option (Reply × State)

namespace Machine

variable {Op Reply State State' : Type} (M : Machine Op Reply State)

def run : List Op → State → Option (List Reply × State)
  | [], s => some ([], s)
  | op :: ops, s => (M.step op s).bind fun r => (run ops r.2).map fun q => (r.1 :: q.1, q.2)

variable {M}

theorem run_cons {op : Op} {ops : List Op} {s t u : State} {r : Reply} {rs : List Reply}
    (h : M.step op s = some (r, t)) (hs : M.run ops t = some (rs, u)) :
    M.run (op :: ops) s = some (r :: rs, u) := by
  simp [run, h, hs]

theorem run_cons_iff {op : Op} {ops : List Op} {s u : State} {rs : List Reply} :
    M.run (op :: ops) s = some (rs, u) ↔
      ∃ r t qs, M.step op s = some (r, t) ∧ M.run ops t = some (qs, u) ∧ rs = r :: qs := by
  constructor
  · intro h
    obtain ⟨⟨r, t⟩, hstep, h⟩ := Option.bind_eq_some_iff.mp h
    obtain ⟨⟨qs, v⟩, hrun, h⟩ := Option.map_eq_some_iff.mp h
    cases h
    exact ⟨r, t, qs, hstep, hrun, rfl⟩
  · rintro ⟨r, t, qs, hstep, hrun, rfl⟩
    exact run_cons hstep hrun

theorem run_append {ops ops' : List Op} {s t u : State} {rs rs' : List Reply}
    (h : M.run ops s = some (rs, t)) (h' : M.run ops' t = some (rs', u)) :
    M.run (ops ++ ops') s = some (rs ++ rs', u) := by
  induction ops generalizing s rs with
  | nil =>
    cases h
    exact h'
  | cons op ops ih =>
    obtain ⟨r, v, qs, hstep, hrun, rfl⟩ := run_cons_iff.mp h
    exact run_cons hstep (ih hrun)

theorem run_invariant {I : State → Prop} {ops : List Op} {s t : State} {rs : List Reply}
    (h : M.run ops s = some (rs, t)) (h0 : I s)
    (hstep : ∀ op ∈ ops, ∀ u v r, I u → M.step op u = some (r, v) → I v) : I t := by
  induction ops generalizing s rs with
  | nil =>
    cases h
    exact h0
  | cons op ops ih =>
    obtain ⟨r, v, qs, hop, hrun, rfl⟩ := run_cons_iff.mp h
    exact ih hrun (hstep op List.mem_cons_self s v r h0 hop)
      fun op' hmem => hstep op' (List.mem_cons_of_mem op hmem)

theorem run_simulate {N : Machine Op Reply State'} {R : List Op → State → State' → Prop}
    (hstep : ∀ op ops s t, R (op :: ops) s t →
      Option.Rel (fun a b => a.1 = b.1 ∧ R ops a.2 b.2) (M.step op s) (N.step op t))
    {ops : List Op} {s : State} {t : State'} (h : R ops s t) :
    Option.Rel (fun a b => a.1 = b.1 ∧ R [] a.2 b.2) (M.run ops s) (N.run ops t) := by
  induction ops generalizing s t with
  | nil => exact .some ⟨rfl, h⟩
  | cons op ops ih =>
    have hop := hstep op ops s t h
    simp only [run]
    generalize M.step op s = x, N.step op t = y at hop
    cases hop with
    | none => exact .none
    | @some a b hab =>
      obtain ⟨hreply, hrel⟩ := hab
      have hrest := ih hrel
      simp only [Option.bind_some]
      generalize M.run ops a.2 = x, N.run ops b.2 = y at hrest
      cases hrest with
      | none => exact .none
      | some hcd => exact .some ⟨by simp [hreply, hcd.1], hcd.2⟩

end Machine

inductive Lookup (α : Type) where
  | found (a : α)
  | absent
  | lost
  deriving DecidableEq, Repr

def lookup {α : Type} (cap : Nat) (log : List α) (seq : Nat) : Lookup α :=
  match log[seq]? with
  | none => .absent
  | some a => if log.length ≤ seq + cap then .found a else .lost

def InWindow (cap n seq : Nat) : Prop := seq < n ∧ n ≤ seq + cap

instance (cap n seq : Nat) : Decidable (InWindow cap n seq) :=
  inferInstanceAs (Decidable (_ ∧ _))

structure Reader where
  next : Nat
  held : Nat
  deriving DecidableEq, Repr

namespace Reader

def read {α : Type} (r : Reader) : Lookup α → Reader
  | .found _ => { r with held := r.next }
  | _ => r

def commit (r : Reader) : Reader := { r with next := r.held + 1 }

def resync (cap n : Nat) (r : Reader) : Reader := { r with next := n - cap }

end Reader

section Lookup

variable {α : Type} {cap : Nat} {log : List α} {seq : Nat}

theorem lookup_found_iff {a : α} :
    lookup cap log seq = .found a ↔ log[seq]? = some a ∧ log.length ≤ seq + cap := by
  unfold lookup
  split
  · simp_all
  · split <;> simp_all

theorem lookup_absent_iff : lookup cap log seq = .absent ↔ log.length ≤ seq := by
  unfold lookup
  split
  · simp_all
  · rename_i a h
    have := (List.getElem?_eq_some_iff.mp h).1
    split <;> simp_all

theorem lookup_lost_iff : lookup cap log seq = .lost ↔ seq + cap < log.length := by
  unfold lookup
  split
  · simp_all
    omega
  · split <;> simp_all

end Lookup

end Concurrency
