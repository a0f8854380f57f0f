import Mathlib.Data.List.Count
import Mathlib.Data.Option.Basic
import Shimmy.Concurrency.Lts

namespace Concurrency

namespace Lts

variable {Label State State' : Type} {M : Lts Label State} {N : Lts Label State'}
  {own : Label → Bool} {I : State → Prop} {ls : List Label} {s t : State}

theorem run_rel {R : State → State' → Prop}
    (hstep : ∀ l s t, R s t → Option.Rel R (M.step l s) (N.step l t)) (ls : List Label)
    {s : State} {t : State'} (h : R s t) : Option.Rel R (M.run ls s) (N.run ls t) := by
  induction ls generalizing s t with
  | nil => exact .some h
  | cons l ls ih =>
    have hone := hstep l s t h
    simp only [run]
    generalize M.step l s = s' at hone
    generalize N.step l t = t' at hone
    cases hone with
    | none => exact .none
    | some hr => exact ih hr

theorem run_filter {R : State → State' → Prop} {keep : Label → Bool}
    (hkeep : ∀ l s s' t, keep l = true → R s t → M.step l s = some s' →
      ∃ t', N.step l t = some t' ∧ R s' t')
    (hdrop : ∀ l s s' t, keep l = false → R s t → M.step l s = some s' → R s' t)
    {s' : State} {u : State'} (h : R s u) (hr : M.run ls s = some s') :
    ∃ u', N.run (ls.filter keep) u = some u' ∧ R s' u' := by
  induction ls generalizing s u with
  | nil =>
    cases hr
    exact ⟨u, rfl, h⟩
  | cons l ls ih =>
    obtain ⟨v, hv, hrest⟩ := Option.bind_eq_some_iff.mp hr
    cases hl : keep l with
    | false =>
      obtain ⟨u', hu', hrel⟩ := ih (hdrop l s v u hl h hv) hrest
      exact ⟨u', by rwa [List.filter_cons_of_neg (by simp [hl])], hrel⟩
    | true =>
      obtain ⟨w, hw, hrel⟩ := hkeep l s v u hl h hv
      obtain ⟨u', hu', hrel'⟩ := ih hrel hrest
      refine ⟨u', ?_, hrel'⟩
      rw [List.filter_cons_of_pos hl, run, hw]
      exact hu'

theorem run_potential {potential : State → Nat}
    (hI : ∀ l s t, I s → M.step l s = some t → I t)
    (hown : ∀ l s t, I s → own l = true → M.step l s = some t → potential s < potential t)
    (hother : ∀ l s t, I s → own l = false → M.step l s = some t → potential s ≤ potential t)
    (hs : I s) (hr : M.run ls s = some t) : potential s + ls.countP own ≤ potential t := by
  induction ls generalizing s with
  | nil =>
    cases hr
    exact Nat.le_refl _
  | cons l ls ih =>
    obtain ⟨u, hu, hrest⟩ := Option.bind_eq_some_iff.mp hr
    have htail := ih (hI l s u hs hu) hrest
    cases hl : own l with
    | false =>
      have hle := hother l s u hs hl hu
      rw [List.countP_cons_of_neg (by simp [hl])]
      omega
    | true =>
      have hlt := hown l s u hs hl hu
      rw [List.countP_cons_of_pos hl]
      omega

theorem States.of_forall {A : State → Prop} (h : ∀ s, A s) (ls : List Label) (s : State) :
    M.States A ls s := by
  induction ls generalizing s with
  | nil => exact h s
  | cons l ls ih =>
    refine ⟨h s, ?_⟩
    cases M.step l s with
    | none => trivial
    | some t => exact ih t

theorem States.of_run {A : State → Prop} (hA : ∀ l s t, A t → M.step l s = some t → A s)
    (hr : M.run ls s = some t) (ht : A t) : M.States A ls s ∧ A s := by
  induction ls generalizing s with
  | nil =>
    cases hr
    exact ⟨ht, ht⟩
  | cons l ls ih =>
    obtain ⟨u, hu, hrest⟩ := Option.bind_eq_some_iff.mp hr
    obtain ⟨hstates, hA'⟩ := ih hrest
    have hs := hA l s u hA' hu
    refine ⟨⟨hs, ?_⟩, hs⟩
    rw [hu]
    exact hstates

theorem States.head {A : State → Prop} (h : M.States A ls s) : A s := by
  cases ls with
  | nil => exact h
  | cons l ls => exact h.1

theorem States.tail {A : State → Prop} {l : Label} (h : M.States A (l :: ls) s)
    (hs : M.step l s = some t) : M.States A ls t := by
  have hrest := h.2
  rwa [hs] at hrest

theorem run_stays {A : State → Prop} (hA : M.States A ls s)
    (hI : ∀ l s t, I s → A s → M.step l s = some t → I t) (hs : I s)
    (hr : M.run ls s = some t) : I t := by
  induction ls generalizing s with
  | nil =>
    cases hr
    exact hs
  | cons l ls ih =>
    obtain ⟨u, hu, hrest⟩ := Option.bind_eq_some_iff.mp hr
    exact ih (hA.tail hu) (hI l s u hs hA.head hu) hrest

theorem run_meets {A goal : State → Prop} (rank : State → Nat) (hA : M.States A ls s)
    (hI : ∀ l s t, I s → A s → ¬ goal s → M.step l s = some t → goal t ∨ I t)
    (hzero : ∀ s, I s → rank s = 0 → goal s)
    (hown : ∀ l s t, I s → A s → ¬ goal s → own l = true → M.step l s = some t →
      goal t ∨ rank t < rank s)
    (hother : ∀ l s t, I s → ¬ goal s → own l = false → M.step l s = some t →
      rank t ≤ rank s)
    (hs : I s) (hr : M.run ls s = some t) (hcount : rank s ≤ ls.countP own) :
    ∃ ks js u, ls = ks ++ js ∧ M.run ks s = some u ∧ M.run js u = some t ∧ goal u := by
  by_cases hgoal : goal s
  · exact ⟨[], ls, s, rfl, rfl, hr, hgoal⟩
  induction ls generalizing s with
  | nil => exact absurd (hzero s hs (Nat.le_zero.mp hcount)) hgoal
  | cons l ls ih =>
    obtain ⟨u, hu, hrest⟩ := Option.bind_eq_some_iff.mp hr
    by_cases hgoal' : goal u
    · refine ⟨[l], ls, u, rfl, ?_, hrest, hgoal'⟩
      simp [run, hu]
    have hrank : rank u ≤ ls.countP own := by
      cases hl : own l with
      | false =>
        have hle := hother l s u hs hgoal hl hu
        rw [List.countP_cons_of_neg (by simp [hl])] at hcount
        omega
      | true =>
        have hlt := (hown l s u hs hA.head hgoal hl hu).resolve_left hgoal'
        rw [List.countP_cons_of_pos hl] at hcount
        omega
    obtain ⟨ks, js, v, rfl, hv, hjs, hgoal''⟩ :=
      ih (hA.tail hu) ((hI l s u hs hA.head hgoal hu).resolve_left hgoal') hrest hrank hgoal'
    refine ⟨l :: ks, js, v, rfl, ?_, hjs, hgoal''⟩
    rw [run, hu]
    exact hv

end Lts

end Concurrency
