import Mathlib.Logic.Function.Basic

namespace Concurrency

structure Lts (Label State : Type) where
  step : Label → State → Option State

namespace Lts

variable {Label State : Type} (M : Lts Label State)

def run : List Label → State → Option State
  | [], s => some s
  | l :: ls, s => (M.step l s).bind (run ls)

def runIf (allowed : Label → State → Bool) : List Label → State → Option State
  | [], s => some s
  | l :: ls, s => if allowed l s then (M.step l s).bind (runIf allowed ls) else none

inductive Reach (allowed : Label → State → Prop) (s : State) : State → Prop
  | refl : Reach allowed s s
  | step {t u : State} {l : Label} (h : Reach allowed s t) (ha : allowed l t)
      (hu : M.step l t = some u) : Reach allowed s u

abbrev Reaches (s t : State) : Prop := M.Reach (fun _ _ => True) s t

def Steps (A : Label → State → Prop) : List Label → State → Prop
  | [], _ => True
  | l :: ls, s => A l s ∧ (M.step l s).elim True (Steps A ls)

def States (I : State → Prop) : List Label → State → Prop
  | [], s => I s
  | l :: ls, s => I s ∧ (M.step l s).elim True (States I ls)

variable {M}

theorem Reach.trans {allowed : Label → State → Prop} {s t u : State}
    (h₁ : M.Reach allowed s t) (h₂ : M.Reach allowed t u) : M.Reach allowed s u := by
  induction h₂ with
  | refl => exact h₁
  | step _ ha hu ih => exact ih.step ha hu

theorem Reach.single {allowed : Label → State → Prop} {s t : State} {l : Label}
    (ha : allowed l s) (h : M.step l s = some t) : M.Reach allowed s t :=
  Reach.refl.step ha h

theorem Reach.mono {allowed allowed' : Label → State → Prop}
    (hle : ∀ l s, allowed l s → allowed' l s) {s t : State} (h : M.Reach allowed s t) :
    M.Reach allowed' s t := by
  induction h with
  | refl => exact .refl
  | step _ ha hu ih => exact ih.step (hle _ _ ha) hu

theorem Reach.reaches {allowed : Label → State → Prop} {s t : State}
    (h : M.Reach allowed s t) : M.Reaches s t :=
  h.mono fun _ _ _ => trivial

theorem Reach.invariant {allowed : Label → State → Prop} {I : State → Prop} {s t : State}
    (h : M.Reach allowed s t) (h0 : I s)
    (hstep : ∀ l u v, I u → allowed l u → M.step l u = some v → I v) : I t := by
  induction h with
  | refl => exact h0
  | step _ ha hu ih => exact hstep _ _ _ ih ha hu

theorem Reach.induct {allowed : Label → State → Prop} {I : State → Prop} {s t : State}
    (h : M.Reach allowed s t) (h0 : I s)
    (hstep : ∀ l u v, M.Reach allowed s u → I u → allowed l u → M.step l u = some v → I v) :
    I t := by
  induction h with
  | refl => exact h0
  | step hr ha hu ih => exact hstep _ _ _ hr ih ha hu

theorem Reach.simulate {N : Lts Label State} {allowed allowed' : Label → State → Prop}
    {I : State → Prop} {s t : State} (h : M.Reach allowed s t) (h0 : I s)
    (hstep : ∀ l u v, I u → allowed l u → M.step l u = some v → N.Reach allowed' u v ∧ I v) :
    N.Reach allowed' s t ∧ I t := by
  induction h with
  | refl => exact ⟨.refl, h0⟩
  | step _ ha hu ih =>
    obtain ⟨hr, hi⟩ := hstep _ _ _ ih.2 ha hu
    exact ⟨ih.1.trans hr, hi⟩

theorem run_append (ls ks : List Label) (s : State) :
    M.run (ls ++ ks) s = (M.run ls s).bind (M.run ks) := by
  induction ls generalizing s with
  | nil => rfl
  | cons l ls ih =>
    simp only [List.cons_append, run]
    cases M.step l s with
    | none => rfl
    | some t => exact ih t

theorem reach_of_run {ls : List Label} {s t : State} (h : M.run ls s = some t) :
    M.Reaches s t := by
  induction ls generalizing s with
  | nil => cases h; exact .refl
  | cons l ls ih =>
    obtain ⟨u, hu, ht⟩ := Option.bind_eq_some_iff.mp h
    exact (Reach.single trivial hu).trans (ih ht)

theorem reach_of_runIf {allowed : Label → State → Bool} {ls : List Label} {s t : State}
    (h : M.runIf allowed ls s = some t) : M.Reach (fun l u => allowed l u = true) s t := by
  induction ls generalizing s with
  | nil => cases h; exact .refl
  | cons l ls ih =>
    simp only [runIf] at h
    split at h
    · obtain ⟨u, hu, ht⟩ := Option.bind_eq_some_iff.mp h
      exact (Reach.single ‹_› hu).trans (ih ht)
    · cases h

theorem exists_of_run (p : State → Bool) (ls : List Label) (s : State)
    (h : (M.run ls s).any p = true) : ∃ t, M.Reaches s t ∧ p t = true := by
  obtain ⟨t, ht, hp⟩ := (Option.any_eq_true _ _).mp h
  exact ⟨t, reach_of_run ht, hp⟩

theorem exists_of_runIf (allowed : Label → State → Bool) (p : State → Bool) (ls : List Label)
    (s : State) (h : (M.runIf allowed ls s).any p = true) :
    ∃ t, M.Reach (fun l u => allowed l u = true) s t ∧ p t = true := by
  obtain ⟨t, ht, hp⟩ := (Option.any_eq_true _ _).mp h
  exact ⟨t, reach_of_runIf ht, hp⟩

theorem exists_of_runs (allowed : Label → State → Bool) (p q : State → Bool)
    (ls ks : List Label) (s : State)
    (h : ((M.run ls s).any fun t => p t && (M.runIf allowed ks t).any q) = true) :
    ∃ t u, M.Reaches s t ∧ p t = true ∧ M.Reach (fun l v => allowed l v = true) t u ∧
      q u = true := by
  obtain ⟨t, ht, hp⟩ := exists_of_run _ ls s h
  obtain ⟨hp, hq⟩ := (Bool.and_eq_true _ _).mp hp
  obtain ⟨u, hu, hq⟩ := exists_of_runIf allowed q ks t hq
  exact ⟨t, u, ht, hp, hu, hq⟩

theorem States.last {I : State → Prop} {ls : List Label} {s t : State} (h : M.States I ls s)
    (hr : M.run ls s = some t) : I t := by
  induction ls generalizing s with
  | nil =>
    cases hr
    exact h
  | cons l ls ih =>
    obtain ⟨u, hu, ht⟩ := Option.bind_eq_some_iff.mp hr
    have hrest := h.2
    rw [hu] at hrest
    exact ih hrest ht

theorem States.mono {I J : State → Prop} (hle : ∀ s, I s → J s) {ls : List Label} {s : State}
    (h : M.States I ls s) : M.States J ls s := by
  induction ls generalizing s with
  | nil => exact hle s h
  | cons l ls ih =>
    refine ⟨hle s h.1, ?_⟩
    have hrest := h.2
    cases hu : M.step l s with
    | none => trivial
    | some t =>
      rw [hu] at hrest
      exact ih hrest

theorem Steps.mono {A B : Label → State → Prop} (hle : ∀ l s, A l s → B l s) {ls : List Label}
    {s : State} (h : M.Steps A ls s) : M.Steps B ls s := by
  induction ls generalizing s with
  | nil => trivial
  | cons l ls ih =>
    refine ⟨hle l s h.1, ?_⟩
    have hrest := h.2
    cases hu : M.step l s with
    | none => trivial
    | some t =>
      rw [hu] at hrest
      exact ih hrest

theorem Steps.after {A : Label → State → Prop} {ls ks : List Label} {s t : State}
    (h : M.Steps A (ls ++ ks) s) (hr : M.run ls s = some t) : M.Steps A ks t := by
  induction ls generalizing s with
  | nil =>
    cases hr
    exact h
  | cons l ls ih =>
    obtain ⟨u, hu, ht⟩ := Option.bind_eq_some_iff.mp hr
    have hrest := h.2
    rw [hu] at hrest
    exact ih hrest ht

theorem steps_congr {J : State → Prop} {A B : Label → State → Prop}
    (hJ : ∀ l s t, J s → M.step l s = some t → J t) (hAB : ∀ l s, J s → (A l s ↔ B l s))
    {ls : List Label} {s : State} (hs : J s) : M.Steps A ls s ↔ M.Steps B ls s := by
  induction ls generalizing s with
  | nil => exact Iff.rfl
  | cons l ls ih =>
    refine and_congr (hAB l s hs) ?_
    cases hu : M.step l s with
    | none => exact Iff.rfl
    | some t => exact ih (hJ l s t hs hu)

theorem states_iff_steps {I J : State → Prop} {A allowed : Label → State → Prop}
    (hJ : ∀ l s t, J s → M.step l s = some t → J t)
    (hI : ∀ l s t, J s → I s → allowed l s → M.step l s = some t → (I t ↔ A l s))
    {ls : List Label} {s t : State} (hJs : J s) (hIs : I s) (hr : M.run ls s = some t)
    (hall : M.Steps allowed ls s) : M.States I ls s ↔ M.Steps A ls s := by
  induction ls generalizing s with
  | nil => exact ⟨fun _ => trivial, fun _ => hIs⟩
  | cons l ls ih =>
    obtain ⟨u, hu, ht⟩ := Option.bind_eq_some_iff.mp hr
    obtain ⟨ha, hrest⟩ := hall
    have hstep := hI l s u hJs hIs ha hu
    simp only [States, Steps, hu, Option.elim_some] at hrest ⊢
    constructor
    · rintro ⟨-, hstates⟩
      have hu' : I u := by cases ls <;> first | exact hstates | exact hstates.1
      exact ⟨hstep.mp hu', (ih (hJ l s u hJs hu) hu' ht hrest).mp hstates⟩
    · rintro ⟨hA, hsteps⟩
      exact ⟨hIs, (ih (hJ l s u hJs hu) (hstep.mpr hA) ht hrest).mpr hsteps⟩

instance Steps.decidable {A : Label → State → Prop} [∀ l s, Decidable (A l s)] :
    ∀ (ls : List Label) (s : State), Decidable (M.Steps A ls s)
  | [], _ => isTrue trivial
  | l :: ls, s =>
    have : Decidable ((M.step l s).elim True (M.Steps A ls)) :=
      match M.step l s with
      | none => isTrue trivial
      | some t => Steps.decidable ls t
    inferInstanceAs (Decidable (_ ∧ _))

instance States.decidable {I : State → Prop} [∀ s, Decidable (I s)] :
    ∀ (ls : List Label) (s : State), Decidable (M.States I ls s)
  | [], s => inferInstanceAs (Decidable (I s))
  | l :: ls, s =>
    have : Decidable ((M.step l s).elim True (M.States I ls)) :=
      match M.step l s with
      | none => isTrue trivial
      | some t => States.decidable ls t
    inferInstanceAs (Decidable (_ ∧ _))

end Lts

end Concurrency
