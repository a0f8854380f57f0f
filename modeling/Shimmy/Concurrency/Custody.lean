import Mathlib.Logic.Function.Basic

namespace Concurrency

open Function

inductive Entry (κ α : Type) where
  | acquire (k : κ) (v : α)
  | release (k : κ) (v : α)
  deriving DecidableEq, Repr

namespace Ledger

variable {κ α : Type} [DecidableEq κ] [DecidableEq α]

def post (table : κ → Option α) : Entry κ α → Option (κ → Option α)
  | .acquire k v => if table k = none then some (update table k (some v)) else none
  | .release k v => if table k = some v then some (update table k none) else none

def replay : List (Entry κ α) → (κ → Option α) → Option (κ → Option α)
  | [], table => some table
  | e :: es, table => (post table e).bind (replay es)

variable {table table' : κ → Option α} {es fs : List (Entry κ α)} {k : κ} {v : α}

theorem replay_append :
    replay (es ++ fs) table = (replay es table).bind (replay fs) := by
  induction es generalizing table with
  | nil => rfl
  | cons e es ih =>
    simp only [List.cons_append, replay]
    cases post table e with
    | none => rfl
    | some table₁ => exact ih

theorem replay_acquire (h : replay es table = some table') (hk : table' k = none) :
    replay (es ++ [.acquire k v]) table = some (update table' k (some v)) := by
  simp [replay_append, h, replay, post, hk]

theorem replay_release (h : replay es table = some table') (hk : table' k = some v) :
    replay (es ++ [.release k v]) table = some (update table' k none) := by
  simp [replay_append, h, replay, post, hk]

theorem post_count {e : Entry κ α} (h : post table e = some table') :
    [e].count (.acquire k v) + (if table k = some v then 1 else 0) =
      [e].count (.release k v) + (if table' k = some v then 1 else 0) := by
  cases e with
  | acquire k' v' =>
    simp only [post, Option.ite_none_right_eq_some, Option.some.injEq] at h
    obtain ⟨hfree, rfl⟩ := h
    rcases eq_or_ne k k' with rfl | hk
    · by_cases hv : v = v'
      · simp [hfree, hv]
      · simp [hfree, Ne.symm hv]
    · simp [hk, Ne.symm hk]
  | release k' v' =>
    simp only [post, Option.ite_none_right_eq_some, Option.some.injEq] at h
    obtain ⟨hheld, rfl⟩ := h
    rcases eq_or_ne k k' with rfl | hk
    · by_cases hv : v = v'
      · simp [hheld, hv]
      · simp [hheld, Ne.symm hv]
    · simp [hk, Ne.symm hk]

theorem replay_count (h : replay es table = some table') :
    es.count (.acquire k v) + (if table k = some v then 1 else 0) =
      es.count (.release k v) + (if table' k = some v then 1 else 0) := by
  induction es generalizing table with
  | nil =>
    cases h
    rfl
  | cons e es ih =>
    obtain ⟨table₁, hpost, hrest⟩ := Option.bind_eq_some_iff.mp h
    have hhead := post_count (k := k) (v := v) hpost
    have htail := ih hrest
    rw [List.count_cons, List.count_cons]
    simp only [List.count_singleton] at hhead
    omega

end Ledger

structure Custody {κ α H : Type} (table : κ → Option α) (holds : H → Option (κ × α)) : Prop where
  recorded : ∀ k v, table k = some v → ∃ h, holds h = some (k, v)
  live : ∀ h k v, holds h = some (k, v) → table k = some v
  unique : ∀ h h' k v v', holds h = some (k, v) → holds h' = some (k, v') → h = h'

namespace Custody

variable {κ α H : Type} {table : κ → Option α} {holds : H → Option (κ × α)}
  {h t : H} {k : κ} {v : α}

theorem empty : Custody (fun _ : κ => (none : Option α)) (fun _ : H => none) where
  recorded _ _ hk := by cases hk
  live _ _ _ hh := by cases hh
  unique _ _ _ _ _ hh := by cases hh

theorem closed (hc : Custody table holds) (hnone : ∀ h, holds h = none) : table k = none := by
  cases hk : table k with
  | none => rfl
  | some v =>
    obtain ⟨h, hh⟩ := hc.recorded k v hk
    rw [hnone h] at hh
    cases hh

variable [DecidableEq H]

theorem transfer (hc : Custody table holds) (hne : h ≠ t) (hh : holds h = none) :
    Custody table (update (update holds h (holds t)) t none) := by
  have hsource (h' : H) (x : κ × α)
      (hh' : update (update holds h (holds t)) t none h' = some x) :
      h' = h ∧ holds t = some x ∨ h' ≠ h ∧ h' ≠ t ∧ holds h' = some x := by
    rcases eq_or_ne h' t with rfl | ht
    · rw [update_self] at hh'
      cases hh'
    · rw [update_of_ne ht] at hh'
      rcases eq_or_ne h' h with rfl | heq
      · rw [update_self] at hh'
        exact .inl ⟨rfl, hh'⟩
      · rw [update_of_ne heq] at hh'
        exact .inr ⟨heq, ht, hh'⟩
  refine ⟨fun k v hk => ?_, fun h' k v hh' => ?_, fun h₁ h₂ k v₁ v₂ hh₁ hh₂ => ?_⟩
  · obtain ⟨h', hh'⟩ := hc.recorded k v hk
    rcases eq_or_ne h' t with rfl | ht
    · exact ⟨h, by rw [update_of_ne hne, update_self, hh']⟩
    · refine ⟨h', ?_⟩
      rw [update_of_ne ht, update_of_ne, hh']
      rintro rfl
      rw [hh] at hh'
      cases hh'
  · rcases hsource h' _ hh' with ⟨-, hx⟩ | ⟨-, -, hx⟩ <;> exact hc.live _ k v hx
  · rcases hsource h₁ _ hh₁ with ⟨rfl, hx₁⟩ | ⟨-, ht₁, hx₁⟩
    · rcases hsource h₂ _ hh₂ with ⟨rfl, -⟩ | ⟨-, ht₂, hx₂⟩
      · rfl
      · exact absurd (hc.unique _ _ k v₂ v₁ hx₂ hx₁) ht₂
    · rcases hsource h₂ _ hh₂ with ⟨rfl, hx₂⟩ | ⟨-, -, hx₂⟩
      · exact absurd (hc.unique _ _ k v₁ v₂ hx₁ hx₂) ht₁
      · exact hc.unique _ _ k v₁ v₂ hx₁ hx₂

variable [DecidableEq κ]

theorem acquire (hc : Custody table holds) (hh : holds h = none) (hk : table k = none) :
    Custody (update table k (some v)) (update holds h (some (k, v))) where
  recorded k' v' hk' := by
    rcases eq_or_ne k' k with rfl | heq
    · rw [update_self, Option.some.injEq] at hk'
      exact ⟨h, by rw [update_self, hk']⟩
    · rw [update_of_ne heq] at hk'
      obtain ⟨h', hh'⟩ := hc.recorded k' v' hk'
      refine ⟨h', ?_⟩
      rwa [update_of_ne (by rintro rfl; rw [hh] at hh'; cases hh')]
  live h' k' v' hh' := by
    rcases eq_or_ne h' h with rfl | heq
    · rw [update_self] at hh'
      cases hh'
      exact update_self ..
    · rw [update_of_ne heq] at hh'
      have hlive := hc.live h' k' v' hh'
      rwa [update_of_ne (by rintro rfl; rw [hk] at hlive; cases hlive)]
  unique h₁ h₂ k' v₁ v₂ hh₁ hh₂ := by
    have hkey (h' : H) (v' : α) (hh' : update holds h (some (k, v)) h' = some (k', v')) :
        h' = h ∧ k' = k ∨ k' ≠ k ∧ holds h' = some (k', v') := by
      rcases eq_or_ne h' h with rfl | heq
      · rw [update_self] at hh'
        cases hh'
        exact .inl ⟨rfl, rfl⟩
      · rw [update_of_ne heq] at hh'
        refine .inr ⟨?_, hh'⟩
        rintro rfl
        have hlive := hc.live h' k' v' hh'
        rw [hk] at hlive
        cases hlive
    rcases hkey h₁ v₁ hh₁ with ⟨rfl, heq⟩ | ⟨hne, hh₁⟩
    · rcases hkey h₂ v₂ hh₂ with ⟨rfl, -⟩ | ⟨hne, -⟩
      · rfl
      · exact absurd heq hne
    · rcases hkey h₂ v₂ hh₂ with ⟨-, heq⟩ | ⟨-, hh₂⟩
      · exact absurd heq hne
      · exact hc.unique h₁ h₂ k' v₁ v₂ hh₁ hh₂

theorem release (hc : Custody table holds) (hh : holds h = some (k, v)) :
    Custody (update table k none) (update holds h none) where
  recorded k' v' hk' := by
    have hne : k' ≠ k := by
      rintro rfl
      rw [update_self] at hk'
      cases hk'
    rw [update_of_ne hne] at hk'
    obtain ⟨h', hh'⟩ := hc.recorded k' v' hk'
    refine ⟨h', ?_⟩
    rw [update_of_ne, hh']
    rintro rfl
    rw [hh] at hh'
    cases hh'
    exact hne rfl
  live h' k' v' hh' := by
    have hne : h' ≠ h := by
      rintro rfl
      rw [update_self] at hh'
      cases hh'
    rw [update_of_ne hne] at hh'
    rw [update_of_ne, hc.live h' k' v' hh']
    rintro rfl
    exact hne (hc.unique h' h k' v' v hh' hh)
  unique h₁ h₂ k' v₁ v₂ hh₁ hh₂ := by
    have hold (h' : H) (v' : α) (hh' : update holds h none h' = some (k', v')) :
        holds h' = some (k', v') := by
      rcases eq_or_ne h' h with rfl | heq
      · rw [update_self] at hh'
        cases hh'
      · rwa [update_of_ne heq] at hh'
    exact hc.unique h₁ h₂ k' v₁ v₂ (hold h₁ v₁ hh₁) (hold h₂ v₂ hh₂)

end Custody

structure Account {κ α H : Type} [DecidableEq κ] [DecidableEq α] (calls : List (Entry κ α))
    (table : κ → Option α) (holds : H → Option (κ × α)) : Prop
    extends Custody table holds where
  ledger : Ledger.replay calls (fun _ => none) = some table

namespace Account

variable {κ α H : Type} [DecidableEq κ] [DecidableEq α] {calls : List (Entry κ α)}
  {table : κ → Option α} {holds : H → Option (κ × α)} {h t : H} {k : κ} {v : α}

theorem empty : Account [] (fun _ : κ => (none : Option α)) (fun _ : H => none) :=
  ⟨.empty, rfl⟩

theorem count (ha : Account calls table holds) :
    calls.count (.acquire k v) =
      calls.count (.release k v) + (if table k = some v then 1 else 0) := by
  simpa using Ledger.replay_count (k := k) (v := v) ha.ledger

variable [DecidableEq H]

theorem acquire (ha : Account calls table holds) (hh : holds h = none) (hk : table k = none) :
    Account (calls ++ [.acquire k v]) (update table k (some v))
      (update holds h (some (k, v))) :=
  ⟨ha.toCustody.acquire hh hk, Ledger.replay_acquire ha.ledger hk⟩

theorem release (ha : Account calls table holds) (hh : holds h = some (k, v)) :
    Account (calls ++ [.release k v]) (update table k none) (update holds h none) :=
  ⟨ha.toCustody.release hh, Ledger.replay_release ha.ledger (ha.live h k v hh)⟩

theorem transfer (ha : Account calls table holds) (hne : h ≠ t) (hh : holds h = none) :
    Account calls table (update (update holds h (holds t)) t none) :=
  ⟨ha.toCustody.transfer hne hh, ha.ledger⟩

end Account

end Concurrency
