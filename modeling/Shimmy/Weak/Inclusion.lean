import Shimmy.Concurrency.Tracking
import Shimmy.Weak.Orders

namespace Shimmy

open Concurrency Function

namespace Setup

variable {ι : Type} {S : Setup ι} {o : Orders} {l : Label ι} {σ σ' : System ι}
  {τ : WeakSystem ι}

structure Tracked (σ : System ι) (τ : WeakSystem ι) : Prop where
  memory : ∃ top, σ.memory.Tracked τ.memory top
  producer : τ.producer = σ.producer
  consumer : τ.consumer = σ.consumer

variable [DecidableEq ι]

theorem Tracked.step (h : Tracked σ τ) (o : Orders) (hm : S.model = .sc)
    (hs : S.step l σ = some σ') : ∃ l' τ', S.weakStep o l' τ = some τ' ∧ Tracked σ' τ' := by
  obtain ⟨m, p, c⟩ := τ
  obtain ⟨⟨top, hmem⟩, rfl, rfl⟩ := h
  cases l with
  | producer =>
    obtain ⟨⟨p, μ⟩, hx, rfl⟩ := Option.map_eq_some_iff.mp hs
    rw [hm] at hx
    obtain ⟨time, n, top', hn, htracked⟩ := hmem.exec (σ.producer.pc.access o) hx
    exact ⟨.producer time, ⟨n, p, σ.consumer⟩, by simp only [weakStep, hn, Option.map_some],
      ⟨top', htracked⟩, rfl, rfl⟩
  | call b k =>
    simp only [Setup.step] at hs
    split at hs
    · obtain ⟨s, hx, rfl⟩ := Option.map_eq_some_iff.mp hs
      refine ⟨.call b k, ⟨m, σ.producer, update σ.consumer b s⟩, ?_, ⟨top, hmem⟩, rfl, rfl⟩
      simp only [weakStep]
      rw [if_pos ‹_›, hx]
      rfl
    · cases hs
  | consumer b =>
    obtain ⟨i, hi, hs⟩ := Option.bind_eq_some_iff.mp hs
    obtain ⟨⟨s, μ⟩, hx, rfl⟩ := Option.map_eq_some_iff.mp hs
    rw [hm] at hx
    obtain ⟨time, n, top', hn, htracked⟩ := hmem.exec ((σ.consumer b).pc.access o) hx
    refine ⟨.consumer b time, ⟨n, σ.producer, update σ.consumer b s⟩, ?_, ⟨top', htracked⟩,
      rfl, rfl⟩
    simp only [weakStep, hi, Option.bind_some, hn, Option.map_some]
  | drain t =>
    obtain ⟨μ, hx, rfl⟩ := Option.map_eq_some_iff.mp hs
    obtain ⟨e, es, hb, -⟩ := Memory.drain_eq_some.mp hx
    rw [hmem.buffer t] at hb
    cases hb

end Setup

namespace Overwrite

end Overwrite

end Shimmy
