import Shimmy.Ring.Whole
import Shimmy.Wait.Agreement
import Shimmy.Wait.Census

namespace Shimmy

open Concurrency Function

namespace Wait

variable {ι : Type} {S : Setup ι} {σ σ₁ σ₂ σ₃ : System ι} {c : ι} {w iter cmp : Nat}

structure Published (S : Setup ι) (w : Nat) (σ : System ι) (q : Nat) : Prop where
  stamped : q < (σ.producer.pos S.cfg S.stream).stampedCount
  latest : (σ.producer.pos S.cfg S.stream).stampedCount ≤ q + S.cfg.capacity
  slot : S.cfg.slot q = S.cfg.slot w
  stamp : stampOf S σ w = q % 2 ^ 64
  reaches : w ≤ q % 2 ^ 64

structure Coincides (S : Setup ι) (w : Nat) (σ₁ σ₂ : System ι) : Prop where
  settled : stampOf S σ₁ w ≠ writingSeq
  wraps : 2 ^ 32 ∣ rewrites S.cfg.capacity (S.cfg.slot w)
    (σ₁.producer.pos S.cfg S.stream).stampedCount (σ₂.producer.pos S.cfg S.stream).stampedCount *
      S.cfg.capacity

variable [DecidableEq ι] {l : Label ι}

structure Reloaded (S : Setup ι) (c : ι) (iter cmp : Nat) (σ₁ σ₂ : System ι) : Prop where
  reachable : S.Reachable σ₁
  reload : (σ₁.consumer c).pc = .waitReload iter
  run : ∃ τ, S.step (.consumer c) σ₁ = some τ ∧ (τ.consumer c).pc = .waitSyscall iter cmp ∧
    S.lts.Reach (fun l _ => l ≠ .consumer c) τ σ₂

theorem stays_in_syscall (hpc : (σ.consumer c).pc = .waitSyscall iter cmp)
    (hl : l ≠ .consumer c) (hs : S.step l σ = some σ₁) : σ₁.consumer c = σ.consumer c := by
  cases Setup.step_iff.mp hs with
  | producer => rfl
  | @call _ b k s hc hx =>
    obtain ⟨hk, rfl⟩ := Session.call_eq_some.mp hx
    refine update_of_ne ?_ _ _
    rintro rfl
    cases k <;> simp [Session.enabled, hpc] at hk
  | @consumer _ b =>
    refine update_of_ne ?_ _ _
    rintro rfl
    exact hl rfl
  | drain => rfl

theorem in_syscall_step (hempty : Setup.BuffersEmpty σ)
    (hpc : (σ₁.consumer c).pc = .waitSyscall iter cmp) (hs : S.step l σ = some σ₁) :
    (l ≠ .consumer c ∧ (σ.consumer c).pc = .waitSyscall iter cmp) ∨
      (l = .consumer c ∧ (σ.consumer c).pc = .waitReload iter) := by
  cases Setup.step_iff.mp hs with
  | producer => exact .inl ⟨by simp, hpc⟩
  | @call _ b k s hc hx =>
    refine .inl ⟨by simp, ?_⟩
    rcases eq_or_ne c b with rfl | hcb
    · obtain ⟨hk, rfl⟩ := Session.call_eq_some.mp hx
      have hw := (Session.waiting_enter S.cfg hk).2
      simp only [update_self] at hpc
      rw [hpc] at hw
      cases hw
    · simpa [hcb] using hpc
  | @consumer _ b i s m hi hx =>
    rcases eq_or_ne c b with rfl | hcb
    · simp only [update_self] at hpc
      have hmoves := Session.moves_of_exec (fun a _ => by rw [Memory.read, hempty]; rfl) hi hx
      exact .inr ⟨rfl, hmoves.of_syscall hpc⟩
    · simp only [update_of_ne hcb] at hpc
      exact .inl ⟨by simpa using Ne.symm hcb, hpc⟩
  | drain => exact .inl ⟨by simp, hpc⟩

theorem Reloaded.of_reachable (hm : S.model = .sc) (h : S.Reachable σ)
    (hpc : (σ.consumer c).pc = .waitSyscall iter cmp) : ∃ σ₁, Reloaded S c iter cmp σ₁ σ := by
  obtain ⟨fresh, hr⟩ := h
  refine hr.induct (I := fun τ => (τ.consumer c).pc = .waitSyscall iter cmp →
    ∃ σ₁, Reloaded S c iter cmp σ₁ τ) (fun h => by cases h) ?_ hpc
  intro l u v hu ih _ hs hv
  rcases in_syscall_step (Setup.Tally.of_reachable hm ⟨_, hu⟩).empty hv hs with ⟨hl, hin⟩ | ⟨rfl, hreload⟩
  · obtain ⟨σ₁, hreach, hpc₁, τ, hτ, hτpc, hrun⟩ := ih hin
    exact ⟨σ₁, hreach, hpc₁, τ, hτ, hτpc, hrun.step hl hs⟩
  · exact ⟨u, ⟨_, hu⟩, hreload, v, hs, hv, .refl⟩

theorem Reloaded.session (hm : S.model = .sc) (h : Reloaded S c iter cmp σ₁ σ₂) :
    (σ₂.consumer c).obj.next = (σ₁.consumer c).obj.next ∧
      stampOf S σ₁ (σ₁.consumer c).obj.next < (σ₁.consumer c).obj.next ∧
      cmp = stampOf S σ₁ (σ₁.consumer c).obj.next % 2 ^ 32 := by
  obtain ⟨hreach, hreload, τ, hs, hpc, hr⟩ := h
  have hempty := (Setup.Tally.of_reachable hm hreach).empty
  have hkept : (σ₂.consumer c).pc = .waitSyscall iter cmp ∧
      (σ₂.consumer c).obj = (τ.consumer c).obj := by
    refine hr.invariant (I := fun υ => (υ.consumer c).pc = .waitSyscall iter cmp ∧
      (υ.consumer c).obj = (τ.consumer c).obj) ⟨hpc, rfl⟩ fun l u v hu hl hs => ?_
    rwa [stays_in_syscall hu.1 hl hs]
  rw [hkept.2]
  cases Setup.step_iff.mp hs with
  | consumer hi hx =>
    simp only [Session.code, hreload, Option.some.injEq] at hi
    subst hi
    cases hx
    simp only [update_self, Memory.read, hempty (.consumer c), applyStores] at hpc ⊢
    split at hpc
    · cases hpc
    · cases hpc
      exact ⟨trivial, Nat.lt_of_not_le ‹_›, rfl⟩

theorem compare_pc (hpc : (σ₂.consumer c).pc = .waitSyscall iter cmp)
    (hnext : (σ₂.consumer c).obj.next = w) (hs : S.step (.consumer c) σ₂ = some σ₃) :
    (σ₃.consumer c).pc = .waitAsleep iter ↔ stampOf S σ₂ w % 2 ^ 32 = cmp := by
  cases Setup.step_iff.mp hs with
  | consumer hi hx =>
    simp only [Session.code, hpc, Option.some.injEq] at hi
    subst hi
    simp only [Memory.exec, hnext, decide_eq_true_eq] at hx
    split at hx
    · cases hx
      simpa using ‹_›
    · cases hx
      simpa using ‹_›

theorem exists_compare (hpc : (σ.consumer c).pc = .waitSyscall iter cmp) :
    ∃ σ₁, S.step (.consumer c) σ = some σ₁ := by
  simp only [Setup.step, Session.code, hpc, Memory.exec, Option.bind_some]
  split
  · exact ⟨_, rfl⟩
  · exact ⟨_, rfl⟩

theorem Published.coincides_iff {q : Nat} (hm : S.model = .sc)
    (h : Reloaded S c iter cmp σ₁ σ₂) (hnext : (σ₂.consumer c).obj.next = w)
    (hp : Published S w σ₂ q) : Coincides S w σ₁ σ₂ ↔ stampOf S σ₂ w % 2 ^ 32 = cmp := by
  obtain ⟨hsame, hbehind, rfl⟩ := h.session hm
  obtain ⟨hreach, hreload, τ, hs, -, hr⟩ := h
  have htally := Setup.Tally.of_reachable hm hreach
  have hgrows := ((htally.step hm hs).reach hm hr).2
  have hle := (htally.grows hm hs).2.trans hgrows
  obtain rfl : w = (σ₁.consumer c).obj.next := hnext.symm.trans hsame
  generalize (σ₁.consumer c).obj.next = w at *
  have hreaches := hp.reaches
  have hlt := Nat.mod_lt q (Nat.two_pow_pos 64)
  rw [hp.stamp]
  by_cases hmark : stampOf S σ₁ w = writingSeq
  · refine iff_of_false (fun h => h.settled hmark) ?_
    rw [hmark] at hbehind ⊢
    unfold writingSeq at *
    omega
  · have hstamp : stampOf S σ₁ w = S.cfg.lastStamp
        (σ₁.producer.pos S.cfg S.stream).stampedCount (S.cfg.slot w) := by
      have hwrapped := htally.tallied.stamps _ (S.cfg.slot_lt w)
      rw [Pos.wrapped] at hwrapped
      split at hwrapped
      · exact absurd hwrapped hmark
      · exact hwrapped
    have hq₂ := (lastBefore_eq_some (S.cfg.slot_lt w)).mpr
      ⟨hp.stamped, hp.latest, (S.cfg.slot_eq_mod q).symm.trans hp.slot⟩
    rw [RingConfig.lastStamp] at hstamp
    cases hq₁ : lastBefore S.cfg.capacity (σ₁.producer.pos S.cfg S.stream).stampedCount
        (S.cfg.slot w) with
    | none =>
      rw [hq₁, Option.elim_none] at hstamp
      unfold emptySeq at hstamp
      omega
    | some p =>
      rw [hq₁, Option.elim_some] at hstamp
      have hadd := lastBefore_rewrites (S.cfg.slot_lt w) hle hq₁
      rw [hq₂, Option.some.injEq] at hadd
      rw [hstamp, hadd, Nat.mod_mod_of_dvd _ (by decide), Nat.mod_mod_of_dvd _ (by decide)]
      constructor
      · intro h
        exact Nat.add_modEq_left_iff.mpr h.wraps
      · intro h
        exact ⟨hmark, Nat.add_modEq_left_iff.mp h⟩

theorem compare_faithful {q : Nat} (hm : S.model = .sc) (h : S.Reachable σ₂)
    (hpc : (σ₂.consumer c).pc = .waitSyscall iter cmp) (hnext : (σ₂.consumer c).obj.next = w)
    (hpublished : Published S w σ₂ q) (hs : S.step (.consumer c) σ₂ = some σ₃) :
    (∃ σ₁, Reloaded S c iter cmp σ₁ σ₂) ∧ ∀ σ₁, Reloaded S c iter cmp σ₁ σ₂ →
      ((σ₃.consumer c).pc ≠ .waitAsleep iter ↔ ¬ Coincides S w σ₁ σ₂) := by
  refine ⟨Reloaded.of_reachable hm h hpc, fun σ₁ hreloaded => not_congr ?_⟩
  rw [compare_pc hpc hnext hs, hpublished.coincides_iff hm hreloaded hnext]

def reloadRun : List (Label (Fin 1)) := pollRun 14 ++ List.replicate 2 (.consumer 0)

def behindAt (σ : System (Fin 1)) : Bool :=
  (σ.consumer 0).pc = .waitReload 64 && (σ.consumer 0).obj.next = 2 &&
    σ.producer = ⟨.idle, 2⟩

theorem compare_faithful_moved : ∃ σ₂ σ₃, pollSetup.Reachable σ₂ ∧
    (σ₂.consumer 0).pc = .waitSyscall 64 0 ∧ Published pollSetup 2 σ₂ 2 ∧
    pollSetup.step (.consumer 0) σ₂ = some σ₃ ∧ (σ₃.consumer 0).pc ≠ .waitAsleep 64 := by
  obtain ⟨σ₁, hr₁, hp⟩ := Lts.exists_of_run (M := pollSetup.lts)
    (fun σ₁ : System (Fin 1) => behindAt σ₁ && stampOf pollSetup σ₁ 2 = 0 &&
      (pollSetup.step (.consumer 0) σ₁).any fun τ => (τ.consumer 0).pc = .waitSyscall 64 0 &&
        (pollSetup.lts.runIf (fun l _ => l ≠ .consumer 0) (List.replicate 8 .producer) τ).any
          fun σ₂ => (σ₂.consumer 0).pc = .waitSyscall 64 0 && (σ₂.consumer 0).obj.next = 2 &&
            σ₂.producer = ⟨.idle, 3⟩ && stampOf pollSetup σ₂ 2 = 2 &&
            (pollSetup.step (.consumer 0) σ₂).isSome)
    reloadRun (pollSetup.initial fun _ => 0) (by decide +kernel)
  simp only [behindAt, Bool.and_eq_true, decide_eq_true_eq] at hp
  obtain ⟨⟨⟨⟨hreload, -⟩, hproducer₁⟩, hstamp₁⟩, hp⟩ := hp
  obtain ⟨τ, hτ, hp⟩ := (Option.any_eq_true _ _).mp hp
  obtain ⟨hbehind, hp⟩ := (Bool.and_eq_true _ _).mp hp
  obtain ⟨σ₂, hrun, hp⟩ := (Option.any_eq_true _ _).mp hp
  simp only [Bool.and_eq_true, decide_eq_true_eq] at hp
  obtain ⟨⟨⟨⟨hpc, hnext⟩, hproducer⟩, hstamp⟩, hsome⟩ := hp
  obtain ⟨σ₃, hs⟩ := Option.isSome_iff_exists.mp hsome
  have hr := (Lts.reach_of_runIf hrun).mono fun _ _ => of_decide_eq_true
  have hτ' : pollSetup.lts.step (.consumer 0) σ₁ = some τ := hτ
  have hreach : pollSetup.Reachable σ₂ := ⟨_, (hr₁.step trivial hτ').trans hr.reaches⟩
  have hpublished : Published pollSetup 2 σ₂ 2 := by
    refine ⟨?_, ?_, rfl, hstamp, by decide⟩
    · rw [hproducer]
      decide
    · rw [hproducer]
      decide
  refine ⟨σ₂, σ₃, hreach, hpc, hpublished, hs, ?_⟩
  refine ((compare_faithful rfl hreach hpc hnext hpublished hs).2 σ₁
    ⟨⟨_, hr₁⟩, hreload, τ, hτ, of_decide_eq_true hbehind, hr⟩).mpr ?_
  intro h
  have hwraps := h.wraps
  rw [hproducer₁, hproducer] at hwraps
  revert hwraps
  decide

theorem compare_sleeps : ∃ σ₁ σ₂ σ₃, Reloaded pollSetup 0 64 0 σ₁ σ₂ ∧
    pollSetup.Reachable σ₂ ∧ (σ₂.consumer 0).obj.next = 2 ∧ Published pollSetup 2 σ₂ (2 ^ 32) ∧
    pollSetup.step (.consumer 0) σ₂ = some σ₃ ∧ (σ₃.consumer 0).pc = .waitAsleep 64 := by
  obtain ⟨σ₁, hr₁, hp⟩ := Lts.exists_of_run (M := pollSetup.lts)
    (fun σ₁ : System (Fin 1) => behindAt σ₁ && (pollSetup.step (.consumer 0) σ₁).any fun τ =>
      (τ.consumer 0).pc = .waitSyscall 64 0 && (τ.consumer 0).obj.next = 2 &&
        τ.producer = ⟨.idle, 2⟩ && τ.memory.cells .nextPublish = 2 &&
        τ.memory.parked .producer = none && τ.memory.parked (.consumer 0) = none)
    reloadRun (pollSetup.initial fun _ => 0) (by decide +kernel)
  simp only [behindAt, Bool.and_eq_true, decide_eq_true_eq] at hp
  obtain ⟨⟨⟨hreload, -⟩, -⟩, hp⟩ := hp
  obtain ⟨τ, hτ, hp⟩ := (Option.any_eq_true _ _).mp hp
  simp only [Bool.and_eq_true, decide_eq_true_eq] at hp
  obtain ⟨⟨⟨⟨⟨hpc, hnext⟩, hproducer⟩, hcount⟩, hparked⟩, hparked'⟩ := hp
  have hτ' : pollSetup.lts.step (.consumer 0) σ₁ = some τ := hτ
  have hreach : pollSetup.Reachable τ := ⟨_, hr₁.step trivial hτ'⟩
  have hquiet : Setup.Quiet τ := by
    refine ⟨(Setup.Tally.of_reachable rfl hreach).empty _, fun t => ?_⟩
    cases t with
    | producer => exact hparked
    | consumer b => exact (Subsingleton.elim b 0) ▸ hparked'
  obtain ⟨σ₂, hr₂, hproducer₂, hconsumer⟩ : ∃ σ₂,
      pollSetup.lts.Reach (fun l _ => l ≠ .consumer 0) τ σ₂ ∧
        σ₂.producer = ⟨.idle, 2 ^ 32 + 1⟩ ∧ σ₂.consumer = τ.consumer := by
    obtain ⟨cells, hpub, -⟩ := Setup.reach_publishes (S := pollSetup) rfl rfl (2 ^ 32 - 1) hquiet
      (by rw [hproducer]) (by rw [hcount]; decide)
    refine ⟨_, hpub.mono fun l u hl => ?_, ?_, rfl⟩
    · rw [show l = .producer from hl]
      simp
    · simp [Setup.written, hproducer]
  have hreach₂ : pollSetup.Reachable σ₂ := ⟨_, (hr₁.step trivial hτ').trans hr₂.reaches⟩
  have hstamp : stampOf pollSetup σ₂ 2 = 2 ^ 32 := by
    rw [stampOf_settled (Setup.Tally.of_reachable rfl hreach₂), hproducer₂]
    · decide
    · intro seq hseq
      rw [hproducer₂] at hseq
      cases hseq
  have hpublished : Published pollSetup 2 σ₂ (2 ^ 32) := by
    refine ⟨?_, ?_, rfl, hstamp, by decide⟩
    · rw [hproducer₂]
      decide
    · rw [hproducer₂]
      decide
  rw [← hconsumer] at hpc hnext
  obtain ⟨σ₃, hs⟩ := exists_compare hpc
  have hlow : stampOf pollSetup σ₂ 2 % 2 ^ 32 = 0 := by
    rw [hstamp]
    decide
  exact ⟨σ₁, σ₂, σ₃, ⟨⟨_, hr₁⟩, hreload, τ, hτ, hconsumer ▸ hpc, hr₂⟩, hreach₂, hnext,
    hpublished, hs, (compare_pc hpc hnext hs).mpr hlow⟩

end Wait

end Shimmy
