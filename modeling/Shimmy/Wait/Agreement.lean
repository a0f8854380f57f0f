import Shimmy.Ring.Tally
import Shimmy.Wait.Process

namespace Shimmy

open Concurrency Function

theorem Consumer.classify_eq_empty_iff {x w : Nat} (hx : x ≤ emptySeq) :
    (classify x w = .empty ↔ x < w) ↔ x < writingSeq ∨ x ≤ w := by
  unfold emptySeq at hx
  unfold classify emptySeq writingSeq
  split_ifs with hok hwriting hbehind
  · simp [hok]
  · simp [hwriting]
    omega
  · simp
    omega
  · simp
    omega

theorem Producer.code_stamps {cfg : RingConfig} {stream : Nat → Message cfg.blockSize}
    {p : Producer} {i : Nat} (h : (p.code cfg stream).writes = some (.slotSeq i)) :
    ∃ seq, p.publishing seq = true ∧ cfg.slot seq = i := by
  obtain ⟨pc, n⟩ := p
  cases pc with
  | mark seq =>
    cases h
    exact ⟨seq, decide_eq_true rfl, rfl⟩
  | stamp seq =>
    cases h
    exact ⟨seq, decide_eq_true rfl, rfl⟩
  | _ => cases h

theorem Producer.publishing_of_rewriting {cfg : RingConfig}
    {stream : Nat → Message cfg.blockSize} {p : Producer} (hn : p.Numbered cfg stream)
    (h : (p.pos cfg stream).stampedCount < (p.pos cfg stream).touched) :
    p.publishing ((p.pos cfg stream).count % 2 ^ 64) = true := by
  obtain ⟨pc, n⟩ := p
  cases pc with
  | storeLen seq => exact decide_eq_true hn
  | copy seq j => exact decide_eq_true hn.1
  | stamp seq => exact decide_eq_true hn
  | _ => simp [pos, Pos.stampedCount, Pos.touched] at h

theorem RingConfig.lastStamp_le (cfg : RingConfig) (n i : Nat) : cfg.lastStamp n i ≤ emptySeq := by
  unfold lastStamp
  cases lastBefore cfg.capacity n i with
  | none => exact le_rfl
  | some q => exact Nat.le_sub_one_of_lt (Nat.mod_lt q (Nat.two_pow_pos 64))

namespace Wait

variable {ι : Type} {S : Setup ι} {σ σ₁ σ₂ : System ι} {c : ι} {w iter : Nat}

structure Discernible (cfg : RingConfig) (n w : Nat) : Prop where
  written : n ≤ cfg.slot w → emptySeq ≤ w
  ordinary : ∀ q, q < n → n ≤ q + cfg.capacity → cfg.slot q = cfg.slot w →
    writingSeq ≤ q % 2 ^ 64 → q % 2 ^ 64 ≤ w

theorem discernible_iff {cfg : RingConfig} {n : Nat} : Discernible cfg n w ↔
    cfg.lastStamp n (cfg.slot w) < writingSeq ∨ cfg.lastStamp n (cfg.slot w) ≤ w := by
  unfold RingConfig.lastStamp
  cases hl : lastBefore cfg.capacity n (cfg.slot w) with
  | none =>
    have hn := lastBefore_eq_none.mp hl
    constructor
    · intro h
      exact .inr (h.written hn)
    · intro h
      refine ⟨fun _ => h.resolve_left (by decide), fun q hq _ hslot => ?_⟩
      have := Nat.mod_le q cfg.capacity
      rw [cfg.slot_eq_mod q] at hslot
      omega
  | some q =>
    obtain ⟨hq, hn, hmod⟩ := (lastBefore_eq_some (cfg.slot_lt w)).mp hl
    constructor
    · intro h
      refine or_iff_not_imp_left.mpr fun hlt => ?_
      exact h.ordinary q hq hn ((cfg.slot_eq_mod q).trans hmod) (Nat.le_of_not_lt hlt)
    · intro h
      constructor
      · intro hle
        rw [lastBefore_eq_none.mpr hle] at hl
        cases hl
      · intro p hp hnp hslot hsentinel
        have hpq := (lastBefore_eq_some (cfg.slot_lt w)).mpr
          ⟨hp, hnp, (cfg.slot_eq_mod p).symm.trans hslot⟩
        obtain rfl : q = p := Option.some.inj (hl.symm.trans hpq)
        exact h.resolve_left (Nat.not_lt.mpr hsentinel)

def Settled (S : Setup ι) (w : Nat) (σ : System ι) : Prop :=
  ∀ seq, σ.producer.publishing seq = true → S.cfg.slot seq ≠ S.cfg.slot w

theorem stampOf_settled (h : Setup.Tally S σ) (hset : Settled S w σ) : stampOf S σ w =
    S.cfg.lastStamp (σ.producer.pos S.cfg S.stream).stampedCount (S.cfg.slot w) := by
  rw [stampOf, h.tallied.stamps _ (S.cfg.slot_lt w), Pos.wrapped, if_neg]
  rintro ⟨-, hmid, hslot⟩
  refine hset _ (Producer.publishing_of_rewriting h.tallied.numbered hmid) ?_
  rw [S.cfg.slot_mod, hslot]

def reads (S : Setup ι) (σ : System ι) (c : ι) (w : Nat) : ReadStatus :=
  ({ (σ.consumer c).obj with next := w }.doRead (stampOf S σ w)).lastStatus

theorem reads_eq_classify : reads S σ c w = Consumer.classify (stampOf S σ w) w :=
  Consumer.doRead_status _ _

variable [DecidableEq ι] {l : Label ι}

def calling (S : Setup ι) (σ : System ι) (c : ι) (w iter : Nat) : System ι :=
  { σ with
    consumer := update σ.consumer c { σ.consumer c with
      obj := { (σ.consumer c).obj with next := w }
      pc := Session.waitPc S.cfg iter } }

structure Waited (S : Setup ι) (c : ι) (w iter : Nat) (σ σ₁ σ₂ : System ι) : Prop where
  run : S.lts.Reach (fun _ τ => Settled S w τ) (calling S σ c w iter) σ₁
  reload : (σ₁.consumer c).pc = .waitReload iter
  next : (σ₁.consumer c).obj.next = w
  step : S.step (.consumer c) σ₁ = some σ₂

def Agrees (S : Setup ι) (σ : System ι) (c : ι) (w iter : Nat) : Prop :=
  ∀ σ₁ σ₂, Waited S c w iter σ σ₁ σ₂ →
    (reads S σ c w = .empty → ∃ cmp, (σ₂.consumer c).pc = .waitSyscall iter cmp) ∧
    (reads S σ c w ≠ .empty → (σ₂.consumer c).pc = .waitLeave iter)

theorem stampOf_step (hempty : Setup.BuffersEmpty σ) (hset : Settled S w σ)
    (hs : S.step l σ = some σ₁) : stampOf S σ₁ w = stampOf S σ w := by
  cases Setup.step_iff.mp hs with
  | producer hx =>
    refine Memory.exec_cells hx fun hw => ?_
    obtain ⟨seq, hpub, hslot⟩ := Producer.code_stamps hw
    exact hset seq hpub hslot
  | call => rfl
  | consumer hi hx =>
    refine Memory.exec_cells hx fun hw => ?_
    have hforeign := Session.code_writes hi hw
    cases hforeign
  | drain hb =>
    rw [hempty] at hb
    cases hb

theorem stampOf_reach (hm : S.model = .sc) (hempty : Setup.BuffersEmpty σ)
    (hr : S.lts.Reach (fun _ τ => Settled S w τ) σ σ₁) :
    Setup.BuffersEmpty σ₁ ∧ stampOf S σ₁ w = stampOf S σ w :=
  hr.invariant (I := fun τ => Setup.BuffersEmpty τ ∧ stampOf S τ w = stampOf S σ w) ⟨hempty, rfl⟩
    fun _ _ _ hu hset hs => ⟨(Setup.step_tso hm hu.1 hs).1, (stampOf_step hu.1 hset hs).trans hu.2⟩

theorem Waited.pc (hm : S.model = .sc) (hempty : Setup.BuffersEmpty σ)
    (h : Waited S c w iter σ σ₁ σ₂) : (σ₂.consumer c).pc =
      if w ≤ stampOf S σ w then .waitLeave iter else .waitSyscall iter (stampOf S σ w % 2 ^ 32) := by
  obtain ⟨hr, hreload, hnext, hs⟩ := h
  obtain ⟨hempty₁, hstamp⟩ := stampOf_reach (σ := calling S σ c w iter) hm hempty hr
  cases Setup.step_iff.mp hs with
  | consumer hi hx =>
    simp only [Session.code, hreload, Option.some.injEq] at hi
    subst hi
    cases hx
    have hread : σ₁.memory.read (.consumer c) (.slotSeq (S.cfg.slot w)) = stampOf S σ w := by
      rw [Memory.read, hempty₁]
      exact hstamp
    simp only [update_self, hnext, hread]

theorem exists_waited (hwait : S.cfg.wait = .futex) (hempty : Setup.BuffersEmpty σ)
    (hset : Settled S w σ) (hiter : spinBeforeSyscall ≤ iter) :
    ∃ σ₁ σ₂, Waited S c w iter σ σ₁ σ₂ := by
  have hpc : Session.waitPc S.cfg iter = .waitAnnounce iter :=
    if_pos ⟨by rw [hwait]; rfl, hiter⟩
  have hcode : ((calling S σ c w iter).consumer c).code S.cfg = some (.rmw .waiters
      (fun n => (n + 1) % 2 ^ 32)
      fun _ => { (calling S σ c w iter).consumer c with pc := .waitReload iter }) := by
    simp [calling, Session.code, hpc]
  obtain ⟨σ₁, hannounce, hreload, hnext⟩ : ∃ σ₁,
      S.lts.step (.consumer c) (calling S σ c w iter) = some σ₁ ∧
        (σ₁.consumer c).pc = .waitReload iter ∧ (σ₁.consumer c).obj.next = w := by
    refine ⟨_, Setup.step_iff.mpr (.consumer hcode
      (Memory.exec_rmw_of_drained (hempty (.consumer c)))), ?_, ?_⟩
    · simp
    · simp [calling]
  have hload : ((σ₁.consumer c).code S.cfg) = some (.load (.slotSeq (S.cfg.slot w)) fun seen =>
      { σ₁.consumer c with
        pc := if w ≤ seen then .waitLeave iter else .waitSyscall iter (seen % 2 ^ 32) }) := by
    simp [Session.code, hreload, hnext]
  exact ⟨σ₁, _, .single hset hannounce, hreload, hnext, Setup.step_iff.mpr (.consumer hload rfl)⟩

theorem calling_of_empty (hempty : Setup.BuffersEmpty σ)
    (hpc : (σ.consumer c).pc = .doRead (.readBlocking iter)) (hnext : (σ.consumer c).obj.next = w)
    (hread : reads S σ c w = .empty) (hs : S.step (.consumer c) σ = some σ₁) :
    calling S σ₁ c w iter = σ₁ := by
  have hclassify : Consumer.classify (stampOf S σ w) w = .empty := reads_eq_classify.symm.trans hread
  have hstamp : σ.memory.read (.consumer c) (.slotSeq (S.cfg.slot w)) = stampOf S σ w := by
    rw [Memory.read, hempty]
    rfl
  have hne : stampOf S σ w ≠ w := fun heq => by
    simp [Consumer.classify, heq] at hclassify
  cases Setup.step_iff.mp hs with
  | consumer hi hx =>
    simp only [Session.code, hpc, Option.some.injEq] at hi
    subst hi
    cases hx
    have hafter : (σ.consumer c).afterDoRead S.cfg (.readBlocking iter) (stampOf S σ w) =
        { σ.consumer c with
          obj := { (σ.consumer c).obj with lastStatus := .empty }
          pc := Session.waitPc S.cfg iter } := by
      rw [Session.afterDoRead_ne (hnext ▸ hne)]
      simp only [hnext, hclassify]
    simp only [calling, hnext, hstamp, hafter, update_self, update_idem]

theorem wait_agrees (hm : S.model = .sc) (hwait : S.cfg.wait = .futex) (hr : S.Reachable σ)
    (hset : Settled S w σ) (hiter : spinBeforeSyscall ≤ iter) : Agrees S σ c w iter ↔
      Discernible S.cfg (σ.producer.pos S.cfg S.stream).stampedCount w := by
  have htally := Setup.Tally.of_reachable hm hr
  have hle : stampOf S σ w ≤ emptySeq := by
    rw [stampOf_settled htally hset]
    exact S.cfg.lastStamp_le _ _
  rw [discernible_iff, ← stampOf_settled htally hset, ← Consumer.classify_eq_empty_iff hle]
  constructor
  · intro h
    obtain ⟨σ₁, σ₂, hwaited⟩ := exists_waited (c := c) hwait htally.empty hset hiter
    obtain ⟨hparks, hleaves⟩ := h σ₁ σ₂ hwaited
    rw [reads_eq_classify, hwaited.pc hm htally.empty] at hparks hleaves
    constructor
    · intro hread
      obtain ⟨cmp, hcmp⟩ := hparks hread
      by_contra hge
      rw [if_pos (Nat.le_of_not_lt hge)] at hcmp
      cases hcmp
    · intro hlt
      by_contra hread
      have hleave := hleaves hread
      rw [if_neg (Nat.not_le.mpr hlt)] at hleave
      cases hleave
  · intro h σ₁ σ₂ hwaited
    rw [reads_eq_classify, hwaited.pc hm htally.empty]
    constructor
    · intro hread
      exact ⟨_, if_neg (Nat.not_le.mpr (h.mp hread))⟩
    · intro hread
      exact if_pos (Nat.le_of_not_lt fun hlt => hread (h.mpr hlt))

def pollSetup : Setup (Fin 1) where
  cfg := .lone .overwrite .futex
  stream n := .ofByte n
  client _ _ _ := true
  model := .sc
  process _ := ⟨0, 0⟩

def pollRun (n : Nat) : List (Label (Fin 1)) :=
  List.replicate n .producer ++ [.call 0 .construct, .call 0 (.seek 2), .call 0 .readBlocking] ++
    List.replicate 64 (.consumer 0)

theorem wait_agrees_behind : ∃ σ, pollSetup.Reachable σ ∧ σ.producer = ⟨.idle, 2⟩ ∧
    stampOf pollSetup σ 2 = 0 ∧ Agrees pollSetup σ 0 2 64 := by
  obtain ⟨σ, hr, hp⟩ := Lts.exists_of_run (M := pollSetup.lts)
    (fun σ : System (Fin 1) => σ.producer = ⟨.idle, 2⟩ && stampOf pollSetup σ 2 = 0)
    (pollRun 14) (pollSetup.initial fun _ => 0) (by decide +kernel)
  simp only [Bool.and_eq_true, decide_eq_true_eq] at hp
  obtain ⟨hproducer, hstamp⟩ := hp
  refine ⟨σ, ⟨_, hr⟩, hproducer, hstamp, (wait_agrees rfl rfl ⟨_, hr⟩ ?_ (by decide)).mpr ?_⟩
  · intro seq hseq
    rw [hproducer] at hseq
    cases hseq
  · rw [hproducer]
    constructor
    · decide
    · intro q hq _ _ hsentinel
      have hq' : q < 2 := hq
      unfold writingSeq at hsentinel
      omega

def freshRun : List (Label (Fin 1)) :=
  [.call 0 .construct, .call 0 .readBlocking] ++ List.replicate 64 (.consumer 0)

theorem wait_spins : ∃ σ σ₁ σ₂, pollSetup.Reachable σ ∧ σ.producer = ⟨.idle, 0⟩ ∧
    (σ.consumer 0).pc = .doRead (.readBlocking 64) ∧ reads pollSetup σ 0 0 = .empty ∧
    pollSetup.step (.consumer 0) σ = some σ₁ ∧ ¬ Agrees pollSetup σ₁ 0 0 64 ∧
    pollSetup.lts.run (List.replicate 3 (.consumer 0)) σ₁ = some σ₂ ∧
    (σ₂.consumer 0).pc = .doRead (.readBlocking 65) := by
  obtain ⟨σ, hr, hp⟩ := Lts.exists_of_run (M := pollSetup.lts)
    (fun σ : System (Fin 1) => σ.producer = ⟨.idle, 0⟩ && (σ.consumer 0).obj.next = 0 &&
      (σ.consumer 0).pc = .doRead (.readBlocking 64) && reads pollSetup σ 0 0 = .empty &&
      (pollSetup.step (.consumer 0) σ).any fun σ₁ => σ₁.producer = ⟨.idle, 0⟩ &&
        reads pollSetup σ₁ 0 0 = .empty &&
        (pollSetup.step (.consumer 0) σ₁).any fun τ => (τ.consumer 0).pc = .waitReload 64 &&
          (τ.consumer 0).obj.next = 0 &&
          (pollSetup.step (.consumer 0) τ).any fun τ' => (τ'.consumer 0).pc = .waitLeave 64 &&
            (pollSetup.step (.consumer 0) τ').any fun σ₂ =>
              (σ₂.consumer 0).pc = .doRead (.readBlocking 65))
    freshRun (pollSetup.initial fun _ => 0) (by decide +kernel)
  simp only [Bool.and_eq_true, decide_eq_true_eq] at hp
  obtain ⟨⟨⟨⟨hproducer, hnext⟩, hpc⟩, hread⟩, hp⟩ := hp
  obtain ⟨σ₁, h₁, hp⟩ := (Option.any_eq_true _ _).mp hp
  simp only [Bool.and_eq_true, decide_eq_true_eq] at hp
  obtain ⟨⟨hproducer₁, hread₁⟩, hp⟩ := hp
  obtain ⟨τ, hτ, hp⟩ := (Option.any_eq_true _ _).mp hp
  simp only [Bool.and_eq_true, decide_eq_true_eq] at hp
  obtain ⟨⟨hreload, hτnext⟩, hp⟩ := hp
  obtain ⟨τ', hτ', hp⟩ := (Option.any_eq_true _ _).mp hp
  simp only [Bool.and_eq_true, decide_eq_true_eq] at hp
  obtain ⟨hleave, hp⟩ := hp
  obtain ⟨σ₂, h₂, hp⟩ := (Option.any_eq_true _ _).mp hp
  have hempty := (Setup.Tally.of_reachable (S := pollSetup) rfl ⟨_, hr⟩).empty
  have hcalling := calling_of_empty hempty hpc hnext hread h₁
  have hsettled : Settled pollSetup 0 σ₁ := fun seq hseq => by
    rw [hproducer₁] at hseq
    cases hseq
  refine ⟨σ, σ₁, σ₂, ⟨_, hr⟩, hproducer, hpc, hread, h₁, ?_, ?_, of_decide_eq_true hp⟩
  · intro hagrees
    have hannounce : pollSetup.lts.step (.consumer 0) σ₁ = some τ := hτ
    have hrun : pollSetup.lts.Reach (fun _ τ => Settled pollSetup 0 τ)
        (calling pollSetup σ₁ 0 0 64) τ := by
      rw [hcalling]
      exact .single hsettled hannounce
    obtain ⟨cmp, hcmp⟩ := (hagrees τ τ' ⟨hrun, hreload, hτnext, hτ'⟩).1 hread₁
    rw [hleave] at hcmp
    cases hcmp
  · simp only [List.replicate, Lts.run, Setup.lts, hτ, hτ', h₂, Option.bind_some]

end Wait

end Shimmy
