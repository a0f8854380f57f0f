import Shimmy.Backpressure.Waiting
import Shimmy.Overwrite.Isolation

namespace Shimmy

open Concurrency Function

namespace Producer

variable {cfg : RingConfig} {stream : Nat → Message cfg.blockSize} {p p' : Producer}

def scanning (p : Producer) : Option (Nat × Nat) :=
  match p.pc with
  | .awaitInUse seq i => some (seq, i)
  | .awaitValue seq i => some (seq, i)
  | _ => none

def Sane (cfg : RingConfig) (stream : Nat → Message cfg.blockSize) (p : Producer) : Prop :=
  match p.pc with
  | .awaitInUse _ i => i < cfg.maxConsumers
  | .awaitValue _ i => i < cfg.maxConsumers
  | .copy _ j => j < (stream p.sent).len
  | _ => True

def distance (cfg : RingConfig) (stream : Nat → Message cfg.blockSize) (p : Producer) : Nat :=
  match p.pc with
  | .idle => 2 * cfg.maxConsumers + ((stream p.sent).len + 8)
  | .awaitInUse _ i => 2 * (cfg.maxConsumers - i) + ((stream p.sent).len + 7)
  | .awaitValue _ i => 2 * (cfg.maxConsumers - i) + ((stream p.sent).len + 6)
  | _ => p.remaining cfg stream

theorem sane_beginWrite (n seq : Nat) : Sane cfg stream ⟨cfg.beginWrite seq, n⟩ := by
  unfold RingConfig.beginWrite
  split <;> trivial

theorem sane_awaitFrom (n seq i : Nat) : Sane cfg stream ⟨cfg.awaitFrom seq i, n⟩ := by
  unfold RingConfig.awaitFrom
  split
  · exact ‹_›
  · exact sane_beginWrite n seq

theorem sane_copyFrom (n seq j : Nat) : Sane cfg stream ⟨copyFrom (stream n) seq j, n⟩ := by
  unfold copyFrom
  split
  · exact ‹_›
  · trivial

theorem sane_of_leads (h : p.Sane cfg stream) (hl : (p.code cfg stream).Leads p') :
    p'.Sane cfg stream := by
  obtain ⟨pc, n⟩ := p
  cases pc with
  | idle =>
    obtain ⟨seq, rfl⟩ := hl
    simp only [RingConfig.publishFrom]
    split
    · exact sane_awaitFrom n seq 0
    · exact sane_beginWrite n seq
  | awaitInUse seq i =>
    obtain ⟨v, rfl⟩ := hl
    dsimp only
    split
    · exact sane_awaitFrom n seq _
    · exact h
  | awaitValue seq i =>
    obtain ⟨v, rfl⟩ := hl
    dsimp only
    split <;> exact sane_awaitFrom n seq _
  | storeLen seq =>
    cases hl
    exact sane_copyFrom n seq 0
  | copy seq j =>
    cases hl
    exact sane_copyFrom n seq (j + 1)
  | mark seq =>
    cases hl
    trivial
  | stamp seq =>
    cases hl
    trivial
  | advance seq =>
    cases hl
    dsimp only
    split <;> trivial
  | notify seq =>
    obtain ⟨v, rfl⟩ := hl
    dsimp only
    split <;> trivial
  | wake seq =>
    cases hl
    trivial

theorem distance_beginWrite (n seq : Nat) :
    distance cfg stream ⟨cfg.beginWrite seq, n⟩ ≤ (stream n).len + 6 := by
  unfold RingConfig.beginWrite
  split
  · exact le_rfl
  · exact Nat.le_succ _

theorem distance_awaitFrom (n seq i : Nat) : distance cfg stream ⟨cfg.awaitFrom seq i, n⟩ ≤
    2 * (cfg.maxConsumers - i) + ((stream n).len + 7) := by
  unfold RingConfig.awaitFrom
  split
  · exact le_rfl
  · exact (distance_beginWrite n seq).trans (by omega)

theorem distance_copyFrom (n seq j : Nat) :
    distance cfg stream ⟨copyFrom (stream n) seq j, n⟩ ≤ (stream n).len - j + 4 := by
  unfold copyFrom
  split
  · exact le_rfl
  · exact Nat.le_add_left _ _

theorem distance_pos (p : Producer) : 0 < p.distance cfg stream := by
  obtain ⟨pc, n⟩ := p
  cases pc <;> simp only [distance, remaining] <;> omega

theorem distance_le (p : Producer) :
    p.distance cfg stream ≤ 2 * cfg.maxConsumers + (cfg.blockSize + 8) := by
  obtain ⟨pc, n⟩ := p
  have hlen : (stream n).len ≤ cfg.blockSize := (stream n).length_le
  cases pc <;> simp only [distance, remaining] <;> omega

theorem sent_le_of_leads (hl : (p.code cfg stream).Leads p') : p.sent ≤ p'.sent := by
  obtain ⟨pc, n⟩ := p
  cases pc with
  | advance seq =>
    cases hl
    dsimp only
    split
    · exact le_rfl
    · exact Nat.le_succ n
  | notify seq =>
    obtain ⟨v, rfl⟩ := hl
    dsimp only
    split
    · exact Nat.le_succ n
    · exact le_rfl
  | wake seq =>
    cases hl
    exact Nat.le_succ n
  | idle =>
    obtain ⟨v, rfl⟩ := hl
    exact le_rfl
  | awaitInUse seq i =>
    obtain ⟨v, rfl⟩ := hl
    exact le_rfl
  | awaitValue seq i =>
    obtain ⟨v, rfl⟩ := hl
    exact le_rfl
  | _ =>
    cases hl
    exact le_rfl

end Producer

namespace Backpressure

variable {ι : Type} [DecidableEq ι] {S : Setup ι} {σ σ' : System ι} {l : Label ι} {q j : Nat}

def inUse (σ : System ι) (i : Nat) : Nat := σ.memory.read .producer (.cursorInUse i)

def progressOf (σ : System ι) (i : Nat) : Nat := σ.memory.read .producer (.cursorValue i)

def Behind (S : Setup ι) (q j : Nat) (σ : System ι) : Prop :=
  inUse σ j ≠ 0 ∧ progressOf σ j ≤ q - S.cfg.capacity

def Past (S : Setup ι) (σ : System ι) : Prop :=
  ∀ q k, σ.producer.scanning = some (q, k) → ∀ i < S.cfg.maxConsumers,
    q - S.cfg.capacity < progressOf σ i ∨ inUse σ i = 0 ∧ σ.producer.pc ≠ .awaitValue q i

theorem sane_step (h : σ.producer.Sane S.cfg S.stream) (hs : S.step l σ = some σ') :
    σ'.producer.Sane S.cfg S.stream := by
  cases Setup.step_iff.mp hs with
  | producer hx => exact Producer.sane_of_leads h (Memory.exec_leads hx)
  | call => exact h
  | consumer => exact h
  | drain => exact h

theorem producer_eq_of_step (hl : l.isProducer = false) (hs : S.step l σ = some σ') :
    σ'.producer = σ.producer := by
  cases Setup.step_iff.mp hs with
  | producer => cases hl
  | call => rfl
  | consumer => rfl
  | drain => rfl

theorem sent_le (hs : S.step l σ = some σ') : σ.producer.sent ≤ σ'.producer.sent := by
  cases Setup.step_iff.mp hs with
  | producer hx => exact Producer.sent_le_of_leads (Memory.exec_leads hx)
  | call => exact le_rfl
  | consumer => exact le_rfl
  | drain => exact le_rfl

theorem Past.nears {p : Producer} {m : RingMemory ι} (h : Past S σ)
    (hsane : σ.producer.Sane S.cfg S.stream)
    (hx : σ.memory.exec S.model (S.key .producer) .producer
      (σ.producer.code S.cfg S.stream) = some (p, m)) :
    p = σ.producer.returned ∨ p.sent = σ.producer.sent ∧
      p.distance S.cfg S.stream < σ.producer.distance S.cfg S.stream := by
  have hl := Memory.exec_leads hx
  obtain ⟨memory, ⟨pc, n⟩, consumer⟩ := σ
  cases pc with
  | idle =>
    obtain ⟨seq, rfl⟩ := hl
    refine .inr ⟨rfl, ?_⟩
    change Producer.distance S.cfg S.stream ⟨S.cfg.publishFrom seq, n⟩ <
      2 * S.cfg.maxConsumers + ((S.stream n).len + 8)
    unfold RingConfig.publishFrom
    split
    · exact (Producer.distance_awaitFrom n seq 0).trans_lt (by omega)
    · exact (Producer.distance_beginWrite n seq).trans_lt (by omega)
  | awaitInUse seq i =>
    obtain ⟨v, rfl⟩ := hl
    have hi : i < S.cfg.maxConsumers := hsane
    refine .inr ⟨rfl, ?_⟩
    dsimp only
    split
    · refine (Producer.distance_awaitFrom n seq (i + 1)).trans_lt ?_
      simp only [Producer.distance]
      omega
    · exact Nat.lt_succ_self _
  | awaitValue seq i =>
    cases hx
    have hi : i < S.cfg.maxConsumers := hsane
    have hpast := (h seq i rfl i hi).resolve_right fun hr => hr.2 rfl
    have hnot : ¬ memory.read .producer (.cursorValue i) ≤ seq - S.cfg.capacity :=
      Nat.not_le.mpr hpast
    refine .inr ⟨rfl, ?_⟩
    simp only [if_neg hnot]
    refine (Producer.distance_awaitFrom n seq (i + 1)).trans_lt ?_
    simp only [Producer.distance]
    omega
  | mark seq =>
    cases hl
    exact .inr ⟨rfl, Nat.lt_succ_self _⟩
  | storeLen seq =>
    cases hl
    exact .inr ⟨rfl, Nat.lt_succ_of_le (Producer.distance_copyFrom n seq 0)⟩
  | copy seq i =>
    cases hl
    have hi : i < (S.stream n).len := hsane
    refine .inr ⟨rfl, (Producer.distance_copyFrom n seq (i + 1)).trans_lt ?_⟩
    simp only [Producer.distance, Producer.remaining]
    omega
  | stamp seq =>
    cases hl
    exact .inr ⟨rfl, Nat.lt_succ_self _⟩
  | advance seq =>
    cases hl
    dsimp only
    split
    · exact .inr ⟨rfl, Nat.lt_succ_self _⟩
    · exact .inl rfl
  | notify seq =>
    obtain ⟨v, rfl⟩ := hl
    dsimp only
    split
    · exact .inl rfl
    · exact .inr ⟨rfl, Nat.lt_succ_self _⟩
  | wake seq =>
    cases hl
    exact .inl rfl

theorem Behind.stays {k : Nat} (h : Behind S q j σ) (hj : j < S.cfg.maxConsumers) (hk : k ≤ j)
    (hscan : σ.producer.scanning = some (q, k)) {p : Producer} {m : RingMemory ι}
    (hx : σ.memory.exec S.model (S.key .producer) .producer
      (σ.producer.code S.cfg S.stream) = some (p, m)) :
    p.sent = σ.producer.sent ∧ ∃ k', k' ≤ j ∧ p.scanning = some (q, k') := by
  have hawait (i : Nat) (hi : i ≤ j) : S.cfg.awaitFrom q i = .awaitInUse q i :=
    if_pos (hi.trans_lt hj)
  obtain ⟨memory, ⟨pc, n⟩, consumer⟩ := σ
  cases pc with
  | awaitInUse seq i =>
    cases hscan
    cases hx
    refine ⟨rfl, ?_⟩
    by_cases hv : memory.read .producer (.cursorInUse k) = 0
    · have hne : k ≠ j := fun e => h.1 (e ▸ hv)
      exact ⟨k + 1, by omega, by simp [hv, hawait (k + 1) (by omega), Producer.scanning]⟩
    · exact ⟨k, hk, by simp [hv, Producer.scanning]⟩
  | awaitValue seq i =>
    cases hscan
    cases hx
    refine ⟨rfl, ?_⟩
    by_cases hv : memory.read .producer (.cursorValue k) ≤ q - S.cfg.capacity
    · exact ⟨0, Nat.zero_le j, by simp [hv, hawait 0 (Nat.zero_le j), Producer.scanning]⟩
    · have hne : k ≠ j := fun e => hv (e ▸ h.2)
      exact ⟨k + 1, by omega, by simp [hv, hawait (k + 1) (by omega), Producer.scanning]⟩
  | _ => cases hscan

theorem Behind.holds {k : Nat} {ls : List (Label ι)} (hj : j < S.cfg.maxConsumers) (hk : k ≤ j)
    (hscan : σ.producer.scanning = some (q, k)) (hbehind : S.lts.States (Behind S q j) ls σ)
    (hr : S.lts.run ls σ = some σ') : σ'.producer.sent = σ.producer.sent ∧
      ∃ k', k' ≤ j ∧ σ'.producer.scanning = some (q, k') := by
  refine Lts.run_stays (I := fun τ => τ.producer.sent = σ.producer.sent ∧
    ∃ k', k' ≤ j ∧ τ.producer.scanning = some (q, k')) hbehind (fun l u v hu hb hs => ?_)
    ⟨rfl, k, hk, hscan⟩ hr
  obtain ⟨hsent, k', hk', hscan'⟩ := hu
  cases Setup.step_iff.mp hs with
  | producer hx =>
    obtain ⟨hsame, hstill⟩ := hb.stays hj hk' hscan' hx
    exact ⟨hsame.trans hsent, hstill⟩
  | call => exact ⟨hsent, k', hk', hscan'⟩
  | consumer => exact ⟨hsent, k', hk', hscan'⟩
  | drain => exact ⟨hsent, k', hk', hscan'⟩

theorem Past.returns (h : S.Reachable σ) {ls : List (Label ι)}
    (hpast : S.lts.States (Past S) ls σ) (hr : S.lts.run ls σ = some σ')
    (hcount : 2 * S.cfg.maxConsumers + (S.cfg.blockSize + 8) ≤ ls.countP Label.isProducer) :
    σ.producer.sent < σ'.producer.sent := by
  obtain ⟨fresh, h⟩ := h
  have hsane : σ.producer.Sane S.cfg S.stream :=
    h.invariant trivial fun l u v hu _ hs => sane_step hu hs
  have hown {l : Label ι} {u v : System ι} (hu : u.producer.Sane S.cfg S.stream)
      (hp : Past S u) (hl : l.isProducer = true) (hs : S.lts.step l u = some v) :
      u.producer.sent < v.producer.sent ∨ v.producer.sent = u.producer.sent ∧
        v.producer.distance S.cfg S.stream < u.producer.distance S.cfg S.stream := by
    cases Setup.step_iff.mp hs with
    | producer hx =>
      refine (hp.nears hu hx).imp (fun h => ?_) id
      rw [h]
      exact Nat.lt_succ_self _
    | call => cases hl
    | consumer => cases hl
    | drain => cases hl
  have hmeets : ∃ ks js τ, ls = ks ++ js ∧ S.lts.run ks σ = some τ ∧ S.lts.run js τ = some σ' ∧
      σ.producer.sent < τ.producer.sent := by
    refine Lts.run_meets (M := S.lts)
      (I := fun τ => τ.producer.Sane S.cfg S.stream ∧ σ.producer.sent ≤ τ.producer.sent)
      (fun τ => τ.producer.distance S.cfg S.stream) hpast
      (fun l u v hu _ hgoal hs => ?_) (fun u hu hz => ?_) (fun l u v hu hA hgoal hl hs => ?_)
      (fun l u v hu hgoal hl hs => ?_) ⟨hsane, le_rfl⟩ hr
      ((Producer.distance_le _).trans hcount)
    · exact .inr ⟨sane_step hu.1 hs, hu.2.trans (sent_le hs)⟩
    · exact absurd hz (Producer.distance_pos _).ne'
    · exact (hown hu.1 hA hl hs).imp hu.2.trans_lt And.right
    · rw [producer_eq_of_step hl hs]
  obtain ⟨ks, js, τ, -, -, hjs, hsent⟩ := hmeets
  exact hsent.trans_le (Lts.run_stays (I := fun u => τ.producer.sent ≤ u.producer.sent)
    (.of_forall (fun _ => trivial) js τ) (fun l u v hu _ hs => hu.trans (sent_le hs)) le_rfl hjs)

instance (S : Setup ι) (q j : Nat) : DecidablePred (Behind S q j) := fun _ =>
  inferInstanceAs (Decidable (_ ∧ _))

end Backpressure

end Shimmy
