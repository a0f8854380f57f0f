import Shimmy.Ring.Sound

namespace Shimmy

open Concurrency Function

namespace RingConfig

variable (cfg : RingConfig)

theorem capacity_dvd : cfg.capacity ∣ 2 ^ 64 := by
  have hne : cfg.capacity ≠ 0 := cfg.capacity_pos.ne'
  obtain ⟨k, hk⟩ := (Nat.and_sub_one_eq_zero_iff_isPowerOfTwo hne).mp cfg.capacity_pow2
  have hlt : 2 ^ k < 2 ^ 63 := hk ▸ cfg.capacity_lt
  rw [hk]
  exact Nat.pow_dvd_pow 2 (by have := (Nat.pow_lt_pow_iff_right (by omega)).mp hlt; omega)

theorem slot_mod (seq : Nat) : cfg.slot (seq % 2 ^ 64) = cfg.slot seq := by
  rw [slot_eq_mod, slot_eq_mod, Nat.mod_mod_of_dvd _ cfg.capacity_dvd]

def lastStamp (n i : Nat) : Nat := (lastBefore cfg.capacity n i).elim emptySeq (· % 2 ^ 64)

theorem lastStamp_succ {n i : Nat} (hi : i < cfg.capacity) :
    cfg.lastStamp (n + 1) i = if cfg.slot n = i then n % 2 ^ 64 else cfg.lastStamp n i := by
  unfold lastStamp
  split
  · rename_i hslot
    rw [lastBefore_succ_of_mod hi ((cfg.slot_eq_mod n).symm.trans hslot)]
    rfl
  · rename_i hslot
    rw [lastBefore_succ_of_ne hi fun h => hslot ((cfg.slot_eq_mod n).trans h)]

end RingConfig

variable {cfg : RingConfig} {stream : Nat → Message cfg.blockSize}

namespace Pos

def wrapped (cfg : RingConfig) (d : Pos) (i : Nat) : Nat :=
  if cfg.overflow = .overwrite ∧ d.stampedCount < d.touched ∧ i = cfg.slot d.count then writingSeq
  else cfg.lastStamp d.stampedCount i

theorem wrapped_succ (d : Pos) {i : Nat} (hi : i < cfg.capacity) :
    (d.succ cfg stream).wrapped cfg i =
      if (d.entry cfg stream).1 = .slotSeq i then (d.entry cfg stream).2 % 2 ^ 64
      else d.wrapped cfg i := by
  obtain ⟨n, phase⟩ := d
  cases phase with
  | fresh =>
    by_cases ho : cfg.overflow = .overwrite
    · simp [wrapped, succ, entry, ho, stampedCount, touched, writingSeq, eq_comm]
    · simp [wrapped, succ, entry, ho, stampedCount]
  | marked => simp [wrapped, succ, entry, stampedCount, touched]
  | copying j =>
    by_cases hj : j < (stream n).len
    · simp [wrapped, succ, entry, stampedCount, touched, hj]
    · by_cases hslot : cfg.slot n = i
      · simp [wrapped, succ, entry, stampedCount, touched, hj, cfg.lastStamp_succ hi, hslot]
      · simp [wrapped, succ, entry, stampedCount, touched, hj, cfg.lastStamp_succ hi, hslot,
          Ne.symm hslot]
  | stamped => simp [wrapped, succ, entry, stampedCount, touched]

theorem count_succ (d : Pos) :
    (d.succ cfg stream).count = if (d.entry cfg stream).1 = .nextPublish
      then (d.entry cfg stream).2 else d.count := by
  obtain ⟨n, phase⟩ := d
  cases phase with
  | fresh => by_cases ho : cfg.overflow = .overwrite <;> simp [succ, entry, ho]
  | marked => simp [succ, entry]
  | copying j => by_cases hj : j < (stream n).len <;> simp [succ, entry, hj]
  | stamped => simp [succ, entry]

end Pos

namespace Producer

def Numbered (cfg : RingConfig) (stream : Nat → Message cfg.blockSize) (p : Producer) : Prop :=
  match p.pc with
  | .idle => True
  | .awaitInUse seq _ => seq = p.sent % 2 ^ 64
  | .awaitValue seq _ => seq = p.sent % 2 ^ 64
  | .mark seq => seq = p.sent % 2 ^ 64 ∧ cfg.overflow = .overwrite
  | .storeLen seq => seq = p.sent % 2 ^ 64
  | .copy seq j => seq = p.sent % 2 ^ 64 ∧ j < (stream p.sent).len
  | .stamp seq => seq = p.sent % 2 ^ 64
  | .advance seq => seq = p.sent % 2 ^ 64
  | .notify seq => seq = p.sent % 2 ^ 64
  | .wake seq => seq = p.sent % 2 ^ 64

structure Tallied (cfg : RingConfig) (stream : Nat → Message cfg.blockSize) (p : Producer)
    (cells : Loc → Nat) : Prop where
  numbered : p.Numbered cfg stream
  counter : cells .nextPublish = (p.pos cfg stream).count % 2 ^ 64
  stamps : ∀ i < cfg.capacity, cells (.slotSeq i) = (p.pos cfg stream).wrapped cfg i

def Grows (cfg : RingConfig) (stream : Nat → Message cfg.blockSize) (p next : Producer)
    (cells : Loc → Nat) : Prop :=
  Tallied cfg stream next cells ∧
    (p.pos cfg stream).stampedCount ≤ (next.pos cfg stream).stampedCount

def Follows (P : Producer → (Loc → Nat) → Prop) (cells : Loc → Nat) :
    Instr Loc Nat Producer → Prop
  | .load a next => P (next (cells a)) cells
  | .store a v next => P next (update cells a v)
  | .futexWake _ next => P next cells
  | _ => False

theorem numbered_beginWrite (n : Nat) :
    Numbered cfg stream ⟨cfg.beginWrite (n % 2 ^ 64), n⟩ := by
  unfold RingConfig.beginWrite
  split
  · exact ⟨rfl, ‹_›⟩
  · exact rfl

theorem numbered_awaitFrom (n i : Nat) :
    Numbered cfg stream ⟨cfg.awaitFrom (n % 2 ^ 64) i, n⟩ := by
  unfold RingConfig.awaitFrom
  split
  · exact rfl
  · exact numbered_beginWrite n

theorem numbered_publishFrom (n : Nat) :
    Numbered cfg stream ⟨cfg.publishFrom (n % 2 ^ 64), n⟩ := by
  unfold RingConfig.publishFrom
  split
  · exact numbered_awaitFrom n 0
  · exact numbered_beginWrite n

theorem numbered_copyFrom (n j : Nat) :
    Numbered cfg stream ⟨copyFrom (stream n) (n % 2 ^ 64) j, n⟩ := by
  unfold copyFrom
  split
  · exact ⟨rfl, ‹_›⟩
  · exact rfl

theorem slot_of_numbered {seq n : Nat} (h : seq = n % 2 ^ 64) : cfg.slot n = cfg.slot seq :=
  h ▸ (cfg.slot_mod n).symm

namespace Tallied

variable {p next : Producer} {cells cells' : Loc → Nat}

theorem congr (h : Tallied cfg stream p cells)
    (hc : ∀ a, a.ofProducer = true → cells' a = cells a) : Tallied cfg stream p cells' where
  numbered := h.numbered
  counter := (hc _ rfl).trans h.counter
  stamps i hi := (hc _ rfl).trans (h.stamps i hi)

theorem stay (h : Tallied cfg stream p cells) (hpos : next.pos cfg stream = p.pos cfg stream)
    (hn : next.Numbered cfg stream) : Grows cfg stream p next cells := by
  refine ⟨⟨hn, ?_, ?_⟩, ?_⟩
  · rw [hpos]
    exact h.counter
  · rw [hpos]
    exact h.stamps
  · rw [hpos]

theorem store {e : Loc × Nat} (h : Tallied cfg stream p cells)
    (he : (p.pos cfg stream).entry cfg stream = e)
    (hpos : next.pos cfg stream = (p.pos cfg stream).succ cfg stream)
    (hn : next.Numbered cfg stream) {v : Nat}
    (hv : ∀ b, e.1 = .nextPublish ∨ e.1 = .slotSeq b → v = e.2 % 2 ^ 64) :
    Grows cfg stream p next (update cells e.1 v) := by
  subst he
  refine ⟨⟨hn, ?_, ?_⟩, hpos ▸ Pos.stampedCount_le_succ _⟩
  · rw [hpos, Pos.count_succ]
    split
    · rename_i hnext
      rw [hnext, update_self]
      exact hv 0 (.inl hnext)
    · rename_i hnext
      rw [update_of_ne (Ne.symm hnext)]
      exact h.counter
  · intro i hi
    rw [hpos, Pos.wrapped_succ _ hi]
    split
    · rename_i hslot
      rw [hslot, update_self]
      exact hv i (.inr hslot)
    · rename_i hslot
      rw [update_of_ne (Ne.symm hslot)]
      exact h.stamps i hi

theorem code (h : Tallied cfg stream p cells) :
    Follows (Grows cfg stream p) cells (p.code cfg stream) := by
  obtain ⟨pc, n⟩ := p
  have hn := h.numbered
  cases pc with
  | idle =>
    have hcount : cells .nextPublish = n % 2 ^ 64 := h.counter
    refine h.stay (pos_publishFrom _ _) ?_
    rw [hcount]
    exact numbered_publishFrom n
  | awaitInUse seq i =>
    obtain rfl : seq = n % 2 ^ 64 := hn
    simp only [Producer.code, Follows]
    split
    · exact h.stay (pos_awaitFrom _ _ _) (numbered_awaitFrom _ _)
    · exact h.stay rfl rfl
  | awaitValue seq i =>
    obtain rfl : seq = n % 2 ^ 64 := hn
    simp only [Producer.code, Follows]
    split
    · exact h.stay (pos_awaitFrom _ _ _) (numbered_awaitFrom _ _)
    · exact h.stay (pos_awaitFrom _ _ _) (numbered_awaitFrom _ _)
  | mark seq =>
    obtain ⟨hseq, ho⟩ := hn
    refine h.store (e := (.slotSeq (cfg.slot seq), writingSeq)) ?_ ?_ ?_ ?_
    · simp [pos, Pos.entry, ho, slot_of_numbered hseq]
    · simp [pos, Pos.succ, ho]
    · exact hseq
    · exact fun _ _ => rfl
  | storeLen seq =>
    have hseq : seq = n % 2 ^ 64 := hn
    refine h.store (e := (.slotLen (cfg.slot seq), (stream n).len)) ?_ ?_ ?_ ?_
    · by_cases ho : cfg.overflow = .overwrite <;>
        simp [pos, Pos.entry, ho, slot_of_numbered hseq]
    · rw [pos_copyFrom _ _ _ (Nat.zero_le _)]
      by_cases ho : cfg.overflow = .overwrite <;> simp [pos, Pos.succ, ho]
    · exact hseq ▸ numbered_copyFrom n 0
    · simp
  | copy seq j =>
    obtain ⟨hseq, hj⟩ := hn
    have hlt : j < (stream n).len := hj
    refine h.store (e := (.payload (cfg.slot seq) j, (stream n).bytes.getD j 0)) ?_ ?_ ?_ ?_
    · simp [pos, Pos.entry, hlt, slot_of_numbered hseq]
    · rw [pos_copyFrom _ _ _ hlt]
      simp [pos, Pos.succ, hlt]
    · exact hseq ▸ numbered_copyFrom n (j + 1)
    · simp
  | stamp seq =>
    have hseq : seq = n % 2 ^ 64 := hn
    refine h.store (e := (.slotSeq (cfg.slot seq), n)) ?_ ?_ ?_ ?_
    · simp [pos, Pos.entry, slot_of_numbered hseq]
    · simp [pos, Pos.succ]
    · exact hseq
    · exact fun _ _ => hseq
  | advance seq =>
    obtain rfl : seq = n % 2 ^ 64 := hn
    refine h.store (e := (.nextPublish, n + 1)) rfl ?_ ?_ ?_
    · split <;> simp [pos, Pos.succ, returned]
    · split
      · exact rfl
      · exact trivial
    · exact fun _ _ => Nat.mod_add_mod _ _ _
  | notify seq =>
    obtain rfl : seq = n % 2 ^ 64 := hn
    simp only [Producer.code, Follows]
    split
    · exact h.stay rfl trivial
    · exact h.stay rfl rfl
  | wake seq => exact h.stay rfl trivial

end Tallied

end Producer

namespace Setup

variable {ι : Type} {S : Setup ι} {l : Label ι} {σ σ' : System ι}

structure Tally (S : Setup ι) (σ : System ι) : Prop where
  empty : BuffersEmpty σ
  tallied : σ.producer.Tallied S.cfg S.stream σ.memory.cells

theorem Tally.initial (fresh : Loc → Nat) : Tally S (S.initial fresh) where
  empty _ := rfl
  tallied := by
    constructor
    · exact trivial
    · exact rfl
    · intro i hi
      simp [Setup.initial, Ring.init, Producer.initial, Producer.pos, Pos.wrapped,
        RingConfig.lastStamp, Pos.stampedCount, Pos.touched, lastBefore]

variable [DecidableEq ι]

theorem Tally.grows (hm : S.model = .sc) (h : Tally S σ) (hs : S.step l σ = some σ') :
    Producer.Grows S.cfg S.stream σ.producer σ'.producer σ'.memory.cells := by
  cases step_iff.mp hs with
  | producer hx =>
    have hcode := h.tallied.code
    rw [hm] at hx
    generalize σ.producer.code S.cfg S.stream = i at hx hcode
    cases i with
    | load a next =>
      cases hx
      rw [Memory.read, h.empty]
      exact hcode
    | store a v next =>
      cases hx
      exact hcode
    | futexWake a next =>
      cases hx
      exact hcode
    | _ => cases hcode
  | call => exact ⟨h.tallied, le_rfl⟩
  | consumer hi hx =>
    refine ⟨h.tallied.congr fun a ha => Memory.exec_cells hx fun hw => ?_, le_rfl⟩
    have hforeign := Session.code_writes hi hw
    rw [ha] at hforeign
    cases hforeign
  | drain hb =>
    rw [h.empty] at hb
    cases hb

theorem Tally.step (hm : S.model = .sc) (h : Tally S σ) (hs : S.step l σ = some σ') :
    Tally S σ' :=
  ⟨(step_tso hm h.empty hs).1, (h.grows hm hs).1⟩

theorem Tally.reach {allowed : Label ι → System ι → Prop} (hm : S.model = .sc) (h : Tally S σ)
    (hr : S.lts.Reach allowed σ σ') : Tally S σ' ∧
      (σ.producer.pos S.cfg S.stream).stampedCount ≤
        (σ'.producer.pos S.cfg S.stream).stampedCount :=
  hr.invariant (I := fun τ => Tally S τ ∧ (σ.producer.pos S.cfg S.stream).stampedCount ≤
    (τ.producer.pos S.cfg S.stream).stampedCount) ⟨h, le_rfl⟩
    fun _ _ _ hu _ hs => ⟨hu.1.step hm hs, hu.2.trans (hu.1.grows hm hs).2⟩

theorem Tally.of_reachable (hm : S.model = .sc) (h : S.Reachable σ) : Tally S σ := by
  obtain ⟨fresh, hr⟩ := h
  exact ((Tally.initial fresh).reach hm hr).1

end Setup

end Shimmy
