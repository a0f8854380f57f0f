import Shimmy.Concurrency.Knowledge
import Shimmy.Weak.Chronicle

namespace Shimmy

open Concurrency Function

variable {ι : Type}

theorem ProducerPc.acquireFence_access (o : Orders) (pc : ProducerPc) :
    (pc.access o).acquireFence = false := by
  cases pc <;> rfl

theorem Producer.releases_of_stamp {cfg : RingConfig} {stream : Nat → Message cfg.blockSize}
    {p : Producer} {o : Orders} (hbp : cfg.overflow = .backpressure)
    (hstamp : o.stamp.releases = true) (hwf : p.Wf cfg stream) (i v : Nat) (next : Producer)
    (hcode : p.code cfg stream = .store (.slotSeq i) v next) :
    (p.pc.access o).order.releases = true := by
  obtain ⟨pc, n⟩ := p
  cases pc with
  | mark seq => exact absurd (hwf.2.symm.trans hbp) (by simp)
  | stamp seq => exact hstamp
  | _ => cases hcode

structure Annals (cfg : RingConfig) (stream : Nat → Message cfg.blockSize) (cells : Loc → Nat)
    (m : WeakMemory (Thread ι) Loc Nat) (d : Pos) : Prop where
  image : Image cfg stream cells d
  covered : ∀ a, a.ofProducer = true → m.Covers (m.fronts .producer).current a
  newest : ∀ a, a.ofProducer = true → m.Sees (m.fronts .producer).current a (· = cells a)
  stamps : ∀ i, ∀ e ∈ m.history (.slotSeq i), e.val ≠ emptySeq →
    e.val < d.stampedCount ∧ cfg.slot e.val = i
  rising : ∀ i, ∀ e ∈ m.history (.slotSeq i), e.val ≠ emptySeq →
    ∀ w ∈ m.history (.slotSeq i), e.time ≤ w.time → w.val ≠ emptySeq ∧ e.val ≤ w.val
  content : ∀ i, ∀ e ∈ m.history (.slotSeq i), e.val ≠ emptySeq →
    d.touched ≤ e.val + cfg.capacity →
    ∀ a v, (stream e.val).Bears i a v → m.Sees e.front a (· = v)

namespace Annals

variable {cfg : RingConfig} {stream : Nat → Message cfg.blockSize} {cells : Loc → Nat}
  {m m' : WeakMemory (Thread ι) Loc Nat} {d d' : Pos} {a : Loc} {x time n : Nat}
  {order : MemoryOrder} {fence : Bool}

theorem start (fresh : Loc → Nat) :
    Annals cfg stream (Ring.init fresh)
      (WeakMemory.start (Ring.init fresh) : WeakMemory (Thread ι) Loc Nat) ⟨0, .fresh⟩ where
  image := .init fresh
  covered a _ := .start _
  newest a _ := .start _ rfl
  stamps i e he hne := by
    obtain rfl := List.mem_singleton.mp he
    exact absurd rfl hne
  rising i e he hne := by
    obtain rfl := List.mem_singleton.mp he
    exact absurd rfl hne
  content i e he hne := by
    obtain rfl := List.mem_singleton.mp he
    exact absurd rfl hne

theorem congr (h : Annals cfg stream cells m d)
    (hh : ∀ a, a.ofProducer = true → m'.history a = m.history a)
    (hc : (m.fronts .producer).current ≤ (m'.fronts .producer).current) :
    Annals cfg stream cells m' d where
  image := h.image
  covered a ha := (h.covered a ha).congr (hh a ha) (hc a)
  newest a ha := (h.newest a ha).congr (hh a ha) (hc a)
  stamps i := by
    rw [hh _ rfl]
    exact h.stamps i
  rising i := by
    rw [hh _ rfl]
    exact h.rising i
  content i e he hne ht a v hb := by
    rw [hh _ rfl] at he
    exact (h.content i e he hne ht a v hb).congr (hh a hb.ofProducer) le_rfl

variable [DecidableEq ι]

theorem owned_wrote (h : Annals cfg stream cells m d) (hf : m.Fresh (m.fronts .producer) a time)
    (ha : a.ofProducer = true) (b : Loc) (hb : b.ofProducer = true) :
    let m' := Chronicle.wrote m order fence a x time
    m'.Covers (m'.fronts .producer).current b ∧
      m'.Sees (m'.fronts .producer).current b (· = update cells a x b) := by
  dsimp only
  rw [Chronicle.current_wrote]
  rcases eq_or_ne b a with rfl | hba
  · rw [update_self]
    have hcur := Fronts.current_write_self hf.1
    exact ⟨(h.covered b hb).add hf.1 hcur, (h.covered b hb).sees_add hf.1 hcur rfl⟩
  · rw [update_of_ne hba]
    have hle := (Fronts.grows_write (v := m.fronts .producer) (a := a) time).current b
    exact ⟨(h.covered b hb).congr (WeakMemory.history_add_of_ne hba) hle,
      (h.newest b hb).congr (WeakMemory.history_add_of_ne hba) hle⟩

theorem fill (h : Annals cfg stream cells m d)
    (himage : Image cfg stream (update cells a x) d') (ha : a.ofProducer = true)
    (hf : m.Fresh (m.fronts .producer) a time) (hslot : ∀ k, Loc.slotSeq k ≠ a)
    (hcount : d'.stampedCount = d.stampedCount) (htouched : d.touched ≤ d'.touched)
    (hbears : ∀ (msg : Message cfg.blockSize) i v, msg.Bears i a v →
      i = cfg.slot d.count ∧ d.stampedCount ≤ d.count ∧ d.count < d'.touched) :
    Annals cfg stream (update cells a x) (Chronicle.wrote m order fence a x time) d' := by
  have hold (i : Nat) : (Chronicle.wrote m order fence a x time).history (.slotSeq i) =
      m.history (.slotSeq i) := WeakMemory.history_add_of_ne (hslot i)
  refine ⟨himage, fun b hb => (h.owned_wrote hf ha b hb).1,
    fun b hb => (h.owned_wrote hf ha b hb).2, fun i => ?_, fun i => ?_,
    fun i e he hne ht b v hb => ?_⟩
  · rw [hold, hcount]
    exact h.stamps i
  · rw [hold]
    exact h.rising i
  · rw [hold] at he
    by_cases hba : b = a
    · -- the slot being filled holds no message the consumer may still be reading
      subst hba
      obtain ⟨rfl, hle, hlt⟩ := hbears _ i v hb
      obtain ⟨hbelow, hsame⟩ := h.stamps _ e he hne
      rw [cfg.slot_eq_mod, cfg.slot_eq_mod] at hsame
      have := add_le_of_mod_eq_of_lt hsame (by omega)
      omega
    · exact (h.content i e he hne (htouched.trans ht) b v hb).congr
        (WeakMemory.history_add_of_ne hba) le_rfl

theorem stamp (h : Annals cfg stream cells m ⟨n, .copying (stream n).len⟩) (hn : n ≠ emptySeq)
    (hf : m.Fresh (m.fronts .producer) (.slotSeq (cfg.slot n)) time)
    (horder : order.releases = true) :
    Annals cfg stream (update cells (.slotSeq (cfg.slot n)) n)
      (Chronicle.wrote m order fence (.slotSeq (cfg.slot n)) n time) ⟨n, .stamped⟩ := by
  have hnew (i : Nat) {e : Write Loc Nat}
      (he : e ∈ (Chronicle.wrote m order fence (.slotSeq (cfg.slot n)) n time).history
        (.slotSeq i)) :
      i = cfg.slot n ∧ e = ⟨time, n, (m.fronts .producer).front order (.slotSeq (cfg.slot n)) time⟩ ∨
        e ∈ m.history (.slotSeq i) := by
    simpa using Chronicle.mem_wrote.mp he
  have hbelow {i : Nat} {e : Write Loc Nat} (he : e ∈ m.history (.slotSeq i))
      (hne : e.val ≠ emptySeq) : e.val < n ∧ cfg.slot e.val = i := by
    simpa [Pos.stampedCount] using h.stamps i e he hne
  refine ⟨h.image.store_stamp n, fun b hb => (h.owned_wrote hf rfl b hb).1,
    fun b hb => (h.owned_wrote hf rfl b hb).2, fun i e he hne => ?_,
    fun i e he hne w hw ht => ?_, fun i e he hne ht b v hb => ?_⟩
  · rcases hnew i he with ⟨rfl, rfl⟩ | he
    · exact ⟨by simp [Pos.stampedCount], rfl⟩
    · obtain ⟨hlt, hslot⟩ := hbelow he hne
      exact ⟨by simp [Pos.stampedCount]; omega, hslot⟩
  · rcases hnew i he with ⟨hi, rfl⟩ | he <;> rcases hnew i hw with ⟨-, rfl⟩ | hw
    · exact ⟨hne, le_rfl⟩
    · subst hi
      have := h.covered _ rfl w hw
      have := hf.1
      dsimp only at ht
      omega
    · exact ⟨hn, (hbelow he hne).1.le⟩
    · exact h.rising i e he hne w hw ht
  · have hsame : (Chronicle.wrote m order fence (.slotSeq (cfg.slot n)) n time).history b =
        m.history b := WeakMemory.history_add_of_ne hb.ne_slotSeq
    rcases hnew i he with ⟨rfl, rfl⟩ | he
    · obtain ⟨-, hlen, hbytes⟩ := h.image.inFlight _ rfl
      have hcells : cells b = v := by
        cases hb with
        | len => exact hlen
        | byte hj => exact hbytes _ hj
      refine ((h.newest b hb.ofProducer).congr hsame ?_).imp fun x hx => hx.trans hcells
      simp [Fronts.front, horder, hb.ne_slotSeq]
    · exact (h.content i e he hne ht b v hb).congr hsame le_rfl

theorem store (hbp : cfg.overflow = .backpressure) (h : Annals cfg stream cells m d)
    (hn : d.count ≠ emptySeq) (hf : m.Fresh (m.fronts .producer) (d.entry cfg stream).1 time)
    (hrel : ∀ i, (d.entry cfg stream).1 = .slotSeq i → order.releases = true) :
    Annals cfg stream (update cells (d.entry cfg stream).1 (d.entry cfg stream).2)
      (Chronicle.wrote m order fence (d.entry cfg stream).1 (d.entry cfg stream).2 time)
      (d.succ cfg stream) := by
  have himage := h.image.store
  obtain ⟨n, phase⟩ := d
  cases phase with
  | fresh =>
    simp only [Pos.entry, Pos.succ, hbp, reduceCtorEq, if_false] at himage hf ⊢
    refine h.fill himage rfl hf (by simp) rfl (by simp [Pos.touched]) fun msg i v hb => ?_
    cases hb
    exact ⟨rfl, by simp [Pos.stampedCount], by simp [Pos.touched]⟩
  | marked =>
    refine h.fill himage rfl hf (by simp [Pos.entry]) rfl (by simp [Pos.succ, Pos.touched])
      fun msg i v hb => ?_
    cases hb
    exact ⟨rfl, by simp [Pos.stampedCount], by simp [Pos.succ, Pos.touched]⟩
  | copying j =>
    by_cases hj : j < (stream n).len
    · simp only [Pos.entry, Pos.succ, hj, if_true] at himage hf ⊢
      refine h.fill himage rfl hf (by simp) rfl (by simp [Pos.touched]) fun msg i v hb => ?_
      cases hb
      exact ⟨rfl, by simp [Pos.stampedCount], by simp [Pos.touched]⟩
    · obtain rfl : j = (stream n).len := le_antisymm (h.image.inFlight j rfl).1 (not_lt.mp hj)
      simp only [Pos.entry, Pos.succ, lt_irrefl, if_false] at hf hrel ⊢
      exact h.stamp hn hf (hrel _ rfl)
  | stamped =>
    refine h.fill himage rfl hf (by simp [Pos.entry]) rfl (by simp [Pos.succ, Pos.touched])
      fun msg i v hb => ?_
    cases hb

theorem producer {o : Orders} {p p' : Producer} (hbp : cfg.overflow = .backpressure)
    (hstamp : o.stamp.releases = true) (hwf : p.Wf cfg stream) (hb : p'.begun < emptySeq)
    (h : Annals cfg stream cells m (p.pos cfg stream))
    (hx : m.Effect (p.pc.access o) .producer (p.code cfg stream) p' m') :
    p'.Wf cfg stream ∧
      (p'.pos cfg stream = p.pos cfg stream ∨
        p'.pos cfg stream = (p.pos cfg stream).succ cfg stream) ∧
      ∃ cells', Annals cfg stream cells' m' (p'.pos cfg stream) := by
  have hlt : p.begun < emptySeq := (Producer.begun_le_of_leads hx.leads).trans_lt hb
  have hacc := ProducerPc.acquireFence_access o p.pc
  have hkeep (hnone : (p.code cfg stream).writes = none) :
      Annals cfg stream cells m' (p.pos cfg stream) :=
    h.congr (fun a _ => hx.history_of_ne (by simp [hnone])) (hx.grows_all _).current
  have hrel := Producer.releases_of_stamp hbp hstamp hwf
  generalize hi : p.code cfg stream = i at hx hkeep
  have hmove := hi ▸ Producer.code_move p hwf (hlt.trans (by decide))
  cases hmove with
  | load a next hnext =>
    obtain ⟨w, hw, ht, rfl, -⟩ := hx.load
    have hval (ha : a = .nextPublish) : w.val = p.sent := by
      subst ha
      have hpc : p.pc = .idle := by
        unfold Producer.code at hi
        split at hi <;> first | assumption | cases hi
      have hle := ((Fronts.grows_fenceAcquire _).current _).trans ht
      refine (h.newest _ rfl w hw hle).trans (h.image.nextPublish.trans ?_)
      rw [Producer.pos, hpc]
    obtain ⟨hpos, hwf'⟩ := hnext w.val hval
    exact ⟨hwf', .inl hpos, cells, hpos ▸ hkeep rfl⟩
  | store next hpos hwf' =>
    obtain ⟨rfl, time, hf, rfl⟩ := hx.store hacc
    have hcount : (p.pos cfg stream).count ≤ p.begun :=
      (Pos.count_le_stampedCount _).trans
        ((Pos.stampedCount_le_touched _).trans p.pos_touched_le_begun)
    exact ⟨hwf', .inr hpos, _, hpos ▸ h.store hbp (hcount.trans_lt hlt).ne hf fun i hslot => hrel i _ _ (hslot ▸ hi)⟩
  | wake a next hpos hwf' =>
    cases hx with
    | quiet hs =>
      obtain rfl := hs
      exact ⟨hwf', .inl hpos, cells, hpos ▸ hkeep rfl⟩

end Annals

end Shimmy
