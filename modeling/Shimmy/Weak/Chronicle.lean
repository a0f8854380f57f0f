import Shimmy.Weak.System

namespace Shimmy

open Concurrency Function

variable {ι : Type}

inductive Message.Bears {blockSize : Nat} (msg : Message blockSize) (i : Nat) : Loc → Nat → Prop
  | len : Bears msg i (.slotLen i) msg.len
  | byte {j : Nat} (hj : j < msg.len) : Bears msg i (.payload i j) (msg.bytes.getD j 0)

theorem Message.Bears.ne_slotSeq {blockSize i k v : Nat} {msg : Message blockSize} {a : Loc}
    (h : msg.Bears i a v) : a ≠ .slotSeq k := by
  cases h <;> simp

theorem Message.Bears.ofProducer {blockSize i v : Nat} {msg : Message blockSize} {a : Loc}
    (h : msg.Bears i a v) : a.ofProducer = true := by
  cases h <;> rfl

structure Chronicle (cfg : RingConfig) (stream : Nat → Message cfg.blockSize) (cells : Loc → Nat)
    (m : WeakMemory (Thread ι) Loc Nat) (d : Pos) : Prop where
  image : Image cfg stream cells d
  newest : ∀ a, a.ofProducer = true → ∀ w ∈ m.history a,
    w.time ≤ (m.fronts .producer).current a ∧
      ((m.fronts .producer).current a ≤ w.time → w.val = cells a)
  stamps : ∀ i, ∀ w ∈ m.history (.slotSeq i), w.val < writingSeq →
    w.val < d.stampedCount ∧ cfg.slot w.val = i
  once : ∀ i, ∀ w ∈ m.history (.slotSeq i), ∀ w' ∈ m.history (.slotSeq i),
    w.val < writingSeq → w'.val = w.val → w'.time = w.time
  fenced : d.stampedCount < d.touched → ∀ w ∈ m.history (.slotSeq (cfg.slot d.count)),
    w.val < writingSeq → w.time < (m.fronts .producer).released (.slotSeq (cfg.slot d.count))
  content : ∀ i, ∀ e ∈ m.history (.slotSeq i), e.val < writingSeq →
    ∀ a v, (stream e.val).Bears i a v → ∀ w ∈ m.history a, e.front a ≤ w.time →
      w.val = v ∨ e.time < w.front (.slotSeq i)
  published : ∀ w ∈ m.history .nextPublish, w.val ≤ d.count
  lens : ∀ i, ∀ w ∈ m.history (.slotLen i), w.val ≤ cfg.blockSize

namespace Chronicle

variable {cfg : RingConfig} {stream : Nat → Message cfg.blockSize} {cells : Loc → Nat}
  {m m' : WeakMemory (Thread ι) Loc Nat} {d : Pos} {a : Loc} {x time n : Nat}
  {order : MemoryOrder} {fence : Bool}

theorem start (fresh : Loc → Nat) :
    Chronicle cfg stream (Ring.init fresh)
      (WeakMemory.start (Ring.init fresh) : WeakMemory (Thread ι) Loc Nat) ⟨0, .fresh⟩ where
  image := .init fresh
  newest a _ w hw := by
    obtain rfl := List.mem_singleton.mp hw
    exact ⟨le_rfl, fun _ => rfl⟩
  stamps i w hw hlt := by
    obtain rfl := List.mem_singleton.mp hw
    simp [Ring.init, emptySeq, writingSeq] at hlt
  once i w hw w' hw' _ _ := by
    obtain rfl := List.mem_singleton.mp hw
    obtain rfl := List.mem_singleton.mp hw'
    rfl
  fenced h := by simp [Pos.stampedCount, Pos.touched] at h
  content i e he hlt := by
    obtain rfl := List.mem_singleton.mp he
    simp [Ring.init, emptySeq, writingSeq] at hlt
  published w hw := by
    obtain rfl := List.mem_singleton.mp hw
    exact le_rfl
  lens i w hw := by
    obtain rfl := List.mem_singleton.mp hw
    exact Nat.zero_le _

theorem congr (h : Chronicle cfg stream cells m d)
    (hh : ∀ a, a.ofProducer = true → m'.history a = m.history a)
    (hc : (m.fronts .producer).current ≤ (m'.fronts .producer).current)
    (hr : (m'.fronts .producer).released = (m.fronts .producer).released) :
    Chronicle cfg stream cells m' d where
  image := h.image
  newest a ha w hw := by
    rw [hh a ha] at hw
    obtain ⟨hle, hval⟩ := h.newest a ha w hw
    exact ⟨hle.trans (hc a), fun hge => hval ((hc a).trans hge)⟩
  stamps i := by
    rw [hh _ rfl]
    exact h.stamps i
  once i := by
    rw [hh _ rfl]
    exact h.once i
  fenced := by
    rw [hh _ rfl, hr]
    exact h.fenced
  content i e he hlt a v hb := by
    rw [hh _ rfl] at he
    rw [hh _ hb.ofProducer]
    exact h.content i e he hlt a v hb
  published := by
    rw [hh _ rfl]
    exact h.published
  lens i := by
    rw [hh _ rfl]
    exact h.lens i

variable [DecidableEq ι]

def wrote (m : WeakMemory (Thread ι) Loc Nat) (order : MemoryOrder) (fence : Bool) (a : Loc)
    (x time : Nat) : WeakMemory (Thread ι) Loc Nat :=
  m.add .producer (((m.fronts .producer).write a time).fenceRelease fence) a
    ⟨time, x, (m.fronts .producer).front order a time⟩

theorem mem_wrote {b : Loc} {w : Write Loc Nat} :
    w ∈ (wrote m order fence a x time).history b ↔
      b = a ∧ w = ⟨time, x, (m.fronts .producer).front order a time⟩ ∨ w ∈ m.history b :=
  WeakMemory.mem_history_add

theorem mem_wrote_of_ne {b : Loc} {w : Write Loc Nat} (hb : b ≠ a) :
    w ∈ (wrote m order fence a x time).history b ↔ w ∈ m.history b := by
  simp [mem_wrote, hb]

theorem current_wrote : ((wrote m order fence a x time).fronts .producer).current =
    ((m.fronts .producer).write a time).current := by
  rw [wrote, WeakMemory.fronts_add, Fronts.current_fenceRelease]

theorem released_wrote : ((wrote m order false a x time).fronts .producer).released =
    (m.fronts .producer).released := by
  rw [wrote, WeakMemory.fronts_add]
  rfl

theorem newest_wrote (h : Chronicle cfg stream cells m d) (hf : m.Fresh (m.fronts .producer) a time)
    (b : Loc) (hb : b.ofProducer = true) (w : Write Loc Nat)
    (hw : w ∈ (wrote m order fence a x time).history b) :
    w.time ≤ ((wrote m order fence a x time).fronts .producer).current b ∧
      (((wrote m order fence a x time).fronts .producer).current b ≤ w.time →
        w.val = update cells a x b) := by
  rw [current_wrote]
  rcases eq_or_ne b a with rfl | hba
  · rw [Fronts.current_write_self hf.1, update_self]
    rcases mem_wrote.mp hw with ⟨-, rfl⟩ | hw
    · exact ⟨le_rfl, fun _ => rfl⟩
    · have hle := (h.newest b hb w hw).1
      have hlt := hf.1
      exact ⟨by omega, fun hge => absurd hge (by omega)⟩
  · rw [Fronts.current_write_of_ne _ hba, update_of_ne hba]
    exact h.newest b hb w ((mem_wrote_of_ne hba).mp hw)

theorem mark (h : Chronicle cfg stream cells m ⟨n, .fresh⟩) (hover : cfg.overflow = .overwrite)
    (hf : m.Fresh (m.fronts .producer) (.slotSeq (cfg.slot n)) time) :
    Chronicle cfg stream (update cells (.slotSeq (cfg.slot n)) writingSeq)
      (wrote m order true (.slotSeq (cfg.slot n)) writingSeq time) ⟨n, .marked⟩ where
  image := h.image.store_mark n hover
  newest := h.newest_wrote hf
  stamps i w hw hlt := by
    rcases mem_wrote.mp hw with ⟨-, rfl⟩ | hw
    · exact absurd hlt (lt_irrefl _)
    · exact h.stamps i w hw hlt
  once i w hw w' hw' hlt heq := by
    rcases mem_wrote.mp hw with ⟨-, rfl⟩ | hw
    · exact absurd hlt (lt_irrefl _)
    · rcases mem_wrote.mp hw' with ⟨-, rfl⟩ | hw'
      · rw [← heq] at hlt
        exact absurd hlt (lt_irrefl _)
      · exact h.once i w hw w' hw' hlt heq
  fenced _ w hw hlt := by
    have hrel : ((wrote m order true (.slotSeq (cfg.slot n)) writingSeq time).fronts
        .producer).released (.slotSeq (cfg.slot n)) = time := by
      rw [wrote, WeakMemory.fronts_add]
      exact Fronts.current_write_self hf.1
    rw [hrel]
    rcases mem_wrote.mp hw with ⟨-, rfl⟩ | hw
    · exact absurd hlt (lt_irrefl _)
    · exact (h.newest _ rfl w hw).1.trans_lt hf.1
  content i e he hlt a v hb w hw hge := by
    rcases mem_wrote.mp he with ⟨-, rfl⟩ | he
    · exact absurd hlt (lt_irrefl _)
    · exact h.content i e he hlt a v hb w ((mem_wrote_of_ne hb.ne_slotSeq).mp hw) hge
  published w hw := h.published w ((mem_wrote_of_ne (by simp)).mp hw)
  lens i w hw := h.lens i w ((mem_wrote_of_ne (by simp)).mp hw)

theorem fill {phase phase' : Phase} (h : Chronicle cfg stream cells m ⟨n, phase⟩)
    (himage : Image cfg stream (update cells a x) ⟨n, phase'⟩)
    (hf : m.Fresh (m.fronts .producer) a time) (horder : order.releases = false)
    (hflux : Pos.stampedCount ⟨n, phase⟩ < Pos.touched ⟨n, phase⟩)
    (hcount : Pos.stampedCount ⟨n, phase'⟩ = Pos.stampedCount ⟨n, phase⟩)
    (ha : a = .slotLen (cfg.slot n) ∧ x ≤ cfg.blockSize ∨ ∃ j, a = .payload (cfg.slot n) j) :
    Chronicle cfg stream (update cells a x) (wrote m order false a x time) ⟨n, phase'⟩ := by
  have hslot (k : Nat) : Loc.slotSeq k ≠ a := by
    rcases ha with ⟨rfl, -⟩ | ⟨j, rfl⟩ <;> simp
  have hfront (k : Nat) : (m.fronts .producer).released (.slotSeq k) ≤
      (m.fronts .producer).front order a time (.slotSeq k) := by
    simp [Fronts.front, horder]
  refine ⟨himage, h.newest_wrote hf, ?_, ?_, ?_, ?_, ?_, ?_⟩
  · intro i w hw
    rw [hcount]
    exact h.stamps i w ((mem_wrote_of_ne (hslot i)).mp hw)
  · intro i w hw w' hw'
    exact h.once i w ((mem_wrote_of_ne (hslot i)).mp hw) w' ((mem_wrote_of_ne (hslot i)).mp hw')
  · intro _ w hw
    rw [released_wrote]
    exact h.fenced hflux w ((mem_wrote_of_ne (hslot _)).mp hw)
  · intro i e he hlt b v hb w hw hge
    have he' := (mem_wrote_of_ne (hslot i)).mp he
    rcases mem_wrote.mp hw with ⟨rfl, rfl⟩ | hw
    · have hi : i = cfg.slot n := by
        rcases ha with ⟨rfl, -⟩ | ⟨j, rfl⟩ <;> cases hb <;> rfl
      subst hi
      exact .inr ((h.fenced hflux e he' hlt).trans_le (hfront _))
    · exact h.content i e he' hlt b v hb w hw hge
  · intro w hw
    have hne : Loc.nextPublish ≠ a := by
      rcases ha with ⟨rfl, -⟩ | ⟨j, rfl⟩ <;> simp
    exact h.published w ((mem_wrote_of_ne hne).mp hw)
  · intro i w hw
    rcases mem_wrote.mp hw with ⟨rfl, rfl⟩ | hw
    · rcases ha with ⟨-, hx⟩ | ⟨j, hj⟩
      · exact hx
      · cases hj
    · exact h.lens i w hw

theorem stamp (h : Chronicle cfg stream cells m ⟨n, .copying (stream n).len⟩)
    (hf : m.Fresh (m.fronts .producer) (.slotSeq (cfg.slot n)) time)
    (horder : order.releases = true) :
    Chronicle cfg stream (update cells (.slotSeq (cfg.slot n)) n)
      (wrote m order false (.slotSeq (cfg.slot n)) n time) ⟨n, .stamped⟩ where
  image := h.image.store_stamp n
  newest := h.newest_wrote hf
  stamps i w hw hlt := by
    rcases mem_wrote.mp hw with ⟨hi, rfl⟩ | hw
    · cases hi
      exact ⟨by simp [Pos.stampedCount], rfl⟩
    · obtain ⟨hcount, hslot⟩ := h.stamps i w hw hlt
      exact ⟨by simp [Pos.stampedCount] at hcount ⊢; omega, hslot⟩
  once i w hw w' hw' hlt heq := by
    have hold {e : Write Loc Nat} (he : e ∈ m.history (.slotSeq i)) (hlt : e.val < writingSeq) :
        e.val < n := by
      simpa [Pos.stampedCount] using (h.stamps i e he hlt).1
    rcases mem_wrote.mp hw with ⟨-, rfl⟩ | hw <;> rcases mem_wrote.mp hw' with ⟨-, rfl⟩ | hw'
    · rfl
    · exact absurd (hold hw' (heq ▸ hlt)) (by simp [heq])
    · exact absurd (hold hw hlt) (by simp [← heq])
    · exact h.once i w hw w' hw' hlt heq
  fenced hflux := by simp [Pos.stampedCount, Pos.touched] at hflux
  content i e he hlt a v hb w hw hge := by
    have hw' := (mem_wrote_of_ne hb.ne_slotSeq).mp hw
    rcases mem_wrote.mp he with ⟨hi, rfl⟩ | he
    · cases hi
      have hcur : (m.fronts .producer).current a ≤ w.time := by
        simpa [Fronts.front, horder, hb.ne_slotSeq] using hge
      obtain ⟨-, hlen, hbytes⟩ := h.image.inFlight _ rfl
      left
      rw [(h.newest a hb.ofProducer w hw').2 hcur]
      cases hb with
      | len => exact hlen
      | byte hj => exact hbytes _ hj
    · exact h.content i e he hlt a v hb w hw' hge
  published w hw := h.published w ((mem_wrote_of_ne (by simp)).mp hw)
  lens i w hw := h.lens i w ((mem_wrote_of_ne (by simp)).mp hw)

theorem next (h : Chronicle cfg stream cells m ⟨n, .stamped⟩)
    (hf : m.Fresh (m.fronts .producer) .nextPublish time) :
    Chronicle cfg stream (update cells .nextPublish (n + 1))
      (wrote m order false .nextPublish (n + 1) time) ⟨n + 1, .fresh⟩ where
  image := h.image.store_next n
  newest := h.newest_wrote hf
  stamps i w hw := h.stamps i w ((mem_wrote_of_ne (by simp)).mp hw)
  once i w hw w' hw' := h.once i w ((mem_wrote_of_ne (by simp)).mp hw) w'
    ((mem_wrote_of_ne (by simp)).mp hw')
  fenced hflux := by simp [Pos.stampedCount, Pos.touched] at hflux
  content i e he hlt a v hb w hw :=
    have hne : a ≠ .nextPublish := by cases hb <;> simp
    h.content i e ((mem_wrote_of_ne (by simp)).mp he) hlt a v hb w ((mem_wrote_of_ne hne).mp hw)
  published w hw := by
    rcases mem_wrote.mp hw with ⟨-, rfl⟩ | hw
    · exact le_rfl
    · exact (h.published w hw).trans (Nat.le_succ n)
  lens i w hw := h.lens i w ((mem_wrote_of_ne (by simp)).mp hw)

theorem load {acc : Access} {w : Write Loc Nat} (h : Chronicle cfg stream cells m d)
    (hacc : acc.releaseFence = false) :
    Chronicle cfg stream cells (m.look .producer
      (((m.entering acc .producer).read acc.order a w).fenceRelease acc.releaseFence)) d := by
  refine h.congr (fun _ _ => rfl) ?_ ?_
  · rw [WeakMemory.fronts_look, hacc]
    exact ((Fronts.grows_fenceAcquire _).trans (Fronts.grows_read _ _)).current
  · rw [WeakMemory.fronts_look, hacc]
    exact Fronts.released_fenceAcquire _

theorem quiet {acc : Access} (h : Chronicle cfg stream cells m d) :
    Chronicle cfg stream cells (m.look .producer (m.entering acc .producer)) d := by
  refine h.congr (fun _ _ => rfl) ?_ ?_
  · rw [WeakMemory.fronts_look]
    exact (Fronts.grows_fenceAcquire _).current
  · rw [WeakMemory.fronts_look]
    exact Fronts.released_fenceAcquire _

theorem loaded {o : Orders} {p p' : Producer} {b : Loc} {next : Nat → Producer}
    (h : Chronicle cfg stream cells m (p.pos cfg stream)) (hwf : p.Wf cfg stream)
    (hb : p.begun < 2 ^ 64) (hacc : (p.pc.access o).releaseFence = false)
    (hnext : b = .nextPublish → p.pc = .idle) (hcode : p.code cfg stream = .load b next)
    (hx : m.Effect (p.pc.access o) .producer (p.code cfg stream) p' m') :
    p'.Wf cfg stream ∧ ∃ cells', Chronicle cfg stream cells' m' (p'.pos cfg stream) := by
  have hmove := Producer.code_move p hwf hb
  rw [hcode] at hx hmove
  obtain ⟨w, hw, ht, rfl, rfl⟩ := hx.load
  cases hmove with
  | load _ _ hkeeps =>
    have hval (hn : b = .nextPublish) : w.val = p.sent := by
      have hpc := hnext hn
      subst hn
      have hle := ((Fronts.grows_fenceAcquire _).current _).trans ht
      refine ((h.newest _ rfl w hw).2 hle).trans (h.image.nextPublish.trans ?_)
      simp [Producer.pos, hpc]
    obtain ⟨hpos, hwf'⟩ := hkeeps w.val hval
    exact ⟨hwf', cells, hpos ▸ h.load hacc⟩

theorem producer {o : Orders} {p p' : Producer} (hover : cfg.overflow = .overwrite)
    (hmark : o.markFence = true) (hstamp : o.stamp.releases = true) (hwf : p.Wf cfg stream)
    (hb : p.begun < 2 ^ 64) (h : Chronicle cfg stream cells m (p.pos cfg stream))
    (hx : m.Effect (p.pc.access o) .producer (p.code cfg stream) p' m') :
    p'.Wf cfg stream ∧ ∃ cells', Chronicle cfg stream cells' m' (p'.pos cfg stream) := by
  obtain ⟨pc, n⟩ := p
  cases pc with
  | idle => exact h.loaded hwf hb rfl (fun _ => rfl) rfl hx
  | awaitInUse seq i => exact h.loaded hwf hb rfl (by simp) rfl hx
  | awaitValue seq i => exact h.loaded hwf hb rfl (by simp) rfl hx
  | notify seq => exact h.loaded hwf hb rfl (by simp) rfl hx
  | mark seq =>
    obtain ⟨rfl, -⟩ := hwf
    obtain ⟨rfl, time, hf, rfl⟩ := hx.store rfl
    refine ⟨rfl, update cells (.slotSeq (cfg.slot seq)) writingSeq, ?_⟩
    simpa [ProducerPc.access, Producer.pos, hover, hmark, wrote] using h.mark hover hf
  | storeLen seq =>
    obtain rfl : seq = n := hwf
    obtain ⟨rfl, time, hf, rfl⟩ := hx.store rfl
    refine ⟨Producer.wf_copyFrom _ _, update cells (.slotLen (cfg.slot seq)) (stream seq).len, ?_⟩
    have hpos : Producer.pos cfg stream ⟨.storeLen seq, seq⟩ = ⟨seq, .marked⟩ := by
      simp [Producer.pos, hover]
    rw [hpos] at h
    rw [Producer.pos_copyFrom _ _ _ (Nat.zero_le _)]
    exact h.fill (h.image.store_len seq (.inl rfl)) hf rfl (by simp [Pos.stampedCount, Pos.touched])
      rfl (.inl ⟨rfl, (stream seq).length_le⟩)
  | copy seq j =>
    obtain ⟨rfl, hj⟩ := hwf
    obtain ⟨rfl, time, hf, rfl⟩ := hx.store rfl
    refine ⟨Producer.wf_copyFrom _ _,
      update cells (.payload (cfg.slot seq) j) ((stream seq).bytes.getD j 0), ?_⟩
    rw [Producer.pos_copyFrom _ _ _ hj]
    exact h.fill (h.image.store_byte seq j hj) hf rfl (by simp [Pos.stampedCount, Pos.touched])
      rfl (.inr ⟨j, rfl⟩)
  | stamp seq =>
    obtain rfl : seq = n := hwf
    obtain ⟨rfl, time, hf, rfl⟩ := hx.store rfl
    exact ⟨rfl, _, h.stamp hf hstamp⟩
  | advance seq =>
    obtain rfl : seq = n := hwf
    obtain ⟨rfl, time, hf, rfl⟩ := hx.store rfl
    have hmod : (seq + 1) % 2 ^ 64 = seq + 1 :=
      Nat.mod_eq_of_lt (by simpa [Producer.begun] using hb)
    refine ⟨by split <;> simp [Producer.Wf, Producer.returned],
      update cells .nextPublish (seq + 1), ?_⟩
    have hpos : Producer.pos cfg stream (if cfg.wait.blocks then ⟨.notify seq, seq⟩ else
        Producer.returned ⟨.advance seq, seq⟩) = ⟨seq + 1, .fresh⟩ := by
      split <;> rfl
    rw [hmod, hpos]
    exact h.next hf
  | wake seq =>
    cases hx with
    | quiet hi =>
      obtain rfl := hi
      exact ⟨trivial, cells, h.quiet⟩

end Chronicle

end Shimmy
