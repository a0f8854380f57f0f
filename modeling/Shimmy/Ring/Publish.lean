import Shimmy.Ring.Image

namespace Shimmy

open Concurrency Function

variable {cfg : RingConfig} {stream : Nat → Message cfg.blockSize}

def Pending (cfg : RingConfig) (stream : Nat → Message cfg.blockSize) :
    Pos → List (Loc × Nat) → Pos → Prop
  | d, [], p => d = p
  | d, e :: es, p => e = d.entry cfg stream ∧ Pending cfg stream (d.succ cfg stream) es p

namespace Pending

theorem snoc {d p : Pos} {es : List (Loc × Nat)} (h : Pending cfg stream d es p) :
    Pending cfg stream d (es ++ [p.entry cfg stream]) (p.succ cfg stream) := by
  induction es generalizing d with
  | nil =>
    obtain rfl : d = p := h
    exact ⟨rfl, rfl⟩
  | cons e es ih => exact ⟨h.1, ih h.2⟩

theorem monotone {f : Pos → Nat} (hf : ∀ d, f d ≤ f (d.succ cfg stream)) {d p : Pos}
    {es : List (Loc × Nat)} (h : Pending cfg stream d es p) : f d ≤ f p := by
  induction es generalizing d with
  | nil => exact (congrArg f h).le
  | cons e es ih => exact (hf d).trans (ih h.2)

theorem touched_le {d p : Pos} {es : List (Loc × Nat)} (h : Pending cfg stream d es p) :
    d.touched ≤ p.touched :=
  h.monotone Pos.touched_le_succ

theorem ofProducer {d p : Pos} {es : List (Loc × Nat)} (h : Pending cfg stream d es p)
    {e : Loc × Nat} (he : e ∈ es) : e.1.ofProducer = true := by
  induction es generalizing d with
  | nil => simp at he
  | cons f es ih =>
    rcases List.mem_cons.mp he with rfl | he
    · rw [h.1]
      obtain ⟨n, phase⟩ := d
      cases phase <;> simp only [Pos.entry] <;> (try split) <;> rfl
    · exact ih h.2 he

theorem image {d p : Pos} {es : List (Loc × Nat)} {cells : Loc → Nat}
    (h : Pending cfg stream d es p) (hi : Image cfg stream cells d) :
    Image cfg stream (applyStores cells es) p := by
  induction es generalizing d cells with
  | nil => exact h ▸ hi
  | cons e es ih =>
    obtain ⟨rfl, hes⟩ := h
    exact ih hes hi.store

theorem eq_of_stamp_drained {d p : Pos} {es : List (Loc × Nat)} (h : Pending cfg stream d es p)
    {q : Nat} (hq : q < p.stampedCount) (hout : (.slotSeq (cfg.slot q), q) ∉ es) :
    q < d.stampedCount := by
  induction es generalizing d with
  | nil => exact h ▸ hq
  | cons e es ih =>
    have hlt := ih h.2 fun he => hout (List.mem_cons_of_mem _ he)
    obtain ⟨n, phase⟩ := d
    cases phase with
    | copying j =>
      by_cases hj : j < (stream n).len
      · simpa [Pos.stampedCount, Pos.succ, hj] using hlt
      · by_contra hle
        have hqn : q = n := by simp [Pos.stampedCount, Pos.succ, hj] at hlt hle; omega
        refine hout (List.mem_cons.mpr (.inl ?_))
        rw [h.1, hqn]
        simp [Pos.entry, hj]
    | fresh =>
      by_cases ho : cfg.overflow = .overwrite <;>
        simpa [Pos.stampedCount, Pos.succ, ho] using hlt
    | marked => simpa [Pos.stampedCount, Pos.succ] using hlt
    | stamped => simpa [Pos.stampedCount, Pos.succ] using hlt

end Pending

namespace Producer

def pos (cfg : RingConfig) (stream : Nat → Message cfg.blockSize) (p : Producer) : Pos :=
  match p.pc with
  | .idle => ⟨p.sent, .fresh⟩
  | .awaitInUse _ _ => ⟨p.sent, .fresh⟩
  | .awaitValue _ _ => ⟨p.sent, .fresh⟩
  | .mark _ => ⟨p.sent, .fresh⟩
  | .storeLen _ => ⟨p.sent, if cfg.overflow = .overwrite then .marked else .fresh⟩
  | .copy _ j => ⟨p.sent, .copying j⟩
  | .stamp _ => ⟨p.sent, .copying (stream p.sent).len⟩
  | .advance _ => ⟨p.sent, .stamped⟩
  | .notify _ => ⟨p.sent + 1, .fresh⟩
  | .wake _ => ⟨p.sent + 1, .fresh⟩

def begun (p : Producer) : Nat := if p.pc = .idle then p.sent else p.sent + 1

def publishing (p : Producer) (seq : Nat) : Bool :=
  match p.pc with
  | .mark s => s = seq
  | .storeLen s => s = seq
  | .copy s _ => s = seq
  | .stamp s => s = seq
  | .advance s => s = seq
  | _ => false

def Wf (cfg : RingConfig) (stream : Nat → Message cfg.blockSize) (p : Producer) : Prop :=
  match p.pc with
  | .idle => True
  | .awaitInUse seq i => seq = p.sent ∧ cfg.overflow = .backpressure ∧ cfg.capacity ≤ seq ∧
      i < cfg.maxConsumers
  | .awaitValue seq i => seq = p.sent ∧ cfg.overflow = .backpressure ∧ cfg.capacity ≤ seq ∧
      i < cfg.maxConsumers
  | .mark seq => seq = p.sent ∧ cfg.overflow = .overwrite
  | .storeLen seq => seq = p.sent
  | .copy seq j => seq = p.sent ∧ j < (stream p.sent).len
  | .stamp seq => seq = p.sent
  | .advance seq => seq = p.sent
  | .notify seq => seq = p.sent
  | .wake seq => seq = p.sent

theorem count_of_publishing {p : Producer} {seq : Nat} (hwf : p.Wf cfg stream)
    (h : p.publishing seq = true) : (p.pos cfg stream).count = seq := by
  obtain ⟨pc, n⟩ := p
  cases pc with
  | mark s => exact hwf.1.symm.trans (of_decide_eq_true h)
  | storeLen s => exact (show s = n from hwf).symm.trans (of_decide_eq_true h)
  | copy s j => exact hwf.1.symm.trans (of_decide_eq_true h)
  | stamp s => exact (show s = n from hwf).symm.trans (of_decide_eq_true h)
  | advance s => exact (show s = n from hwf).symm.trans (of_decide_eq_true h)
  | _ => cases h

theorem publishing_of_touched {p : Producer} (hwf : p.Wf cfg stream)
    (h : (p.pos cfg stream).count < (p.pos cfg stream).touched) :
    p.publishing (p.pos cfg stream).count = true := by
  obtain ⟨pc, n⟩ := p
  cases pc with
  | storeLen s => exact decide_eq_true (show s = n from hwf)
  | copy s j => exact decide_eq_true hwf.1
  | stamp s => exact decide_eq_true (show s = n from hwf)
  | advance s => exact decide_eq_true (show s = n from hwf)
  | _ => simp [pos, Pos.touched] at h

theorem pos_touched_le_begun (p : Producer) : (p.pos cfg stream).touched ≤ p.begun := by
  obtain ⟨pc, n⟩ := p
  cases pc with
  | storeLen seq => by_cases ho : cfg.overflow = .overwrite <;> simp [pos, Pos.touched, begun, ho]
  | _ => simp [pos, Pos.touched, begun]

theorem pos_beginWrite (n seq : Nat) :
    pos cfg stream ⟨cfg.beginWrite seq, n⟩ = ⟨n, .fresh⟩ := by
  unfold RingConfig.beginWrite
  split <;> simp_all [pos]

theorem wf_beginWrite (n : Nat) : Wf cfg stream ⟨cfg.beginWrite n, n⟩ := by
  unfold RingConfig.beginWrite
  split <;> simp_all [Wf]

theorem pos_awaitFrom (n seq i : Nat) :
    pos cfg stream ⟨cfg.awaitFrom seq i, n⟩ = ⟨n, .fresh⟩ := by
  unfold RingConfig.awaitFrom
  split
  · rfl
  · exact pos_beginWrite n seq

theorem wf_awaitFrom (n i : Nat) (ho : cfg.overflow = .backpressure) (hn : cfg.capacity ≤ n) :
    Wf cfg stream ⟨cfg.awaitFrom n i, n⟩ := by
  unfold RingConfig.awaitFrom
  split
  · exact ⟨rfl, ho, hn, ‹_›⟩
  · exact wf_beginWrite n

theorem pos_publishFrom (n seq : Nat) :
    pos cfg stream ⟨cfg.publishFrom seq, n⟩ = ⟨n, .fresh⟩ := by
  unfold RingConfig.publishFrom
  split
  · exact pos_awaitFrom n seq 0
  · exact pos_beginWrite n seq

theorem wf_publishFrom (n : Nat) : Wf cfg stream ⟨cfg.publishFrom n, n⟩ := by
  unfold RingConfig.publishFrom
  split
  · exact wf_awaitFrom n 0 (And.left ‹_›) (And.right ‹_›)
  · exact wf_beginWrite n

theorem pos_copyFrom (n seq j : Nat) (hj : j ≤ (stream n).len) :
    pos cfg stream ⟨copyFrom (stream n) seq j, n⟩ = ⟨n, .copying j⟩ := by
  unfold copyFrom
  split
  · rfl
  · have : j = (stream n).len := by omega
    simp [pos, this]

theorem wf_copyFrom (n j : Nat) : Wf cfg stream ⟨copyFrom (stream n) n j, n⟩ := by
  unfold copyFrom
  split
  · exact ⟨rfl, ‹_›⟩
  · exact rfl

@[simp] theorem beginWrite_ne_idle (seq : Nat) : cfg.beginWrite seq ≠ .idle := by
  unfold RingConfig.beginWrite
  split <;> simp

@[simp] theorem awaitFrom_ne_idle (seq i : Nat) : cfg.awaitFrom seq i ≠ .idle := by
  unfold RingConfig.awaitFrom
  split <;> simp

@[simp] theorem publishFrom_ne_idle (seq : Nat) : cfg.publishFrom seq ≠ .idle := by
  unfold RingConfig.publishFrom
  split <;> simp

@[simp] theorem copyFrom_ne_idle (msg : Message cfg.blockSize) (seq j : Nat) :
    copyFrom msg seq j ≠ .idle := by
  unfold copyFrom
  split <;> simp

theorem begun_le_of_leads {p p' : Producer} (h : (p.code cfg stream).Leads p') :
    p.begun ≤ p'.begun := by
  obtain ⟨pc, n⟩ := p
  cases pc with
  | idle =>
    obtain ⟨v, rfl⟩ := h
    simp [begun]
  | awaitInUse seq i =>
    obtain ⟨v, rfl⟩ := h
    dsimp only
    split
    · simp [begun]
    · simp [begun]
  | awaitValue seq i =>
    obtain ⟨v, rfl⟩ := h
    dsimp only
    split <;> simp [begun]
  | mark seq => obtain rfl := h; simp [begun]
  | storeLen seq => obtain rfl := h; simp [begun]
  | copy seq j => obtain rfl := h; simp [begun]
  | stamp seq => obtain rfl := h; simp [begun]
  | advance seq => obtain rfl := h; split <;> simp [begun, returned]
  | notify seq =>
    obtain ⟨v, rfl⟩ := h
    dsimp only
    split <;> simp [begun, returned]
  | wake seq => obtain rfl := h; simp [begun, returned]

inductive Move (cfg : RingConfig) (stream : Nat → Message cfg.blockSize) (p : Producer) :
    Instr Loc Nat Producer → Prop
  | load (a : Loc) (next : Nat → Producer)
      (h : ∀ v, (a = .nextPublish → v = p.sent) →
        (next v).pos cfg stream = p.pos cfg stream ∧ (next v).Wf cfg stream) :
      Move cfg stream p (.load a next)
  | store (next : Producer) (hpos : next.pos cfg stream = (p.pos cfg stream).succ cfg stream)
      (hwf : next.Wf cfg stream) :
      Move cfg stream p (.store ((p.pos cfg stream).entry cfg stream).1
        ((p.pos cfg stream).entry cfg stream).2 next)
  | wake (a : Loc) (next : Producer) (hpos : next.pos cfg stream = p.pos cfg stream)
      (hwf : next.Wf cfg stream) : Move cfg stream p (.futexWake a next)

theorem Move.of_entry {p next : Producer} {a : Loc} {v : Nat}
    (he : (p.pos cfg stream).entry cfg stream = (a, v))
    (hpos : next.pos cfg stream = (p.pos cfg stream).succ cfg stream)
    (hwf : next.Wf cfg stream) : Move cfg stream p (.store a v next) := by
  have h := Move.store next hpos hwf
  rwa [he] at h

theorem code_move (p : Producer) (h : p.Wf cfg stream) (hb : p.begun < 2 ^ 64) :
    Move cfg stream p (p.code cfg stream) := by
  obtain ⟨pc, n⟩ := p
  cases pc with
  | idle =>
    refine .load _ _ fun v hv => ?_
    obtain rfl : v = n := hv rfl
    exact ⟨pos_publishFrom _ _, wf_publishFrom _⟩
  | awaitInUse seq i =>
    obtain ⟨rfl, ho, hn, hi⟩ := h
    refine .load _ _ fun v _ => ?_
    dsimp only
    split
    · exact ⟨pos_awaitFrom _ _ _, wf_awaitFrom _ _ ho hn⟩
    · exact ⟨rfl, rfl, ho, hn, hi⟩
  | awaitValue seq i =>
    obtain ⟨rfl, ho, hn, hi⟩ := h
    refine .load _ _ fun v _ => ?_
    dsimp only
    split
    · exact ⟨pos_awaitFrom _ _ _, wf_awaitFrom _ _ ho hn⟩
    · exact ⟨pos_awaitFrom _ _ _, wf_awaitFrom _ _ ho hn⟩
  | mark seq =>
    obtain ⟨rfl, ho⟩ := h
    exact .of_entry (by simp [pos, Pos.entry, ho]) (by simp [pos, Pos.succ, ho]) rfl
  | storeLen seq =>
    obtain rfl : seq = n := h
    refine .of_entry ?_ ?_ (wf_copyFrom _ _)
    · by_cases ho : cfg.overflow = .overwrite <;> simp [pos, Pos.entry, ho]
    · rw [pos_copyFrom _ _ _ (Nat.zero_le _)]
      by_cases ho : cfg.overflow = .overwrite <;> simp [pos, Pos.succ, ho]
  | copy seq j =>
    obtain ⟨rfl, hj⟩ := h
    have hlt : j < (stream seq).len := hj
    refine .of_entry ?_ ?_ (wf_copyFrom _ _)
    · exact if_pos hlt
    · rw [pos_copyFrom _ _ _ hlt]
      simp [pos, Pos.succ, hlt]
  | stamp seq =>
    obtain rfl : seq = n := h
    exact .of_entry (by simp [pos, Pos.entry]) (by simp [pos, Pos.succ]) rfl
  | advance seq =>
    obtain rfl : seq = n := h
    have hmod : (seq + 1) % 2 ^ 64 = seq + 1 := Nat.mod_eq_of_lt (by simpa [begun] using hb)
    refine .of_entry (by rw [hmod]; rfl) ?_ ?_
    · split <;> simp [pos, Pos.succ, returned]
    · split <;> simp [Wf, returned]
  | notify seq =>
    obtain rfl : seq = n := h
    refine .load _ _ fun v _ => ?_
    dsimp only
    split <;> exact ⟨rfl, by simp [Wf, returned]⟩
  | wake seq => exact .wake _ _ rfl trivial

end Producer

end Shimmy
