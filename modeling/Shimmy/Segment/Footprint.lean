import Shimmy.Bytes.Machine
import Shimmy.Overwrite.Seqlock
import Shimmy.Segment.Format

namespace Shimmy

open Bytes Concurrency Function

def RingConfig.limit (cfg : RingConfig) : Loc → Nat
  | .cursorInUse _ => 2
  | .slotLen _ => min (cfg.blockSize + 1) (2 ^ 32)
  | a => 256 ^ a.width

theorem RingConfig.limit_le {cfg : RingConfig} (a : Loc) :
    cfg.limit a ≤ 256 ^ cfg.ringLayout.width a := by
  cases a with
  | cursorInUse i => exact show 2 ≤ 256 ^ 1 by decide
  | slotLen i => exact Nat.min_le_right _ _
  | _ => exact le_rfl

namespace ProducerPc

def Contained (cfg : RingConfig) (msg : Message cfg.blockSize) : ProducerPc → Prop
  | .idle => True
  | .awaitInUse seq i => seq < 2 ^ 64 ∧ i < cfg.maxConsumers
  | .awaitValue seq i => seq < 2 ^ 64 ∧ i < cfg.maxConsumers
  | .copy seq j => seq < 2 ^ 64 ∧ j < msg.len
  | .mark seq => seq < 2 ^ 64
  | .storeLen seq => seq < 2 ^ 64
  | .stamp seq => seq < 2 ^ 64
  | .advance seq => seq < 2 ^ 64
  | .notify seq => seq < 2 ^ 64
  | .wake seq => seq < 2 ^ 64

variable {cfg : RingConfig} {msg : Message cfg.blockSize} {seq : Nat}

theorem contained_beginWrite (h : seq < 2 ^ 64) : (cfg.beginWrite seq).Contained cfg msg := by
  unfold RingConfig.beginWrite
  split <;> exact h

theorem contained_awaitFrom (h : seq < 2 ^ 64) (i : Nat) :
    (cfg.awaitFrom seq i).Contained cfg msg := by
  unfold RingConfig.awaitFrom
  split
  · exact ⟨h, ‹_›⟩
  · exact contained_beginWrite h

theorem contained_publishFrom (h : seq < 2 ^ 64) : (cfg.publishFrom seq).Contained cfg msg := by
  unfold RingConfig.publishFrom
  split
  · exact contained_awaitFrom h 0
  · exact contained_beginWrite h

theorem contained_copyFrom (h : seq < 2 ^ 64) (j : Nat) :
    (copyFrom msg seq j).Contained cfg msg := by
  unfold copyFrom
  split
  · exact ⟨h, ‹_›⟩
  · exact h

end ProducerPc

theorem Message.len_lt_limit {cfg : RingConfig} (msg : Message cfg.blockSize) (i : Nat) :
    msg.len < cfg.limit (.slotLen i) :=
  lt_min (Nat.lt_succ_of_le msg.length_le) msg.length_lt

theorem Message.byte_lt_limit {cfg : RingConfig} (msg : Message cfg.blockSize) (i j : Nat) :
    msg.bytes.getD j 0 < cfg.limit (.payload i j) := by
  rw [List.getD_eq_getElem?_getD]
  cases h : msg.bytes[j]? with
  | none => exact show 0 < 256 ^ 1 by decide
  | some b => exact msg.byte_lt b (List.mem_of_getElem? h)

def Producer.Contained (cfg : RingConfig) (stream : Nat → Message cfg.blockSize)
    (p : Producer) : Prop :=
  p.pc.Contained cfg (stream p.sent)

theorem Producer.obeys {cfg : RingConfig} {stream : Nat → Message cfg.blockSize} {p : Producer}
    (h : p.Contained cfg stream) :
    Obeys cfg.ringLayout cfg.limit (Producer.Contained cfg stream) (p.code cfg stream) := by
  obtain ⟨pc, sent⟩ := p
  cases pc with
  | idle => exact ⟨trivial, fun v hv => ProducerPc.contained_publishFrom hv⟩
  | awaitInUse seq i =>
    refine ⟨h.2, fun v _ => ?_⟩
    by_cases hv : v = 0
    · simpa [Producer.Contained, hv] using ProducerPc.contained_awaitFrom h.1 (i + 1)
    · simp only [Producer.Contained, if_neg hv]
      exact h
  | awaitValue seq i =>
    refine ⟨h.2, fun v _ => ?_⟩
    by_cases hv : v ≤ seq - cfg.capacity
    · simpa [Producer.Contained, hv] using ProducerPc.contained_awaitFrom h.1 0
    · simpa [Producer.Contained, hv] using ProducerPc.contained_awaitFrom h.1 (i + 1)
  | mark seq => exact ⟨cfg.slot_lt seq, show writingSeq < 256 ^ 8 by decide, h⟩
  | storeLen seq =>
    exact ⟨cfg.slot_lt seq, Message.len_lt_limit _ _, ProducerPc.contained_copyFrom h 0⟩
  | copy seq j =>
    exact ⟨⟨cfg.slot_lt seq, h.2.trans_le (stream sent).length_le⟩, Message.byte_lt_limit _ _ _,
      ProducerPc.contained_copyFrom h.1 (j + 1)⟩
  | stamp seq => exact ⟨cfg.slot_lt seq, h, h⟩
  | advance seq =>
    refine ⟨trivial, Nat.mod_lt _ (by decide), ?_⟩
    split
    · exact h
    · trivial
  | notify seq =>
    refine ⟨trivial, fun v _ => ?_⟩
    by_cases hv : v = 0
    · simp [Producer.Contained, hv, Producer.returned, ProducerPc.Contained]
    · simp only [Producer.Contained, if_neg hv]
      exact h
  | wake seq => exact ⟨cfg.slot_lt seq, trivial⟩

namespace SessionPc

def Contained (cfg : RingConfig) (o : Consumer) : SessionPc → Prop
  | .claimCursor i _ => i < cfg.maxConsumers
  | .initCursor i _ => i < cfg.maxConsumers
  | .publishCursor => o.cursorId < cfg.maxConsumers
  | .viewByte j => j < cfg.blockSize
  | .copyByte n j => j < n ∧ n ≤ cfg.blockSize
  | .retireValue id _ => id < cfg.maxConsumers
  | .retireInUse id _ => id < cfg.maxConsumers
  | _ => True

theorem contained_copyFromPc {cfg : RingConfig} {o : Consumer} {n : Nat} (h : n ≤ cfg.blockSize)
    (j : Nat) : (Session.copyFromPc n j).Contained cfg o := by
  unfold Session.copyFromPc
  split
  · exact ⟨‹_›, h⟩
  · trivial

end SessionPc

namespace Session

structure Contained (cfg : RingConfig) (s : Session) : Prop where
  next : s.obj.next < 2 ^ 64
  readSeq : s.obj.readSeq < 2 ^ 64
  moved : ∀ o ∈ s.moved, o.next < 2 ^ 64 ∧ o.readSeq < 2 ^ 64
  pc : s.pc.Contained cfg s.obj
  view : ∀ v, s.view = some v → v.len ≤ cfg.blockSize

namespace Contained

variable {cfg : RingConfig} {s s' : Session}

theorem initial : (Session.initial cfg).Contained cfg where
  next := Nat.two_pow_pos 64
  readSeq := Nat.two_pow_pos 64
  moved _ h := absurd h List.not_mem_nil
  pc := trivial
  view _ h := nomatch h

theorem publishCursor (h : s.obj.next < 2 ^ 64) (hr : s.obj.readSeq < 2 ^ 64)
    (hm : ∀ o ∈ s.moved, o.next < 2 ^ 64 ∧ o.readSeq < 2 ^ 64)
    (hv : ∀ v, s.view = some v → v.len ≤ cfg.blockSize) :
    (s.publishCursor cfg).Contained cfg := by
  refine ⟨h, hr, hm, ?_, hv⟩
  simp only [Session.publishCursor, cursorPc]
  split
  · exact (‹_ ∧ _ ∧ _›).2.2
  · trivial

theorem commit (h : s.Contained cfg) : (s.commit cfg).Contained cfg :=
  publishCursor (Nat.mod_lt _ (by decide)) h.readSeq h.moved h.view

theorem seek (h : s.Contained cfg) {seq : Nat} (hseq : seq < 2 ^ 64) :
    (s.seek cfg seq).Contained cfg :=
  publishCursor hseq h.readSeq h.moved h.view

theorem resync (h : s.Contained cfg) {produced : Nat} (hp : produced < 2 ^ 64) :
    (s.resync cfg produced).Contained cfg := by
  refine publishCursor ?_ h.readSeq h.moved h.view
  simp only [Consumer.resync]
  split <;> omega

theorem construct (h : s.Contained cfg) (attach : Bool) :
    (s.construct cfg attach).Contained cfg where
  next := Nat.two_pow_pos 64
  readSeq := Nat.two_pow_pos 64
  moved := h.moved
  pc := by
    simp only [Session.construct]
    split
    · exact cfg.maxConsumers_ge
    · split <;> trivial
  view := h.view

theorem destruct (h : s.Contained cfg) (o : Consumer) (last : Bool) :
    (s.destruct cfg o last).Contained cfg where
  next := h.next
  readSeq := h.readSeq
  moved := h.moved
  pc := by
    simp only [Session.destruct, destructPc]
    split
    · exact (‹_ ∧ _ ∧ _›).2.2
    · split <;> trivial
  view := h.view

theorem move (h : s.Contained cfg) (hidle : s.pc = .idle) : (s.move cfg).Contained cfg where
  next := h.next
  readSeq := h.readSeq
  moved o ho := by
    rcases List.mem_cons.mp ho with rfl | ho
    · exact ⟨h.next, h.readSeq⟩
    · exact h.moved o ho
  pc := by
    simp only [Session.move, hidle]
    trivial
  view := h.view

theorem call {k : Call} (h : s.Contained cfg) (hk : s.call cfg k = some s') :
    s'.Contained cfg := by
  unfold Session.call at hk
  split at hk
  · rename_i hen
    cases hk
    have hnote : (s.noteCall k).Contained cfg := ⟨h.next, h.readSeq, h.moved, h.pc, h.view⟩
    cases k with
    | construct => exact hnote.construct false
    | attachAtCurrent => exact hnote.construct true
    | read => exact ⟨h.next, h.readSeq, h.moved, trivial, h.view⟩
    | readBlocking => exact ⟨h.next, h.readSeq, h.moved, trivial, h.view⟩
    | readCopy outCap => exact ⟨h.next, h.readSeq, h.moved, trivial, h.view⟩
    | viewByte j =>
      refine ⟨h.next, h.readSeq, h.moved, ?_, h.view⟩
      simp only [Session.enabled, decide_eq_true_eq, Option.any_eq_true] at hen
      obtain ⟨-, v, hv, hj⟩ := hen
      exact hj.trans_le (h.view v hv)
    | validate => exact ⟨h.next, h.readSeq, h.moved, trivial, h.view⟩
    | commit => exact hnote.commit
    | seek seq =>
      simp only [Session.enabled, decide_eq_true_eq] at hen
      exact hnote.seek hen.2
    | produced => exact ⟨h.next, h.readSeq, h.moved, trivial, h.view⟩
    | resync produced =>
      simp only [Session.enabled, decide_eq_true_eq] at hen
      exact hnote.resync hen.2
    | move =>
      simp only [Session.enabled, decide_eq_true_eq] at hen
      exact hnote.move hen
    | destroy => exact hnote.destruct _ true
    | destroyMoved =>
      have htail : ({ s.noteCall .destroyMoved with moved := s.moved.tail }).Contained cfg :=
        ⟨h.next, h.readSeq, fun o ho => h.moved o (List.mem_of_mem_tail ho), h.pc, h.view⟩
      exact htail.destruct _ false
  · cases hk

theorem afterDoRead (h : s.Contained cfg) (call : ReadCall) (stamp : Nat) :
    (s.afterDoRead cfg call stamp).Contained cfg := by
  by_cases hs : stamp = s.obj.next
  · rw [afterDoRead_ok hs]
    refine ⟨h.next, h.next, h.moved, ?_, fun _ hv => nomatch hv⟩
    cases call <;> trivial
  · rw [afterDoRead_ne hs]
    dsimp only
    split
    · refine ⟨h.next, h.readSeq, h.moved, ?_, h.view⟩
      simp only [waitPc]
      split <;> trivial
    · exact ⟨h.next, h.readSeq, h.moved, trivial, h.view⟩

theorem viewed (h : s.Contained cfg) (j b : Nat) :
    ∀ v, (s.viewed j b).view = some v → v.len ≤ cfg.blockSize := by
  intro v hv
  obtain ⟨w, hw, rfl⟩ := Option.map_eq_some_iff.mp hv
  exact h.view w hw

theorem afterCopy (h : s.Contained cfg) (n : Nat) (valid : Bool) :
    (s.afterCopy cfg n valid).Contained cfg := by
  cases valid with
  | true =>
    have hs : ({ s with validated := true, returned := n }).Contained cfg :=
      ⟨h.next, h.readSeq, h.moved, h.pc, h.view⟩
    exact hs.commit
  | false => exact ⟨h.next, h.readSeq, h.moved, trivial, h.view⟩

theorem registered (h : s.Contained cfg) (id : Nat) (attach : Bool) :
    (s.registered id attach).Contained cfg := by
  refine ⟨h.next, h.readSeq, h.moved, ?_, h.view⟩
  cases attach <;> trivial

theorem withPc (h : s.Contained cfg) {pc : SessionPc} (hpc : pc.Contained cfg s.obj) :
    ({ s with pc := pc }).Contained cfg :=
  ⟨h.next, h.readSeq, h.moved, hpc, h.view⟩

theorem obeys {i : Instr Loc Nat Session} (h : s.Contained cfg) (hi : s.code cfg = some i) :
    Obeys cfg.ringLayout cfg.limit (Session.Contained cfg) i := by
  have hpc := h.pc
  unfold Session.code at hi
  generalize s.pc = pc at hpc hi
  have hzero : 0 < 256 ^ 8 := by decide
  have hinfinity : 2 ^ 64 - 1 < 256 ^ 8 := by decide
  have hwaiters (n : Nat) : n % 2 ^ 32 < 256 ^ 4 := Nat.mod_lt _ (by decide)
  have hslot (seq : Nat) : (Loc.slotSeq (cfg.slot seq)).Inside cfg := cfg.slot_lt seq
  cases pc with
  | unborn => cases hi
  | claimCursor i attach =>
    cases hi
    refine ⟨hpc, fun v hv => ⟨?_, ?_⟩⟩
    · dsimp only
      split
      · exact Nat.one_lt_two
      · exact hv
    · dsimp only
      split
      · exact h.withPc hpc
      · split
        · exact h.withPc ‹_›
        · exact h.registered _ _
  | initCursor i attach =>
    cases hi
    exact ⟨hpc, hzero, h.registered _ _⟩
  | attachProduced =>
    cases hi
    exact ⟨trivial, fun v hv => h.seek hv⟩
  | publishCursor =>
    cases hi
    exact ⟨hpc, h.next, h.withPc trivial⟩
  | idle => cases hi
  | doRead call =>
    cases hi
    exact ⟨hslot _, fun v _ => h.afterDoRead call v⟩
  | viewLen =>
    cases hi
    refine ⟨cfg.slot_lt _, fun v hv => ⟨h.next, h.readSeq, h.moved, trivial, fun w hw => ?_⟩⟩
    cases hw
    exact Nat.le_of_lt_succ (hv.trans_le (Nat.min_le_left _ _))
  | viewByte j =>
    cases hi
    exact ⟨⟨cfg.slot_lt _, hpc⟩, fun v _ => ⟨h.next, h.readSeq, h.moved, trivial, h.viewed j v⟩⟩
  | copyLen outCap =>
    cases hi
    refine ⟨cfg.slot_lt _, fun v hv => ?_⟩
    have hlen : v ≤ cfg.blockSize := Nat.le_of_lt_succ (hv.trans_le (Nat.min_le_left _ _))
    have hn : (if v ≤ outCap then v else outCap) ≤ cfg.blockSize := by split <;> omega
    refine ⟨h.next, h.readSeq, h.moved, SessionPc.contained_copyFromPc hn 0, fun w hw => ?_⟩
    cases hw
    exact hlen
  | copyByte n j =>
    cases hi
    exact ⟨⟨cfg.slot_lt _, hpc.1.trans_le hpc.2⟩, fun v _ =>
      ⟨h.next, h.readSeq, h.moved, SessionPc.contained_copyFromPc hpc.2 (j + 1), h.viewed j v⟩⟩
  | copyValidate n =>
    cases hi
    exact ⟨hslot _, fun v _ => h.afterCopy n _⟩
  | validate =>
    cases hi
    exact ⟨hslot _, fun v _ => ⟨h.next, h.readSeq, h.moved, trivial, h.view⟩⟩
  | produced =>
    cases hi
    exact ⟨trivial, fun v _ => ⟨h.next, h.readSeq, h.moved, trivial, h.view⟩⟩
  | waitAnnounce iter =>
    cases hi
    exact ⟨trivial, fun v _ => ⟨hwaiters _, h.withPc trivial⟩⟩
  | waitReload iter =>
    cases hi
    refine ⟨hslot _, fun v _ => h.withPc ?_⟩
    split <;> trivial
  | waitSyscall iter cmp =>
    cases hi
    exact ⟨hslot _, show 4 ≤ 8 by decide, fun v => by simp only [Nat.mod_mod], h.withPc trivial,
      h.withPc trivial⟩
  | waitAsleep iter =>
    cases hi
    exact h.withPc trivial
  | waitLeave iter =>
    cases hi
    exact ⟨trivial, fun v _ => ⟨hwaiters _, h.withPc trivial⟩⟩
  | retireValue id last =>
    cases hi
    exact ⟨hpc, hinfinity, h.withPc hpc⟩
  | retireInUse id last =>
    cases hi
    refine ⟨hpc, Nat.zero_lt_two, h.withPc ?_⟩
    split <;> trivial
  | dead => cases hi

end Contained

end Session

namespace Setup

variable {ι : Type} {S : Setup ι} {σ σ' : System ι} {l : Label ι}

structure Contained (S : Setup ι) (σ : System ι) : Prop where
  memory : Sized S.cfg.ringLayout S.cfg.limit σ.memory
  producer : σ.producer.Contained S.cfg S.stream
  consumer : ∀ c, (σ.consumer c).Contained S.cfg

namespace Contained

theorem initial {fresh : Loc → Nat} (hf : ∀ i j, fresh (.payload i j) < 256) :
    Contained S (S.initial fresh) where
  memory := by
    refine ⟨fun a _ => ?_, fun t e he => absurd he List.not_mem_nil⟩
    cases a with
    | payload i j => exact hf i j
    | slotLen i => exact show 0 < min _ _ by omega
    | slotSeq i => exact show emptySeq < 256 ^ 8 by decide
    | nextPublish => exact show 0 < 256 ^ 8 by decide
    | cursorValue i => exact show 0 < 256 ^ 8 by decide
    | cursorInUse i => exact Nat.zero_lt_two
    | waiters => exact show 0 < 256 ^ 4 by decide
  producer := trivial
  consumer _ := Session.Contained.initial

theorem update_consumer [DecidableEq ι] (h : Contained S σ) {c : ι} {s : Session}
    (hs : s.Contained S.cfg) (b : ι) : (update σ.consumer c s b).Contained S.cfg := by
  rcases eq_or_ne b c with rfl | hb
  · rw [update_self]
    exact hs
  · rw [update_of_ne hb]
    exact h.consumer b

theorem step [DecidableEq ι] (h : Contained S σ) (hs : S.step l σ = some σ') : Contained S σ' := by
  cases step_iff.mp hs with
  | producer hx =>
    obtain ⟨hp, hm⟩ := h.memory.exec (Producer.obeys h.producer) hx
    exact ⟨hm, hp, h.consumer⟩
  | call hc hx => exact ⟨h.memory, h.producer, h.update_consumer ((h.consumer _).call hx)⟩
  | consumer hi hx =>
    obtain ⟨hc, hm⟩ := h.memory.exec ((h.consumer _).obeys hi) hx
    exact ⟨hm, h.producer, h.update_consumer hc⟩
  | drain hb => exact ⟨h.memory.land hb, h.producer, h.consumer⟩

theorem of_reaches [DecidableEq ι] {fresh : Loc → Nat} (hf : ∀ i j, fresh (.payload i j) < 256)
    (h : S.lts.Reaches (S.initial fresh) σ) : Contained S σ :=
  h.invariant (initial hf) fun _ _ _ hu _ hv => hu.step hv

end Contained

theorem memory_safe [DecidableEq ι] (S : Setup ι) (fresh : Loc → Nat)
    (hf : ∀ i j, fresh (.payload i j) < 256) (σ : System ι)
    (h : S.lts.Reaches (S.initial fresh) σ) :
    Obeys S.cfg.ringLayout S.cfg.limit (fun _ => True) (σ.producer.code S.cfg S.stream) ∧
      ∀ c, (∀ i, (σ.consumer c).code S.cfg = some i →
        Obeys S.cfg.ringLayout S.cfg.limit (fun _ => True) i) ∧
          ∀ v, (σ.consumer c).view = some v → v.len ≤ S.cfg.blockSize := by
  have hc := Contained.of_reaches hf h
  exact ⟨(Producer.obeys hc.producer).mono fun _ _ => trivial, fun c =>
    ⟨fun i hi => ((hc.consumer c).obeys hi).mono fun _ _ => trivial, (hc.consumer c).view⟩⟩

theorem memory_safe_marked : ∃ σ, Overwrite.pairSetup.Reachable σ ∧
    σ.producer.pc = .copy 0 0 ∧ Obeys Overwrite.pairSetup.cfg.ringLayout
      Overwrite.pairSetup.cfg.limit (fun _ => True)
      (σ.producer.code Overwrite.pairSetup.cfg Overwrite.pairSetup.stream) := by
  obtain ⟨σ, hr, hp⟩ := Lts.exists_of_run (M := Overwrite.pairSetup.lts)
    (fun σ : System (Fin 1) => σ.producer.pc = .copy 0 0) (List.replicate 3 .producer)
    (Overwrite.pairSetup.initial fun _ => 0) (by decide +kernel)
  exact ⟨σ, ⟨_, hr⟩, of_decide_eq_true hp,
    (memory_safe Overwrite.pairSetup (fun _ => 0) (fun _ _ => by decide) σ hr).1⟩

end Setup

end Shimmy
