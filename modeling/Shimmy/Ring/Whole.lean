import Shimmy.Ring.Session

namespace Shimmy

open Concurrency Function

namespace Ring

def copyPayload (i : Nat) : List Nat → Nat → (Loc → Nat) → Loc → Nat
  | [], _, cells => cells
  | b :: bs, j, cells => copyPayload i bs (j + 1) (update cells (.payload i j) b)

def fillSlot (cfg : RingConfig) (seq : Nat) (msg : Message cfg.blockSize) (cells : Loc → Nat) :
    Loc → Nat :=
  let marked := if cfg.overflow = .overwrite then update cells (.slotSeq (cfg.slot seq)) writingSeq
    else cells
  let filled := copyPayload (cfg.slot seq) msg.bytes 0
    (update marked (.slotLen (cfg.slot seq)) msg.len)
  update (update filled (.slotSeq (cfg.slot seq)) seq) .nextPublish ((seq + 1) % 2 ^ 64)

def publish (cfg : RingConfig) (msg : Message cfg.blockSize) (cells : Loc → Nat) : Loc → Nat :=
  fillSlot cfg (cells .nextPublish) msg cells

variable {cfg : RingConfig} {cells : Loc → Nat}

def setCursor (cfg : RingConfig) (o : Consumer) (cells : Loc → Nat) : Loc → Nat :=
  if Session.cursorPc cfg o = .publishCursor then update cells (.cursorValue o.cursorId) o.next
  else cells

theorem copyPayload_of_ne {i : Nat} {bs : List Nat} {j : Nat} {a : Loc}
    (h : ∀ k, a ≠ .payload i k) : copyPayload i bs j cells a = cells a := by
  induction bs generalizing j cells with
  | nil => rfl
  | cons b bs ih => rw [copyPayload, ih, update_of_ne (h j)]

theorem publish_stamp_of_ne {i : Nat} (msg : Message cfg.blockSize)
    (hi : i ≠ cfg.slot (cells .nextPublish)) :
    publish cfg msg cells (.slotSeq i) = cells (.slotSeq i) := by
  simp only [publish, fillSlot]
  rw [update_of_ne (by simp), update_of_ne (by simpa using hi), copyPayload_of_ne (by simp),
    update_of_ne (by simp)]
  split
  · rw [update_of_ne (by simpa using hi)]
  · rfl

theorem publish_nextPublish (msg : Message cfg.blockSize) :
    publish cfg msg cells .nextPublish = (cells .nextPublish + 1) % 2 ^ 64 := by
  simp [publish, fillSlot]

theorem publish_stamp (msg : Message cfg.blockSize) :
    publish cfg msg cells (.slotSeq (cfg.slot (cells .nextPublish))) = cells .nextPublish := by
  simp [publish, fillSlot]

end Ring

namespace Setup

variable {ι : Type} {S : Setup ι} {σ : System ι}

def ByProducer (l : Label ι) (_ : System ι) : Prop := l = .producer

structure Quiet (σ : System ι) : Prop where
  buffer : σ.memory.buffer .producer = []
  parked : ∀ t, σ.memory.parked t = none

def written (σ : System ι) (p : Producer) (cells : Loc → Nat) : System ι :=
  { σ with producer := p, memory := { σ.memory with cells := cells } }

theorem Quiet.written (h : Quiet σ) (p : Producer) (cells : Loc → Nat) :
    Quiet (Setup.written σ p cells) :=
  ⟨h.buffer, h.parked⟩

def ByConsumer (c : ι) (l : Label ι) (_ : System ι) : Prop :=
  l = .consumer c ∨ ∃ k, l = .call c k

variable [DecidableEq ι]

def seated (σ : System ι) (c : ι) (s : Session) (cells : Loc → Nat) : System ι :=
  { σ with consumer := update σ.consumer c s, memory := { σ.memory with cells := cells } }

@[simp] theorem seated_seated (c : ι) (s s' : Session) (cells cells' : Loc → Nat) :
    seated (seated σ c s cells) c s' cells' = seated σ c s' cells' := by
  simp [seated]

@[simp] theorem seated_consumer (c : ι) (s : Session) (cells : Loc → Nat) :
    (seated σ c s cells).consumer c = s :=
  update_self _ _ _

@[simp] theorem seated_cells (c : ι) (s : Session) (cells : Loc → Nat) :
    (seated σ c s cells).memory.cells = cells :=
  rfl

theorem reach_load {a : Loc} {next : Nat → Producer} (hq : Quiet σ)
    (hcode : σ.producer.code S.cfg S.stream = .load a next) :
    S.lts.Reach ByProducer σ (written σ (next (σ.memory.cells a)) σ.memory.cells) := by
  refine .single (l := Label.producer) rfl ?_
  simp [lts, step, hcode, Memory.exec, Memory.read, hq.buffer, applyStores, written]

theorem reach_store {a : Loc} {v : Nat} {next : Producer} (hm : S.model = .sc)
    (hcode : σ.producer.code S.cfg S.stream = .store a v next) :
    S.lts.Reach ByProducer σ (written σ next (update σ.memory.cells a v)) := by
  refine .single (l := Label.producer) rfl ?_
  simp [lts, step, hcode, hm, Memory.exec, Memory.write, written]

theorem reach_copy (hm : S.model = .sc) {seq j : Nat} {bs : List Nat}
    (hbs : bs = (S.stream σ.producer.sent).bytes.drop j)
    (hpc : σ.producer.pc = copyFrom (S.stream σ.producer.sent) seq j) :
    S.lts.Reach ByProducer σ (written σ ⟨.stamp seq, σ.producer.sent⟩
      (Ring.copyPayload (S.cfg.slot seq) bs j σ.memory.cells)) := by
  induction bs generalizing σ j with
  | nil =>
    have hj : ¬ j < (S.stream σ.producer.sent).len :=
      Nat.not_lt.mpr (List.drop_eq_nil_iff.mp hbs.symm)
    rw [copyFrom, if_neg hj] at hpc
    have hσ : written σ ⟨.stamp seq, σ.producer.sent⟩ σ.memory.cells = σ := by
      rw [← hpc]
      rfl
    rw [Ring.copyPayload, hσ]
    exact .refl
  | cons b bs ih =>
    have hj : j < (S.stream σ.producer.sent).bytes.length := by
      by_contra hle
      rw [List.drop_eq_nil_of_le (Nat.not_lt.mp hle)] at hbs
      cases hbs
    rw [List.drop_eq_getElem_cons hj, List.cons.injEq] at hbs
    obtain ⟨hb, hbs⟩ := hbs
    have hlt : j < (S.stream σ.producer.sent).len := hj
    rw [copyFrom, if_pos hlt] at hpc
    have hcode : σ.producer.code S.cfg S.stream = .store (.payload (S.cfg.slot seq) j) b
        ⟨copyFrom (S.stream σ.producer.sent) seq (j + 1), σ.producer.sent⟩ := by
      simp [Producer.code, hpc, hb, hj]
    exact (reach_store hm hcode).trans (ih (σ := written σ _ _) hbs rfl)

theorem reach_returned (hq : Quiet σ) (hm : S.model = .sc) {seq : Nat}
    (hpc : σ.producer.pc = .advance seq) :
    S.lts.Reach ByProducer σ (written σ σ.producer.returned
      (update σ.memory.cells .nextPublish ((seq + 1) % 2 ^ 64))) := by
  have hcode : σ.producer.code S.cfg S.stream = .store .nextPublish ((seq + 1) % 2 ^ 64)
      (if S.cfg.wait.blocks then { σ.producer with pc := .notify seq }
        else σ.producer.returned) := by
    simp [Producer.code, hpc]
  refine (reach_store hm hcode).trans ?_
  split
  · have hnotify : Quiet (written σ { σ.producer with pc := .notify seq }
        (update σ.memory.cells .nextPublish ((seq + 1) % 2 ^ 64))) := hq.written _ _
    refine (reach_load hnotify (a := .waiters) rfl).trans ?_
    split
    · exact .refl
    · refine .single (l := Label.producer) rfl ?_
      have hwake := Memory.wake_eq_self (S.key .producer (.slotSeq (S.cfg.slot seq)))
        (m := { σ.memory with cells := update σ.memory.cells .nextPublish ((seq + 1) % 2 ^ 64) })
        hq.parked
      simp only [lts, step, written, Producer.code, Memory.exec, Option.map_some]
      rw [hwake]
      rfl
  · exact .refl

theorem reach_write (hq : Quiet σ) (hm : S.model = .sc) {seq : Nat}
    (hpc : σ.producer.pc = S.cfg.beginWrite seq) :
    S.lts.Reach ByProducer σ (written σ σ.producer.returned
      (Ring.fillSlot S.cfg seq (S.stream σ.producer.sent) σ.memory.cells)) := by
  have hmark : S.lts.Reach ByProducer σ (written σ { σ.producer with pc := .storeLen seq }
      (if S.cfg.overflow = .overwrite then
        update σ.memory.cells (.slotSeq (S.cfg.slot seq)) writingSeq else σ.memory.cells)) := by
    by_cases ho : S.cfg.overflow = .overwrite
    · rw [if_pos ho]
      refine reach_store hm ?_
      simp [Producer.code, hpc, RingConfig.beginWrite, ho]
    · rw [if_neg ho]
      have hσ : written σ { σ.producer with pc := .storeLen seq } σ.memory.cells = σ := by
        simp only [RingConfig.beginWrite, if_neg ho] at hpc
        rw [← hpc]
        rfl
      rw [hσ]
      exact .refl
  unfold Ring.fillSlot
  dsimp only
  generalize (if S.cfg.overflow = .overwrite then
    update σ.memory.cells (.slotSeq (S.cfg.slot seq)) writingSeq else σ.memory.cells) = marked at *
  have hlen : S.lts.Reach ByProducer σ (written σ
      { σ.producer with pc := copyFrom (S.stream σ.producer.sent) seq 0 }
      (update marked (.slotLen (S.cfg.slot seq)) (S.stream σ.producer.sent).len)) :=
    hmark.trans (reach_store hm rfl)
  have hcopy : S.lts.Reach ByProducer σ (written σ { σ.producer with pc := .stamp seq }
      (Ring.copyPayload (S.cfg.slot seq) (S.stream σ.producer.sent).bytes 0
        (update marked (.slotLen (S.cfg.slot seq)) (S.stream σ.producer.sent).len))) :=
    hlen.trans (reach_copy hm List.drop_zero.symm rfl)
  generalize Ring.copyPayload _ _ _ _ = filled at *
  have hstamp : S.lts.Reach ByProducer σ (written σ { σ.producer with pc := .advance seq }
      (update filled (.slotSeq (S.cfg.slot seq)) seq)) :=
    hcopy.trans (reach_store hm rfl)
  exact hstamp.trans (reach_returned (hq.written _ _) hm rfl)

theorem reach_await (hq : Quiet σ) {seq i : Nat} (hpc : σ.producer.pc = S.cfg.awaitFrom seq i)
    (hclear : ∀ j < S.cfg.maxConsumers, σ.memory.cells (.cursorInUse j) = 0 ∨
      seq - S.cfg.capacity < σ.memory.cells (.cursorValue j)) :
    S.lts.Reach ByProducer σ
      (written σ { σ.producer with pc := S.cfg.beginWrite seq } σ.memory.cells) := by
  induction hn : S.cfg.maxConsumers - i generalizing σ i with
  | zero =>
    have hσ : written σ { σ.producer with pc := S.cfg.beginWrite seq } σ.memory.cells = σ := by
      rw [RingConfig.awaitFrom, if_neg (by omega)] at hpc
      rw [← hpc]
      rfl
    rw [hσ]
    exact .refl
  | succ n ih =>
    have hi : i < S.cfg.maxConsumers := by omega
    rw [RingConfig.awaitFrom, if_pos hi] at hpc
    have hcode : σ.producer.code S.cfg S.stream = .load (.cursorInUse i) fun inUse =>
        { σ.producer with
          pc := if inUse = 0 then S.cfg.awaitFrom seq (i + 1) else .awaitValue seq i } := by
      simp [Producer.code, hpc]
    have hnext : S.lts.Reach ByProducer σ
        (written σ { σ.producer with pc := S.cfg.awaitFrom seq (i + 1) } σ.memory.cells) := by
      refine (reach_load hq hcode).trans ?_
      by_cases hfree : σ.memory.cells (.cursorInUse i) = 0
      · rw [if_pos hfree]
        exact .refl
      · have hahead := (hclear i hi).resolve_left hfree
        rw [if_neg hfree]
        have hload := reach_load (S := S) (a := .cursorValue i) (hq.written
          { σ.producer with pc := .awaitValue seq i } σ.memory.cells) rfl
        rw [show (written σ { σ.producer with pc := .awaitValue seq i }
          σ.memory.cells).memory.cells = σ.memory.cells from rfl,
          if_neg (Nat.not_le.mpr hahead)] at hload
        exact hload
    exact hnext.trans (ih (σ := written σ _ _) (hq.written _ _) rfl hclear (by omega))

theorem reach_publish (hq : Quiet σ) (hm : S.model = .sc) (hpc : σ.producer.pc = .idle)
    (hclear : S.cfg.overflow = .backpressure → S.cfg.capacity ≤ σ.memory.cells .nextPublish →
      ∀ j < S.cfg.maxConsumers, σ.memory.cells (.cursorInUse j) = 0 ∨
        σ.memory.cells .nextPublish - S.cfg.capacity < σ.memory.cells (.cursorValue j)) :
    S.lts.Reach ByProducer σ (written σ σ.producer.returned
      (Ring.publish S.cfg (S.stream σ.producer.sent) σ.memory.cells)) := by
  have hcode : σ.producer.code S.cfg S.stream = .load .nextPublish fun seq =>
      { σ.producer with pc := S.cfg.publishFrom seq } := by
    simp [Producer.code, hpc]
  refine (reach_load hq hcode).trans ?_
  by_cases hwait : S.cfg.overflow = .backpressure ∧ S.cfg.capacity ≤ σ.memory.cells .nextPublish
  · rw [RingConfig.publishFrom, if_pos hwait]
    have hscan : Quiet (written σ { σ.producer with
        pc := S.cfg.awaitFrom (σ.memory.cells .nextPublish) 0 } σ.memory.cells) := hq.written _ _
    refine (reach_await hscan rfl (hclear hwait.1 hwait.2)).trans ?_
    exact reach_write (σ := written σ _ _) (hq.written _ _) hm rfl
  · rw [RingConfig.publishFrom, if_neg hwait]
    exact reach_write (σ := written σ _ _) (hq.written _ _) hm rfl

theorem reach_publishes (hm : S.model = .sc) (hover : S.cfg.overflow = .overwrite) (n : Nat)
    (hq : Quiet σ) (hpc : σ.producer.pc = .idle) (hlt : σ.memory.cells .nextPublish < 2 ^ 64) :
    ∃ cells, S.lts.Reach ByProducer σ (written σ ⟨.idle, σ.producer.sent + n⟩ cells) ∧
      cells .nextPublish = (σ.memory.cells .nextPublish + n) % 2 ^ 64 := by
  induction n with
  | zero =>
    have hσ : written σ ⟨.idle, σ.producer.sent + 0⟩ σ.memory.cells = σ := by
      rw [← hpc]
      rfl
    exact ⟨σ.memory.cells, hσ ▸ .refl, (Nat.mod_eq_of_lt hlt).symm⟩
  | succ n ih =>
    obtain ⟨cells, hr, hcells⟩ := ih
    refine ⟨_, hr.trans (reach_publish (hq.written _ _) hm rfl (by simp [hover])), ?_⟩
    rw [Ring.publish_nextPublish]
    have hc : (written σ ⟨.idle, σ.producer.sent + n⟩ cells).memory.cells .nextPublish =
        (σ.memory.cells .nextPublish + n) % 2 ^ 64 := hcells
    rw [hc, Nat.mod_add_mod, Nat.add_assoc]

section Consumer

variable {c : ι}

theorem reach_call {k : Call} (hclient : S.client c (σ.consumer c) k = true)
    (hk : (σ.consumer c).enabled k = true) :
    S.lts.Reach (ByConsumer c) σ
      (seated σ c (((σ.consumer c).noteCall k).enter S.cfg k) σ.memory.cells) := by
  refine .single (l := Label.call c k) (.inr ⟨k, rfl⟩) ?_
  simp [lts, step, hclient, Session.call, hk, seated]

theorem reach_look {s s' : Session} {cells : Loc → Nat} {a : Loc} {next : Nat → Session}
    (hq : σ.memory.buffer (.consumer c) = []) (hcode : s.code S.cfg = some (.load a next))
    (hs : next (cells a) = s') :
    S.lts.Reach (ByConsumer c) (seated σ c s cells) (seated σ c s' cells) := by
  refine .single (l := Label.consumer c) (.inl rfl) ?_
  simp [lts, step, seated, hcode, Memory.exec, Memory.read, hq, applyStores, hs]

theorem reach_put {s s' : Session} {cells : Loc → Nat} {a : Loc} {v : Nat} (hm : S.model = .sc)
    (hcode : s.code S.cfg = some (.store a v s')) :
    S.lts.Reach (ByConsumer c) (seated σ c s cells) (seated σ c s' (update cells a v)) := by
  refine .single (l := Label.consumer c) (.inl rfl) ?_
  simp [lts, step, seated, hcode, hm, Memory.exec, Memory.write]

end Consumer

end Setup

namespace Session

theorem cursorPc_overwrite {cfg : RingConfig} (hover : cfg.overflow = .overwrite)
    (o : Consumer) : cursorPc cfg o = .idle := by
  simp [cursorPc, hover]

variable (cfg : RingConfig) (cells : Loc → Nat)

def readWhole (s : Session) : Session :=
  let stamp := cells (.slotSeq (cfg.slot s.obj.next))
  let len := cells (.slotLen (cfg.slot s.obj.next))
  { s with
    obj := s.obj.doRead stamp
    pc := .idle
    view := if stamp = s.obj.next then some ⟨len, []⟩ else s.view
    validated := if stamp = s.obj.next then false else s.validated
    produced := none
    returned := if stamp = s.obj.next then s.returned else 0
    entry := s.obj.next
    lastCall := some .read }

def validateWhole (s : Session) : Session :=
  { s with
    pc := .idle
    validated := cells (.slotSeq (cfg.slot s.obj.readSeq)) = s.obj.readSeq
    entry := s.obj.next
    lastCall := some .validate }

def commitWhole (s : Session) : Session :=
  { s with
    obj := s.obj.commit
    pc := .idle
    committed := s.committed ++ [(s.obj.readSeq, s.view)]
    entry := s.obj.next
    lastCall := some .commit }

def constructWhole (s : Session) : Session :=
  { s with
    obj := Consumer.construct cfg
    pc := .idle
    entry := s.obj.next
    lastCall := some .construct }

def copied (seq n : Nat) : View where
  len := cells (.slotLen (cfg.slot seq))
  bytes := (List.range n).map fun j => (j, cells (.payload (cfg.slot seq) j))

def readCopyWhole (outCap : Nat) (s : Session) : Session :=
  let stamp := cells (.slotSeq (cfg.slot s.obj.next))
  let len := cells (.slotLen (cfg.slot s.obj.next))
  let n := if len ≤ outCap then len else outCap
  let s' : Session := { s with
    obj := s.obj.doRead stamp
    pc := .idle
    produced := none
    entry := s.obj.next
    lastCall := some (.readCopy outCap) }
  if stamp = s.obj.next then
    { s' with
      obj := s'.obj.commit
      view := some (copied cfg cells s.obj.next n)
      validated := true
      committed := s.committed ++ [(s.obj.next, some (copied cfg cells s.obj.next n))]
      returned := n }
  else { s' with returned := 0 }

def resyncWhole (s : Session) : Session :=
  { s with
    obj := s.obj.resync cfg (cells .nextPublish)
    pc := .idle
    produced := none
    entry := s.obj.next
    lastCall := some (.resync (cells .nextPublish)) }

end Session

namespace Setup

variable {ι : Type} [DecidableEq ι] {S : Setup ι} {σ : System ι} {c : ι}

theorem reach_read (hclient : S.client c (σ.consumer c) .read = true)
    (hpc : (σ.consumer c).pc = .idle) (hq : σ.memory.buffer (.consumer c) = []) :
    S.lts.Reach (ByConsumer c) σ
      (seated σ c ((σ.consumer c).readWhole S.cfg σ.memory.cells) σ.memory.cells) := by
  refine (reach_call hclient (decide_eq_true hpc)).trans ?_
  generalize hstamp : σ.memory.cells (.slotSeq (S.cfg.slot (σ.consumer c).obj.next)) = stamp
  unfold Session.readWhole
  rw [hstamp]
  by_cases hs : stamp = (σ.consumer c).obj.next
  · have hread : ((σ.consumer c).noteCall .read |>.beginRead .read).afterDoRead S.cfg .read stamp =
        _ := Session.afterDoRead_ok hs
    refine (reach_look hq rfl (hstamp ▸ hread)).trans (reach_look hq rfl ?_)
    simp [hs, Session.noteCall, Session.beginRead, Consumer.doRead]
  · have hread : ((σ.consumer c).noteCall .read |>.beginRead .read).afterDoRead S.cfg .read stamp =
        _ := Session.afterDoRead_ne hs
    refine reach_look hq rfl ((hstamp ▸ hread).trans ?_)
    simp [hs, hstamp, Session.noteCall, Session.beginRead, Consumer.doRead]

theorem reach_validate (hclient : S.client c (σ.consumer c) .validate = true)
    (hpc : (σ.consumer c).pc = .idle) (hq : σ.memory.buffer (.consumer c) = []) :
    S.lts.Reach (ByConsumer c) σ
      (seated σ c ((σ.consumer c).validateWhole S.cfg σ.memory.cells) σ.memory.cells) :=
  (reach_call hclient (decide_eq_true hpc)).trans (reach_look hq rfl rfl)

theorem reach_commit (hm : S.model = .sc) (hclient : S.client c (σ.consumer c) .commit = true)
    (hpc : (σ.consumer c).pc = .idle) :
    S.lts.Reach (ByConsumer c) σ (seated σ c ((σ.consumer c).commitWhole)
      (Ring.setCursor S.cfg (σ.consumer c).obj.commit σ.memory.cells)) := by
  refine (reach_call hclient (decide_eq_true hpc)).trans ?_
  have hentered (pc : SessionPc)
      (hcursor : Session.cursorPc S.cfg (σ.consumer c).obj.commit = pc) :
      ((σ.consumer c).noteCall .commit).enter S.cfg .commit =
        { (σ.consumer c).commitWhole with pc := pc } := by
    simp [Session.enter, Session.commit, Session.publishCursor, Session.commitWhole,
      Session.noteCall, hcursor]
  unfold Ring.setCursor
  split
  · rename_i hcursor
    rw [hentered _ hcursor]
    exact reach_put hm rfl
  · rename_i hcursor
    have hidle : Session.cursorPc S.cfg (σ.consumer c).obj.commit = .idle := by
      unfold Session.cursorPc at hcursor ⊢
      split at hcursor
      · exact absurd rfl hcursor
      · exact if_neg ‹_›
    rw [hentered _ hidle]
    exact .refl

section Overwrite

variable (hover : S.cfg.overflow = .overwrite)

include hover

theorem reach_construct (hclient : S.client c (σ.consumer c) .construct = true)
    (hpc : (σ.consumer c).pc = .unborn) :
    S.lts.Reach (ByConsumer c) σ
      (seated σ c ((σ.consumer c).constructWhole S.cfg) σ.memory.cells) := by
  refine (reach_call hclient (decide_eq_true hpc)).trans ?_
  have hentered : ((σ.consumer c).noteCall .construct).enter S.cfg .construct =
      (σ.consumer c).constructWhole S.cfg := by
    simp [Session.enter, Session.construct, Session.constructWhole, Session.noteCall, hover]
  rw [hentered]
  exact .refl

omit hover in
theorem reach_copyBytes {s : Session} {cells : Loc → Nat} {v : View} {n j : Nat}
    (hq : σ.memory.buffer (.consumer c) = []) (hs : s.validated = false)
    (hpc : s.pc = Session.copyFromPc n j) (hv : s.view = some v) :
    S.lts.Reach (ByConsumer c) (seated σ c s cells)
      (seated σ c { s with
        pc := .copyValidate n
        view := some { v with bytes := v.bytes ++ (List.range' j (n - j)).map fun k =>
          (k, cells (.payload (S.cfg.slot s.obj.readSeq) k)) } } cells) := by
  induction hn : n - j generalizing s v j with
  | zero =>
    rw [Session.copyFromPc, if_neg (by omega)] at hpc
    have hself : { s with
        pc := .copyValidate n
        view := some { v with bytes := v.bytes ++ (List.range' j 0).map fun k =>
          (k, cells (.payload (S.cfg.slot s.obj.readSeq) k)) } } = s := by
      rw [List.range'_zero, List.map_nil, List.append_nil, ← hpc, ← hv]
    rw [hself]
    exact .refl
  | succ m ih =>
    rw [Session.copyFromPc, if_pos (by omega)] at hpc
    have hcode : s.code S.cfg = some (.load (.payload (S.cfg.slot s.obj.readSeq) j) fun b =>
        { s.viewed j b with pc := Session.copyFromPc n (j + 1), validated := false }) := by
      simp [Session.code, hpc]
    refine (reach_look hq hcode rfl).trans ?_
    have hrest := ih (s := { s.viewed j (cells (.payload (S.cfg.slot s.obj.readSeq) j)) with
      pc := Session.copyFromPc n (j + 1), validated := false })
      (v := { v with bytes := v.bytes ++ [(j, cells (.payload (S.cfg.slot s.obj.readSeq) j))] })
      (j := j + 1) rfl rfl (by simp [Session.viewed, hv]) (by omega)
    simpa [Session.viewed, List.range'_succ, hs] using hrest

theorem reach_readCopy {outCap : Nat}
    (hclient : S.client c (σ.consumer c) (.readCopy outCap) = true)
    (hpc : (σ.consumer c).pc = .idle) (hq : σ.memory.buffer (.consumer c) = []) :
    S.lts.Reach (ByConsumer c) σ
      (seated σ c ((σ.consumer c).readCopyWhole S.cfg σ.memory.cells outCap)
        σ.memory.cells) := by
  refine (reach_call hclient (decide_eq_true hpc)).trans ?_
  generalize hstamp : σ.memory.cells (.slotSeq (S.cfg.slot (σ.consumer c).obj.next)) = stamp
  unfold Session.readCopyWhole
  rw [hstamp]
  by_cases hs : stamp = (σ.consumer c).obj.next
  · have hread : ((σ.consumer c).noteCall (.readCopy outCap) |>.beginRead
        (.readCopy outCap)).afterDoRead S.cfg (.readCopy outCap) stamp = _ :=
      Session.afterDoRead_ok hs
    refine (reach_look hq rfl (hstamp ▸ hread)).trans ?_
    refine (reach_look hq rfl rfl).trans ?_
    refine (reach_copyBytes hq rfl rfl rfl).trans (reach_look hq rfl ?_)
    have hvalid : σ.memory.cells (.slotSeq (S.cfg.slot (σ.consumer c).obj.next)) =
        (σ.consumer c).obj.next := hstamp.trans hs
    simp [Session.afterCopy, Session.commit, Session.publishCursor, Session.noteCall,
      Session.beginRead, Consumer.doRead, Session.copied, List.range_eq_range', hs, hvalid,
      Session.cursorPc_overwrite hover]
    exact ⟨rfl, rfl⟩
  · have hread : ((σ.consumer c).noteCall (.readCopy outCap) |>.beginRead
        (.readCopy outCap)).afterDoRead S.cfg (.readCopy outCap) stamp = _ :=
      Session.afterDoRead_ne hs
    refine reach_look hq rfl ((hstamp ▸ hread).trans ?_)
    simp [hs, hstamp, Session.noteCall, Session.beginRead, Consumer.doRead]

theorem reach_resync (hclient : ∀ s k, S.client c s k = true)
    (hpc : (σ.consumer c).pc = .idle) (hq : σ.memory.buffer (.consumer c) = [])
    (hlt : σ.memory.cells .nextPublish < 2 ^ 64) :
    S.lts.Reach (ByConsumer c) σ
      (seated σ c ((σ.consumer c).resyncWhole S.cfg σ.memory.cells) σ.memory.cells) := by
  refine (reach_call (hclient _ .produced) (decide_eq_true hpc)).trans ?_
  refine (reach_look hq rfl rfl).trans ?_
  refine (reach_call (k := .resync (σ.memory.cells .nextPublish)) (hclient _ _) ?_).trans ?_
  · exact decide_eq_true ⟨by simp, hlt⟩
  · simp only [seated_consumer, seated_cells, seated_seated]
    have hentered : ((Session.noteCall { ((σ.consumer c).noteCall .produced).enter S.cfg .produced
        with pc := .idle, produced := some (σ.memory.cells .nextPublish) }
          (.resync (σ.memory.cells .nextPublish))).enter S.cfg
            (.resync (σ.memory.cells .nextPublish))) =
        (σ.consumer c).resyncWhole S.cfg σ.memory.cells := by
      simp [Session.enter, Session.resync, Session.publishCursor, Session.resyncWhole,
        Session.noteCall, Session.cursorPc_overwrite hover]
    rw [hentered]
    exact .refl

end Overwrite

end Setup

end Shimmy
