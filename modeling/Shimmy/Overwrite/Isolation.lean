import Shimmy.Concurrency.Runs
import Shimmy.Ring.Session
import Shimmy.Ring.Sound

namespace Shimmy

open Concurrency Function

namespace Producer

variable {cfg : RingConfig} {stream : Nat → Message cfg.blockSize} {p p' : Producer}

def Free (cfg : RingConfig) (stream : Nat → Message cfg.blockSize) (p : Producer) : Prop :=
  match p.pc with
  | .awaitInUse _ _ => False
  | .awaitValue _ _ => False
  | .copy _ j => j < (stream p.sent).len
  | _ => True

def remaining (cfg : RingConfig) (stream : Nat → Message cfg.blockSize) (p : Producer) : Nat :=
  match p.pc with
  | .storeLen _ => (stream p.sent).len + 5
  | .copy _ j => (stream p.sent).len - j + 4
  | .stamp _ => 4
  | .advance _ => 3
  | .notify _ => 2
  | .wake _ => 1
  | .mark _ => (stream p.sent).len + 6
  | _ => (stream p.sent).len + 7

inductive Forward (cfg : RingConfig) (stream : Nat → Message cfg.blockSize) (p : Producer) :
    Producer → Prop
  | works {p' : Producer} (hsent : p'.sent = p.sent)
      (h : p'.remaining cfg stream < p.remaining cfg stream) : Forward cfg stream p p'
  | returns : Forward cfg stream p p.returned

theorem remaining_pos : 0 < p.remaining cfg stream := by
  obtain ⟨pc, n⟩ := p
  cases pc <;> simp [remaining]

theorem remaining_le (p : Producer) : p.remaining cfg stream ≤ cfg.blockSize + 7 := by
  obtain ⟨pc, n⟩ := p
  have hlen : (stream n).len ≤ cfg.blockSize := (stream n).length_le
  cases pc <;> simp only [remaining] <;> omega

theorem free_copyFrom {n seq : Nat} (j : Nat) : Free cfg stream ⟨copyFrom (stream n) seq j, n⟩ := by
  unfold copyFrom
  split
  · exact ‹_›
  · trivial

theorem remaining_copyFrom {n seq : Nat} (j : Nat) :
    remaining cfg stream ⟨copyFrom (stream n) seq j, n⟩ ≤ (stream n).len - j + 4 := by
  unfold copyFrom
  split
  · exact le_rfl
  · exact Nat.le_add_left _ _

theorem forward (hover : cfg.overflow = .overwrite) (h : p.Free cfg stream)
    (hl : (p.code cfg stream).Leads p') : p'.Free cfg stream ∧ Forward cfg stream p p' := by
  obtain ⟨pc, n⟩ := p
  cases pc with
  | idle =>
    obtain ⟨seq, rfl⟩ := hl
    simp only [RingConfig.publishFrom, RingConfig.beginWrite, hover]
    exact ⟨trivial, .works rfl (Nat.lt_succ_self _)⟩
  | awaitInUse seq i => exact h.elim
  | awaitValue seq i => exact h.elim
  | mark seq =>
    cases hl
    exact ⟨trivial, .works rfl (Nat.lt_succ_self _)⟩
  | storeLen seq =>
    cases hl
    exact ⟨free_copyFrom 0, .works rfl (Nat.lt_succ_of_le (remaining_copyFrom 0))⟩
  | copy seq j =>
    cases hl
    have hj : j < (stream n).len := h
    refine ⟨free_copyFrom _, .works rfl ((remaining_copyFrom (j + 1)).trans_lt ?_)⟩
    simp only [remaining]
    omega
  | stamp seq =>
    cases hl
    exact ⟨trivial, .works rfl (Nat.lt_succ_self _)⟩
  | advance seq =>
    cases hl
    dsimp only
    split
    · exact ⟨trivial, .works rfl (Nat.lt_succ_self _)⟩
    · exact ⟨trivial, .returns⟩
  | notify seq =>
    obtain ⟨v, rfl⟩ := hl
    dsimp only
    split
    · exact ⟨trivial, .returns⟩
    · exact ⟨trivial, .works rfl (Nat.lt_succ_self _)⟩
  | wake seq =>
    cases hl
    exact ⟨trivial, .returns⟩

def progress (cfg : RingConfig) (stream : Nat → Message cfg.blockSize) (p : Producer) : Nat :=
  p.sent * (cfg.blockSize + 7) + (cfg.blockSize + 7 - p.remaining cfg stream)

theorem Forward.progress_lt (h : Forward cfg stream p p') :
    p.progress cfg stream < p'.progress cfg stream := by
  have hle : p.remaining cfg stream ≤ cfg.blockSize + 7 := remaining_le p
  have hpos : 0 < p.remaining cfg stream := remaining_pos
  cases h with
  | works hsent hlt =>
    simp only [progress, hsent]
    omega
  | returns =>
    simp only [progress, returned, Nat.succ_mul]
    omega

def silent (p : Producer) : Bool :=
  match p.pc with
  | .notify _ => false
  | .wake _ => false
  | _ => true

theorem silent_of_leads (hover : cfg.overflow = .overwrite) (hspin : cfg.wait.blocks = false)
    (h : p.Free cfg stream) (hs : p.silent = true) (hl : (p.code cfg stream).Leads p') :
    p'.silent = true := by
  obtain ⟨pc, n⟩ := p
  have hcopy (seq j : Nat) : silent ⟨copyFrom (stream n) seq j, n⟩ = true := by
    unfold copyFrom
    split <;> rfl
  cases pc with
  | idle =>
    obtain ⟨seq, rfl⟩ := hl
    simp only [RingConfig.publishFrom, RingConfig.beginWrite, hover]
    rfl
  | awaitInUse seq i => exact h.elim
  | awaitValue seq i => exact h.elim
  | storeLen seq =>
    cases hl
    exact hcopy seq 0
  | copy seq j =>
    cases hl
    exact hcopy seq (j + 1)
  | advance seq =>
    cases hl
    simp only [hspin]
    rfl
  | notify seq => cases hs
  | wake seq => cases hs
  | mark seq =>
    cases hl
    rfl
  | stamp seq =>
    cases hl
    rfl

theorem code_simple (h : p.Free cfg stream) (hs : p.silent = true) :
    (p.code cfg stream).Simple fun a => a.ofProducer = true := by
  obtain ⟨pc, n⟩ := p
  cases pc with
  | awaitInUse seq i => exact h.elim
  | awaitValue seq i => exact h.elim
  | notify seq => cases hs
  | wake seq => cases hs
  | idle => exact rfl
  | _ => trivial

end Producer

namespace Label

variable {ι : Type}

def isProducer : Label ι → Bool
  | .producer => true
  | _ => false

def kept (keep : ι → Bool) : Label ι → Bool
  | .producer => true
  | .call c _ => keep c
  | .consumer c => keep c
  | .drain .producer => true
  | .drain (.consumer c) => keep c

end Label

namespace SessionPc

def light : SessionPc → Bool
  | .unborn => true
  | .attachProduced => true
  | .idle => true
  | .doRead _ => true
  | .viewLen => true
  | .viewByte _ => true
  | .copyLen _ => true
  | .copyByte _ _ => true
  | .copyValidate _ => true
  | .validate => true
  | .produced => true
  | .dead => true
  | _ => false

end SessionPc

namespace Session

variable {cfg : RingConfig} {s s' : Session}

theorem light_cursorPc (hover : cfg.overflow = .overwrite) (o : Consumer) :
    (cursorPc cfg o).light = true := by
  rw [cursorPc, if_neg (by simp [hover])]
  rfl

theorem light_destructPc (hover : cfg.overflow = .overwrite) (o : Consumer) (last : Bool) :
    (destructPc cfg o last).light = true := by
  rw [destructPc, if_neg (by simp [hover])]
  cases last <;> rfl

theorem light_copyFromPc (n j : Nat) : (copyFromPc n j).light = true := by
  unfold copyFromPc
  split <;> rfl

theorem light_afterDoRead (hspin : cfg.wait.blocks = false) (call : ReadCall) (stamp : Nat) :
    (s.afterDoRead cfg call stamp).pc.light = true := by
  unfold afterDoRead waitPc
  simp only [hspin]
  split <;> rfl

theorem light_call (hover : cfg.overflow = .overwrite) {k : Call} (h : s.pc.light = true)
    (hk : s.call cfg k = some s') : s'.pc.light = true := by
  obtain ⟨-, rfl⟩ := call_eq_some.mp hk
  cases k with
  | construct =>
    simp only [enter, Session.construct, hover]
    rfl
  | attachAtCurrent =>
    simp only [enter, Session.construct, hover]
    rfl
  | commit => exact light_cursorPc hover _
  | seek seq => exact light_cursorPc hover _
  | resync produced => exact light_cursorPc hover _
  | move => exact h
  | destroy => exact light_destructPc hover _ _
  | destroyMoved => exact light_destructPc hover _ _
  | _ => rfl

inductive Looks (cfg : RingConfig) : Instr Loc Nat Session → Prop
  | load {a : Loc} {next : Nat → Session} (ha : a.ofProducer = true)
      (h : ∀ v, (next v).pc.light = true) : Looks cfg (.load a next)

theorem looks (hover : cfg.overflow = .overwrite) (hspin : cfg.wait.blocks = false)
    {i : Instr Loc Nat Session} (h : s.pc.light = true) (hi : s.code cfg = some i) :
    Looks cfg i := by
  unfold code at hi
  generalize s.pc = pc at h hi
  cases pc with
  | attachProduced =>
    cases hi
    exact .load rfl fun v => light_cursorPc hover _
  | doRead call =>
    cases hi
    exact .load rfl fun v => light_afterDoRead hspin call v
  | viewLen =>
    cases hi
    exact .load rfl fun v => rfl
  | viewByte j =>
    cases hi
    exact .load rfl fun v => rfl
  | copyLen outCap =>
    cases hi
    exact .load rfl fun v => light_copyFromPc _ _
  | copyByte n j =>
    cases hi
    exact .load rfl fun v => light_copyFromPc _ _
  | copyValidate n =>
    cases hi
    refine .load rfl fun v => ?_
    dsimp only [afterCopy]
    split
    · exact light_cursorPc hover _
    · rfl
  | validate =>
    cases hi
    exact .load rfl fun v => rfl
  | produced =>
    cases hi
    exact .load rfl fun v => rfl
  | unborn => cases hi
  | idle => cases hi
  | dead => cases hi
  | _ => cases h

end Session

namespace Overwrite

variable {ι : Type} {S : Setup ι} {σ σ' : System ι} {l : Label ι}

structure Alike (keep : ι → Bool) (σ τ : System ι) : Prop where
  producer : τ.producer = σ.producer
  consumer : ∀ c, keep c = true → τ.consumer c = σ.consumer c
  cells : ∀ a : Loc, a.ofProducer = true → τ.memory.cells a = σ.memory.cells a
  buffer : τ.memory.buffer .producer = σ.memory.buffer .producer

structure Spare (S : Setup ι) (σ : System ι) : Prop where
  free : σ.producer.Free S.cfg S.stream
  silent : σ.producer.silent = true
  light : ∀ c, (σ.consumer c).pc.light = true
  buffer : ∀ c, σ.memory.buffer (.consumer c) = []

theorem Spare.initial (fresh : Loc → Nat) : Spare S (S.initial fresh) :=
  ⟨trivial, rfl, fun _ => rfl, fun _ => rfl⟩

variable [DecidableEq ι]

theorem free_step (hover : S.cfg.overflow = .overwrite)
    (h : σ.producer.Free S.cfg S.stream) (hs : S.step l σ = some σ') :
    σ'.producer.Free S.cfg S.stream := by
  cases Setup.step_iff.mp hs with
  | producer hx => exact (Producer.forward hover h (Memory.exec_leads hx)).1
  | call => exact h
  | consumer => exact h
  | drain => exact h

theorem progress_lt_step (hover : S.cfg.overflow = .overwrite)
    (h : σ.producer.Free S.cfg S.stream) (hl : l.isProducer = true)
    (hs : S.step l σ = some σ') :
    σ.producer.progress S.cfg S.stream < σ'.producer.progress S.cfg S.stream := by
  cases Setup.step_iff.mp hs with
  | producer hx => exact (Producer.forward hover h (Memory.exec_leads hx)).2.progress_lt
  | call => cases hl
  | consumer => cases hl
  | drain => cases hl

theorem producer_step_isSome (S : Setup ι) (σ : System ι) : (S.step .producer σ).isSome = true := by
  have hexec (m : RingMemory ι) (i : Instr Loc Nat Producer)
      (hi : ∀ a f next, i ≠ .rmw a f next) (hblocked : ∀ next, i ≠ .blocked next) :
      (m.exec S.model (S.key .producer) .producer i).isSome = true := by
    cases i with
    | load a next => rfl
    | store a v next => cases S.model <;> rfl
    | rmw a f next => exact absurd rfl (hi a f next)
    | futexWait a same parked skipped =>
      simp only [Memory.exec]
      split <;> rfl
    | futexWake a next => rfl
    | blocked next => exact absurd rfl (hblocked next)
  simp only [Setup.step, Option.isSome_map]
  refine hexec _ _ (fun a f next h => ?_) fun next h => ?_
  · unfold Producer.code at h
    split at h <;> cases h
  · unfold Producer.code at h
    split at h <;> cases h

theorem publish_wait_free (S : Setup ι) (hover : S.cfg.overflow = .overwrite) (σ : System ι)
    (h : S.Reachable σ) :
    (S.step .producer σ).isSome = true ∧ ∀ ls σ' k, S.lts.run ls σ = some σ' →
      k * (S.cfg.blockSize + 7) ≤ ls.countP Label.isProducer →
        σ.producer.sent + k ≤ σ'.producer.sent := by
  refine ⟨producer_step_isSome S σ, fun ls σ' k hr hcount => ?_⟩
  obtain ⟨fresh, h⟩ := h
  have hfree : σ.producer.Free S.cfg S.stream :=
    h.invariant trivial fun l u v hu _ hs => free_step hover hu hs
  have hrun : σ.producer.progress S.cfg S.stream + ls.countP Label.isProducer ≤
      σ'.producer.progress S.cfg S.stream := by
    refine Lts.run_potential (M := S.lts) (I := fun σ => σ.producer.Free S.cfg S.stream)
      (fun l u v hu hs => free_step hover hu hs)
      (fun l u v hu hl hs => progress_lt_step hover hu hl hs) (fun l u v hu hl hs => ?_) hfree hr
    cases Setup.step_iff.mp hs with
    | producer => cases hl
    | call => exact le_rfl
    | consumer => exact le_rfl
    | drain => exact le_rfl
  have hpos : 0 < σ'.producer.remaining S.cfg S.stream := Producer.remaining_pos
  simp only [Producer.progress] at hrun
  have hlt : σ.producer.sent * (S.cfg.blockSize + 7) + k * (S.cfg.blockSize + 7) <
      (σ'.producer.sent + 1) * (S.cfg.blockSize + 7) := by
    rw [Nat.succ_mul]
    omega
  rw [← Nat.add_mul] at hlt
  exact Nat.lt_succ_iff.mp (Nat.lt_of_mul_lt_mul_right hlt)

def crowdSetup : Setup (Fin 2) where
  cfg := .lone .overwrite .spin
  stream n := .ofByte n
  client _ _ _ := true
  model := .tso
  process _ := ⟨0, 0⟩

theorem publish_wait_free_twice : ∃ σ σ', crowdSetup.Reachable σ ∧
    σ.producer.pc = .mark 0 ∧ crowdSetup.lts.run (List.replicate 142 .producer) σ = some σ' ∧
    σ.producer.sent + 2 ≤ σ'.producer.sent := by
  have hrun : ((crowdSetup.lts.run [.producer] (crowdSetup.initial fun _ => 0)).any fun σ =>
      σ.producer.pc = .mark 0 &&
        (crowdSetup.lts.run (List.replicate 142 .producer) σ).isSome) = true := by
    decide +kernel
  obtain ⟨σ, hr, hp⟩ := Lts.exists_of_run (M := crowdSetup.lts) _ _ _ hrun
  simp only [Bool.and_eq_true, decide_eq_true_eq] at hp
  obtain ⟨σ', hσ'⟩ := Option.isSome_iff_exists.mp hp.2
  refine ⟨σ, σ', ⟨_, hr⟩, hp.1, hσ', ?_⟩
  exact (publish_wait_free crowdSetup rfl σ ⟨_, hr⟩).2 _ _ 2 hσ' (by decide +kernel)

theorem Spare.step (hover : S.cfg.overflow = .overwrite) (hspin : S.cfg.wait.blocks = false)
    (h : Spare S σ) (hs : S.step l σ = some σ') : Spare S σ' := by
  have hlight {c : ι} {s : Session} (hlight : s.pc.light = true) (b : ι) :
      (update σ.consumer c s b).pc.light = true := by
    rcases eq_or_ne b c with rfl | hb
    · rwa [update_self]
    · rw [update_of_ne hb]
      exact h.light b
  have hfree := free_step hover h.free hs
  cases Setup.step_iff.mp hs with
  | producer hx =>
    refine ⟨hfree, Producer.silent_of_leads hover hspin h.free h.silent (Memory.exec_leads hx),
      h.light, fun c => ?_⟩
    exact (Memory.exec_buffer_of_ne hx (by simp)).trans (h.buffer c)
  | call hc hx =>
    exact ⟨hfree, h.silent, hlight (Session.light_call hover (h.light _) hx), h.buffer⟩
  | consumer hi hx =>
    cases Session.looks hover hspin (h.light _) hi with
    | load ha hnext =>
      cases hx
      exact ⟨hfree, h.silent, hlight (hnext _), h.buffer⟩
  | @drain _ t _ _ hb =>
    cases t with
    | producer => exact ⟨hfree, h.silent, h.light, fun c => by simpa [Memory.land] using h.buffer c⟩
    | consumer c => rw [h.buffer c] at hb; cases hb

theorem Alike.drop {keep : ι → Bool} {τ : System ι} (hover : S.cfg.overflow = .overwrite)
    (hspin : S.cfg.wait.blocks = false) (hσ : Spare S σ) (h : Alike keep σ τ)
    (hl : l.kept keep = false) (hs : S.step l σ = some σ') : Alike keep σ' τ := by
  have hother {c : ι} (hc : keep c = false) (s : Session) (b : ι) (hb : keep b = true) :
      τ.consumer b = update σ.consumer c s b := by
    rw [update_of_ne fun e => by rw [e, hc] at hb; cases hb]
    exact h.consumer b hb
  cases Setup.step_iff.mp hs with
  | producer => cases hl
  | call => exact ⟨h.producer, hother hl _, h.cells, h.buffer⟩
  | consumer hi hx =>
    cases Session.looks hover hspin (hσ.light _) hi with
    | load ha hnext =>
      cases hx
      exact ⟨h.producer, hother hl _, h.cells, h.buffer⟩
  | @drain _ t _ _ hb =>
    cases t with
    | producer => cases hl
    | consumer c => rw [hσ.buffer c] at hb; cases hb

theorem Alike.keep {keep : ι → Bool} {τ : System ι} (hover : S.cfg.overflow = .overwrite)
    (hspin : S.cfg.wait.blocks = false) (hσ : Spare S σ) (hτ : Spare S τ) (h : Alike keep σ τ)
    (hl : l.kept keep = true) (hs : S.step l σ = some σ') :
    ∃ τ', S.step l τ = some τ' ∧ Alike keep σ' τ' := by
  have hsame {c : ι} (s : Session) (b : ι) (hb : keep b = true) :
      update τ.consumer c s b = update σ.consumer c s b := by
    by_cases hbc : b = c
    · rw [hbc, update_self, update_self]
    · rw [update_of_ne hbc, update_of_ne hbc]
      exact h.consumer b hb
  cases Setup.step_iff.mp hs with
  | producer hx =>
    obtain ⟨n, hn, hcells, hbuf⟩ := Memory.exec_agree (fun a ha => (h.cells a ha).symm)
      h.buffer.symm (Producer.code_simple hσ.free hσ.silent) hx
    refine ⟨_, Setup.step_iff.mpr (.producer (h.producer ▸ hn)), rfl, h.consumer,
      fun a ha => (hcells a ha).symm, hbuf.symm⟩
  | @call _ c k s hc hx =>
    rw [← h.consumer c hl] at hc hx
    exact ⟨_, Setup.step_iff.mpr (.call hc hx), h.producer, hsame s, h.cells, h.buffer⟩
  | @consumer _ c i s m hi hx =>
    cases Session.looks hover hspin (hσ.light _) hi with
    | @load a next ha hnext =>
      cases hx
      have hread : τ.memory.read (.consumer c) a = σ.memory.read (.consumer c) a := by
        rw [Memory.read, Memory.read, hσ.buffer, hτ.buffer]
        exact h.cells a ha
      refine ⟨_, Setup.step_iff.mpr (.consumer ((h.consumer c hl).symm ▸ hi) rfl), h.producer,
        fun b hb => ?_, h.cells, h.buffer⟩
      rw [hread]
      exact hsame _ b hb
  | @drain _ t e es hb =>
    cases t with
    | producer =>
      refine ⟨_, Setup.step_iff.mpr (.drain (h.buffer.trans hb)), h.producer, h.consumer,
        fun a ha => ?_, by simp [Memory.land]⟩
      by_cases hae : a = e.1
      · simp [Memory.land, hae]
      · simp [Memory.land, hae, h.cells a ha]
    | consumer c => rw [hσ.buffer c] at hb; cases hb

theorem isolation (S : Setup ι) (hover : S.cfg.overflow = .overwrite)
    (hspin : S.cfg.wait.blocks = false) (keep : ι → Bool) (fresh : Loc → Nat)
    (ls : List (Label ι)) (σ : System ι) (h : S.lts.run ls (S.initial fresh) = some σ) :
    ∃ τ, S.lts.run (ls.filter (Label.kept keep)) (S.initial fresh) = some τ ∧ Alike keep σ τ := by
  have hrun : ∃ τ, S.lts.run (ls.filter (Label.kept keep)) (S.initial fresh) = some τ ∧
      Spare S σ ∧ Spare S τ ∧ Alike keep σ τ := by
    refine Lts.run_filter (R := fun σ τ => Spare S σ ∧ Spare S τ ∧ Alike keep σ τ) ?_ ?_
      ⟨.initial fresh, .initial fresh, rfl, fun _ _ => rfl, fun _ _ => rfl, rfl⟩ h
    · rintro l σ σ' τ hl ⟨hσ, hτ, ha⟩ hs
      obtain ⟨τ', hstep, ha'⟩ := ha.keep hover hspin hσ hτ hl hs
      exact ⟨τ', hstep, hσ.step hover hspin hs, hτ.step hover hspin hstep, ha'⟩
    · rintro l σ σ' τ hl ⟨hσ, hτ, ha⟩ hs
      exact ⟨hσ.step hover hspin hs, hτ, ha.drop hover hspin hσ hl hs⟩
  obtain ⟨τ, hτ, -, -, halike⟩ := hrun
  exact ⟨τ, hτ, halike⟩

def readOne (c : Fin 2) : List (Label (Fin 2)) :=
  [.call c .construct, .call c .read, .consumer c, .consumer c, .call c (.viewByte 0),
    .consumer c, .call c .validate, .consumer c]

def crowdRun : List (Label (Fin 2)) :=
  List.replicate 6 .producer ++ [.call 1 .construct, .call 1 .read, .consumer 1] ++
    List.replicate 5 (.drain .producer) ++ readOne 0

theorem isolation_reader : ∃ σ τ,
    crowdSetup.lts.run crowdRun (crowdSetup.initial fun _ => 0) = some σ ∧
    (σ.consumer 1).obj.lastStatus = .empty ∧
    crowdSetup.lts.run (List.replicate 6 .producer ++ List.replicate 5 (.drain .producer) ++
      readOne 0) (crowdSetup.initial fun _ => 0) = some τ ∧
    (τ.consumer 0).view = some ⟨1, [(0, 0)]⟩ ∧ Alike (fun c => c = 0) σ τ := by
  have hrun : ((crowdSetup.lts.run crowdRun (crowdSetup.initial fun _ => 0)).any fun σ =>
      (σ.consumer 0).view = some ⟨1, [(0, 0)]⟩ &&
        (σ.consumer 1).obj.lastStatus = .empty) = true := by
    decide +kernel
  obtain ⟨σ, hσ, hp⟩ := (Option.any_eq_true _ _).mp hrun
  simp only [Bool.and_eq_true, decide_eq_true_eq] at hp
  obtain ⟨τ, hτ, halike⟩ :=
    isolation crowdSetup rfl rfl (fun c => c = 0) (fun _ => 0) crowdRun σ hσ
  exact ⟨σ, τ, hσ, hp.2, hτ, by rw [halike.consumer 0 rfl, hp.1], halike⟩

end Overwrite

end Shimmy
