import Shimmy.Backpressure.Lossless

namespace Shimmy

open Concurrency Function

namespace Session

variable {cfg : RingConfig} {cells : Loc → Nat} {s s' : Session}

theorem Moves.attaching (hm : s.Moves cfg cells s') (ha : s.pc.arriving = true)
    (ha' : s'.pc.arriving = false) (hs : s.pc.Serves s.lastCall)
    (hl : s.lastCall ≠ some .construct) :
    s.pc = .attachProduced ∧ s' = s.seek cfg (cells .nextPublish) := by
  have hregistered (id : Nat) (attach : Bool)
      (hlast : s.lastCall = some (if attach then .attachAtCurrent else .construct))
      (hidle : (s.registered id attach).pc.arriving = false) : False := by
    cases attach with
    | true => cases hidle
    | false => exact hl hlast
  cases hm with
  | control hn =>
    generalize s.pc = pc at hn ha
    cases hn with
    | claimed => cases ha'
    | occupied => cases ha'
    | _ => cases ha
  | registrationFailed hpc => exact (hregistered _ _ (by rwa [hpc] at hs) ha').elim
  | registered hpc => exact (hregistered _ _ (by rwa [hpc] at hs) ha').elim
  | attached hpc => exact ⟨hpc, rfl⟩
  | doRead hpc => rw [hpc] at ha; cases ha
  | viewLen hpc => rcases hpc with ⟨hpc, -⟩ | ⟨outCap, hpc, -⟩ <;> rw [hpc] at ha <;> cases ha
  | viewByte hpc => rcases hpc with ⟨hpc, -⟩ | ⟨n, hpc, -⟩ <;> rw [hpc] at ha <;> cases ha
  | copyValidate hpc => rw [hpc] at ha; cases ha
  | validate hpc => rw [hpc] at ha; cases ha
  | produced hpc => rw [hpc] at ha; cases ha

theorem cursor_seek (hp : s.pc.plain = true) {seq : Nat} :
    (s.seek cfg seq).cursor cfg = s.cursor cfg :=
  (SessionPc.cursor_of_plain (plain_cursorPc _)).trans (SessionPc.cursor_of_plain hp).symm

theorem arriving_call {k : Call} (hk : s.enabled k = true) (ha : s.pc.arriving = true)
    (hbp : cfg.overflow = .backpressure) : ((s.noteCall k).enter cfg k).pc.arriving = true := by
  have hidle : s.pc ≠ .idle := fun hpc => by rw [hpc] at ha; cases ha
  cases k with
  | construct => simp [enter, construct, hbp, SessionPc.arriving]
  | attachAtCurrent => simp [enter, construct, hbp, SessionPc.arriving]
  | _ => simp [enabled, hidle] at hk

end Session

namespace Backpressure

variable {ι : Type} {S : Setup ι} {σ σ₀ σ₁ σ' : System ι} {d : Pos} {c : ι}

structure Timely (S : Setup ι) (c : ι) (l : Label ι) (σ : System ι) : Prop where
  scan : l = .producer → ∀ i seq, ¬ StaleScan S c σ i seq
  attach : l = .consumer c → (σ.consumer c).pc = .attachProduced →
    ∃ i, (σ.consumer c).cursor S.cfg = some i ∧
      σ.producer.passed i ≤ σ.memory.cells .nextPublish + S.cfg.capacity

structure Attached (S : Setup ι) (c : ι) (known : Nat) (σ : System ι) (d : Pos) : Prop where
  guarded : Guarded S c 0 σ d
  known_le : known ≤ d.count
  lastCall : (σ.consumer c).lastCall ≠ some .construct
  sequence : (σ.consumer c).pc.arriving = false →
    ∃ p, known ≤ p ∧ InSequence S.stream p (σ.consumer c)

theorem Attached.initial (fresh : Loc → Nat) : Attached S c 0 (S.initial fresh) ⟨0, .fresh⟩ where
  guarded := .initial fresh
  known_le := le_rfl
  lastCall h := by cases h
  sequence h := by cases h

theorem Attached.called {known : Nat} (h : Attached S c known σ d)
    (ha : (σ.consumer c).pc.arriving = true) :
    Attached S c (σ.memory.cells .nextPublish) σ d where
  guarded := h.guarded
  known_le := h.guarded.sound.image.nextPublish.le
  lastCall := h.lastCall
  sequence hlive := by rw [ha] at hlive; cases hlive

structure Delivers (S : Setup ι) (c : ι) (p : Nat) (σ : System ι) : Prop where
  sequence : InSequence S.stream p (σ.consumer c)
  status : (σ.consumer c).obj.lastStatus ≠ .lapped
  validated : (σ.consumer c).lastCall = some .validate → (σ.consumer c).pc = .idle →
    (σ.consumer c).validated = true
  unwedged : ∀ seq i, σ.producer.pc = .awaitValue seq i →
    (σ.consumer c).cursor S.cfg = some i → (σ.consumer c).pc.departing = false →
    Consumer.classify (σ.memory.cells (.slotSeq (S.cfg.slot (σ.consumer c).obj.next)))
      (σ.consumer c).obj.next ≠ .lapped

theorem Attached.delivers {known : Nat} (h : Attached S c known σ d)
    (hlive : (σ.consumer c).pc.arriving = false) : ∃ p, known ≤ p ∧ Delivers S c p σ := by
  obtain ⟨p, hp, hseq⟩ := h.sequence hlive
  have hpaced := h.guarded.paced
  refine ⟨p, hp, hseq, hpaced.status, fun hl hpc => hpaced.validated hl (by simp [hpc]),
    fun seq i hpc hcur hstay => ?_⟩
  obtain ⟨j, -, hle⟩ := (h.guarded.guard hlive hstay).resolve_left (Nat.not_lt_zero _)
  have htouched : d.touched ≤ (σ.consumer c).obj.next + S.cfg.capacity :=
    h.guarded.sound.pending.touched_le.trans
      ((Producer.touched_le_passed h.guarded.sound.wf).trans hle)
  rw [h.guarded.sound.image.stamps _ (S.cfg.slot_lt _)]
  exact Pos.classify_ne_lapped htouched

variable {l : Label ι}

theorem begun_le_count (p : Producer) (cfg : RingConfig)
    (stream : Nat → Message cfg.blockSize) :
    p.begun ≤ (p.pos cfg stream).count + 1 := by
  obtain ⟨pc, n⟩ := p
  cases pc <;> simp [Producer.begun, Producer.pos]

def Served (S : Setup ι) (c : ι) (l : Label ι) (σ : System ι) : Prop :=
  l = .consumer c → (σ.consumer c).pc = .attachProduced → ∃ i, (σ.consumer c).cursor S.cfg = some i

theorem timely_of_empty (hs : S.Sound σ d) (hempty : Setup.BuffersEmpty σ)
    (hserved : Served S c l σ) : Timely S c l σ := by
  refine ⟨fun _ i seq hstale => ?_, fun hl hpc => ?_⟩
  · have hhead := hstale.buffered
    rw [hempty] at hhead
    cases hhead
  · obtain ⟨i, hi⟩ := hserved hl hpc
    have hpos : d = σ.producer.pos S.cfg S.stream := by
      have hp := hs.pending
      rwa [hempty] at hp
    have hbegun := begun_le_count σ.producer S.cfg S.stream
    have hpassed := Producer.passed_le_begun (i := i) hs.wf
    have hcap := S.cfg.capacity_pos
    refine ⟨i, hi, ?_⟩
    rw [hs.image.nextPublish, hpos]
    omega

def SettledServed (S : Setup ι) (c : ι) (l : Label ι) (σ : System ι) : Prop :=
  (∃ t, l = .drain t) ∨ Setup.BuffersEmpty σ ∧ Served S c l σ

theorem SettledServed.timely (h : SettledServed S c l σ) (hs : S.Sound σ d) : Timely S c l σ := by
  rcases h with ⟨t, rfl⟩ | ⟨hempty, hserved⟩
  · exact ⟨by simp, by simp⟩
  · exact timely_of_empty hs hempty hserved

variable [DecidableEq ι]

theorem Attached.clear {known : Nat} (hbp : S.cfg.overflow = .backpressure)
    (h : Attached S c known σ d) (htimely : Timely S c l σ) (hs : S.step l σ = some σ')
    (ha : (σ.consumer c).pc.arriving = true) (ha' : (σ'.consumer c).pc.arriving = false) :
    Clear S c σ' ∧ InSequence S.stream d.count (σ'.consumer c) := by
  cases Setup.step_iff.mp hs with
  | producer hx =>
    rw [ha] at ha'
    cases ha'
  | @call _ b k s hc hx =>
    rcases eq_or_ne c b with rfl | hcb
    · obtain ⟨hk, rfl⟩ := Session.call_eq_some.mp hx
      simp only [update_self] at ha'
      rw [Session.arriving_call hk ha hbp] at ha'
      cases ha'
    · simp only [update_of_ne hcb] at ha'
      rw [ha] at ha'
      cases ha'
  | @consumer _ b i s m hi hx =>
    rcases eq_or_ne c b with rfl | hcb
    · have hmoves := Session.moves_of_exec (fun a ha => h.guarded.sound.read_eq c ha) hi hx
      simp only [update_self] at ha' ⊢
      obtain ⟨hpc, rfl⟩ := hmoves.attaching ha ha' h.guarded.paced.rounds.serves h.lastCall
      obtain ⟨i, hcur, hle⟩ := htimely.attach rfl hpc
      have hempty := (h.guarded.paced.arriving ha).2
      have hnext : ((σ.consumer c).seek S.cfg (σ.memory.cells .nextPublish)).obj.next =
          σ.memory.cells .nextPublish := rfl
      have hkept : ((σ.consumer c).seek S.cfg (σ.memory.cells .nextPublish)).cursor S.cfg = some i :=
        (Session.cursor_seek (by rw [hpc]; rfl)).trans hcur
      refine ⟨⟨i, by simpa using hkept, by simpa [hnext] using hle⟩, ?_, fun k e he => ?_⟩
      · rw [show (Session.seek S.cfg _ _).committed = _ from hempty]
        exact h.guarded.sound.image.nextPublish
      · rw [show (Session.seek S.cfg _ _).committed = _ from hempty] at he
        cases he
    · simp only [update_of_ne hcb] at ha'
      rw [ha] at ha'
      cases ha'
  | drain hb =>
    rw [ha] at ha'
    cases ha'

theorem Attached.step {known : Nat} (hbp : S.cfg.overflow = .backpressure) (hm : S.model = .tso)
    (hclient : Loyal true S c) (h : Attached S c known σ d) (hb : σ'.producer.begun < 2 ^ 64)
    (htimely : Timely S c l σ) (hs : S.step l σ = some σ') :
    Attached S c known σ' (S.advance l d) := by
  obtain ⟨hguarded, hchange⟩ := h.guarded.step hbp hm hclient (Nat.zero_le _) hb
    (fun h0 => absurd h0 (Nat.not_lt_zero _)) (fun hl _ => htimely.scan hl)
    (fun ha ha' => .inr (h.clear hbp htimely hs ha ha').1) hs
  refine ⟨hguarded, ?_, ?_, ?_⟩
  · unfold Setup.advance
    split
    · exact h.known_le.trans d.count_le_succ
    · exact h.known_le
  · rcases h.guarded.sound.lastCall_step hs c with hl | ⟨k, hk, hl⟩
    · exact hl ▸ h.lastCall
    · rw [hl]
      rintro ⟨rfl⟩
      exact absurd (hclient _ _ hk) (by simp [follows])
  · intro ha'
    cases ha : (σ.consumer c).pc.arriving with
    | true => exact ⟨d.count, h.known_le, (h.clear hbp htimely hs ha ha').2⟩
    | false =>
      obtain ⟨p, hp, hseq⟩ := h.sequence ha
      refine ⟨p, hp, hseq.change hchange (fun hpc => ?_) ?_⟩
      · rw [hpc] at ha
        cases ha
      · exact (h.guarded.sound.stampedCount_le_begun.trans (Setup.begun_le hs)).trans_lt hb

def Attaching (S : Setup ι) (c : ι) (known : Nat) (σ : System ι) : Prop :=
  σ.producer.begun < 2 ^ 64 → ∃ d, Attached S c known σ d

theorem Attaching.step {known : Nat} (hbp : S.cfg.overflow = .backpressure) (hm : S.model = .tso)
    (hclient : Loyal true S c) (h : Attaching S c known σ)
    (htimely : ∀ d, S.Sound σ d → Timely S c l σ) (hs : S.step l σ = some σ') :
    Attaching S c known σ' := fun hb =>
  have ⟨_, hd⟩ := h ((Setup.begun_le hs).trans_lt hb)
  ⟨_, hd.step hbp hm hclient hb (htimely _ hd.guarded.sound) hs⟩

theorem Attaching.called {known : Nat} (h : Attaching S c known σ)
    (hcall : S.step (.call c .attachAtCurrent) σ = some σ') :
    Attaching S c (σ.memory.cells .nextPublish) σ := fun hb => by
  obtain ⟨d, hd⟩ := h hb
  refine ⟨d, hd.called ?_⟩
  cases Setup.step_iff.mp hcall with
  | call hc hx =>
    rw [of_decide_eq_true (Session.call_eq_some.mp hx).1]
    rfl

theorem attach_lossless {fresh : Loc → Nat} (hbp : S.cfg.overflow = .backpressure)
    (hm : S.model = .tso) (hclient : Loyal true S c)
    (hr₀ : S.lts.Reach (Timely S c) (S.initial fresh) σ₀)
    (hcall : S.step (.call c .attachAtCurrent) σ₀ = some σ₁)
    (hr : S.lts.Reach (Timely S c) σ₁ σ) (hcount : σ.producer.begun < 2 ^ 64)
    (hlive : (σ.consumer c).pc.arriving = false) :
    ∃ p, σ₀.memory.cells .nextPublish ≤ p ∧ Delivers S c p σ := by
  have hstep {known : Nat} (l : Label ι) (u v : System ι) (hu : Attaching S c known u)
      (htimely : Timely S c l u) (hs : S.step l u = some v) : Attaching S c known v :=
    hu.step hbp hm hclient (fun _ _ => htimely) hs
  have hfirst : Attaching S c 0 σ₀ := hr₀.invariant (fun _ => ⟨_, .initial fresh⟩) hstep
  have hcalled := hstep _ _ _ (hfirst.called hcall) ⟨by simp, by simp⟩ hcall
  obtain ⟨d, hd⟩ := hr.invariant hcalled hstep hcount
  exact hd.delivers hlive

def sendRun {ι : Type} : List (Label ι) :=
  List.replicate 5 .producer ++ List.replicate 4 (.drain .producer)

def successionSetup : Setup (Fin 2) where
  cfg := .lone .backpressure .spin
  stream n := .ofByte n
  client c := follows (c = 1)
  model := .tso
  process _ := ⟨0, 0⟩

def predecessorRun : List (Label (Fin 2)) :=
  [.call 0 .construct, .consumer 0, .consumer 0, .drain (.consumer 0), .call 0 .destroy,
    .consumer 0, .consumer 0, .drain (.consumer 0), .drain (.consumer 0)]

-- 1 reuses the cursor of 0, and the producer is at its load of the stale value meanwhile.
def reattachedRun : List (Label (Fin 2)) :=
  [.consumer 1, .producer, .producer, .consumer 1, .drain (.consumer 1), .producer, .consumer 1,
    .consumer 1, .drain (.consumer 1)] ++ List.replicate 6 .producer ++
    List.replicate 4 (.drain .producer) ++
    [.call 1 .read, .consumer 1, .consumer 1, .call 1 (.viewByte 0), .consumer 1,
      .call 1 .validate, .consumer 1, .call 1 .commit, .consumer 1]

def timely {ι : Type} [DecidableEq ι] (S : Setup ι) (c : ι) (l : Label ι) (σ : System ι) : Bool :=
  (l ≠ .producer || (σ.memory.buffer (.consumer c)).isEmpty) &&
    (l ≠ .consumer c || (σ.consumer c).pc ≠ .attachProduced ||
      ((σ.consumer c).cursor S.cfg = some 0 &&
        σ.producer.passed 0 ≤ σ.memory.cells .nextPublish + S.cfg.capacity))

theorem timely_iff (l : Label ι) (σ : System ι) (h : timely S c l σ = true) : Timely S c l σ := by
  simp only [timely, Bool.and_eq_true, Bool.or_eq_true, decide_eq_true_eq] at h
  obtain ⟨hscan, hattach⟩ := h
  refine ⟨fun hl i seq hstale => ?_, fun hl hpc => ⟨0, ?_⟩⟩
  · have hhead := hstale.buffered
    rw [List.isEmpty_iff.mp (hscan.resolve_left (by simpa using hl))] at hhead
    cases hhead
  · rcases hattach with (hne | hne) | h
    · exact absurd hl hne
    · exact absurd hpc hne
    · exact h

theorem attach_lossless_committed : ∃ σ, successionSetup.Reachable σ ∧
    (σ.consumer 0).pc = .dead ∧ (σ.consumer 1).committed = [(2, some ⟨1, [(0, 2)]⟩)] ∧
    View.Matches ⟨1, [(0, 2)]⟩ (successionSetup.stream 2) := by
  obtain ⟨σ₀, hr₀, hp⟩ := Lts.exists_of_runIf (M := successionSetup.lts) (timely successionSetup 1)
    (fun σ : System (Fin 2) => (successionSetup.step (.call 1 .attachAtCurrent) σ).any fun σ =>
      (successionSetup.lts.runIf (timely successionSetup 1) reattachedRun σ).any fun σ =>
        σ.producer.begun < 2 ^ 64 && (σ.consumer 1).pc.arriving = false &&
          (σ.consumer 0).pc = .dead && (σ.consumer 1).committed = [(2, some ⟨1, [(0, 2)]⟩)])
    (predecessorRun ++ sendRun ++ sendRun) (successionSetup.initial fun _ => 0) (by decide +kernel)
  obtain ⟨σ₁, hcall, hp⟩ := (Option.any_eq_true _ _).mp hp
  obtain ⟨σ, hrun, hp⟩ := (Option.any_eq_true _ _).mp hp
  simp only [Bool.and_eq_true, decide_eq_true_eq] at hp
  obtain ⟨⟨⟨hcount, hlive⟩, hdead⟩, hcommitted⟩ := hp
  have hstep : successionSetup.lts.step (.call 1 .attachAtCurrent) σ₀ = some σ₁ := hcall
  have hr := Lts.reach_of_runIf hrun
  obtain ⟨p, -, hdelivers⟩ := attach_lossless (S := successionSetup) (c := 1) rfl rfl
    (fun s k h => h) (hr₀.mono timely_iff) hcall (hr.mono timely_iff) hcount hlive
  obtain ⟨hp, v, hv, hmatch⟩ := hdelivers.sequence.entries 0 _ (by rw [hcommitted]; rfl)
  cases hv
  rw [← hp] at hmatch
  exact ⟨σ, ⟨_, (hr₀.reaches.step trivial hstep).trans hr.reaches⟩, hdead, hcommitted, hmatch⟩

def wedgeRun : List (Label (Fin 2)) :=
  List.replicate 4 (.consumer 1) ++ sendRun ++ sendRun ++
    (List.replicate 7 .producer ++ List.replicate 4 (.drain .producer)) ++
    [.call 1 .read, .consumer 1, .drain (.consumer 1), .drain (.consumer 1), .producer, .producer]

theorem attach_wedges : ∃ σ₀ σ₁ σ, successionSetup.Reachable σ₀ ∧
    successionSetup.step (.call 1 .attachAtCurrent) σ₀ = some σ₁ ∧
    successionSetup.lts.Reaches σ₁ σ ∧ (σ.consumer 1).cursor successionSetup.cfg = some 0 ∧
    (σ.consumer 1).pc = .idle ∧ (σ.consumer 1).obj.lastStatus = .lapped ∧
    σ.producer.pc = .awaitValue 3 0 ∧ σ.memory.cells (.cursorValue 0) = 0 ∧
    (σ.consumer 1).obj.next = 0 ∧ σ.memory.cells (.slotSeq (successionSetup.cfg.slot 0)) = 2 := by
  obtain ⟨σ₀, hr₀, hp⟩ := Lts.exists_of_run (M := successionSetup.lts)
    (fun σ : System (Fin 2) => (successionSetup.step (.call 1 .attachAtCurrent) σ).any fun σ =>
      (successionSetup.lts.run wedgeRun σ).any fun σ =>
        (σ.consumer 1).cursor successionSetup.cfg = some 0 && (σ.consumer 1).pc = .idle &&
          (σ.consumer 1).obj.lastStatus = .lapped && σ.producer.pc = .awaitValue 3 0 &&
          σ.memory.cells (.cursorValue 0) = 0 && (σ.consumer 1).obj.next = 0 &&
          σ.memory.cells (.slotSeq (successionSetup.cfg.slot 0)) = 2)
    predecessorRun (successionSetup.initial fun _ => 0) (by decide +kernel)
  obtain ⟨σ₁, hcall, hp⟩ := (Option.any_eq_true _ _).mp hp
  obtain ⟨σ, hrun, hp⟩ := (Option.any_eq_true _ _).mp hp
  simp only [Bool.and_eq_true, decide_eq_true_eq] at hp
  obtain ⟨⟨⟨⟨⟨⟨hcursor, hpc⟩, hstatus⟩, hwait⟩, hvalue⟩, hnext⟩, hstamp⟩ := hp
  exact ⟨σ₀, σ₁, σ, ⟨_, hr₀⟩, hcall, Lts.reach_of_run hrun, hcursor, hpc, hstatus, hwait, hvalue,
    hnext, hstamp⟩

theorem attach_lossless_sc {fresh : Loc → Nat}
    (hbp : S.cfg.overflow = .backpressure) (hm : S.model = .sc) (hclient : Loyal true S c)
    (hr₀ : S.lts.Reach (Served S c) (S.initial fresh) σ₀)
    (hcall : S.step (.call c .attachAtCurrent) σ₀ = some σ₁)
    (hr : S.lts.Reach (Served S c) σ₁ σ) (hcount : σ.producer.begun < 2 ^ 64)
    (hlive : (σ.consumer c).pc.arriving = false) :
    ∃ p, σ₀.memory.cells .nextPublish ≤ p ∧ Delivers S c p σ := by
  have htso {σ σ' : System ι} (hempty : Setup.BuffersEmpty σ)
      (hr : S.lts.Reach (Served S c) σ σ') :
      S.tso.lts.Reach (SettledServed S.tso c) σ σ' ∧ Setup.BuffersEmpty σ' :=
    Setup.reach_tso hm (fun l σ h hl => .inr ⟨h, hl⟩) (fun t σ => .inl ⟨t, rfl⟩) hempty hr
  have hstep {known : Nat} (l : Label ι) (u v : System ι) (hu : Attaching S.tso c known u)
      (hl : SettledServed S.tso c l u) (hs : S.tso.step l u = some v) :
      Attaching S.tso c known v :=
    hu.step hbp rfl hclient (fun _ hd => hl.timely hd) hs
  obtain ⟨hr₀', hempty⟩ := htso (fun _ => rfl) hr₀
  have hfirst : Attaching S.tso c 0 σ₀ := hr₀'.invariant (fun _ => ⟨_, .initial fresh⟩) hstep
  have hserved : Served S c (.call c .attachAtCurrent) σ₀ := by simp [Served]
  have hcalled := hstep (.call c .attachAtCurrent) σ₀ σ₁ (hfirst.called hcall)
    (.inr ⟨hempty, hserved⟩) hcall
  have hone : S.lts.step (.call c .attachAtCurrent) σ₀ = some σ₁ := hcall
  obtain ⟨hr', -⟩ := htso (htso (fun _ => rfl) (hr₀.step hserved hone)).2 hr
  obtain ⟨d, hd⟩ := hr'.invariant hcalled hstep hcount
  obtain ⟨p, hp, hdelivers⟩ := hd.delivers hlive
  exact ⟨p, hp, hdelivers.sequence, hdelivers.status, hdelivers.validated, hdelivers.unwedged⟩

def relaySetup : Setup (Fin 2) := { successionSetup with model := .sc }

def relayRun : List (Label (Fin 2)) :=
  [.call 0 .construct, .consumer 0, .consumer 0, .call 0 .destroy, .consumer 0, .consumer 0] ++
    List.replicate 10 .producer

-- The producer meets the cursor while 1 is still between its claim and its commit to 2.
def handedRun : List (Label (Fin 2)) :=
  [.consumer 1, .producer, .producer, .consumer 1, .producer, .consumer 1, .consumer 1] ++
    List.replicate 6 .producer ++
    [.call 1 .read, .consumer 1, .consumer 1, .call 1 (.viewByte 0), .consumer 1,
      .call 1 .validate, .consumer 1, .call 1 .commit, .consumer 1]

def served (l : Label (Fin 2)) (σ : System (Fin 2)) : Bool :=
  l ≠ .consumer 1 || (σ.consumer 1).pc ≠ .attachProduced ||
    (σ.consumer 1).cursor relaySetup.cfg = some 0

theorem served_iff (l : Label (Fin 2)) (σ : System (Fin 2)) (h : served l σ = true) :
    Served relaySetup 1 l σ := by
  intro hl hpc
  simp only [served, Bool.or_eq_true, decide_eq_true_eq] at h
  rcases h with (hne | hne) | h
  · exact absurd hl hne
  · exact absurd hpc hne
  · exact ⟨0, h⟩

theorem attach_lossless_sc_reused : ∃ σ, relaySetup.Reachable σ ∧ (σ.consumer 0).pc = .dead ∧
    (σ.consumer 1).committed = [(2, some ⟨1, [(0, 2)]⟩)] ∧
    View.Matches ⟨1, [(0, 2)]⟩ (relaySetup.stream 2) := by
  obtain ⟨σ₀, hr₀, hp⟩ := Lts.exists_of_runIf (M := relaySetup.lts) served
    (fun σ : System (Fin 2) => (relaySetup.step (.call 1 .attachAtCurrent) σ).any fun σ =>
      (relaySetup.lts.runIf served handedRun σ).any fun σ =>
        σ.producer.begun < 2 ^ 64 && (σ.consumer 1).pc.arriving = false &&
          (σ.consumer 0).pc = .dead && (σ.consumer 1).committed = [(2, some ⟨1, [(0, 2)]⟩)])
    relayRun (relaySetup.initial fun _ => 0) (by decide +kernel)
  obtain ⟨σ₁, hcall, hp⟩ := (Option.any_eq_true _ _).mp hp
  obtain ⟨σ, hrun, hp⟩ := (Option.any_eq_true _ _).mp hp
  simp only [Bool.and_eq_true, decide_eq_true_eq] at hp
  obtain ⟨⟨⟨hcount, hlive⟩, hdead⟩, hcommitted⟩ := hp
  have hstep : relaySetup.lts.step (.call 1 .attachAtCurrent) σ₀ = some σ₁ := hcall
  have hr := Lts.reach_of_runIf hrun
  obtain ⟨p, -, hdelivers⟩ := attach_lossless_sc (S := relaySetup) (c := 1) rfl rfl
    (fun s k h => h) (hr₀.mono served_iff) hcall (hr.mono served_iff) hcount hlive
  obtain ⟨hp, v, hv, hmatch⟩ := hdelivers.sequence.entries 0 _ (by rw [hcommitted]; rfl)
  cases hv
  rw [← hp] at hmatch
  exact ⟨σ, ⟨_, (hr₀.reaches.step trivial hstep).trans hr.reaches⟩, hdead, hcommitted, hmatch⟩

end Backpressure

end Shimmy
