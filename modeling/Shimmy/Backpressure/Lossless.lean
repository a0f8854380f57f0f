import Shimmy.Backpressure.Guard
import Shimmy.Ring.Whole

namespace Shimmy

open Concurrency Function

namespace Backpressure

structure Obtained (cfg : RingConfig) (s : Session) : Prop where
  constructed : s.pc.arriving = false
  cursor : ∃ i, s.cursor cfg = some i

variable {ι : Type} {S : Setup ι} {σ σ₀ σ' : System ι} {d : Pos} {c : ι}

def Loyal (attach : Bool) (S : Setup ι) (c : ι) : Prop :=
  ∀ s k, S.client c s k = true → follows attach s k = true

structure Lossless (S : Setup ι) (c : ι) (early : Nat) (σ : System ι) (d : Pos) : Prop where
  guarded : Guarded S c early σ d
  sequence : InSequence S.stream 0 (σ.consumer c)
  lastCall : (σ.consumer c).lastCall ≠ some .attachAtCurrent

def Early (S : Setup ι) (c : ι) (σ : System ι) : Prop :=
  σ.producer.begun ≤ S.cfg.capacity → ∃ d, Lossless S c (S.cfg.capacity + 1) σ d

def Steady (S : Setup ι) (c : ι) (σ : System ι) : Prop :=
  σ.producer.begun < 2 ^ 64 →
    (σ.consumer c).pc.arriving = false ∧ ∃ d, Lossless S c 0 σ d

theorem Obtained.clear (h : Obtained S.cfg (σ.consumer c)) (hs : S.Sound σ d)
    (hb : σ.producer.begun ≤ S.cfg.capacity) : Clear S c σ := by
  obtain ⟨i, hi⟩ := h.cursor
  have := Producer.passed_le_begun (i := i) hs.wf
  exact ⟨i, hi, by omega⟩

theorem Lossless.initial (early : Nat) (fresh : Loc → Nat) :
    Lossless S c early (S.initial fresh) ⟨0, .fresh⟩ where
  guarded := .initial fresh
  sequence := ⟨rfl, fun k e h => (by cases h)⟩
  lastCall h := by cases h

theorem Early.steady (h : Early S c σ) (hb : σ.producer.begun ≤ S.cfg.capacity)
    (hc : Obtained S.cfg (σ.consumer c)) : Steady S c σ := by
  obtain ⟨d, hd⟩ := h hb
  obtain ⟨hsound, howned, hpaced, hbuffers, -⟩ := hd.guarded
  exact fun _ => ⟨hc.constructed, d,
    ⟨hsound, howned, hpaced, hbuffers, fun _ _ => .inr (hc.clear hsound hb)⟩, hd.sequence,
    hd.lastCall⟩

variable [DecidableEq ι] {l : Label ι} {early : Nat}

theorem Lossless.step (hbp : S.cfg.overflow = .backpressure) (hm : S.model = .tso)
    (hclient : Loyal false S c) (h : Lossless S c early σ d) (hearly : early ≤ S.cfg.capacity + 1)
    (hb : σ'.producer.begun < 2 ^ 64)
    (hstill : σ.producer.begun < early → σ'.producer.begun < early)
    (hscan : l = .producer → early ≤ σ.producer.begun → ∀ i seq, ¬ StaleScan S c σ i seq)
    (harrive : (σ.consumer c).pc.arriving = true → (σ'.consumer c).pc.arriving = false →
      σ'.producer.begun < early ∨ Clear S c σ')
    (hs : S.step l σ = some σ') : Lossless S c early σ' (S.advance l d) := by
  obtain ⟨hguarded, hchange⟩ := h.guarded.step hbp hm hclient hearly hb hstill hscan harrive hs
  have hsound := h.guarded.sound
  refine ⟨hguarded, h.sequence.change hchange (fun hp => ?_) ?_, ?_⟩
  · have hserves := h.guarded.paced.rounds.serves
    rw [hp] at hserves
    exact h.lastCall hserves
  · exact (hsound.stampedCount_le_begun.trans (Setup.begun_le hs)).trans_lt hb
  · rcases hsound.lastCall_step hs c with hl | ⟨k, hk, hl⟩
    · exact hl ▸ h.lastCall
    · rw [hl]
      rintro ⟨rfl⟩
      exact absurd (hclient _ _ hk) (by simp [follows])

theorem Early.step (hbp : S.cfg.overflow = .backpressure) (hm : S.model = .tso)
    (hclient : Loyal false S c) (h : Early S c σ) (hs : S.step l σ = some σ') : Early S c σ' := by
  intro hb
  have hle := Setup.begun_le hs
  have hcap := S.cfg.capacity_lt
  obtain ⟨d, hd⟩ := h (hle.trans hb)
  exact ⟨_, hd.step hbp hm hclient le_rfl (by omega) (fun _ => by omega) (fun _ _ => by omega)
    (fun _ _ => .inl (by omega)) hs⟩

def Calm (l : Label ι) (σ : System ι) : Prop := (∃ t, l = .drain t) ∨ Setup.BuffersEmpty σ

theorem Steady.step (hbp : S.cfg.overflow = .backpressure) (hm : S.model = .tso)
    (hclient : Loyal false S c) (h : Steady S c σ) (hcalm : Calm l σ)
    (hs : S.step l σ = some σ') : Steady S c σ' := by
  intro hb
  obtain ⟨hlive, d, hd⟩ := h ((Setup.begun_le hs).trans_lt hb)
  refine ⟨hd.guarded.sound.arriving_step hs hlive, _, hd.step hbp hm hclient (Nat.zero_le _) hb
    (fun h0 => absurd h0 (Nat.not_lt_zero _)) ?_ (fun ha => by rw [hlive] at ha; cases ha) hs⟩
  rintro rfl - i seq hstale
  rcases hcalm with ⟨t, ht⟩ | hempty
  · cases ht
  · have hhead := hstale.buffered
    rw [hempty] at hhead
    cases hhead

theorem early_of_reachable (hbp : S.cfg.overflow = .backpressure) (hm : S.model = .sc)
    (hclient : Loyal false S c) (h₀ : S.Reachable σ₀) :
    Setup.BuffersEmpty σ₀ ∧ Early S.tso c σ₀ := by
  obtain ⟨fresh, hr⟩ := h₀
  obtain ⟨htso, hempty⟩ :=
    Setup.reach_tso hm (fun _ _ _ h => h) (fun _ _ => trivial) (fun _ => rfl) hr
  exact ⟨hempty, htso.invariant (fun _ => ⟨_, .initial _ fresh⟩) fun l u v hu _ hs =>
    hu.step hbp rfl hclient hs⟩

theorem steady_of_reaches (hbp : S.cfg.overflow = .backpressure) (hm : S.model = .sc)
    (hclient : Loyal false S c) (h₀ : S.Reachable σ₀)
    (hearly : σ₀.producer.begun ≤ S.cfg.capacity) (hc : Obtained S.cfg (σ₀.consumer c))
    (hr : S.lts.Reaches σ₀ σ) : Steady S.tso c σ := by
  obtain ⟨hempty, hfirst⟩ := early_of_reachable hbp hm hclient h₀
  have htso : S.tso.lts.Reach Calm σ₀ σ :=
    (Setup.reach_tso hm (fun l σ h _ => .inr h) (fun t σ => .inl ⟨t, rfl⟩) hempty hr).1
  exact htso.invariant (hfirst.steady hearly hc) fun l u v hu hcalm hs =>
    hu.step hbp rfl hclient hcalm hs

theorem lossless (hbp : S.cfg.overflow = .backpressure) (hm : S.model = .sc)
    (hclient : Loyal false S c) (h₀ : S.Reachable σ₀)
    (hearly : σ₀.producer.begun ≤ S.cfg.capacity) (hc : Obtained S.cfg (σ₀.consumer c))
    (hr : S.lts.Reaches σ₀ σ) (hcount : σ.producer.begun < 2 ^ 64) :
    (σ.consumer c).obj.lastStatus ≠ .lapped ∧
    ((σ.consumer c).lastCall = some .validate → (σ.consumer c).pc = .idle →
      (σ.consumer c).validated = true) ∧
    (σ.consumer c).obj.next = (σ.consumer c).committed.length ∧
    ∀ k (e : Nat × Option View), (σ.consumer c).committed[k]? = some e →
      e.1 = k ∧ ∃ v, e.2 = some v ∧ v.Matches (S.stream k) := by
  obtain ⟨-, d, hd⟩ := steady_of_reaches hbp hm hclient h₀ hearly hc hr hcount
  have hpaced := hd.guarded.paced
  refine ⟨hpaced.status, fun hl hpc => hpaced.validated hl (by simp [hpc]), ?_, fun k e he => ?_⟩
  · simpa using hd.sequence.next
  · have hentry := hd.sequence.entries k e he
    rw [Nat.zero_add] at hentry
    exact hentry

def pairSetup : Setup (Fin 1) where
  cfg := .lone .backpressure .spin
  stream n := .ofByte n
  client _ := follows false
  model := .sc
  process _ := ⟨0, 0⟩

def joinRun : List (Label (Fin 1)) := [.call 0 .construct, .consumer 0, .consumer 0]

def commitRun : List (Label (Fin 1)) :=
  List.replicate 5 .producer ++
    [.call 0 .read, .consumer 0, .consumer 0, .call 0 (.viewByte 0), .consumer 0,
      .call 0 .validate, .consumer 0, .call 0 .commit, .consumer 0]

theorem lossless_committed : ∃ σ₀ σ, pairSetup.Reachable σ₀ ∧ pairSetup.lts.Reaches σ₀ σ ∧
    (σ.consumer 0).committed = [(0, some ⟨1, [(0, 0)]⟩)] ∧
    View.Matches ⟨1, [(0, 0)]⟩ (pairSetup.stream 0) := by
  obtain ⟨σ₀, σ, hr₀, hp, hr, hq⟩ := Lts.exists_of_runs (M := pairSetup.lts)
    (fun _ _ => true) (fun σ : System (Fin 1) => σ.producer.begun ≤ pairSetup.cfg.capacity &&
      (σ.consumer 0).pc.arriving = false && (σ.consumer 0).cursor pairSetup.cfg = some 0)
    (fun σ : System (Fin 1) => σ.producer.begun < 2 ^ 64 &&
      (σ.consumer 0).committed = [(0, some ⟨1, [(0, 0)]⟩)])
    joinRun commitRun (pairSetup.initial fun _ => 0) (by decide +kernel)
  simp only [Bool.and_eq_true, decide_eq_true_eq] at hp hq
  obtain ⟨⟨hearly, hlive⟩, hcursor⟩ := hp
  obtain ⟨hcount, hcommitted⟩ := hq
  have hall := lossless (S := pairSetup) (c := 0) rfl rfl (fun s k h => h) ⟨_, hr₀⟩ hearly
    ⟨hlive, 0, hcursor⟩ hr.reaches hcount
  obtain ⟨-, v, hv, hmatch⟩ := hall.2.2.2 0 _ (by rw [hcommitted]; rfl)
  cases hv
  exact ⟨σ₀, σ, ⟨_, hr₀⟩, hr.reaches, hcommitted, hmatch⟩

def wrapSetup : Setup (Fin 1) where
  cfg :=
    { RingConfig.lone .backpressure .spin with
      capacity := 4
      capacity_ge := by decide
      capacity_pow2 := by decide
      sizeof_lt := by decide }
  stream _ := .empty 64
  client _ := follows false
  model := .sc
  process _ := ⟨0, 0⟩

structure Lockstep (n : Nat) (σ : System (Fin 1)) : Prop where
  producer : σ.producer = ⟨.idle, n⟩
  quiet : ∀ t, σ.memory.buffer t = [] ∧ σ.memory.parked t = none
  pc : (σ.consumer 0).pc = .idle
  next : (σ.consumer 0).obj.next = n % 2 ^ 64
  cursorId : (σ.consumer 0).obj.cursorId = 0
  nextPublish : σ.memory.cells .nextPublish = n % 2 ^ 64
  value : σ.memory.cells (.cursorValue 0) = n % 2 ^ 64
  stamps : ∀ q < n, n ≤ q + 4 → σ.memory.cells (.slotSeq (wrapSetup.cfg.slot q)) = q

namespace Lockstep

variable {n : Nat} {σ : System (Fin 1)}

theorem publish (h : Lockstep n σ) (hn : n < 2 ^ 64) :
    wrapSetup.lts.Reaches σ (Setup.written σ ⟨.idle, n + 1⟩
      (Ring.publish wrapSetup.cfg (.empty 64) σ.memory.cells)) := by
  have hq : Setup.Quiet σ := ⟨(h.quiet _).1, fun t => (h.quiet t).2⟩
  have hpub := Setup.reach_publish (S := wrapSetup) hq rfl (by rw [h.producer]) fun _ hcap j hj => by
    obtain rfl : j = 0 := Nat.lt_one_iff.mp hj
    rw [h.nextPublish, Nat.mod_eq_of_lt hn] at hcap ⊢
    rw [h.value, Nat.mod_eq_of_lt hn]
    exact .inr (Nat.sub_lt (Nat.lt_of_lt_of_le (by decide) hcap) (by decide))
  rw [Producer.returned, h.producer] at hpub
  exact hpub.reaches

theorem consume {τ : System (Fin 1)} (hpc : (τ.consumer 0).pc = .idle)
    (hbuf : τ.memory.buffer (.consumer 0) = []) (hid : (τ.consumer 0).obj.cursorId = 0)
    (hnext : (τ.consumer 0).obj.next = n)
    (hstamp : τ.memory.cells (.slotSeq (wrapSetup.cfg.slot n)) = n) :
    ∃ s, wrapSetup.lts.Reaches τ (Setup.seated τ 0 s
        (update τ.memory.cells (.cursorValue 0) ((n + 1) % 2 ^ 64))) ∧
      s.pc = .idle ∧ s.obj.next = (n + 1) % 2 ^ 64 ∧ s.obj.cursorId = 0 := by
  have hread := Setup.reach_read (S := wrapSetup) (σ := τ) (c := 0) rfl hpc hbuf
  generalize hs : (τ.consumer 0).readWhole wrapSetup.cfg τ.memory.cells = s at hread
  have hobj : s.obj = ⟨n, n, 0, .ok⟩ := by
    simp [← hs, Session.readWhole, Consumer.doRead, hnext, hstamp, hid]
  have hlast : s.lastCall = some .read := by
    rw [← hs]
    rfl
  have hidle : s.pc = .idle := by
    rw [← hs]
    rfl
  have hopen : follows false s .validate = true := by
    simp [follows, Session.roundOpen, Call.inRound, hobj, hlast]
  have hconfirmed : follows false (s.validateWhole wrapSetup.cfg τ.memory.cells) .commit = true := by
    simp [follows, Session.confirmed, Session.roundOpen, Session.validateWhole, Call.inRound, hobj,
      hstamp]
  have hvalidate := Setup.reach_validate (S := wrapSetup) (c := 0)
    (σ := Setup.seated τ 0 s τ.memory.cells)
    (by rw [Setup.seated_consumer]; exact hopen) (by simpa using hidle) hbuf
  have hcommit := Setup.reach_commit (S := wrapSetup) (c := 0) (σ := Setup.seated τ 0
    (s.validateWhole wrapSetup.cfg τ.memory.cells) τ.memory.cells) rfl
    (by rw [Setup.seated_consumer]; exact hconfirmed) (by simp [Session.validateWhole])
  simp only [Setup.seated_seated, Setup.seated_consumer, Setup.seated_cells] at hvalidate hcommit
  refine ⟨(s.validateWhole wrapSetup.cfg τ.memory.cells).commitWhole,
    (hread.reaches.trans hvalidate.reaches).trans ?_, rfl, ?_, ?_⟩
  · have hcursor : Ring.setCursor wrapSetup.cfg
        (s.validateWhole wrapSetup.cfg τ.memory.cells).obj.commit τ.memory.cells =
          update τ.memory.cells (.cursorValue 0) ((n + 1) % 2 ^ 64) := by
      simp [Ring.setCursor, Session.cursorPc, Session.validateWhole, Consumer.commit, hobj,
        wrapSetup, RingConfig.lone, RingConfig.pair]
    rw [← hcursor]
    exact hcommit.reaches
  · simp [Session.commitWhole, Session.validateWhole, Consumer.commit, hobj]
  · simp [Session.commitWhole, Session.validateWhole, Consumer.commit, hobj]

theorem succ (h : Lockstep n σ) (hn : n < 2 ^ 64) :
    ∃ σ', wrapSetup.lts.Reaches σ σ' ∧ Lockstep (n + 1) σ' := by
  have hpub := h.publish hn
  generalize hcells : Ring.publish wrapSetup.cfg (.empty 64) σ.memory.cells = cells at hpub
  have hseq : σ.memory.cells .nextPublish = n := h.nextPublish.trans (Nat.mod_eq_of_lt hn)
  have hstamp : cells (.slotSeq (wrapSetup.cfg.slot n)) = n := by
    have hself : Ring.publish wrapSetup.cfg (.empty 64) σ.memory.cells
        (.slotSeq (wrapSetup.cfg.slot (σ.memory.cells .nextPublish))) =
          σ.memory.cells .nextPublish := Ring.publish_stamp _
    rwa [hseq, hcells] at hself
  have hcount : cells .nextPublish = (n + 1) % 2 ^ 64 := by
    rw [← hcells, ← hseq]
    exact Ring.publish_nextPublish _
  obtain ⟨s, hconsume, hpc, hnext, hid⟩ := consume (τ := Setup.written σ ⟨.idle, n + 1⟩ cells)
    h.pc (h.quiet _).1 h.cursorId (h.next.trans (Nat.mod_eq_of_lt hn)) hstamp
  refine ⟨_, hpub.trans hconsume, rfl, h.quiet, ?_, ?_, ?_, ?_, ?_, ?_⟩
  · simpa using hpc
  · simpa using hnext
  · simpa using hid
  · simpa [Setup.written] using hcount
  · simp
  · intro q hq hle
    rcases Nat.lt_or_ge q n with hlt | hge
    · have hne : wrapSetup.cfg.slot q ≠ wrapSetup.cfg.slot n :=
        wrapSetup.cfg.slot_ne_of_close hlt hle
      have hkeep : cells (.slotSeq (wrapSetup.cfg.slot q)) =
          σ.memory.cells (.slotSeq (wrapSetup.cfg.slot q)) := by
        rw [← hcells]
        exact Ring.publish_stamp_of_ne _ (hseq ▸ hne)
      simpa [Setup.written, hkeep] using h.stamps q hlt (by omega)
    · obtain rfl : q = n := by omega
      simpa [Setup.written] using hstamp

theorem run (n : Nat) (hn : n ≤ 2 ^ 64) (h : Lockstep 0 σ) :
    ∃ σ', wrapSetup.lts.Reaches σ σ' ∧ Lockstep n σ' := by
  induction n with
  | zero => exact ⟨σ, .refl, h⟩
  | succ n ih =>
    obtain ⟨τ, hr, hτ⟩ := ih (by omega)
    obtain ⟨σ', hr', hσ'⟩ := hτ.succ (by omega)
    exact ⟨σ', hr.trans hr', hσ'⟩

end Lockstep

theorem lockstep_join : ∃ σ₀, wrapSetup.lts.run joinRun (wrapSetup.initial fun _ => 0) = some σ₀ ∧
    Lockstep 0 σ₀ ∧ Obtained wrapSetup.cfg (σ₀.consumer 0) :=
  ⟨_, rfl, ⟨rfl, fun _ => ⟨rfl, rfl⟩, rfl, rfl, rfl, rfl, rfl, fun _ h => by cases h⟩, rfl, 0, rfl⟩

theorem lossless_wraps : ∃ σ₀ σ, wrapSetup.Reachable σ₀ ∧
    σ₀.producer.begun ≤ wrapSetup.cfg.capacity ∧ Obtained wrapSetup.cfg (σ₀.consumer 0) ∧
    wrapSetup.lts.Reaches σ₀ σ ∧ (σ.consumer 0).obj.lastStatus = .lapped := by
  obtain ⟨σ₀, hjoin, hlock, hobtained⟩ := lockstep_join
  obtain ⟨σ, hr, hσ⟩ := hlock.run (2 ^ 64) le_rfl
  have hread := Setup.reach_read (S := wrapSetup) (c := 0) rfl hσ.pc (hσ.quiet _).1
  refine ⟨σ₀, _, ⟨_, Lts.reach_of_run hjoin⟩, ?_, hobtained, hr.trans hread.reaches, ?_⟩
  · rw [hlock.producer]
    exact Nat.zero_le _
  · have hstamp : σ.memory.cells (.slotSeq (wrapSetup.cfg.slot 0)) = 2 ^ 64 - 4 :=
      hσ.stamps (2 ^ 64 - 4) (by decide) (by decide)
    have hnext : (σ.consumer 0).obj.next = 0 := hσ.next
    have hlapped : Consumer.classify (2 ^ 64 - 4) 0 = .lapped := by decide
    simp only [Setup.seated_consumer, Session.readWhole, Consumer.doRead, hnext, hstamp]
    rw [if_neg (by decide)]
    exact hlapped

end Backpressure

end Shimmy
