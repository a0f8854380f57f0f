import Shimmy.Backpressure.Lossless

namespace Shimmy

open Concurrency Function

def Producer.overwriting (cfg : RingConfig) (p : Producer) (i : Nat) : Bool :=
  match p.pc with
  | .copy seq _ => cfg.slot seq = i
  | .stamp seq => cfg.slot seq = i
  | _ => false

theorem Producer.overwriting_of_touched {cfg : RingConfig} {stream : Nat → Message cfg.blockSize}
    {p : Producer} (hbp : cfg.overflow = .backpressure) (hwf : p.Wf cfg stream)
    (h : (p.pos cfg stream).stampedCount < (p.pos cfg stream).touched) :
    p.overwriting cfg (cfg.slot (p.pos cfg stream).count) = true := by
  obtain ⟨pc, n⟩ := p
  cases pc with
  | copy seq j =>
    obtain rfl : seq = n := hwf.1
    exact decide_eq_true rfl
  | stamp seq =>
    obtain rfl : seq = n := hwf
    exact decide_eq_true rfl
  | _ => simp [pos, Pos.stampedCount, Pos.touched, hbp] at h

theorem Pos.resident_of_settled {cfg : RingConfig} {d : Pos} {s : Nat}
    (hbp : cfg.overflow = .backpressure) (hs : s < d.stampedCount)
    (hlt : d.stampedCount < 2 ^ 64) (h : d.stampAt cfg (cfg.slot s) = s)
    (hsettled : d.stampedCount < d.touched → cfg.slot d.count ≠ cfg.slot s) :
    d.Resident cfg s := by
  obtain ⟨-, hle, -⟩ := le_of_stampAt h (by simp [hbp]) (by unfold emptySeq; omega) (cfg.slot_lt s)
  refine ⟨hs, ?_⟩
  by_contra hover
  have hc := d.count_le_stampedCount
  have ht := d.touched_le
  have hcount : d.count = s + cfg.capacity := by omega
  refine hsettled (by omega) ?_
  rw [hcount, cfg.slot_eq_mod, cfg.slot_eq_mod, Nat.add_mod_right]

theorem Setup.Sound.resident {ι : Type} {S : Setup ι} {σ : System ι} {d : Pos}
    (hbp : S.cfg.overflow = .backpressure) (hs : S.Sound σ d) (hempty : Setup.BuffersEmpty σ)
    (hb : σ.producer.begun < 2 ^ 64) {s : Nat} (hlt : s < d.stampedCount)
    (h : σ.memory.cells (.slotSeq (S.cfg.slot s)) = s)
    (hfree : σ.producer.overwriting S.cfg (S.cfg.slot s) = false) : d.Resident S.cfg s := by
  have hpos : d = σ.producer.pos S.cfg S.stream := by
    have hp := hs.pending
    rwa [hempty] at hp
  refine Pos.resident_of_settled hbp hlt (hs.stampedCount_le_begun.trans_lt hb)
    ((hs.image.stamps _ (S.cfg.slot_lt s)).symm.trans h) fun hmid heq => ?_
  rw [hpos] at hmid heq
  rw [← heq, Producer.overwriting_of_touched hbp hs.wf hmid] at hfree
  cases hfree

namespace Backpressure

structure Reading (cfg : RingConfig) (stream : Nat → Message cfg.blockSize) (d : Pos)
    (s : Session) : Prop where
  rounds : Rounds cfg stream d s
  next : s.obj.next ≤ d.stampedCount

variable {ι : Type} {S : Setup ι} {σ σ₀ σ' : System ι} {d : Pos} {c : ι}

def Undisturbed (S : Setup ι) (c : ι) (l : Label ι) (σ : System ι) : Prop :=
  l = .consumer c → (σ.consumer c).cursor S.cfg = none → (σ.consumer c).pc.validating = true →
    σ.producer.overwriting S.cfg (S.cfg.slot (σ.consumer c).obj.readSeq) = false

structure Bare (S : Setup ι) (c : ι) (σ : System ι) (d : Pos) : Prop where
  sound : S.Sound σ d
  owned : Owned S σ
  reading : Reading S.cfg S.stream d (σ.consumer c)
  arrived : (σ.consumer c).pc.arriving = false
  cursor : (σ.consumer c).cursor S.cfg = none

variable [DecidableEq ι] {l : Label ι}

def Settled (S : Setup ι) (c : ι) (l : Label ι) (σ : System ι) : Prop :=
  (∃ t, l = .drain t) ∨ Setup.BuffersEmpty σ ∧ Undisturbed S c l σ

theorem Bare.step (hbp : S.cfg.overflow = .backpressure) (hm : S.model = .tso)
    (hclient : Loyal false S c) (h : Bare S c σ d) (hb : σ'.producer.begun < 2 ^ 64)
    (hsettled : Settled S c l σ) (hs : S.step l σ = some σ') : Bare S c σ' (S.advance l d) := by
  have hlt : d.stampedCount < 2 ^ 64 :=
    (h.sound.stampedCount_le_begun.trans (Setup.begun_le hs)).trans_lt hb
  refine ⟨h.sound.step hm hb hs, h.owned.step hbp hm h.sound hs, ?_,
    h.sound.arriving_step hs h.arrived,
    (h.owned.cursor_step hbp hm hs h.arrived).elim (fun hcur => hcur.trans h.cursor) id⟩
  refine h.sound.sessions_step (P := fun d b s => b = c → Reading S.cfg S.stream d s) hs
    ?_ ?_ ?_ ?_ c rfl
  · rintro b rfl
    exact h.reading
  · intro b s hbs hbc
    exact ⟨(hbs hbc).rounds.succ, (hbs hbc).next.trans d.stampedCount_le_succ⟩
  · rintro b k s hcl hcall rfl
    obtain ⟨hk, rfl⟩ := Session.call_eq_some.mp hcall
    obtain ⟨hrounds, hchange⟩ :=
      follows_change σ.memory.cells h.reading.rounds hk (hclient _ _ hcl)
    exact ⟨hrounds, next_le_stampedCount h.reading.next h.sound.image hchange hlt⟩
  · rintro b s hl hmoves rfl
    have hok (hc : σ.memory.cells (.slotSeq (S.cfg.slot (σ.consumer b).obj.next)) =
        (σ.consumer b).obj.next) : (σ.consumer b).obj.next < d.stampedCount :=
      Pos.lt_of_stampAt ((h.sound.image.stamps _ (S.cfg.slot_lt _)).symm.trans hc) (by simp [hbp])
        (.inl h.reading.next)
    obtain ⟨hempty, hfree⟩ := hsettled.resolve_left fun ⟨t, ht⟩ => by
      rw [hl] at ht
      cases ht
    obtain ⟨hrounds, hchange⟩ := h.reading.rounds.moves h.sound.image hok (fun hv hs' heq =>
      h.sound.resident hbp hempty ((Setup.begun_le hs).trans_lt hb) hs' heq
        (hfree hl h.cursor hv)) hmoves
    exact ⟨hrounds, next_le_stampedCount h.reading.next h.sound.image hchange hlt⟩

theorem reading_of_reaches (hbp : S.cfg.overflow = .backpressure) (hm : S.model = .sc)
    (hclient : Loyal false S c) (h₀ : S.Reachable σ₀)
    (hearly : σ₀.producer.begun ≤ S.cfg.capacity) (ha : (σ₀.consumer c).pc.arriving = false)
    (hr : S.lts.Reach (Undisturbed S c) σ₀ σ) (hcount : σ.producer.begun < 2 ^ 64) :
    ∃ d, S.Sound σ d ∧ Reading S.cfg S.stream d (σ.consumer c) := by
  cases hcursor : (σ₀.consumer c).cursor S.cfg with
  | some i =>
    obtain ⟨-, d, hd⟩ := steady_of_reaches hbp hm hclient h₀ hearly ⟨ha, i, hcursor⟩ hr.reaches hcount
    exact ⟨d, hd.guarded.sound.of_tso, hd.guarded.paced.rounds, hd.guarded.paced.next⟩
  | none =>
    obtain ⟨hempty, hfirst⟩ := early_of_reachable hbp hm hclient h₀
    obtain ⟨d, hd⟩ := hfirst hearly
    have htso : S.tso.lts.Reach (Settled S.tso c) σ₀ σ :=
      (Setup.reach_tso hm (fun l σ h hl => .inr ⟨h, hl⟩) (fun t σ => .inl ⟨t, rfl⟩) hempty hr).1
    have hbare : Bare S.tso c σ₀ d := ⟨hd.guarded.sound, hd.guarded.owned,
      ⟨hd.guarded.paced.rounds, hd.guarded.paced.next⟩, ha, hcursor⟩
    obtain ⟨d, hd⟩ := htso.invariant (I := fun σ => σ.producer.begun < 2 ^ 64 →
      ∃ d, Bare S.tso c σ d) (fun _ => ⟨d, hbare⟩) (fun l u v hu hsettled hs hb => by
        obtain ⟨d, hd⟩ := hu ((Setup.begun_le hs).trans_lt hb)
        exact ⟨_, hd.step hbp rfl hclient hb hsettled hs⟩) hcount
    exact ⟨d, hd.sound.of_tso, hd.reading⟩

theorem validated_exact (hbp : S.cfg.overflow = .backpressure) (hm : S.model = .sc)
    (hclient : Loyal false S c) (h₀ : S.Reachable σ₀)
    (hearly : σ₀.producer.begun ≤ S.cfg.capacity) (ha : (σ₀.consumer c).pc.arriving = false)
    (hr : S.lts.Reach (Undisturbed S c) σ₀ σ) (hcount : σ.producer.begun < 2 ^ 64)
    (hval : (σ.consumer c).validated = true) (v : View) (hv : (σ.consumer c).view = some v) :
    (σ.consumer c).obj.readSeq < σ.producer.begun ∧
      v.Matches (S.stream (σ.consumer c).obj.readSeq) := by
  obtain ⟨d, hd, hread⟩ := reading_of_reaches hbp hm hclient h₀ hearly ha hr hcount
  have hview := hread.rounds.view
  exact ⟨(hview.stamped (.inr (by simp [hv]))).trans_le hd.stampedCount_le_begun,
    hview.valid hval v hv⟩

def crowdedSetup : Setup (Fin 2) where
  cfg := .lone .backpressure .spin
  stream n := .ofByte n
  client _ := follows false
  model := .sc
  process _ := ⟨0, 0⟩

def crowdRun : List (Label (Fin 2)) :=
  [.call 0 .construct, .consumer 0, .consumer 0, .call 1 .construct, .consumer 1]

def readRun (c : Fin 2) : List (Label (Fin 2)) := [.call c .read, .consumer c, .consumer c]

def viewRun (c : Fin 2) : List (Label (Fin 2)) :=
  [.call c (.viewByte 0), .consumer c, .call c .validate, .consumer c]

theorem validated_exact_cursorless : ∃ σ₀ σ, crowdedSetup.Reachable σ₀ ∧
    (σ₀.consumer 1).cursor crowdedSetup.cfg = none ∧ crowdedSetup.lts.Reaches σ₀ σ ∧
    (σ.consumer 1).validated = true ∧
    View.Matches ⟨1, [(0, 0)]⟩ (crowdedSetup.stream (σ.consumer 1).obj.readSeq) := by
  obtain ⟨σ₀, σ, hr₀, hp, hr, hq⟩ := Lts.exists_of_runs (M := crowdedSetup.lts)
    (fun l σ => l ≠ .consumer 1 || σ.producer.overwriting crowdedSetup.cfg
      (crowdedSetup.cfg.slot (σ.consumer 1).obj.readSeq) = false)
    (fun σ : System (Fin 2) => σ.producer.begun ≤ crowdedSetup.cfg.capacity &&
      (σ.consumer 1).pc.arriving = false && (σ.consumer 1).cursor crowdedSetup.cfg = none)
    (fun σ : System (Fin 2) => σ.producer.begun < 2 ^ 64 && (σ.consumer 1).validated &&
      (σ.consumer 1).view = some ⟨1, [(0, 0)]⟩)
    crowdRun (List.replicate 5 .producer ++ readRun 1 ++ viewRun 1)
    (crowdedSetup.initial fun _ => 0) (by decide +kernel)
  simp only [Bool.and_eq_true, decide_eq_true_eq] at hp hq
  obtain ⟨⟨hearly, hlive⟩, hcursor⟩ := hp
  obtain ⟨⟨hcount, hval⟩, hview⟩ := hq
  have hundisturbed : crowdedSetup.lts.Reach (Undisturbed crowdedSetup 1) σ₀ σ := by
    refine hr.mono fun l u hl hlabel _ _ => ?_
    simpa [hlabel] using hl
  exact ⟨σ₀, σ, ⟨_, hr₀⟩, hcursor, hr.reaches, hval, (validated_exact (S := crowdedSetup) (c := 1)
    rfl rfl (fun s k h => h) ⟨_, hr₀⟩ hearly hlive hundisturbed hcount hval _ hview).2⟩

def tornRun : List (Label (Fin 2)) :=
  List.replicate 5 .producer ++ readRun 1 ++ readRun 0 ++
    [.call 0 .validate, .consumer 0, .call 0 .commit, .consumer 0] ++
    List.replicate 10 .producer ++ viewRun 1

theorem cursorless_torn : ∃ σ₀ σ, crowdedSetup.Reachable σ₀ ∧ σ₀.producer.begun = 0 ∧
    (∀ c, (σ₀.consumer c).pc.arriving = false) ∧ crowdedSetup.lts.Reaches σ₀ σ ∧
    (σ.consumer 1).validated = true ∧
    ∃ v, (σ.consumer 1).view = some v ∧
      ¬ v.Matches (crowdedSetup.stream (σ.consumer 1).obj.readSeq) := by
  obtain ⟨σ₀, σ, hr₀, hp, hr, hq⟩ := Lts.exists_of_runs (M := crowdedSetup.lts)
    (fun _ _ => true)
    (fun σ : System (Fin 2) => σ.producer.begun = 0 && (σ.consumer 0).pc.arriving = false &&
      (σ.consumer 1).pc.arriving = false)
    (fun σ : System (Fin 2) => (σ.consumer 1).validated &&
      (σ.consumer 1).view = some ⟨1, [(0, 2)]⟩ && (σ.consumer 1).obj.readSeq = 0)
    crowdRun tornRun (crowdedSetup.initial fun _ => 0) (by decide +kernel)
  simp only [Bool.and_eq_true, decide_eq_true_eq] at hp hq
  obtain ⟨⟨hnone, h0⟩, h1⟩ := hp
  obtain ⟨⟨hval, hview⟩, hseq⟩ := hq
  refine ⟨σ₀, σ, ⟨_, hr₀⟩, hnone, fun c => ?_, hr.reaches, hval, _, hview, fun hmatch => ?_⟩
  · match c with
    | 0 => exact h0
    | 1 => exact h1
  · have hbyte := hmatch.2 (0, 2) (by simp)
    rw [hseq] at hbyte
    exact absurd hbyte (by decide)

end Backpressure

end Shimmy
