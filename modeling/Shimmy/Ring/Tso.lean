import Shimmy.Backpressure.Lossless
import Shimmy.Overwrite.Seqlock
import Shimmy.Wait.Wakeup

namespace Shimmy

open Concurrency Function

variable {ι : Type} {S : Setup ι} {σ σ₀ σ' : System ι} {c : ι}

namespace Overwrite

theorem seqlock_sound_tso [DecidableEq ι] (hover : S.cfg.overflow = .overwrite)
    (hm : S.model = .tso) (hseek : RealSeeks S) (h : S.Reachable σ)
    (hcount : σ.producer.begun < 2 ^ 64 - 2) (c : ι)
    (hval : (σ.consumer c).validated = true) (v : View) (hv : (σ.consumer c).view = some v) :
    (σ.consumer c).obj.readSeq < σ.producer.begun ∧
      v.Matches (S.stream (σ.consumer c).obj.readSeq) := by
  obtain ⟨fresh, hr⟩ := h
  have hinv : Invariant S σ := hr.invariant (invariant_initial fresh) fun l u v hu _ hs =>
    invariant_step hover hm hseek hu hs
  obtain ⟨d, hd, hc⟩ := hinv hcount
  have hview := (hc c).view
  have hstamped := hview.stamped (.inr (by simp [hv]))
  exact ⟨hstamped.trans_le hd.stampedCount_le_begun, hview.valid hval v hv⟩

def bufferedRun : List (Label (Fin 1)) :=
  List.replicate 6 .producer ++ List.replicate 5 (.drain .producer) ++ List.replicate 4 .producer ++
    [.call 0 .construct, .call 0 .read, .consumer 0, .consumer 0, .call 0 (.viewByte 0),
      .consumer 0, .call 0 .validate, .consumer 0]

theorem seqlock_sound_tso_buffered :
    ∃ σ, pairSetup.tso.Reachable σ ∧ σ.memory.buffer .producer ≠ [] ∧
      (σ.consumer 0).validated = true ∧
      View.Matches ⟨1, [(0, 0)]⟩ (pairSetup.stream (σ.consumer 0).obj.readSeq) := by
  obtain ⟨σ, hr, hp⟩ := Lts.exists_of_run (M := pairSetup.tso.lts) (fun σ : System (Fin 1) =>
    (σ.consumer 0).validated && (σ.consumer 0).view = some ⟨1, [(0, 0)]⟩ &&
      σ.producer.begun = 2 && !(σ.memory.buffer .producer).isEmpty)
    bufferedRun (pairSetup.tso.initial fun _ => 0) (by decide +kernel)
  simp only [Bool.and_eq_true, decide_eq_true_eq, Bool.not_eq_true', List.isEmpty_eq_false_iff] at hp
  obtain ⟨⟨⟨hval, hview⟩, hbegun⟩, hbuffer⟩ := hp
  have hsound := seqlock_sound_tso (S := pairSetup.tso) rfl rfl (fun c s seq h => by cases h)
    ⟨_, hr⟩ (by omega) 0 hval _ hview
  exact ⟨σ, ⟨_, hr⟩, hbuffer, hval, hsound.2⟩

end Overwrite

namespace Backpressure

open Wait

def Landed (S : Setup ι) (c : ι) (σ : System ι) : Prop :=
  σ.producer.begun < 2 ^ 64 →
    (σ.consumer c).pc.arriving = false ∧ Grounded S c σ ∧ ∃ d, Lossless S c 0 σ d

theorem Early.landed (h : Early S c σ) (hb : σ.producer.begun ≤ S.cfg.capacity)
    (hc : Obtained S.cfg (σ.consumer c)) (hempty : σ.memory.buffer (.consumer c) = []) :
    Landed S c σ := by
  obtain ⟨d, hd⟩ := h hb
  exact fun hcount =>
    ⟨hc.constructed, .of_empty hd.guarded hc.constructed hempty, (h.steady hb hc hcount).2⟩

theorem Landed.step [DecidableEq ι] {l : Label ι} (hbp : S.cfg.overflow = .backpressure)
    (hm : S.model = .tso) (hclient : Loyal false S c) (h : Landed S c σ)
    (hs : S.step l σ = some σ') : Landed S c σ' := by
  intro hb
  obtain ⟨hlive, hg, d, hd⟩ := h ((Setup.begun_le hs).trans_lt hb)
  have hsound := hd.guarded.sound
  have hlt : d.stampedCount < 2 ^ 64 :=
    (hsound.stampedCount_le_begun.trans (Setup.begun_le hs)).trans_lt hb
  have hchange := (hd.guarded.paced_step hbp hclient (Nat.zero_le _) hlt hs).2
  have hle := hd.guarded.paced.next_le hchange hlt
  exact ⟨hsound.arriving_step hs hlive, hg.step hbp hm hd.guarded hlive hle hs, _,
    hd.step hbp hm hclient (Nat.zero_le _) hb (fun h0 => absurd h0 (Nat.not_lt_zero _))
      (fun _ _ _ _ => hg.not_stale) (fun ha => by rw [hlive] at ha; cases ha) hs⟩

theorem lossless_tso [DecidableEq ι] (hbp : S.cfg.overflow = .backpressure)
    (hm : S.model = .tso) (hclient : Loyal false S c) (h₀ : S.Reachable σ₀)
    (hearly : σ₀.producer.begun ≤ S.cfg.capacity) (hc : Obtained S.cfg (σ₀.consumer c))
    (hempty : σ₀.memory.buffer (.consumer c) = []) (hr : S.lts.Reaches σ₀ σ)
    (hcount : σ.producer.begun < 2 ^ 64) :
    (σ.consumer c).obj.lastStatus ≠ .lapped ∧
    ((σ.consumer c).lastCall = some .validate → (σ.consumer c).pc = .idle →
      (σ.consumer c).validated = true) ∧
    (σ.consumer c).obj.next = (σ.consumer c).committed.length ∧
    (∀ k (e : Nat × Option View), (σ.consumer c).committed[k]? = some e →
      e.1 = k ∧ ∃ v, e.2 = some v ∧ v.Matches (S.stream k)) ∧
    ((σ.consumer c).pc.departing = false →
      σ.producer.sent ≤ (σ.consumer c).obj.next + S.cfg.capacity) := by
  obtain ⟨fresh, hr₀⟩ := h₀
  have hfirst : Early S c σ₀ := hr₀.invariant (fun _ => ⟨_, .initial _ fresh⟩)
    fun l u v hu _ hs => hu.step hbp hm hclient hs
  obtain ⟨hlive, -, d, hd⟩ := hr.invariant (hfirst.landed hearly hc hempty)
    (fun l u v hu _ hs => hu.step hbp hm hclient hs) hcount
  have hpaced := hd.guarded.paced
  refine ⟨hpaced.status, fun hl hpc => hpaced.validated hl (by simp [hpc]), ?_, fun k e he => ?_,
    fun hstay => ?_⟩
  · simpa using hd.sequence.next
  · have hentry := hd.sequence.entries k e he
    rw [Nat.zero_add] at hentry
    exact hentry
  · obtain ⟨i, -, hle⟩ := (hd.guarded.guard hlive hstay).resolve_left (Nat.not_lt_zero _)
    exact (Producer.sent_le_passed hd.guarded.sound.wf i).trans hle

def settleRun : List (Label (Fin 1)) := joinRun ++ [.drain (.consumer 0)]

def delayedRun : List (Label (Fin 1)) :=
  List.replicate 5 .producer ++ List.replicate 3 (.drain .producer) ++
    [.call 0 .read, .consumer 0, .consumer 0, .call 0 (.viewByte 0), .consumer 0,
      .call 0 .validate, .consumer 0, .call 0 .commit, .consumer 0]

theorem lossless_tso_delayed : ∃ σ₀ σ, pairSetup.tso.Reachable σ₀ ∧
    pairSetup.tso.lts.Reaches σ₀ σ ∧ σ.memory.buffer (.consumer 0) ≠ [] ∧
    (σ.consumer 0).committed = [(0, some ⟨1, [(0, 0)]⟩)] ∧
    View.Matches ⟨1, [(0, 0)]⟩ (pairSetup.stream 0) := by
  obtain ⟨σ₀, σ, hr₀, hp, hr, hq⟩ := Lts.exists_of_runs (M := pairSetup.tso.lts)
    (fun _ _ => true) (fun σ : System (Fin 1) => σ.producer.begun ≤ pairSetup.cfg.capacity &&
      (σ.consumer 0).pc.arriving = false && (σ.consumer 0).cursor pairSetup.cfg = some 0 &&
      (σ.memory.buffer (.consumer 0)).isEmpty)
    (fun σ : System (Fin 1) => σ.producer.begun < 2 ^ 64 &&
      (σ.consumer 0).committed = [(0, some ⟨1, [(0, 0)]⟩)] &&
      !(σ.memory.buffer (.consumer 0)).isEmpty)
    settleRun delayedRun (pairSetup.tso.initial fun _ => 0) (by decide +kernel)
  simp only [Bool.and_eq_true, decide_eq_true_eq, Bool.not_eq_true', List.isEmpty_iff,
    List.isEmpty_eq_false_iff] at hp hq
  obtain ⟨⟨⟨hearly, hlive⟩, hcursor⟩, hempty⟩ := hp
  obtain ⟨⟨hcount, hcommitted⟩, hbuffer⟩ := hq
  have hall := lossless_tso (S := pairSetup.tso) (c := 0) rfl rfl (fun s k h => h) ⟨_, hr₀⟩ hearly
    ⟨hlive, 0, hcursor⟩ hempty hr.reaches hcount
  obtain ⟨-, v, hv, hmatch⟩ := hall.2.2.2.1 0 _ (by rw [hcommitted]; rfl)
  cases hv
  exact ⟨σ₀, σ, ⟨_, hr₀⟩, hr.reaches, hbuffer, hcommitted, hmatch⟩

end Backpressure

end Shimmy
