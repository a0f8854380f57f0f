import Shimmy.Concurrency.Runs
import Shimmy.Segment.Footprint

namespace Shimmy

open Bytes Concurrency Function

namespace SessionPc

def blocking : SessionPc → Bool
  | .doRead (.readBlocking _) => true
  | .waitAnnounce _ => true
  | .waitReload _ => true
  | .waitSyscall _ _ => true
  | .waitAsleep _ => true
  | .waitLeave _ => true
  | _ => false

def resting : SessionPc → Bool
  | .unborn => true
  | .idle => true
  | .dead => true
  | _ => false

def remaining (cfg : RingConfig) : SessionPc → Nat
  | .claimCursor i _ => cfg.maxConsumers - i + 3
  | .initCursor _ _ => 3
  | .attachProduced => 2
  | .publishCursor => 1
  | .doRead (.readCopy _) => cfg.blockSize + 4
  | .doRead _ => 2
  | .viewLen => 1
  | .viewByte _ => 1
  | .copyLen _ => cfg.blockSize + 3
  | .copyByte n j => n - j + 2
  | .copyValidate _ => 2
  | .validate => 1
  | .produced => 1
  | .retireValue _ _ => 2
  | .retireInUse _ _ => 1
  | _ => 0

variable {cfg : RingConfig} {pc : SessionPc}

theorem remaining_le (pc : SessionPc) (o : Consumer) (h : pc.Contained cfg o) :
    pc.remaining cfg ≤ cfg.maxConsumers + cfg.blockSize + 4 := by
  cases pc with
  | doRead call => cases call <;> simp only [remaining] <;> omega
  | copyByte n j =>
    have hn : n ≤ cfg.blockSize := h.2
    simp only [remaining]
    omega
  | _ =>
    simp only [remaining]
    omega

theorem resting_of_remaining (hb : pc.blocking = false) (h : pc.remaining cfg = 0) :
    pc.resting = true := by
  cases pc with
  | doRead call => cases call <;> cases h
  | waitAnnounce iter => cases hb
  | waitReload iter => cases hb
  | waitSyscall iter cmp => cases hb
  | waitAsleep iter => cases hb
  | waitLeave iter => cases hb
  | _ => first | rfl | cases h

end SessionPc

namespace Session

variable {cfg : RingConfig} {s : Session}

structure Shrinks (cfg : RingConfig) (bound : Nat) (s : Session) : Prop where
  running : s.pc.blocking = false
  lt : s.pc.remaining cfg < bound

theorem shrinks_cursorPc {bound : Nat} (h : 1 < bound) (hpc : s.pc = cursorPc cfg s.obj) :
    Shrinks cfg bound s := by
  unfold cursorPc at hpc
  split at hpc
  · exact ⟨by rw [hpc]; rfl, by rw [hpc]; exact h⟩
  · exact ⟨by rw [hpc]; rfl, by rw [hpc]; exact Nat.zero_lt_of_lt h⟩

theorem shrinks_copyFromPc {bound n j : Nat} (h : n - j + 2 < bound) (h2 : 2 < bound)
    (hpc : s.pc = copyFromPc n j) : Shrinks cfg bound s := by
  unfold copyFromPc at hpc
  split at hpc
  · exact ⟨by rw [hpc]; rfl, by rw [hpc]; exact h⟩
  · exact ⟨by rw [hpc]; rfl, by rw [hpc]; exact h2⟩

theorem shrinks_afterDoRead {call : ReadCall} (hb : (SessionPc.doRead call).blocking = false)
    (stamp : Nat) :
    Shrinks cfg ((SessionPc.doRead call).remaining cfg) (s.afterDoRead cfg call stamp) := by
  by_cases hs : stamp = s.obj.next
  · rw [afterDoRead_ok hs]
    cases call with
    | read => exact ⟨rfl, Nat.one_lt_two⟩
    | readBlocking iter => cases hb
    | readCopy outCap => exact ⟨rfl, Nat.lt_succ_self _⟩
  · rw [afterDoRead_ne hs]
    cases call with
    | readBlocking iter => cases hb
    | read => cases Consumer.classify stamp s.obj.next <;> exact ⟨rfl, Nat.succ_pos _⟩
    | readCopy outCap =>
      cases Consumer.classify stamp s.obj.next <;> exact ⟨rfl, Nat.succ_pos _⟩

theorem shrinks {i : Instr Loc Nat Session} (h : s.Contained cfg) (hb : s.pc.blocking = false)
    (hi : s.code cfg = some i) :
    Obeys cfg.ringLayout cfg.limit (Shrinks cfg (s.pc.remaining cfg)) i := by
  have hpc := h.pc
  have hfits := h.obeys hi
  unfold Session.code at hi
  generalize s.pc = pc at hpc hi hb
  cases pc with
  | unborn => cases hi
  | claimCursor i attach =>
    cases hi
    refine ⟨hfits.1, fun v hv => ⟨(hfits.2 v hv).1, ?_⟩⟩
    have hi : i < cfg.maxConsumers := hpc
    dsimp only
    split
    · refine ⟨rfl, ?_⟩
      simp only [SessionPc.remaining]
      omega
    · split
      · refine ⟨rfl, ?_⟩
        simp only [SessionPc.remaining]
        omega
      · cases attach
        · exact ⟨rfl, Nat.succ_pos _⟩
        · refine ⟨rfl, ?_⟩
          simp only [registered, if_true, SessionPc.remaining]
          omega
  | initCursor i attach =>
    cases hi
    refine ⟨hfits.1, hfits.2.1, ?_⟩
    cases attach
    · exact ⟨rfl, Nat.succ_pos _⟩
    · exact ⟨rfl, Nat.lt_succ_self _⟩
  | attachProduced =>
    cases hi
    exact ⟨hfits.1, fun v _ => shrinks_cursorPc Nat.one_lt_two rfl⟩
  | publishCursor =>
    cases hi
    exact ⟨hfits.1, hfits.2.1, rfl, Nat.one_pos⟩
  | idle => cases hi
  | doRead call =>
    cases hi
    exact ⟨hfits.1, fun v _ => shrinks_afterDoRead hb v⟩
  | viewLen =>
    cases hi
    exact ⟨hfits.1, fun v _ => ⟨rfl, Nat.one_pos⟩⟩
  | viewByte j =>
    cases hi
    exact ⟨hfits.1, fun v _ => ⟨rfl, Nat.one_pos⟩⟩
  | copyLen outCap =>
    cases hi
    refine ⟨hfits.1, fun v hv => shrinks_copyFromPc ?_ ?_ rfl⟩
    · have hlen : v ≤ cfg.blockSize := Nat.le_of_lt_succ (hv.trans_le (Nat.min_le_left _ _))
      simp only [SessionPc.remaining]
      split <;> omega
    · simp only [SessionPc.remaining]
      omega
  | copyByte n j =>
    cases hi
    have hj : j < n := hpc.1
    refine ⟨hfits.1, fun v _ => shrinks_copyFromPc ?_ ?_ rfl⟩
    · simp only [SessionPc.remaining]
      omega
    · simp only [SessionPc.remaining]
      omega
  | copyValidate n =>
    cases hi
    refine ⟨hfits.1, fun v _ => ?_⟩
    dsimp only [afterCopy]
    split
    · exact shrinks_cursorPc Nat.one_lt_two rfl
    · exact ⟨rfl, Nat.zero_lt_two⟩
  | validate =>
    cases hi
    exact ⟨hfits.1, fun v _ => ⟨rfl, Nat.one_pos⟩⟩
  | produced =>
    cases hi
    exact ⟨hfits.1, fun v _ => ⟨rfl, Nat.one_pos⟩⟩
  | retireValue id last =>
    cases hi
    exact ⟨hfits.1, hfits.2.1, rfl, Nat.one_lt_two⟩
  | retireInUse id last =>
    cases hi
    refine ⟨hfits.1, hfits.2.1, ?_⟩
    cases last <;> exact ⟨rfl, Nat.one_pos⟩
  | dead => cases hi
  | _ => cases hb

end Session

def Label.isConsumer {ι : Type} [DecidableEq ι] (c : ι) : Label ι → Bool
  | .consumer b => b = c
  | _ => false

namespace Setup

variable {ι : Type} [DecidableEq ι] {S : Setup ι} {σ σ' : System ι} {l : Label ι} {c : ι}

structure Ready (S : Setup ι) (c : ι) (σ : System ι) : Prop where
  contained : Contained S σ
  buffer : BuffersEmpty σ
  running : (σ.consumer c).pc.blocking = false

theorem isSome_exec_sc {m : RingMemory ι} {i : Instr Loc Nat Session} {key : Loc → Nat × Nat}
    {t : Thread ι} (hb : m.buffer t = []) (hi : ∀ next, i ≠ .blocked next) :
    (m.exec .sc key t i).isSome = true := by
  cases i with
  | load a next => rfl
  | store a v next => rfl
  | rmw a f next => rw [Memory.exec_rmw_of_drained hb]; rfl
  | futexWait a same parked skipped =>
    simp only [Memory.exec]
    split <;> rfl
  | futexWake a next => rfl
  | blocked next => exact absurd rfl (hi next)

theorem Ready.enabled (hm : S.model = .sc) (h : Ready S c σ)
    (hrest : (σ.consumer c).pc.resting = false) : (S.step (.consumer c) σ).isSome = true := by
  have hcode : ∃ i, (σ.consumer c).code S.cfg = some i ∧ ∀ next, i ≠ .blocked next := by
    have hb := h.running
    unfold Session.code
    generalize (σ.consumer c).pc = pc at hb hrest
    cases pc with
    | unborn => cases hrest
    | idle => cases hrest
    | dead => cases hrest
    | waitAsleep iter => cases hb
    | _ => exact ⟨_, rfl, fun next h => nomatch h⟩
  obtain ⟨i, hi, hnot⟩ := hcode
  simp only [Setup.step, hi, Option.bind_some, Option.isSome_map, hm]
  exact isSome_exec_sc (h.buffer _) hnot

theorem Ready.own (h : Ready S c σ) {i : Instr Loc Nat Session} {s : Session} {m : RingMemory ι}
    (hi : (σ.consumer c).code S.cfg = some i)
    (hx : σ.memory.exec S.model (S.key (.consumer c)) (.consumer c) i = some (s, m)) :
    Session.Shrinks S.cfg ((σ.consumer c).pc.remaining S.cfg) s :=
  (h.contained.memory.exec (Session.shrinks (h.contained.consumer c) h.running hi) hx).1

theorem Ready.step (hm : S.model = .sc) (h : Ready S c σ)
    (hrest : (σ.consumer c).pc.resting = false) (hs : S.step l σ = some σ') :
    Ready S c σ' ∧ (σ'.consumer c).pc.remaining S.cfg ≤ (σ.consumer c).pc.remaining S.cfg ∧
      (l.isConsumer c = true →
        (σ'.consumer c).pc.remaining S.cfg < (σ.consumer c).pc.remaining S.cfg) := by
  have hcontained := h.contained.step hs
  have hbuf := (step_tso hm h.buffer hs).1
  cases step_iff.mp hs with
  | producer => exact ⟨⟨hcontained, hbuf, h.running⟩, le_rfl, fun hl => by cases hl⟩
  | @call _ b k s hc hx =>
    have hne : c ≠ b := by
      rintro rfl
      obtain ⟨hk, -⟩ := Session.call_eq_some.mp hx
      cases k <;> simp only [Session.enabled, decide_eq_true_eq] at hk <;>
        simp [hk, SessionPc.resting] at hrest
    refine ⟨⟨hcontained, hbuf, ?_⟩, ?_, fun hl => by cases hl⟩
    · simpa [hne] using h.running
    · simp [hne]
  | @consumer _ b i s m hi hx =>
    rcases eq_or_ne c b with rfl | hcb
    · have hshrinks := h.own hi hx
      refine ⟨⟨hcontained, hbuf, ?_⟩, ?_, fun _ => ?_⟩
      · simpa using hshrinks.running
      · simpa using hshrinks.lt.le
      · simpa using hshrinks.lt
    · refine ⟨⟨hcontained, hbuf, ?_⟩, ?_, fun hl => ?_⟩
      · simpa [hcb] using h.running
      · simp [hcb]
      · exact absurd (of_decide_eq_true hl).symm hcb
  | drain hb =>
    rw [h.buffer] at hb
    cases hb

theorem call_wait_free (S : Setup ι) (hm : S.model = .sc) (fresh : Loc → Nat)
    (hf : ∀ i j, fresh (.payload i j) < 256) (σ : System ι)
    (h : S.lts.Reaches (S.initial fresh) σ) (c : ι)
    (hb : (σ.consumer c).pc.blocking = false) :
    ((σ.consumer c).pc.resting = false → (S.step (.consumer c) σ).isSome = true) ∧
      ∀ ls σ', S.lts.run ls σ = some σ' →
        S.cfg.maxConsumers + S.cfg.blockSize + 4 ≤ ls.countP (Label.isConsumer c) →
          ∃ ks js τ, ls = ks ++ js ∧ S.lts.run ks σ = some τ ∧ S.lts.run js τ = some σ' ∧
            (τ.consumer c).pc.resting = true := by
  have hready : Ready S c σ :=
    ⟨.of_reaches hf h, h.invariant (fun _ => rfl) fun l u v hu _ hs => (step_tso hm hu hs).1, hb⟩
  refine ⟨hready.enabled hm, fun ls σ' hr hcount => ?_⟩
  have hrank := SessionPc.remaining_le _ _ (hready.contained.consumer c).pc
  refine Lts.run_meets (I := Ready S c) (fun u => (u.consumer c).pc.remaining S.cfg)
    (.of_forall (fun _ => trivial) ls σ) (fun l u v hu _ hgoal hs => ?_) (fun u hu hz => ?_)
    (fun l u v hu _ hgoal hl hs => ?_) (fun l u v hu hgoal _ hs => ?_) hready hr
    (hrank.trans hcount)
  · exact .inr (hu.step hm (Bool.eq_false_iff.mpr hgoal) hs).1
  · exact SessionPc.resting_of_remaining hu.running hz
  · exact .inr ((hu.step hm (Bool.eq_false_iff.mpr hgoal) hs).2.2 hl)
  · exact (hu.step hm (Bool.eq_false_iff.mpr hgoal) hs).2.1

def pollSetup : Setup (Fin 1) where
  cfg := .lone .backpressure .spin
  stream n := .ofByte n
  client _ _ _ := true
  model := .sc
  process _ := ⟨0, 0⟩

def pollingRun : List (Label (Fin 1)) :=
  [.consumer 0, .consumer 0] ++ (List.replicate 67 [.call 0 .read, .consumer 0]).flatten

theorem call_wait_free_polls : ∃ σ σ', pollSetup.Reachable σ ∧
    (σ.consumer 0).pc = .claimCursor 0 false ∧ pollSetup.lts.run pollingRun σ = some σ' ∧
    ∃ ks js τ, pollingRun = ks ++ js ∧ pollSetup.lts.run ks σ = some τ ∧
      pollSetup.lts.run js τ = some σ' ∧ (τ.consumer 0).pc.resting = true := by
  have hrun : ((pollSetup.lts.run [.call 0 .construct] (pollSetup.initial fun _ => 0)).any fun σ =>
      (σ.consumer 0).pc = .claimCursor 0 false && (pollSetup.lts.run pollingRun σ).isSome) = true := by
    decide +kernel
  obtain ⟨σ, hr, hp⟩ := Lts.exists_of_run (M := pollSetup.lts) _ _ _ hrun
  simp only [Bool.and_eq_true, decide_eq_true_eq] at hp
  obtain ⟨hpc, hsome⟩ := hp
  obtain ⟨σ', hσ'⟩ := Option.isSome_iff_exists.mp hsome
  exact ⟨σ, σ', ⟨_, hr⟩, hpc, hσ', (call_wait_free pollSetup rfl (fun _ => 0)
    (fun _ _ => by decide) σ hr 0 (by rw [hpc]; rfl)).2 _ _ hσ' (by decide +kernel)⟩

end Setup

end Shimmy
