import Shimmy.Backpressure.Lossless
import Shimmy.Backpressure.Scan
import Shimmy.Ring.WaitFree

namespace Shimmy

open Concurrency Function

namespace SessionPc

def polls : SessionPc → Nat
  | .waitAnnounce _ => 5
  | .waitReload _ => 4
  | .waitLeave _ => 3
  | .doRead (.readBlocking _) => 2
  | .viewLen => 1
  | _ => 0

end SessionPc

theorem Producer.sent_le_count {cfg : RingConfig} {stream : Nat → Message cfg.blockSize}
    (p : Producer) : p.sent ≤ (p.pos cfg stream).count := by
  obtain ⟨pc, n⟩ := p
  cases pc <;> simp [pos]

namespace Backpressure

variable {ι : Type} {S : Setup ι} {σ σ₀ σ' : System ι} {l : Label ι} {c : ι} {w : Nat} {d : Pos}

theorem Lossless.resident (h : Lossless S c 0 σ d) (hempty : Setup.BuffersEmpty σ)
    (hlive : (σ.consumer c).pc.arriving = false) (hstay : (σ.consumer c).pc.departing = false)
    (hsent : (σ.consumer c).obj.next < σ.producer.sent) :
    d.Resident S.cfg (σ.consumer c).obj.next := by
  have hsound := h.guarded.sound
  have hpos : d = σ.producer.pos S.cfg S.stream := by
    have hp := hsound.pending
    rwa [hempty] at hp
  obtain ⟨i, -, hle⟩ := (h.guarded.guard hlive hstay).resolve_left (Nat.not_lt_zero _)
  have htouched := (Producer.touched_le_passed (i := i) hsound.wf).trans hle
  rw [hpos]
  exact ⟨hsent.trans_le ((Producer.sent_le_count _).trans (Pos.count_le_stampedCount _)), htouched⟩

structure Due (c : ι) (w : Nat) (σ : System ι) : Prop where
  next : (σ.consumer c).obj.next = w
  sent : w < σ.producer.sent
  polling : 0 < (σ.consumer c).pc.polls
  shown : (σ.consumer c).pc = .viewLen →
    (σ.consumer c).obj.lastStatus = .ok ∧ (σ.consumer c).obj.readSeq = w

structure Delivered (S : Setup ι) (c : ι) (w : Nat) (σ : System ι) : Prop where
  pc : (σ.consumer c).pc = .idle
  status : (σ.consumer c).obj.lastStatus = .ok
  readSeq : (σ.consumer c).obj.readSeq = w
  view : (σ.consumer c).view = some ⟨(S.stream w).len, []⟩

theorem Due.staying (h : Due c w σ) : (σ.consumer c).pc.departing = false := by
  have hp := h.polling
  cases hpc : (σ.consumer c).pc <;> rw [hpc] at hp <;> first | rfl | cases hp

theorem Due.idle (h : Due c w σ) {k : Call} {s : Session}
    (hk : (σ.consumer c).call S.cfg k = some s) : False := by
  have hp := h.polling
  obtain ⟨hen, -⟩ := Session.call_eq_some.mp hk
  cases k <;> simp only [Session.enabled, decide_eq_true_eq] at hen <;>
    simp [hen, SessionPc.polls] at hp

variable [DecidableEq ι]

theorem Due.own {s : Session} {m : RingMemory ι} {i : Instr Loc Nat Session}
    (h : Due c w σ) (hempty : Setup.BuffersEmpty σ)
    (hsteady : Lossless S.tso c 0 σ d) (hlive : (σ.consumer c).pc.arriving = false)
    (hi : (σ.consumer c).code S.cfg = some i)
    (hx : σ.memory.exec S.model (S.key (.consumer c)) (.consumer c) i = some (s, m)) :
    (s.pc = .idle ∧ s.obj.lastStatus = .ok ∧ s.obj.readSeq = w ∧
      s.view = some ⟨(S.stream w).len, []⟩) ∨
    s.obj.next = w ∧ 0 < s.pc.polls ∧ s.pc.polls < (σ.consumer c).pc.polls ∧
      (s.pc = .viewLen → s.obj.lastStatus = .ok ∧ s.obj.readSeq = w) := by
  have hres := hsteady.resident hempty hlive h.staying (h.next ▸ h.sent)
  have himage := hsteady.guarded.sound.image
  have hread (a : Loc) : σ.memory.read (.consumer c) a = σ.memory.cells a := by
    rw [Memory.read, hempty]
    rfl
  have hstamp : σ.memory.cells (.slotSeq (S.cfg.slot w)) = w := by
    rw [h.next] at hres
    exact (himage.stamps _ (S.cfg.slot_lt w)).trans (Pos.stampAt_slot_eq hres)
  have hp := h.polling
  unfold Session.code at hi
  cases hpc : (σ.consumer c).pc with
  | waitAnnounce iter =>
    rw [hpc] at hi
    cases hi
    obtain ⟨-, rfl, -⟩ := Memory.exec_rmw hx
    exact .inr ⟨h.next, Nat.succ_pos _, Nat.lt_succ_self _, fun e => by cases e⟩
  | waitReload iter =>
    rw [hpc] at hi
    cases hi
    cases hx
    refine .inr ⟨h.next, ?_⟩
    dsimp only
    rw [hread, h.next, hstamp, if_pos le_rfl]
    exact ⟨Nat.succ_pos _, Nat.lt_succ_self _, fun e => by cases e⟩
  | waitLeave iter =>
    rw [hpc] at hi
    cases hi
    obtain ⟨-, rfl, -⟩ := Memory.exec_rmw hx
    exact .inr ⟨h.next, Nat.succ_pos _, Nat.lt_succ_self _, fun e => by cases e⟩
  | doRead call =>
    rw [hpc] at hi hp
    cases hi
    cases hx
    have hok : σ.memory.read (.consumer c) (.slotSeq (S.cfg.slot (σ.consumer c).obj.next)) =
        (σ.consumer c).obj.next := by
      rw [hread, h.next, hstamp]
    rw [Session.afterDoRead_ok hok]
    cases call with
    | readBlocking iter => exact .inr ⟨h.next, Nat.one_pos, Nat.one_lt_two, fun _ => ⟨rfl, h.next⟩⟩
    | _ => cases hp
  | viewLen =>
    rw [hpc] at hi
    cases hi
    cases hx
    obtain ⟨hok, hseq⟩ := h.shown hpc
    refine .inl ⟨rfl, hok, hseq, ?_⟩
    rw [h.next] at hres
    rw [hread, hseq]
    exact congrArg (fun len => some (View.mk len [])) (himage.content w hres).len
  | _ => rw [hpc] at hp; cases hp

theorem Due.keeps (h : Due c w σ) (hl : l.isConsumer c = false) (hs : S.step l σ = some σ') :
    σ'.consumer c = σ.consumer c := by
  cases Setup.step_iff.mp hs with
  | producer hx => rfl
  | @call _ b k s hk hx =>
    refine update_of_ne ?_ _ _
    rintro rfl
    exact h.idle hx
  | @consumer _ b i s m hi hx =>
    refine update_of_ne ?_ _ _
    rintro rfl
    simp [Label.isConsumer] at hl
  | drain hx => rfl

theorem Due.step (h : Due c w σ) (hempty : Setup.BuffersEmpty σ)
    (hsteady : Lossless S.tso c 0 σ d) (hlive : (σ.consumer c).pc.arriving = false)
    (hs : S.step l σ = some σ') :
    Delivered S c w σ' ∨ Due c w σ' ∧ (l.isConsumer c = true →
      (σ'.consumer c).pc.polls < (σ.consumer c).pc.polls) := by
  have hsent := h.sent.trans_le (sent_le hs)
  cases hl : l.isConsumer c with
  | false =>
    have he := h.keeps hl hs
    exact .inr ⟨⟨he ▸ h.next, hsent, he ▸ h.polling, he ▸ h.shown⟩, fun hn => by cases hn⟩
  | true =>
    cases Setup.step_iff.mp hs with
    | @consumer _ b i s m hi hx =>
      obtain rfl : b = c := of_decide_eq_true hl
      rcases h.own hempty hsteady hlive hi hx with ⟨hpc, hok, hseq, hv⟩ | ⟨hn, hpos, hlt, hshown⟩
      · exact .inl ⟨by simpa using hpc, by simpa using hok, by simpa using hseq, by simpa using hv⟩
      · exact .inr ⟨⟨by simpa using hn, hsent, by simpa using hpos, by simpa using hshown⟩,
          fun _ => by simpa using hlt⟩
    | _ => cases hl

theorem read_blocking_returns {ls : List (Label ι)} (hbp : S.cfg.overflow = .backpressure)
    (hm : S.model = .sc) (hclient : Loyal false S c) (h₀ : S.Reachable σ₀)
    (hearly : σ₀.producer.begun ≤ S.cfg.capacity) (hc : Obtained S.cfg (σ₀.consumer c))
    (h : S.lts.Reaches σ₀ σ) (hblocking : (σ.consumer c).pc.blocking = true)
    (hawake : 0 < (σ.consumer c).pc.polls)
    (hsent : (σ.consumer c).obj.next < σ.producer.sent) (hr : S.lts.run ls σ = some σ')
    (hcount : σ'.producer.begun < 2 ^ 64) (hturns : 5 ≤ ls.countP (Label.isConsumer c)) :
    ∃ ks js τ, ls = ks ++ js ∧ S.lts.run ks σ = some τ ∧ S.lts.run js τ = some σ' ∧
      Delivered S c (σ.consumer c).obj.next τ := by
  have hstates := (Lts.States.of_run (M := S.lts) (A := fun u => u.producer.begun < 2 ^ 64)
    (fun l s t ht hs => (Setup.begun_le hs).trans_lt ht) hr hcount).1
  have hdue : Due c (σ.consumer c).obj.next σ := by
    refine ⟨rfl, hsent, hawake, fun hpc => ?_⟩
    rw [hpc] at hblocking
    cases hblocking
  have hbound : (σ.consumer c).pc.polls ≤ 5 := by
    cases hpc : (σ.consumer c).pc with
    | doRead call => cases call <;> simp [SessionPc.polls]
    | _ => simp [SessionPc.polls]
  have hempty : Setup.BuffersEmpty σ :=
    h.invariant (early_of_reachable hbp hm hclient h₀).1
      fun l u v hu _ hs => (Setup.step_tso hm hu hs).1
  generalize (σ.consumer c).obj.next = w at hdue ⊢
  have hstep {l : Label ι} {u v : System ι}
      (hu : S.lts.Reaches σ₀ u ∧ Setup.BuffersEmpty u ∧ Due c w u)
      (hb : u.producer.begun < 2 ^ 64) (hs : S.step l u = some v) :=
    have ⟨hlive, _, hsteady⟩ := steady_of_reaches hbp hm hclient h₀ hearly hc hu.1 hb
    hu.2.2.step hu.2.1 hsteady hlive hs
  refine Lts.run_meets (M := S.lts)
    (I := fun u => S.lts.Reaches σ₀ u ∧ Setup.BuffersEmpty u ∧ Due c w u)
    (fun u => (u.consumer c).pc.polls) hstates (fun l u v hu hb _ hs => ?_) (fun u hu hz => ?_)
    (fun l u v hu hb _ hl hs => ?_) (fun l u v hu _ hl hs => ?_) ⟨h, hempty, hdue⟩ hr
    (hbound.trans hturns)
  · exact (hstep hu hb hs).imp id fun hv =>
      ⟨hu.1.step trivial hs, (Setup.step_tso hm hu.2.1 hs).1, hv.1⟩
  · exact absurd hz hu.2.2.polling.ne'
  · exact (hstep hu hb hs).imp id fun hv => hv.2 hl
  · rw [hu.2.2.keeps hl hs]

def callRun : List (Label (Fin 1)) := .call 0 .readBlocking :: List.replicate 5 .producer

def serveRun : List (Label (Fin 1)) :=
  [.consumer 0, .consumer 0, .call 0 (.viewByte 0), .consumer 0, .call 0 .validate, .consumer 0,
    .call 0 .commit, .consumer 0]

theorem read_blocking_returns_first : ∃ σ σ', pairSetup.Reachable σ ∧
    (σ.consumer 0).pc = .doRead (.readBlocking 0) ∧ σ.producer.sent = 1 ∧
    pairSetup.lts.run serveRun σ = some σ' ∧
    ∃ ks js τ, serveRun = ks ++ js ∧ pairSetup.lts.run ks σ = some τ ∧
      pairSetup.lts.run js τ = some σ' ∧ Delivered pairSetup 0 0 τ := by
  obtain ⟨σ₀, σ, hr₀, hp, hr, hq⟩ := Lts.exists_of_runs (M := pairSetup.lts)
    (fun _ _ => true) (fun σ : System (Fin 1) => σ.producer.begun ≤ pairSetup.cfg.capacity &&
      (σ.consumer 0).pc.arriving = false && (σ.consumer 0).cursor pairSetup.cfg = some 0)
    (fun σ : System (Fin 1) => (σ.consumer 0).pc = .doRead (.readBlocking 0) &&
      (σ.consumer 0).obj.next = 0 && σ.producer.sent = 1 &&
      (pairSetup.lts.run serveRun σ).any fun σ' => σ'.producer.begun < 2 ^ 64)
    joinRun callRun (pairSetup.initial fun _ => 0) (by decide +kernel)
  obtain ⟨hq, hrun⟩ := (Bool.and_eq_true _ _).mp hq
  obtain ⟨σ', hσ', hcount⟩ := (Option.any_eq_true _ _).mp hrun
  simp only [Bool.and_eq_true, decide_eq_true_eq] at hp hq hcount
  obtain ⟨⟨hearly, hlive⟩, hcursor⟩ := hp
  obtain ⟨⟨hpc, hnext⟩, hsent⟩ := hq
  have hreturns := read_blocking_returns (S := pairSetup) (c := 0) rfl rfl (fun s k h => h)
    ⟨_, hr₀⟩ hearly ⟨hlive, 0, hcursor⟩ hr.reaches (by rw [hpc]; rfl) (by rw [hpc]; decide)
    (by rw [hnext, hsent]; decide) hσ' hcount (by decide)
  rw [hnext] at hreturns
  exact ⟨σ, σ', ⟨_, hr₀.trans hr.reaches⟩, hpc, hsent, hσ', hreturns⟩

end Backpressure

end Shimmy
