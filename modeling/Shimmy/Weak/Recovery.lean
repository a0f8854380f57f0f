import Shimmy.Weak.Orders
import Shimmy.Overwrite.Recovery

namespace Shimmy

open Concurrency Function

theorem Consumer.of_lapped {stamp want : Nat} (h : classify stamp want = .lapped) :
    stamp ≠ want ∧ stamp ≠ writingSeq ∧ stamp ≠ emptySeq ∧ want ≤ stamp := by
  simp only [classify] at h
  split_ifs at h
  simp_all

namespace Overwrite

section Ledger

variable {ι : Type} {cfg : RingConfig} {stream : Nat → Message cfg.blockSize} {cells : Loc → Nat}
  {m m' : WeakMemory (Thread ι) Loc Nat} {d : Pos}

structure Ledger (m : WeakMemory (Thread ι) Loc Nat) : Prop where
  sorted : ∀ w ∈ m.history .nextPublish, ∀ w' ∈ m.history .nextPublish, w.time ≤ w'.time →
    w.val ≤ w'.val
  stamped : ∀ i, ∀ e ∈ m.history (.slotSeq i), e.val < writingSeq →
    ∀ w ∈ m.history .nextPublish, e.front .nextPublish ≤ w.time → e.val ≤ w.val
  bounded : ∀ i, ∀ e ∈ m.history (.slotSeq i), e.val ≤ emptySeq

namespace Ledger

theorem start (fresh : Loc → Nat) :
    Ledger (WeakMemory.start (Ring.init fresh) : WeakMemory (Thread ι) Loc Nat) where
  sorted w hw w' hw' _ := by
    obtain rfl := List.mem_singleton.mp hw
    obtain rfl := List.mem_singleton.mp hw'
    exact le_rfl
  stamped i e he hlt := by
    obtain rfl := List.mem_singleton.mp he
    simp [Ring.init, emptySeq, writingSeq] at hlt
  bounded i e he := by
    obtain rfl := List.mem_singleton.mp he
    exact le_rfl

theorem congr (h : Ledger m) (hn : m'.history .nextPublish = m.history .nextPublish)
    (hs : ∀ i, ∀ e ∈ m'.history (.slotSeq i), e ∈ m.history (.slotSeq i) ∨ e.val = writingSeq) :
    Ledger m' where
  sorted := by
    rw [hn]
    exact h.sorted
  stamped i e he hlt := by
    rw [hn]
    exact h.stamped i e ((hs i e he).resolve_right hlt.ne) hlt
  bounded i e he := by
    rcases hs i e he with he | he
    · exact h.bounded i e he
    · rw [he]
      decide

variable [DecidableEq ι] {order : MemoryOrder} {fence : Bool} {n time : Nat}

theorem stamp (h : Ledger m) (hc : Chronicle cfg stream cells m ⟨n, .copying (stream n).len⟩)
    (horder : order.releases = true) (hn : n < 2 ^ 64) :
    Ledger (Chronicle.wrote m order fence (.slotSeq (cfg.slot n)) n time) where
  sorted w hw w' hw' := h.sorted w ((Chronicle.mem_wrote_of_ne (by simp)).mp hw) w'
    ((Chronicle.mem_wrote_of_ne (by simp)).mp hw')
  stamped i e he hlt w hw hge := by
    have hw' := (Chronicle.mem_wrote_of_ne (by simp)).mp hw
    rcases Chronicle.mem_wrote.mp he with ⟨-, rfl⟩ | he
    · have hcur : (m.fronts .producer).current .nextPublish ≤ w.time := by
        simpa [Fronts.front, horder] using hge
      rw [(hc.newest _ rfl w hw').2 hcur, hc.image.nextPublish]
    · exact h.stamped i e he hlt w hw' hge
  bounded i e he := by
    rcases Chronicle.mem_wrote.mp he with ⟨-, rfl⟩ | he
    · exact Nat.le_pred_of_lt hn
    · exact h.bounded i e he

theorem next (h : Ledger m) (hc : Chronicle cfg stream cells m ⟨n, .stamped⟩)
    (hf : m.Fresh (m.fronts .producer) .nextPublish time) :
    Ledger (Chronicle.wrote m order fence .nextPublish (n + 1) time) where
  sorted w hw w' hw' hle := by
    rcases Chronicle.mem_wrote.mp hw with ⟨-, rfl⟩ | hw <;>
      rcases Chronicle.mem_wrote.mp hw' with ⟨-, rfl⟩ | hw'
    · exact le_rfl
    · exact absurd hle (not_le.mpr ((hc.newest _ rfl w' hw').1.trans_lt hf.1))
    · exact (hc.published w hw).trans (Nat.le_succ n)
    · exact h.sorted w hw w' hw' hle
  stamped i e he hlt w hw hge := by
    have he' := (Chronicle.mem_wrote_of_ne (by simp)).mp he
    rcases Chronicle.mem_wrote.mp hw with ⟨-, rfl⟩ | hw
    · have := (hc.stamps i e he' hlt).1
      simpa [Pos.stampedCount] using this.le
    · exact h.stamped i e he' hlt w hw hge
  bounded i e he := h.bounded i e ((Chronicle.mem_wrote_of_ne (by simp)).mp he)

theorem producer {o : Orders} {p p' : Producer} (h : Ledger m)
    (hstamp : o.stamp.releases = true) (hwf : p.Wf cfg stream) (hb : p.begun < 2 ^ 64)
    (hc : Chronicle cfg stream cells m (p.pos cfg stream))
    (hx : m.Effect (p.pc.access o) .producer (p.code cfg stream) p' m') : Ledger m' := by
  have hkeep (hn : (p.code cfg stream).writes ≠ some .nextPublish)
      (hs : ∀ i, (p.code cfg stream).writes ≠ some (.slotSeq i)) : Ledger m' :=
    h.congr (hx.history_of_ne hn) fun i e he => .inl (by rwa [hx.history_of_ne (hs i)] at he)
  obtain ⟨pc, n⟩ := p
  cases pc with
  | mark seq =>
    have hnext := hx.history_of_ne (a := .nextPublish) (by simp [Producer.code, Instr.writes])
    refine h.congr hnext fun i e he => ?_
    obtain ⟨rfl, time, hf, rfl⟩ := hx.store rfl
    rcases WeakMemory.mem_history_add.mp he with ⟨-, rfl⟩ | he
    · exact .inr rfl
    · exact .inl he
  | stamp seq =>
    obtain rfl : seq = n := hwf
    obtain ⟨rfl, time, hf, rfl⟩ := hx.store rfl
    have hlt : seq + 1 < 2 ^ 64 := by simpa [Producer.begun] using hb
    exact h.stamp hc hstamp (by omega)
  | advance seq =>
    obtain rfl : seq = n := hwf
    obtain ⟨rfl, time, hf, rfl⟩ := hx.store rfl
    have hmod : (seq + 1) % 2 ^ 64 = seq + 1 :=
      Nat.mod_eq_of_lt (by simpa [Producer.begun] using hb)
    rw [hmod]
    exact h.next hc hf
  | _ => exact hkeep (by simp [Producer.code, Instr.writes]) (by simp [Producer.code, Instr.writes])

end Ledger

theorem mem_published [DecidableEq ι] {o : Orders} {p p' : Producer} {w : Write Loc Nat}
    (hwf : p.Wf cfg stream) (hb : p.begun < 2 ^ 64)
    (hx : m.Effect (p.pc.access o) .producer (p.code cfg stream) p' m')
    (hw : w ∈ m'.history .nextPublish) :
    w ∈ m.history .nextPublish ∨ w.val = (p.pos cfg stream).stampedCount := by
  have hkeep (hn : (p.code cfg stream).writes ≠ some .nextPublish) :
      w ∈ m.history .nextPublish := by rwa [hx.history_of_ne hn] at hw
  obtain ⟨pc, n⟩ := p
  cases pc with
  | advance seq =>
    obtain rfl : seq = n := hwf
    obtain ⟨rfl, time, hf, rfl⟩ := hx.store rfl
    rcases WeakMemory.mem_history_add.mp hw with ⟨-, rfl⟩ | hw
    · right
      have hmod : (seq + 1) % 2 ^ 64 = seq + 1 :=
        Nat.mod_eq_of_lt (by simpa [Producer.begun] using hb)
      simpa [Producer.pos, Pos.stampedCount] using hmod
    · exact .inl hw
  | _ => exact .inl (hkeep (by simp [Producer.code, Instr.writes]))

end Ledger

section Run

variable {ι : Type} {S : Setup ι} {o : Orders} {l : WeakLabel ι} {σ σ' : WeakSystem ι} {c : ι}
  {n : Nat}

def Recorded (S : Setup ι) (σ : WeakSystem ι) : Prop :=
  σ.producer.begun < writingSeq →
    σ.producer.Wf S.cfg S.stream ∧ Ledger σ.memory ∧
    ∃ cells, Chronicle S.cfg S.stream cells σ.memory (σ.producer.pos S.cfg S.stream)

def Informed (S : Setup ι) (c : ι) (n : Nat) (σ : WeakSystem ι) : Prop :=
  σ.producer.begun < writingSeq →
    n ≤ (σ.producer.pos S.cfg S.stream).stampedCount ∧
    ∀ w ∈ σ.memory.history .nextPublish,
      (σ.memory.fronts (.consumer c)).current .nextPublish ≤ w.time → n ≤ w.val

variable [DecidableEq ι]

theorem recorded_step (hover : S.cfg.overflow = .overwrite) (hmark : o.markFence = true)
    (hstamp : o.stamp.releases = true) (h : Recorded S σ) (hs : S.weakStep o l σ = some σ') :
    Recorded S σ' := by
  intro hb
  have hbegun := (Setup.weak_begun_le hs).trans_lt hb
  obtain ⟨hwf, hl, cells, hc⟩ := h hbegun
  have hb' : σ.producer.begun < 2 ^ 64 := by unfold writingSeq at hbegun; omega
  cases Setup.weak_cases hs with
  | producer hx =>
    obtain ⟨hwf', hc'⟩ := hc.producer hover hmark hstamp hwf hb' hx
    exact ⟨hwf', hl.producer hstamp hwf hb' hc hx, hc'⟩
  | call => exact ⟨hwf, hl, cells, hc⟩
  | consumer hi hx =>
    have hkeep (a : Loc) (ha : a.ofProducer = true) := hx.history_of_ne (a := a) fun hw => by
      rw [Session.code_writes hi hw] at ha
      cases ha
    refine ⟨hwf, hl.congr (hkeep _ rfl) fun i e he => .inl ?_, cells, hc.congr hkeep ?_ ?_⟩
    · rwa [hkeep _ rfl] at he
    · rw [hx.fronts_of_ne (by simp)]
    · rw [hx.fronts_of_ne (by simp)]

theorem recorded_of_reachable (hover : S.cfg.overflow = .overwrite) (hmark : o.markFence = true)
    (hstamp : o.stamp.releases = true) (h : S.WeakReachable o σ) : Recorded S σ := by
  obtain ⟨fresh, hr⟩ := h
  exact hr.invariant (fun _ => ⟨trivial, .start fresh, _, .start fresh⟩) fun _ _ _ hu _ hs =>
    recorded_step hover hmark hstamp hu hs

theorem informed_step (hrec : Recorded S σ) (h : Informed S c n σ)
    (hs : S.weakStep o l σ = some σ') : Informed S c n σ' := by
  intro hb
  have hbegun := (Setup.weak_begun_le hs).trans_lt hb
  obtain ⟨hwf, -⟩ := hrec hbegun
  obtain ⟨hle, hnext⟩ := h hbegun
  have hb' : σ.producer.begun < 2 ^ 64 := by unfold writingSeq at hbegun; omega
  cases Setup.weak_cases hs with
  | producer hx =>
    refine ⟨hle.trans (Producer.stampedCount_le_of_leads hx.leads), fun w hw hge => ?_⟩
    dsimp only at hge
    rw [hx.fronts_of_ne (by simp)] at hge
    rcases mem_published hwf hb' hx hw with hw | hw
    · exact hnext w hw hge
    · exact hw ▸ hle
  | call => exact ⟨hle, hnext⟩
  | @consumer _ b time i s m hi hx =>
    have hhist : m.history .nextPublish = σ.memory.history .nextPublish :=
      hx.history_of_ne fun hw => by cases Session.code_writes hi hw
    refine ⟨hle, fun w hw hge => hnext w (by rwa [hhist] at hw) ?_⟩
    rcases eq_or_ne c b with rfl | hbc
    · exact (hx.grows.current _).trans hge
    · rwa [hx.fronts_of_ne (by simpa using hbc)] at hge

theorem lapped_of_doRead {s : Session} {cfg : RingConfig} {call : ReadCall} {stamp : Nat}
    (h : (s.afterDoRead cfg call stamp).obj.lastStatus = .lapped) :
    Consumer.classify stamp s.obj.next = .lapped := by
  by_cases hs : stamp = s.obj.next
  · rw [Session.afterDoRead_ok hs] at h
    cases h
  · rw [Session.afterDoRead_ne hs] at h
    dsimp only at h
    split at h <;> exact h

theorem informed_of_lapped {call : ReadCall} {w time : Nat} {σ₁ : WeakSystem ι}
    (hrec : Recorded S σ) (hread : o.doRead.acquires = true)
    (hpc : (σ.consumer c).pc = .doRead call) (hnext : (σ.consumer c).obj.next = w)
    (hs : S.weakStep o (.consumer c time) σ = some σ₁)
    (hlapped : (σ₁.consumer c).obj.lastStatus = .lapped) :
    Informed S c (w + S.cfg.capacity) σ₁ := by
  intro hb
  obtain ⟨hwf, hl, cells, hc⟩ := hrec ((Setup.weak_begun_le hs).trans_lt hb)
  cases Setup.weak_cases hs with
  | @consumer _ _ _ i s m hi hx =>
    simp only [Session.code, hpc, Option.some.injEq] at hi
    subst hi
    obtain ⟨e, he, ht, rfl, rfl⟩ := hx.load
    dsimp only at hlapped ⊢
    rw [update_self] at hlapped
    have hclass := lapped_of_doRead hlapped
    obtain ⟨hne, hmark, hempty, hle⟩ := Consumer.of_lapped hclass
    have hlt : e.val < writingSeq := by
      have := hl.bounded _ e he
      unfold writingSeq emptySeq at *
      omega
    obtain ⟨hcount, hslot⟩ := hc.stamps _ e he hlt
    rw [S.cfg.slot_eq_mod, S.cfg.slot_eq_mod] at hslot
    have hfar := add_le_of_mod_eq_of_lt hslot.symm (by omega)
    have hfar' : w + S.cfg.capacity ≤ e.val := hnext ▸ hfar
    refine ⟨hfar'.trans hcount.le, fun w' hw' hge => hfar'.trans ?_⟩
    refine hl.stamped _ e he hlt w' hw' (le_trans ?_ hge)
    rw [WeakMemory.fronts_look]
    refine le_trans ?_ ((Fronts.grows_fenceRelease _).current _)
    exact Fronts.front_le_current (by rw [hpc]; exact hread) e _

theorem weak_recovery {call : ReadCall} {w p time time' : Nat} {σ₁ σ₂ σ₃ : WeakSystem ι}
    (hover : S.cfg.overflow = .overwrite) (h : S.WeakReachable .source σ)
    (hpc : (σ.consumer c).pc = .doRead call) (hnext : (σ.consumer c).obj.next = w)
    (hlap : S.weakStep .source (.consumer c time) σ = some σ₁)
    (hlapped : (σ₁.consumer c).obj.lastStatus = .lapped)
    (hr : (S.weakLts .source).Reaches σ₁ σ₂) (hasked : (σ₂.consumer c).pc = .produced)
    (hload : S.weakStep .source (.consumer c time') σ₂ = some σ₃)
    (htold : (σ₃.consumer c).produced = some p) (hcount : σ₂.producer.begun < writingSeq) :
    w + S.cfg.capacity ≤ p ∧ w ≤ ((σ₃.consumer c).obj.resync S.cfg p).next := by
  have hrec := recorded_of_reachable hover rfl rfl h
  have hstart := informed_of_lapped hrec rfl hpc hnext hlap hlapped
  obtain ⟨hrec₂, hinf⟩ : Recorded S σ₂ ∧ Informed S c (w + S.cfg.capacity) σ₂ :=
    hr.invariant (I := fun τ => Recorded S τ ∧ Informed S c (w + S.cfg.capacity) τ)
      ⟨recorded_step hover rfl rfl hrec hlap, hstart⟩ fun l u v hu _ hs =>
        ⟨recorded_step hover rfl rfl hu.1 hs, informed_step hu.1 hu.2 hs⟩
  have hle : w + S.cfg.capacity ≤ p := by
    cases Setup.weak_cases hload with
    | @consumer _ _ _ i s m hi hx =>
      simp only [Session.code, hasked, Option.some.injEq] at hi
      subst hi
      obtain ⟨e, he, ht, rfl, rfl⟩ := hx.load
      dsimp only at htold
      rw [update_self] at htold
      cases htold
      exact (hinf hcount).2 e he (((Fronts.grows_fenceAcquire _).current _).trans ht)
  refine ⟨hle, ?_⟩
  simp only [Consumer.resync]
  split <;> omega

def chaseRun : List (WeakLabel (Fin 1)) :=
  weakPublish 0 ++ weakPublish 1 ++ weakPublish 2 ++ weakPublish 3 ++
    [.call 0 .construct, .call 0 .read]

theorem weak_recovery_stale : ∃ σ₁ σ₂ σ₃, (σ₁.consumer 0).obj.lastStatus = .lapped ∧
    (pairSetup.weakLts .source).Reaches σ₁ σ₂ ∧
    pairSetup.weakStep .source (.consumer 0 2) σ₂ = some σ₃ ∧
    σ₃.producer.sent = 4 ∧ (σ₃.consumer 0).produced = some 2 ∧
    0 + pairSetup.cfg.capacity ≤ 2 := by
  have hrun : ((pairSetup.weakLts .source).run chaseRun
      (pairSetup.weakInitial fun _ => 0)).any (fun σ => (σ.consumer 0).pc = .doRead .read &&
        (σ.consumer 0).obj.next = 0 && (pairSetup.weakStep .source (.consumer 0 4) σ).any fun σ₁ =>
          (σ₁.consumer 0).obj.lastStatus = .lapped &&
          (pairSetup.weakStep .source (.call 0 .produced) σ₁).any fun σ₂ =>
            (σ₂.consumer 0).pc = .produced && σ₂.producer.begun = 4 &&
            (pairSetup.weakStep .source (.consumer 0 2) σ₂).any fun σ₃ =>
              σ₃.producer.sent = 4 && (σ₃.consumer 0).produced = some 2) = true := by
    decide +kernel
  obtain ⟨σ, hσ, h⟩ := (Option.any_eq_true _ _).mp hrun
  simp only [Bool.and_eq_true, decide_eq_true_eq] at h
  obtain ⟨⟨hpc, hnext⟩, h⟩ := h
  obtain ⟨σ₁, h₁, h⟩ := (Option.any_eq_true _ _).mp h
  obtain ⟨hlapped, h⟩ := (Bool.and_eq_true _ _).mp h
  obtain ⟨σ₂, h₂, h⟩ := (Option.any_eq_true _ _).mp h
  obtain ⟨hasked, h⟩ := (Bool.and_eq_true _ _).mp h
  obtain ⟨σ₃, h₃, h⟩ := (Option.any_eq_true _ _).mp h
  simp only [Bool.and_eq_true, decide_eq_true_eq] at hlapped hasked h
  have hcall : (pairSetup.weakLts .source).step (.call 0 .produced) σ₁ = some σ₂ := h₂
  have hr : (pairSetup.weakLts .source).Reaches σ₁ σ₂ := .single trivial hcall
  have hlaw := weak_recovery (S := pairSetup) rfl ⟨_, Lts.reach_of_run hσ⟩ hpc hnext h₁ hlapped hr
    hasked.1 h₃ h.2 (by rw [hasked.2]; decide)
  exact ⟨σ₁, σ₂, σ₃, hlapped, hr, h₃, h.1, h.2, hlaw.1⟩

end Run

end Overwrite

end Shimmy
