import Shimmy.Overwrite.Progress

namespace Shimmy

open Concurrency Function

def SessionPc.copying : SessionPc → Bool
  | .copyLen _ => true
  | .copyByte _ _ => true
  | .copyValidate _ => true
  | _ => false

namespace Session

variable {cfg : RingConfig} {s : Session}

theorem copying_cursorPc (o : Consumer) : (cursorPc cfg o).copying = false := by
  unfold cursorPc
  split <;> rfl

theorem copying_enter {k : Call} (hk : s.enabled k = true) :
    ((s.noteCall k).enter cfg k).pc.copying = false := by
  have hfirst (attach : Bool) : SessionPc.copying (if cfg.overflow = .backpressure then
      .claimCursor 0 attach else if attach then .attachProduced else .idle) = false := by
    split
    · rfl
    · cases attach <;> rfl
  have hdestruct (o : Consumer) (last : Bool) : (destructPc cfg o last).copying = false := by
    unfold destructPc
    split
    · rfl
    · cases last <;> rfl
  cases k with
  | construct => exact hfirst false
  | attachAtCurrent => exact hfirst true
  | commit => exact copying_cursorPc _
  | seek seq => exact copying_cursorPc _
  | resync p => exact copying_cursorPc _
  | destroy => exact hdestruct _ _
  | destroyMoved => exact hdestruct _ _
  | move =>
    have hpc : s.pc = .idle := of_decide_eq_true hk
    simp [enter, move, noteCall, hpc, SessionPc.copying]
  | _ => rfl

end Session

namespace Overwrite

def Copies (d : Pos) (s : Session) : Prop :=
  s.pc.copying = true →
    s.obj.readSeq = s.obj.next ∧ s.obj.lastStatus = .ok ∧
      (s.obj.next < writingSeq → s.obj.next < d.stampedCount)

namespace Copies

variable {cfg : RingConfig} {stream : Nat → Message cfg.blockSize} {cells : Loc → Nat} {d : Pos}
  {s s' : Session}

theorem of_not_copying (h : s.pc.copying = false) : Copies d s := fun hc => by
  rw [h] at hc
  cases hc

theorem succ (h : Copies d s) : Copies (d.succ cfg stream) s := fun hc =>
  ⟨(h hc).1, (h hc).2.1, fun hlt => ((h hc).2.2 hlt).trans_le d.stampedCount_le_succ⟩

theorem moves (h : Copies d s) (hover : cfg.overflow = .overwrite)
    (himage : Image cfg stream cells d) (hm : s.Moves cfg cells s') : Copies d s' := by
  cases hm with
  | control hn =>
    refine of_not_copying ?_
    generalize s.pc = pc at hn
    cases hn <;> rfl
  | @registrationFailed i attach hpc => cases attach <;> exact of_not_copying rfl
  | @registered i attach hpc => cases attach <;> exact of_not_copying rfl
  | attached hpc => exact of_not_copying (Session.copying_cursorPc _)
  | @doRead call hpc =>
    by_cases hs : cells (.slotSeq (cfg.slot s.obj.next)) = s.obj.next
    · rw [Session.afterDoRead_ok hs]
      intro _
      refine ⟨rfl, rfl, fun hlt => ?_⟩
      rw [himage.stamps _ (cfg.slot_lt _)] at hs
      exact (Pos.resident_of_stampAt hover hs hlt).1
    · refine of_not_copying ?_
      rw [Session.afterDoRead_ne hs]
      dsimp only
      split
      · unfold Session.waitPc
        split <;> rfl
      · rfl
  | viewLen hpc =>
    rcases hpc with ⟨-, rfl⟩ | ⟨outCap, hpc, -⟩
    · exact of_not_copying rfl
    · exact fun _ => h (by rw [hpc]; rfl)
  | viewByte hpc =>
    rcases hpc with ⟨-, rfl⟩ | ⟨n, hpc, -⟩
    · exact of_not_copying rfl
    · exact fun _ => h (by rw [hpc]; rfl)
  | copyValidate hpc =>
    refine of_not_copying ?_
    unfold Session.afterCopy
    split
    · exact Session.copying_cursorPc _
    · rfl
  | validate hpc => exact of_not_copying rfl
  | produced hpc => exact of_not_copying rfl

end Copies

variable {ι : Type} {S : Setup ι} {σ σ₁ : System ι} {c : ι} {l : Label ι} {w p : Nat}

def Copied (S : Setup ι) (c : ι) (σ : System ι) : Prop :=
  σ.producer.begun ≤ writingSeq → ∃ d, S.Sound σ d ∧ Copies d (σ.consumer c)

theorem resync_next (o : Consumer) :
    w < (o.resync S.cfg p).next ↔ w + S.cfg.capacity < p := by
  unfold Consumer.resync
  dsimp only
  split
  · omega
  · omega

variable [DecidableEq ι]

structure Laps (S : Setup ι) (c : ι) (w : Nat) (σ σ₁ : System ι) : Prop where
  reading : (∃ call, (σ.consumer c).pc = .doRead call) ∨ ∃ n, (σ.consumer c).pc = .copyValidate n
  next : (σ.consumer c).obj.next = w
  step : S.step (.consumer c) σ = some σ₁
  lapped : (σ₁.consumer c).obj.lastStatus = .lapped

inductive Recovery (S : Setup ι) (c : ι) (w : Nat) : System ι → System ι → Prop
  | intro {σ σ₁ σ₂ σ₃ σ₄ σ₅ : System ι} {p : Nat} (h : S.Reachable σ) (hlap : Laps S c w σ σ₁)
      (hr : S.lts.Reaches σ₁ σ₂) (hasked : (σ₂.consumer c).pc = .produced)
      (hload : S.step (.consumer c) σ₂ = some σ₃) (htold : (σ₃.consumer c).produced = some p)
      (hr' : S.lts.Reaches σ₃ σ₄) (hresync : S.step (.call c (.resync p)) σ₄ = some σ₅) :
      Recovery S c w σ₂ σ₅

theorem Copied.step (hover : S.cfg.overflow = .overwrite) (hm : S.model = .tso)
    (h : Copied S c σ) (hs : S.step l σ = some σ₁) : Copied S c σ₁ := by
  intro hb
  have hb' : σ₁.producer.begun < 2 ^ 64 := by unfold writingSeq at hb; omega
  obtain ⟨d, hd, hc⟩ := h ((Setup.begun_le hs).trans hb)
  refine ⟨S.advance l d, hd.step hm hb' hs, ?_⟩
  refine hd.sessions_step (P := fun d b s => b = c → Copies d s) hs ?_ ?_ ?_ ?_ c rfl
  · rintro b rfl
    exact hc
  · exact fun b s hbs hbc => (hbs hbc).succ
  · rintro b k s - hcall rfl
    obtain ⟨hk, rfl⟩ := Session.call_eq_some.mp hcall
    exact .of_not_copying (Session.copying_enter hk)
  · rintro b s - hmoves rfl
    exact hc.moves hover hd.image hmoves

theorem copied_of_reachable (hover : S.cfg.overflow = .overwrite) (hm : S.model = .sc)
    (h : S.Reachable σ) : Copied S.tso c σ ∧ Setup.BuffersEmpty σ := by
  obtain ⟨fresh, hr⟩ := h
  obtain ⟨htso, hempty⟩ :=
    Setup.reach_tso hm (fun _ _ _ h => h) (fun _ _ => trivial) (fun _ => rfl) hr
  refine ⟨htso.invariant (I := Copied S.tso c) (fun _ => ?_) fun l u v hu _ hs =>
    hu.step hover rfl hs, hempty⟩
  exact ⟨_, .initial S.tso fresh, .of_not_copying rfl⟩

theorem Laps.touched {d : Pos} (h : Laps S c w σ σ₁) (hw : w < writingSeq) (hd : S.Sound σ d)
    (hc : Copies d (σ.consumer c)) : w + S.cfg.capacity < d.touched := by
  obtain ⟨hreading, rfl, hstep, hlapped⟩ := h
  have hstamp (q : Nat) : σ.memory.read (.consumer c) (.slotSeq (S.cfg.slot q)) =
      d.stampAt S.cfg (S.cfg.slot q) :=
    (hd.read_eq c rfl).trans (hd.image.stamps _ (S.cfg.slot_lt q))
  cases Setup.step_iff.mp hstep with
  | consumer hi hx =>
    simp only [update_self] at hlapped
    rcases hreading with ⟨call, hpc⟩ | ⟨n, hpc⟩
    · simp only [Session.code, hpc, Option.some.injEq] at hi
      subst hi
      cases hx
      rw [hstamp] at hlapped
      by_cases hs : d.stampAt S.cfg (S.cfg.slot (σ.consumer c).obj.next) =
          (σ.consumer c).obj.next
      · rw [Session.afterDoRead_ok hs] at hlapped
        cases hlapped
      · rw [Session.afterDoRead_ne hs] at hlapped
        refine Pos.touched_of_lapped ?_
        dsimp only at hlapped
        split at hlapped
        · exact hlapped
        · exact hlapped
    · obtain ⟨hseq, hok, hpublished⟩ := hc (by rw [hpc]; rfl)
      simp only [Session.code, hpc, Option.some.injEq] at hi
      subst hi
      cases hx
      rw [hstamp, hseq] at hlapped
      refine Pos.touched_of_moved (hpublished hw) fun hs => ?_
      simp [Session.afterCopy, Session.commit, Session.publishCursor, Consumer.commit, hs,
        hok] at hlapped

theorem recovery_progresses {σ₂ σ₅ : System ι} (hover : S.cfg.overflow = .overwrite)
    (hm : S.model = .sc) (hrecovery : Recovery S c w σ₂ σ₅) (hw : w < 2 ^ 64 - 2)
    (hcount : σ₂.producer.begun ≤ 2 ^ 64 - 2) :
    w < (σ₅.consumer c).obj.next ↔ σ₂.producer.publishing (w + S.cfg.capacity) = false := by
  obtain @⟨σ, σ₁, _, σ₃, σ₄, _, p, h, hlap, hr, hasked, hload, htold, hr', hresync⟩ := hrecovery
  obtain ⟨hcopied, hempty⟩ := copied_of_reachable (c := c) hover hm h
  have hstep : S.lts.step (.consumer c) σ = some σ₁ := hlap.step
  obtain ⟨htso, hempty₂⟩ := Setup.reach_tso hm (fun _ _ _ h => h) (fun _ _ => trivial) hempty
    ((Lts.Reach.single trivial hstep).trans hr)
  have hout : Outrun S.tso w σ₂ := by
    refine htso.invariant (I := Outrun S.tso w) (fun hb => ?_) fun l u v hu _ hs =>
      outrun_step rfl hu hs
    obtain ⟨d, hd, hc⟩ := hcopied hb
    exact ⟨d, hd, hlap.touched hw hd.of_tso hc⟩
  obtain ⟨d, hd, htouched⟩ := hout hcount
  obtain rfl : d = σ₂.producer.pos S.cfg S.stream := by
    have hp := hd.pending
    rwa [hempty₂ .producer] at hp
  have hread : σ₂.memory.read (.consumer c) .nextPublish =
      (σ₂.producer.pos S.cfg S.stream).count :=
    (hd.read_eq c rfl).trans hd.image.nextPublish
  have hp : p = (σ₂.producer.pos S.cfg S.stream).count := by
    cases Setup.step_iff.mp hload with
    | consumer hi hx =>
      simp only [Session.code, hasked, Option.some.injEq] at hi
      subst hi
      cases hx
      simp only [update_self, hread] at htold
      exact (Option.some.inj htold).symm
  have hnext : w < (σ₅.consumer c).obj.next ↔ w + S.cfg.capacity < p := by
    cases Setup.step_iff.mp hresync with
    | call hc hx =>
      obtain ⟨-, rfl⟩ := Session.call_eq_some.mp hx
      simp only [update_self]
      exact resync_next _
  rw [hnext, hp]
  have hle := (σ₂.producer.pos S.cfg S.stream).touched_le
  have hcap : S.tso.cfg.capacity = S.cfg.capacity := rfl
  rw [hcap] at htouched
  constructor
  · intro hlt
    by_contra hpub
    have := Producer.count_of_publishing hd.wf (by simpa using hpub)
    have : (σ₂.producer.pos S.cfg S.stream).count = w + S.cfg.capacity := this
    omega
  · intro hidle
    by_contra hge
    have hcount' : (σ₂.producer.pos S.cfg S.stream).count = w + S.cfg.capacity := by omega
    have hpub := Producer.publishing_of_touched hd.wf (by omega :
      (σ₂.producer.pos S.cfg S.stream).count < (σ₂.producer.pos S.cfg S.stream).touched)
    have hpub' : σ₂.producer.publishing (w + S.cfg.capacity) = true := hcount' ▸ hpub
    rw [hidle] at hpub'
    cases hpub'

def staleSetup : Setup (Fin 1) where
  cfg := .lone .overwrite .spin
  stream _ := .empty 64
  client _ _ _ := true
  model := .sc
  process _ := ⟨0, 0⟩

def lagRun (n : Nat) : List (Label (Fin 1)) :=
  .call 0 .construct :: List.replicate n .producer ++ [.call 0 .read]

def recovers (n p : Nat) (q : System (Fin 1) → System (Fin 1) → Bool) : Bool :=
  (staleSetup.lts.run (lagRun n) (staleSetup.initial fun _ => 0)).any fun σ =>
    (σ.consumer 0).pc = .doRead .read && (σ.consumer 0).obj.next = 0 &&
    (staleSetup.step (.consumer 0) σ).any fun σ₁ => (σ₁.consumer 0).obj.lastStatus = .lapped &&
      (staleSetup.step (.call 0 .produced) σ₁).any fun σ₂ => (σ₂.consumer 0).pc = .produced &&
        (staleSetup.step (.consumer 0) σ₂).any fun σ₃ => (σ₃.consumer 0).produced = some p &&
          (staleSetup.step (.call 0 (.resync p)) σ₃).any (q σ₂)

theorem exists_recovery {n p : Nat} {q : System (Fin 1) → System (Fin 1) → Bool}
    (h : recovers n p q = true) :
    ∃ σ σ', Recovery staleSetup 0 0 σ σ' ∧ q σ σ' = true := by
  obtain ⟨σ, hσ, h⟩ := (Option.any_eq_true _ _).mp h
  simp only [Bool.and_eq_true, decide_eq_true_eq] at h
  obtain ⟨⟨hpc, hnext⟩, h⟩ := h
  obtain ⟨σ₁, h₁, h⟩ := (Option.any_eq_true _ _).mp h
  obtain ⟨hlapped, h⟩ := (Bool.and_eq_true _ _).mp h
  obtain ⟨σ₂, h₂, h⟩ := (Option.any_eq_true _ _).mp h
  obtain ⟨hasked, h⟩ := (Bool.and_eq_true _ _).mp h
  obtain ⟨σ₃, h₃, h⟩ := (Option.any_eq_true _ _).mp h
  obtain ⟨htold, h⟩ := (Bool.and_eq_true _ _).mp h
  obtain ⟨σ₄, h₄, hq⟩ := (Option.any_eq_true _ _).mp h
  have hproduced : staleSetup.lts.step (.call 0 .produced) σ₁ = some σ₂ := h₂
  exact ⟨σ₂, σ₄, ⟨⟨_, Lts.reach_of_run hσ⟩,
    ⟨.inl ⟨_, hpc⟩, hnext, h₁, of_decide_eq_true hlapped⟩, .single trivial hproduced,
    of_decide_eq_true hasked, h₃, of_decide_eq_true htold, .refl, h₄⟩, hq⟩

theorem recovery_progresses_idle : ∃ σ σ', Recovery staleSetup 0 0 σ σ' ∧
    σ.producer.pc = .idle ∧ 0 < (σ'.consumer 0).obj.next := by
  obtain ⟨σ, σ', hrecovery, hq⟩ := exists_recovery (n := 15) (p := 3)
    (q := fun σ _ => σ.producer = ⟨.idle, 3⟩) (by decide +kernel)
  have hprod : σ.producer = ⟨.idle, 3⟩ := of_decide_eq_true hq
  refine ⟨σ, σ', hrecovery, by rw [hprod], ?_⟩
  refine (recovery_progresses rfl rfl hrecovery (by decide) ?_).mpr ?_
  · rw [hprod]
    decide
  · rw [hprod]
    rfl

theorem recovery_stalls : ∃ σ σ' σ'', Recovery staleSetup 0 0 σ σ' ∧
    σ.producer.pc = .advance 2 ∧ ¬ 0 < (σ'.consumer 0).obj.next ∧
    staleSetup.lts.run [.call 0 .read, .consumer 0] σ' = some σ'' ∧
    (σ''.consumer 0).obj.lastStatus = .lapped := by
  obtain ⟨σ, σ', hrecovery, hq⟩ := exists_recovery (n := 14) (p := 2)
    (q := fun σ σ' => σ.producer.pc = .advance 2 && (σ'.consumer 0).obj.next = 0 &&
      (staleSetup.lts.run [.call 0 .read, .consumer 0] σ').any fun σ'' =>
        (σ''.consumer 0).obj.lastStatus = .lapped) (by decide +kernel)
  simp only [Bool.and_eq_true, decide_eq_true_eq] at hq
  obtain ⟨⟨hpc, hnext⟩, hq⟩ := hq
  obtain ⟨σ'', hrun, hlapped⟩ := (Option.any_eq_true _ _).mp hq
  refine ⟨σ, σ', σ'', hrecovery, hpc, ?_, hrun, of_decide_eq_true hlapped⟩
  rw [hnext]
  exact Nat.lt_irrefl 0

end Overwrite

end Shimmy
