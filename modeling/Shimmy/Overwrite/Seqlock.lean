import Shimmy.Ring.View

namespace Shimmy

open Concurrency Function

namespace Overwrite

structure InRange (n : Nat) (o : Consumer) : Prop where
  next : o.next < writingSeq
  readSeq : o.readSeq = 0 ∨ o.readSeq < n

namespace InRange

variable {cfg : RingConfig} {n n' : Nat} {o : Consumer} {s s' : Session}

theorem mono (h : InRange n o) (hn : n ≤ n') : InRange n' o :=
  ⟨h.next, h.readSeq.imp id fun hr => hr.trans_le hn⟩

theorem construct : InRange n (Consumer.construct cfg) :=
  ⟨by simp [Consumer.construct, writingSeq], .inl rfl⟩

theorem commit (h : InRange n o) (hn : n < writingSeq) : InRange n o.commit := by
  refine ⟨?_, h.readSeq⟩
  have hle : (o.readSeq + 1) % 2 ^ 64 ≤ o.readSeq + 1 := Nat.mod_le _ _
  refine hle.trans_lt ?_
  rcases h.readSeq with hr | hr
  · rw [hr]
    decide
  · omega

theorem resync (h : InRange n o) {p : Nat} (hp : p < 2 ^ 64) : InRange n (o.resync cfg p) := by
  refine ⟨?_, h.readSeq⟩
  have := cfg.capacity_ge
  simp only [Consumer.resync, writingSeq]
  split <;> omega

theorem enter {k : Call} (h : InRange n s.obj) (hn : n < writingSeq) (hk : s.enabled k = true)
    (hseek : ∀ seq, k = .seek seq → seq < writingSeq) : InRange n (s.enter cfg k).obj := by
  cases k with
  | construct => exact construct
  | attachAtCurrent => exact construct
  | commit => exact h.commit hn
  | seek seq => exact ⟨hseek seq rfl, h.readSeq⟩
  | resync p =>
    have hp : s.pc = .idle ∧ p < 2 ^ 64 := of_decide_eq_true hk
    exact h.resync hp.2
  | _ => exact h

theorem moves {stream : Nat → Message cfg.blockSize} {cells : Loc → Nat} {d : Pos}
    (h : InRange d.stampedCount s.obj) (hn : d.stampedCount < writingSeq)
    (himage : Image cfg stream cells d)
    (hok : cells (.slotSeq (cfg.slot s.obj.next)) = s.obj.next → s.obj.next < d.stampedCount)
    (hm : s.Moves cfg cells s') : InRange d.stampedCount s'.obj := by
  cases hm with
  | attached =>
    refine ⟨?_, h.readSeq⟩
    have := d.count_le_stampedCount
    have hcount := himage.nextPublish
    simp only [Session.seek, Session.publishCursor, Consumer.seek]
    omega
  | @doRead call _ =>
    by_cases hs : cells (.slotSeq (cfg.slot s.obj.next)) = s.obj.next
    · rw [Session.afterDoRead_ok hs]
      exact ⟨h.next, .inr (hok hs)⟩
    · rw [Session.afterDoRead_ne hs]
      dsimp only
      split <;> exact ⟨h.next, h.readSeq⟩
  | @copyValidate k _ =>
    unfold Session.afterCopy
    split
    · exact h.commit hn
    · exact ⟨h.next, h.readSeq⟩
  | _ => exact ⟨h.next, h.readSeq⟩

end InRange

structure Snapshot (s : Session) (outCap n j : Nat) : Prop where
  next : s.obj.next = s.entry
  readSeq : s.obj.readSeq = s.entry
  status : s.obj.lastStatus = .ok
  copied : ∃ v, s.view = some v ∧ n = min v.len outCap ∧ v.bytes.map Prod.fst = List.range j

def CopySound (s : Session) : Prop :=
  ∀ outCap, s.lastCall = some (.readCopy outCap) →
    match s.pc with
    | .doRead call => call = .readCopy outCap ∧ s.obj.next = s.entry
    | .copyLen cap =>
        cap = outCap ∧ s.obj.next = s.entry ∧ s.obj.readSeq = s.entry ∧ s.obj.lastStatus = .ok
    | .copyByte n j => j < n ∧ Snapshot s outCap n j
    | .copyValidate n => Snapshot s outCap n n
    | .idle =>
        if s.obj.lastStatus = .ok then
          s.obj.readSeq = s.entry ∧ s.obj.next = (s.entry + 1) % 2 ^ 64 ∧ s.validated = true ∧
            ∃ v, s.view = some v ∧ s.returned = min v.len outCap ∧
              v.bytes.map Prod.fst = List.range s.returned
        else s.obj.next = s.entry ∧ s.returned = 0
    | _ => False

namespace CopySound

variable {cfg : RingConfig} {s s' : Session}

theorem enter {k : Call} : CopySound ((s.noteCall k).enter cfg k) := by
  intro outCap hlast
  have hk : k = .readCopy outCap := by
    have : ((s.noteCall k).enter cfg k).lastCall = some k := by cases k <;> rfl
    simpa [this] using hlast
  subst hk
  exact ⟨rfl, rfl⟩

theorem copyFromPc {outCap n j : Nat} (hlast : s.lastCall = some (.readCopy outCap))
    (hpc : s.pc = Session.copyFromPc n j) (hj : j ≤ n) (hs : Snapshot s outCap n j) :
    CopySound s := by
  intro cap hcap
  obtain rfl : outCap = cap := by simpa [hlast] using hcap
  rw [hpc]
  by_cases hjn : j < n
  · simpa [Session.copyFromPc, hjn] using hs
  · obtain rfl : j = n := by omega
    simpa [Session.copyFromPc] using hs

theorem moves {cells : Loc → Nat} (hover : cfg.overflow = .overwrite) (h : CopySound s)
    (hm : s.Moves cfg cells s') : CopySound s' := by
  intro outCap hlast
  have hlast₀ : s.lastCall = some (.readCopy outCap) := by
    have : s'.lastCall = s.lastCall := hm.lastCall
    rwa [this] at hlast
  have hh := h outCap hlast₀
  cases hm with
  | control hn =>
    generalize s.pc = p at hn hh
    cases hn <;> exact hh.elim
  | doRead hpc =>
    rw [hpc] at hh
    obtain ⟨rfl, hnext⟩ := hh
    by_cases hs : cells (.slotSeq (cfg.slot s.obj.next)) = s.obj.next
    · rw [Session.afterDoRead_ok hs]
      exact ⟨rfl, hnext, hnext, rfl⟩
    · rw [Session.afterDoRead_ne hs]
      have hne := Consumer.classify_ne_ok hs
      cases hc : Consumer.classify (cells (.slotSeq (cfg.slot s.obj.next))) s.obj.next with
      | ok => exact absurd hc hne
      | empty => exact ⟨hnext, rfl⟩
      | lapped => exact ⟨hnext, rfl⟩
  | viewLen hpc =>
    rcases hpc with ⟨hpc, rfl⟩ | ⟨cap, hpc, rfl⟩
    · rw [hpc] at hh
      exact hh.elim
    · rw [hpc] at hh
      obtain ⟨rfl, hnext, hseq, hok⟩ := hh
      exact copyFromPc hlast rfl (Nat.zero_le _) ⟨hnext, hseq, hok, _, rfl, rfl, rfl⟩ _ hlast
  | @viewByte j _ hpc =>
    rcases hpc with ⟨hpc, rfl⟩ | ⟨n, hpc, rfl⟩
    · rw [hpc] at hh
      exact hh.elim
    · rw [hpc] at hh
      obtain ⟨hj, hnext, hseq, hok, v, hv, hn, hbytes⟩ := hh
      refine copyFromPc hlast rfl hj ⟨hnext, hseq, hok, ?_⟩ _ hlast
      refine ⟨⟨v.len, v.bytes ++ [(j, cells (.payload (cfg.slot s.obj.readSeq) j))]⟩,
        by simp [Session.viewed, hv], hn, ?_⟩
      simp [hbytes, List.range_succ]
  | copyValidate hpc =>
    rw [hpc] at hh
    obtain ⟨hnext, hseq, hok, v, hv, hn, hbytes⟩ := hh
    generalize decide (cells (.slotSeq (cfg.slot s.obj.readSeq)) = s.obj.readSeq) = valid
    cases valid with
    | true =>
      have hcursor : Session.cursorPc cfg s.obj.commit = .idle := by
        simp [Session.cursorPc, hover]
      simp only [Session.afterCopy, Session.commit, Session.publishCursor, hcursor, if_true]
      exact (if_pos hok).mpr ⟨hseq, by rw [← hseq]; rfl, trivial, v, hv, hn, hbytes⟩
    | false => exact ⟨hnext, rfl⟩
  | registrationFailed hpc => rw [hpc] at hh; exact hh.elim
  | registered hpc => rw [hpc] at hh; exact hh.elim
  | attached hpc => rw [hpc] at hh; exact hh.elim
  | validate hpc => rw [hpc] at hh; exact hh.elim
  | produced hpc => rw [hpc] at hh; exact hh.elim

end CopySound

structure SessionSound (cfg : RingConfig) (stream : Nat → Message cfg.blockSize) (d : Pos)
    (s : Session) : Prop where
  view : ViewSound cfg stream d s
  inRange : InRange d.stampedCount s.obj
  copy : CopySound s

def Invariant {ι : Type} (S : Setup ι) (σ : System ι) : Prop :=
  σ.producer.begun < writingSeq →
    ∃ d, S.Sound σ d ∧ ∀ c, SessionSound S.cfg S.stream d (σ.consumer c)

section Run

variable {ι : Type} {S : Setup ι} {σ σ' : System ι} {d : Pos}

def RealSeeks (S : Setup ι) : Prop :=
  ∀ c s seq, S.client c s (.seek seq) = true → seq < writingSeq

theorem readable (hover : S.cfg.overflow = .overwrite) (hs : S.Sound σ d) {w : Nat}
    (hw : w < writingSeq) (h : σ.memory.cells (.slotSeq (S.cfg.slot w)) = w) :
    d.Resident S.cfg w :=
  Pos.resident_of_stampAt hover ((hs.image.stamps _ (S.cfg.slot_lt w)).symm.trans h) hw

theorem invariant_initial (fresh : Loc → Nat) : Invariant S (S.initial fresh) := fun _ =>
  ⟨_, .initial S fresh, fun _ => ⟨.initial, .construct, fun _ h => by cases h⟩⟩

theorem invariant_step [DecidableEq ι] {l : Label ι} (hover : S.cfg.overflow = .overwrite)
    (hm : S.model = .tso) (hseek : RealSeeks S) (h : Invariant S σ) (hs : S.step l σ = some σ') :
    Invariant S σ' := by
  intro hb
  have hb' : σ'.producer.begun < 2 ^ 64 := by unfold writingSeq at hb; omega
  obtain ⟨d, hd, hc⟩ := h ((Setup.begun_le hs).trans_lt hb)
  have hn : d.stampedCount < writingSeq :=
    (hd.stampedCount_le_begun.trans (Setup.begun_le hs)).trans_lt hb
  refine ⟨_, hd.step hm hb' hs, ?_⟩
  refine hd.sessions_step (P := fun d _ s => SessionSound S.cfg S.stream d s) hs hc ?_ ?_ ?_
  · intro c s hcs
    exact ⟨hcs.view.succ, hcs.inRange.mono d.stampedCount_le_succ, hcs.copy⟩
  · intro c k s hclient hcall
    obtain ⟨hk, rfl⟩ := Session.call_eq_some.mp hcall
    refine ⟨(hc c).view.call hcall, ?_, .enter⟩
    have hin : InRange d.stampedCount ((σ.consumer c).noteCall k).obj := (hc c).inRange
    exact hin.enter hn hk fun seq hseq => hseek c _ seq (hseq ▸ hclient)
  · intro c s _ hmoves
    have hok := fun h => (readable hover hd (hc c).inRange.next h).1
    refine ⟨(hc c).view.moves hd.image hok (fun _ hlt h => ?_) hmoves,
      (hc c).inRange.moves hn hd.image hok hmoves, (hc c).copy.moves hover hmoves⟩
    exact readable hover hd (hlt.trans hn) h

theorem invariant_of_reachable [DecidableEq ι] (hover : S.cfg.overflow = .overwrite)
    (hm : S.model = .sc) (hseek : RealSeeks S) (h : S.Reachable σ) : Invariant S σ := by
  obtain ⟨fresh, hr⟩ := h
  obtain ⟨htso, -⟩ := Setup.reach_tso hm (fun _ _ _ h => h) (fun _ _ => trivial) (fun _ => rfl) hr
  have hinv : Invariant S.tso σ :=
    htso.invariant (invariant_initial fresh) fun l u v hu _ hs =>
      invariant_step hover rfl hseek hu hs
  intro hb
  obtain ⟨d, hd, hc⟩ := hinv hb
  exact ⟨d, hd.of_tso, hc⟩

theorem seqlock_sound [DecidableEq ι] (hover : S.cfg.overflow = .overwrite) (hm : S.model = .sc)
    (hseek : RealSeeks S) (h : S.Reachable σ) (hcount : σ.producer.begun < 2 ^ 64 - 2) (c : ι) :
    (∀ v, (σ.consumer c).view = some v → v.len ≤ S.cfg.blockSize) ∧
    ((σ.consumer c).validated = true → ∀ v, (σ.consumer c).view = some v →
      (σ.consumer c).obj.readSeq < σ.producer.begun ∧
      v.Matches (S.stream (σ.consumer c).obj.readSeq)) ∧
    (∀ outCap, (σ.consumer c).lastCall = some (.readCopy outCap) → (σ.consumer c).pc = .idle →
      if (σ.consumer c).obj.lastStatus = .ok then
        (σ.consumer c).obj.readSeq = (σ.consumer c).entry ∧
        (σ.consumer c).obj.next = (σ.consumer c).entry + 1 ∧
        ((S.stream (σ.consumer c).entry).len ≤ outCap →
          (σ.consumer c).returned = (S.stream (σ.consumer c).entry).len ∧
          (σ.consumer c).view.map (fun v => v.bytes.map Prod.snd) =
            some (S.stream (σ.consumer c).entry).bytes)
      else (σ.consumer c).obj.next = (σ.consumer c).entry) := by
  obtain ⟨d, hd, hsess⟩ := invariant_of_reachable hover hm hseek h hcount
  obtain ⟨hview, hrange, hcopy⟩ := hsess c
  have hstamped {v : View} (hv : (σ.consumer c).view = some v) :
      (σ.consumer c).obj.readSeq < σ.producer.begun :=
    (hview.stamped (.inr (by simp [hv]))).trans_le hd.stampedCount_le_begun
  refine ⟨hview.len, fun hval v hv => ⟨hstamped hv, hview.valid hval v hv⟩,
    fun outCap hlast hpc => ?_⟩
  have hc := hcopy outCap hlast
  rw [hpc] at hc
  split
  · rename_i hok
    obtain ⟨hseq, hnext, hval, v, hv, hret, hfst⟩ := (if_pos hok).mp hc
    have hlt := hstamped hv
    have hmatch := hview.valid hval v hv
    rw [hseq] at hlt hmatch
    refine ⟨hseq, ?_, fun hlen => ?_⟩
    · rw [hnext, Nat.mod_eq_of_lt (by omega)]
    · rw [hmatch.1, min_eq_left hlen] at hret
      rw [hret] at hfst
      exact ⟨hret, by rw [hv, Option.map_some, hmatch.bytes_eq hfst]⟩
  · rename_i hok
    exact ((if_neg hok).mp hc).1

def pairSetup : Setup (Fin 1) where
  cfg := .lone .overwrite .spin
  stream n := .ofByte n
  client _ _ k := match k with | .seek _ => false | _ => true
  model := .sc
  process _ := ⟨0, 0⟩

def validatedRun : List (Label (Fin 1)) :=
  List.replicate 6 .producer ++
    [.call 0 .construct, .call 0 .read, .consumer 0, .consumer 0, .call 0 (.viewByte 0),
      .consumer 0, .call 0 .validate, .consumer 0]

theorem seqlock_sound_validated :
    ∃ σ, pairSetup.Reachable σ ∧ (σ.consumer 0).validated = true ∧
      (σ.consumer 0).view = some ⟨1, [(0, 0)]⟩ ∧
      View.Matches ⟨1, [(0, 0)]⟩ (pairSetup.stream (σ.consumer 0).obj.readSeq) := by
  obtain ⟨σ, hr, hp⟩ := Lts.exists_of_run (M := pairSetup.lts) (fun σ : System (Fin 1) =>
    (σ.consumer 0).validated && (σ.consumer 0).view = some ⟨1, [(0, 0)]⟩ &&
      σ.producer.begun = 1) validatedRun (pairSetup.initial fun _ => 0) (by decide +kernel)
  simp only [Bool.and_eq_true, decide_eq_true_eq] at hp
  obtain ⟨⟨hval, hview⟩, hbegun⟩ := hp
  have hsound := seqlock_sound (S := pairSetup) rfl rfl (fun c s seq h => by cases h) ⟨_, hr⟩
    (by omega) 0
  exact ⟨σ, ⟨_, hr⟩, hval, hview, (hsound.2.1 hval _ hview).2⟩

def freeSetup : Setup (Fin 1) := { pairSetup with client := fun _ _ _ => true }

def unpublishedRun : List (Label (Fin 1)) :=
  [.call 0 .construct, .call 0 (.seek (2 ^ 64 - 1)), .call 0 .read, .consumer 0, .consumer 0,
    .call 0 .validate, .consumer 0]

-- A slot that was never published carries `emptySeq`, the sequence this reader asks for.
theorem seqlock_confirms_unpublished :
    ∃ σ, freeSetup.Reachable σ ∧ σ.producer.begun = 0 ∧
      (σ.consumer 0).obj.readSeq = 2 ^ 64 - 1 ∧ (σ.consumer 0).obj.lastStatus = .ok ∧
      (σ.consumer 0).validated = true ∧ (σ.consumer 0).view = some ⟨0, []⟩ ∧
      ¬ View.Matches ⟨0, []⟩ (freeSetup.stream (σ.consumer 0).obj.readSeq) := by
  obtain ⟨σ, hr, hp⟩ := Lts.exists_of_run (M := freeSetup.lts) (fun σ : System (Fin 1) =>
    σ.producer.begun = 0 && (σ.consumer 0).obj.readSeq = 2 ^ 64 - 1 &&
      (σ.consumer 0).obj.lastStatus = .ok && (σ.consumer 0).validated &&
      (σ.consumer 0).view = some ⟨0, []⟩) unpublishedRun (freeSetup.initial fun _ => 0)
    (by decide +kernel)
  simp only [Bool.and_eq_true, decide_eq_true_eq] at hp
  obtain ⟨⟨⟨⟨hbegun, hseq⟩, hstatus⟩, hval⟩, hview⟩ := hp
  refine ⟨σ, ⟨_, hr⟩, hbegun, hseq, hstatus, hval, hview, fun hm => ?_⟩
  have hlen : 0 = (freeSetup.stream (σ.consumer 0).obj.readSeq).len := hm.1
  exact absurd hlen (Nat.succ_ne_zero 0).symm

end Run

end Overwrite

end Shimmy
