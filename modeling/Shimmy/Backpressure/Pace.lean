import Shimmy.Backpressure.Owner
import Shimmy.Ring.Round

namespace Shimmy

open Concurrency Function

def SessionPc.arriving : SessionPc → Bool
  | .unborn => true
  | .claimCursor _ _ => true
  | .initCursor _ _ => true
  | .attachProduced => true
  | _ => false

namespace Session

variable {cfg : RingConfig} {cells : Loc → Nat} {s s' : Session}

theorem arriving_cursorPc (o : Consumer) : (cursorPc cfg o).arriving = false := by
  unfold cursorPc
  split <;> rfl

theorem arriving_destructPc (o : Consumer) (last : Bool) :
    (destructPc cfg o last).arriving = false := by
  unfold destructPc
  split
  · rfl
  · cases last <;> rfl

theorem arriving_afterDoRead (call : ReadCall) (stamp : Nat) :
    (s.afterDoRead cfg call stamp).pc.arriving = false := by
  unfold afterDoRead waitPc
  dsimp only
  split
  · rfl
  · rfl
  · dsimp only
    split <;> rfl
  · rfl

theorem arriving_copyFromPc (n j : Nat) : (copyFromPc n j).arriving = false := by
  unfold copyFromPc
  split <;> rfl

theorem arriving_enter {k : Call} (hk : s.enabled k = true) (hc : k ≠ .construct)
    (ha : k ≠ .attachAtCurrent) : ((s.noteCall k).enter cfg k).pc.arriving = false := by
  cases k with
  | construct => exact absurd rfl hc
  | attachAtCurrent => exact absurd rfl ha
  | commit => exact arriving_cursorPc _
  | seek seq => exact arriving_cursorPc _
  | resync p => exact arriving_cursorPc _
  | destroy => exact arriving_destructPc _ _
  | destroyMoved => exact arriving_destructPc _ _
  | move =>
    have hpc : s.pc = .idle := of_decide_eq_true hk
    simp only [enter, move, noteCall, hpc]
    rfl
  | _ => rfl

theorem enter_ne_initCursor {k : Call} (hk : s.enabled k = true) {i : Nat} {attach : Bool} :
    ((s.noteCall k).enter cfg k).pc ≠ .initCursor i attach := by
  by_cases hborn : k = .construct ∨ k = .attachAtCurrent
  · rcases hborn with rfl | rfl
    all_goals
      simp only [enter, construct]
      split <;> simp
  · intro hp
    have ha : ((s.noteCall k).enter cfg k).pc.arriving = false :=
      arriving_enter hk (fun h => hborn (.inl h)) fun h => hborn (.inr h)
    rw [hp] at ha
    cases ha

theorem Moves.arriving (hm : s.Moves cfg cells s') (ha : s'.pc.arriving = true) :
    s.pc.arriving = true ∧ s'.obj.next = s.obj.next ∧ s'.committed = s.committed := by
  cases hm with
  | control hn =>
    refine ⟨?_, rfl, rfl⟩
    generalize s.pc = pc at hn
    cases hn <;> first | rfl | cases ha
  | registrationFailed hpc => exact ⟨by rw [hpc]; rfl, rfl, rfl⟩
  | registered hpc => exact ⟨by rw [hpc]; rfl, rfl, rfl⟩
  | attached hpc =>
    rw [show (s.seek cfg _).pc.arriving = false from arriving_cursorPc _] at ha
    cases ha
  | doRead hpc =>
    rw [arriving_afterDoRead] at ha
    cases ha
  | viewLen hpc =>
    rcases hpc with ⟨-, rfl⟩ | ⟨outCap, -, rfl⟩
    · cases ha
    · rw [arriving_copyFromPc] at ha
      cases ha
  | viewByte hpc =>
    rcases hpc with ⟨-, rfl⟩ | ⟨n, -, rfl⟩
    · cases ha
    · rw [arriving_copyFromPc] at ha
      cases ha
  | @copyValidate n hpc =>
    unfold afterCopy at ha
    split at ha
    · rw [show (Session.commit cfg _).pc.arriving = false from arriving_cursorPc _] at ha
      cases ha
    · cases ha
  | validate hpc => cases ha
  | produced hpc => cases ha

theorem Moves.ne_validate (hm : s.Moves cfg cells s') : s'.pc ≠ .validate := by
  have hcopy (n j : Nat) : copyFromPc n j ≠ .validate := by
    unfold copyFromPc
    split <;> simp
  have hcursor (o : Consumer) : cursorPc cfg o ≠ .validate := by
    unfold cursorPc
    split <;> simp
  cases hm with
  | control hn =>
    generalize s.pc = pc at hn
    cases hn <;> simp
  | @registrationFailed i attach hpc => cases attach <;> simp [Session.registered]
  | @registered i attach hpc => cases attach <;> simp [Session.registered]
  | attached hpc => exact hcursor _
  | doRead hpc =>
    unfold afterDoRead waitPc
    dsimp only
    split
    · simp
    · simp
    · dsimp only
      split <;> simp
    · simp
  | viewLen hpc =>
    rcases hpc with ⟨-, rfl⟩ | ⟨outCap, -, rfl⟩
    · simp
    · exact hcopy _ _
  | viewByte hpc =>
    rcases hpc with ⟨-, rfl⟩ | ⟨n, -, rfl⟩
    · simp
    · exact hcopy _ _
  | copyValidate hpc =>
    unfold afterCopy
    split
    · exact hcursor _
    · simp
  | validate hpc => simp
  | produced hpc => simp

end Session

theorem Setup.Sound.arriving_step {ι : Type} [DecidableEq ι] {S : Setup ι} {l : Label ι}
    {σ σ' : System ι} {d : Pos} {c : ι} (hd : S.Sound σ d) (hs : S.step l σ = some σ')
    (ha : (σ.consumer c).pc.arriving = false) : (σ'.consumer c).pc.arriving = false := by
  refine hd.sessions_step (P := fun _ b s => b = c → s.pc.arriving = false) hs ?_ ?_ ?_ ?_ c rfl
  · rintro b rfl
    exact ha
  · exact fun b s h => h
  · rintro b k s - hcall rfl
    obtain ⟨hk, rfl⟩ := Session.call_eq_some.mp hcall
    refine Session.arriving_enter hk ?_ ?_
    all_goals
      rintro rfl
      rw [of_decide_eq_true hk] at ha
      cases ha
  · rintro b s - hm rfl
    by_contra hne
    rw [(hm.arriving (by simpa using hne)).1] at ha
    cases ha

namespace Backpressure

def follows (attach : Bool) (s : Session) : Call → Bool
  | .construct => !attach
  | .attachAtCurrent => attach
  | .read => true
  | .readBlocking => true
  | .readCopy _ => true
  | .viewByte _ => s.roundOpen
  | .validate => s.roundOpen
  | .commit => s.confirmed
  | .produced => true
  | .move => true
  | .destroy => true
  | .destroyMoved => true
  | .seek _ => false
  | .resync _ => false

structure Paced (cfg : RingConfig) (stream : Nat → Message cfg.blockSize) (d : Pos)
    (s : Session) : Prop where
  rounds : Rounds cfg stream d s
  next : s.obj.next ≤ d.stampedCount
  arriving : s.pc.arriving = true → s.obj.next = 0 ∧ s.committed = []
  checking : s.pc = .validate → s.roundOpen = true
  status : s.obj.lastStatus ≠ .lapped
  validated : s.lastCall = some .validate → s.pc ≠ .validate → s.validated = true

structure InSequence {blockSize : Nat} (stream : Nat → Message blockSize) (p : Nat)
    (s : Session) : Prop where
  next : s.obj.next = p + s.committed.length
  entries : ∀ k e, s.committed[k]? = some e →
    e.1 = p + k ∧ ∃ v, e.2 = some v ∧ v.Matches (stream (p + k))

namespace InSequence

variable {cfg : RingConfig} {stream : Nat → Message cfg.blockSize} {cells : Loc → Nat} {d : Pos}
  {p : Nat} {s s' : Session}

theorem change (h : InSequence stream p s) (hc : s.Change cfg stream cells d s')
    (hpc : s.pc ≠ .attachProduced) (hlt : d.stampedCount < 2 ^ 64) : InSequence stream p s' := by
  cases hc with
  | stay hnext hc => exact ⟨by rw [hnext, hc, h.next], fun k e he => h.entries k e (hc ▸ he)⟩
  | attach hp => exact absurd hp hpc
  | commit v hv hlt' hnext hc =>
    refine ⟨?_, fun k e he => ?_⟩
    · rw [hnext, hc, Nat.mod_eq_of_lt (by omega), h.next, List.length_append,
        List.length_singleton]
      omega
    · rw [hc] at he
      rcases Nat.lt_or_ge k s.committed.length with hk | hk
      · rw [List.getElem?_append_left hk] at he
        exact h.entries k e he
      · rw [List.getElem?_append_right hk, List.getElem?_singleton] at he
        split at he <;> cases he
        have hend : s.obj.next = p + k := by
          rw [h.next]
          omega
        exact ⟨hend, v, rfl, hend ▸ hv⟩

end InSequence

theorem next_le_stampedCount {cfg : RingConfig} {stream : Nat → Message cfg.blockSize}
    {cells : Loc → Nat} {d : Pos} {s s' : Session} (h : s.obj.next ≤ d.stampedCount)
    (himage : Image cfg stream cells d) (hc : s.Change cfg stream cells d s')
    (hlt : d.stampedCount < 2 ^ 64) : s'.obj.next ≤ d.stampedCount := by
  cases hc with
  | stay hnext hc => exact hnext.trans_le h
  | commit v hv hlt' hnext hc =>
    rw [hnext, Nat.mod_eq_of_lt (by omega)]
    omega
  | attach hp hnext hc =>
    rw [hnext, himage.nextPublish]
    exact d.count_le_stampedCount

theorem follows_change {cfg : RingConfig} {stream : Nat → Message cfg.blockSize}
    (cells : Loc → Nat) {d : Pos} {s : Session} {k : Call} {attach : Bool}
    (h : Rounds cfg stream d s) (hk : s.enabled k = true) (hf : follows attach s k = true) :
    Rounds cfg stream d ((s.noteCall k).enter cfg k) ∧
      s.Change cfg stream cells d ((s.noteCall k).enter cfg k) := by
  refine ⟨h.enter hk fun hi => ?_, h.enter_change hk ?_ ?_ ?_⟩
  · cases k <;> first | exact hf | cases hi
  · rintro rfl
    exact hf
  · rintro seq rfl
    cases hf
  · rintro p rfl
    cases hf

namespace Paced

variable {cfg : RingConfig} {stream : Nat → Message cfg.blockSize} {cells : Loc → Nat} {d : Pos}
  {attach : Bool} {s s' : Session}

theorem initial : Paced cfg stream d (Session.initial cfg) where
  rounds := .initial
  next := Nat.zero_le _
  arriving _ := ⟨rfl, rfl⟩
  checking h := by cases h
  status := by simp [Session.initial, Consumer.construct]
  validated h := by cases h

theorem succ (h : Paced cfg stream d s) : Paced cfg stream (d.succ cfg stream) s :=
  ⟨h.rounds.succ, h.next.trans d.stampedCount_le_succ, h.arriving, h.checking, h.status,
    h.validated⟩

theorem next_le (h : Paced cfg stream d s) (hc : s.Change cfg stream cells d s')
    (hlt : d.stampedCount < 2 ^ 64) : s.obj.next ≤ s'.obj.next := by
  cases hc with
  | stay hnext hc => exact hnext.ge
  | commit v hv hlt' hnext hc =>
    rw [hnext, Nat.mod_eq_of_lt (by omega)]
    omega
  | attach hp =>
    rw [(h.arriving (by rw [hp]; rfl)).1]
    exact Nat.zero_le _

theorem moves (h : Paced cfg stream d s) (hbp : cfg.overflow = .backpressure)
    (himage : Image cfg stream cells d) (hlt : d.stampedCount < 2 ^ 64)
    (hguard : s.pc.polling = true ∨ s.pc.validating = true →
      d.touched ≤ s.obj.next + cfg.capacity)
    (hm : s.Moves cfg cells s') :
    Paced cfg stream d s' ∧ s.Change cfg stream cells d s' := by
  have hstamp (w : Nat) : cells (.slotSeq (cfg.slot w)) = d.stampAt cfg (cfg.slot w) :=
    himage.stamps _ (cfg.slot_lt w)
  have hok (hc : cells (.slotSeq (cfg.slot s.obj.next)) = s.obj.next) :
      s.obj.next < d.stampedCount :=
    Pos.lt_of_stampAt ((hstamp _).symm.trans hc) (by simp [hbp]) (.inl h.next)
  have hcur (hp : s.pc.validating = true) : s.obj.lastStatus = .ok ∧ s.obj.readSeq = s.obj.next := by
    cases hpc : s.pc with
    | copyValidate n =>
      have hc := h.rounds.current (.inl (by rw [hpc]; rfl))
      exact ⟨hc.1, hc.2.1⟩
    | validate =>
      have hc := h.rounds.current (.inr ⟨by rw [hpc]; rfl, h.checking hpc⟩)
      exact ⟨hc.1, hc.2.1⟩
    | _ => rw [hpc] at hp; cases hp
  have hresident (hp : s.pc.validating = true) (hs : s.obj.readSeq < d.stampedCount) :
      d.Resident cfg s.obj.readSeq := by
    refine ⟨hs, ?_⟩
    rw [(hcur hp).2]
    exact hguard (.inr hp)
  obtain ⟨hrounds, hchange⟩ := h.rounds.moves himage hok (fun hp hs _ => hresident hp hs) hm
  have hserves := h.rounds.serves
  have hlast := hm.lastCall
  have hready (hp : s'.obj.lastStatus ≠ .lapped)
      (hval : s'.lastCall = some .validate → s'.validated = true) :
      Paced cfg stream d s' ∧ s.Change cfg stream cells d s' :=
    ⟨⟨hrounds, next_le_stampedCount h.next himage hchange hlt,
      fun ha => ⟨(hm.arriving ha).2.1.trans (h.arriving (hm.arriving ha).1).1,
        (hm.arriving ha).2.2.trans (h.arriving (hm.arriving ha).1).2⟩,
      fun hp => absurd hp hm.ne_validate, hp, fun hl _ => hval hl⟩, hchange⟩
  have hkeep (hpc : s.pc ≠ .validate) (hl : s.lastCall = some .validate) : s.validated = true :=
    h.validated hl hpc
  cases hm with
  | control hn =>
    refine hready h.status (hkeep ?_)
    intro hpc
    rw [hpc] at hn
    cases hn
  | registrationFailed hpc => exact hready h.status (hkeep (by simp [hpc]))
  | registered hpc => exact hready h.status (hkeep (by simp [hpc]))
  | attached hpc => exact hready h.status (hkeep (by simp [hpc]))
  | @doRead call hpc =>
    rw [hpc] at hserves
    refine hready ?_ fun hl => ?_
    · have hne : Consumer.classify (cells (.slotSeq (cfg.slot s.obj.next))) s.obj.next ≠ .lapped := by
        rw [hstamp]
        exact Pos.classify_ne_lapped (hguard (.inl (by rw [hpc]; rfl)))
      by_cases hs : cells (.slotSeq (cfg.slot s.obj.next)) = s.obj.next
      · rw [Session.afterDoRead_ok hs]
        simp
      · rw [Session.afterDoRead_ne hs]
        dsimp only
        split <;> exact hne
    · rw [hlast, show s.lastCall = some call.call from hserves] at hl
      cases call <;> cases hl
  | viewLen hpc =>
    refine hready h.status fun hl => ?_
    rcases hpc with ⟨hpc, -⟩ | ⟨outCap, hpc, -⟩
    · rw [hpc] at hserves
      rcases hserves with hs | hs <;> exact absurd (hs.symm.trans hl) (by simp)
    · rw [hpc] at hserves
      exact absurd (hserves.symm.trans hl) (by simp)
  | viewByte hpc =>
    refine hready h.status fun hl => ?_
    rcases hpc with ⟨hpc, -⟩ | ⟨n, hpc, -⟩
    · rw [hpc] at hserves
      exact absurd (hserves.symm.trans hl) (by simp)
    · rw [hpc] at hserves
      obtain ⟨outCap, hs⟩ := hserves
      exact absurd (hs.symm.trans hl) (by simp)
  | copyValidate hpc =>
    have hp : s.pc.validating = true := by rw [hpc]; rfl
    have hs := Pos.stampAt_slot_eq (hresident hp (h.rounds.view.stamped (.inl (by rw [hpc]; rfl))))
    have hvalid : cells (.slotSeq (cfg.slot s.obj.readSeq)) = s.obj.readSeq := (hstamp _).trans hs
    simp only [hvalid, decide_true, Session.afterCopy, if_true] at hready ⊢
    refine hready ?_ fun _ => rfl
    have hst : s.obj.lastStatus = .ok := (hcur hp).1
    simp [Session.commit, Session.publishCursor, Consumer.commit, hst]
  | validate hpc =>
    have hp : s.pc.validating = true := by rw [hpc]; rfl
    have hseen := h.rounds.current (.inr ⟨by rw [hpc]; rfl, h.checking hpc⟩)
    have hview : s.view ≠ none := by simpa [hpc] using hseen.2.2
    have hs := Pos.stampAt_slot_eq (hresident hp (h.rounds.view.stamped (.inr hview)))
    exact hready h.status fun _ => decide_eq_true ((hstamp _).trans hs)
  | produced hpc => exact hready h.status (hkeep (by simp [hpc]))

theorem enter {k : Call} (h : Paced cfg stream d s) (hlt : d.stampedCount < 2 ^ 64)
    (himage : Image cfg stream cells d) (hk : s.enabled k = true)
    (hf : follows attach s k = true) :
    Paced cfg stream d ((s.noteCall k).enter cfg k) ∧
      s.Change cfg stream cells d ((s.noteCall k).enter cfg k) := by
  obtain ⟨hrounds, hchange⟩ :
      _ ∧ s.Change cfg stream cells d ((s.noteCall k).enter cfg k) :=
        follows_change cells h.rounds hk hf
  have hnext := next_le_stampedCount h.next himage hchange hlt
  have hlast : ((s.noteCall k).enter cfg k).lastCall = some k := Session.lastCall_enter k
  refine ⟨⟨hrounds, hnext, fun ha => ?_, fun hp => ?_, ?_, fun hl hp => ?_⟩, hchange⟩
  · by_cases hborn : k = .construct ∨ k = .attachAtCurrent
    · rcases hborn with rfl | rfl
      all_goals exact ⟨rfl, by rw [h.rounds.unborn (of_decide_eq_true hk)]; rfl⟩
    · rw [Session.arriving_enter hk (fun h => hborn (.inl h)) fun h => hborn (.inr h)] at ha
      cases ha
  · obtain rfl : k = .validate := by
      have hserves := hrounds.serves
      rw [hp, hlast] at hserves
      exact Option.some.inj hserves
    have hok : s.obj.lastStatus = .ok := by
      simp only [follows, Session.roundOpen, Bool.and_eq_true, decide_eq_true_eq] at hf
      exact hf.1
    simp [Session.roundOpen, Session.enter, Session.noteCall, Call.inRound, hok]
  · cases k <;> first | exact h.status | simp [Session.enter, Session.construct, Consumer.construct]
  · obtain rfl : k = .validate := Option.some.inj (hlast.symm.trans hl)
    exact absurd rfl hp

end Paced

end Backpressure

end Shimmy
