import Shimmy.Ring.View

namespace Shimmy

open Concurrency Function

def Call.isRead : Call → Bool
  | .read => true
  | .readBlocking => true
  | .readCopy _ => true
  | _ => false

def Call.inRound : Call → Bool
  | .read => true
  | .readBlocking => true
  | .viewByte _ => true
  | .validate => true
  | _ => false

namespace Session

def roundOpen (s : Session) : Bool := s.obj.lastStatus = .ok && s.lastCall.any Call.inRound

def confirmed (s : Session) : Bool := s.roundOpen && s.validated && s.lastCall = some .validate

end Session

def Call.inspects : Call → Bool
  | .viewByte _ => true
  | .validate => true
  | _ => false

structure Rounds (cfg : RingConfig) (stream : Nat → Message cfg.blockSize) (d : Pos)
    (s : Session) : Prop where
  view : ViewSound cfg stream d s
  serves : s.pc.Serves s.lastCall
  unborn : s.pc = .unborn → s = Session.initial cfg
  current : s.pc.reading = true ∨ s.pc.polling = false ∧ s.roundOpen = true →
    s.obj.lastStatus = .ok ∧ s.obj.readSeq = s.obj.next ∧
      (s.view ≠ none ∨ s.pc = .viewLen ∨ ∃ outCap, s.pc = .copyLen outCap)

inductive Session.Change (cfg : RingConfig) (stream : Nat → Message cfg.blockSize)
    (cells : Loc → Nat) (d : Pos) (s s' : Session) : Prop
  | stay (hnext : s'.obj.next = s.obj.next) (hc : s'.committed = s.committed)
  | commit (v : View) (hv : v.Matches (stream s.obj.next)) (hlt : s.obj.next < d.stampedCount)
      (hnext : s'.obj.next = (s.obj.next + 1) % 2 ^ 64)
      (hc : s'.committed = s.committed ++ [(s.obj.next, some v)])
  | attach (hpc : s.pc = .attachProduced) (hnext : s'.obj.next = cells .nextPublish)
      (hc : s'.committed = s.committed)

namespace Rounds

variable {cfg : RingConfig} {stream : Nat → Message cfg.blockSize} {cells : Loc → Nat} {d : Pos}
  {s s' : Session}

theorem initial : Rounds cfg stream d (Session.initial cfg) where
  view := .initial
  serves := rfl
  unborn _ := rfl
  current h := by simp [Session.initial, SessionPc.reading, Session.roundOpen] at h

theorem succ (h : Rounds cfg stream d s) : Rounds cfg stream (d.succ cfg stream) s :=
  ⟨h.view.succ, h.serves, h.unborn, h.current⟩

theorem closed (hview : ViewSound cfg stream d s') (hserves : s'.pc.Serves s'.lastCall)
    (hborn : s'.pc ≠ .unborn) (hreading : s'.pc.reading = false)
    (hopen : s'.pc.polling = false → s'.roundOpen = false) : Rounds cfg stream d s' :=
  ⟨hview, hserves, fun hp => absurd hp hborn, fun hr => by simp_all⟩

theorem steady (h : Rounds cfg stream d s) (hview : ViewSound cfg stream d s')
    (hserves : s'.pc.Serves s'.lastCall) (hborn : s'.pc ≠ .unborn)
    (hobj : s'.obj.next = s.obj.next ∧ s'.obj.readSeq = s.obj.readSeq ∧
      s'.obj.lastStatus = s.obj.lastStatus)
    (hlast : s'.lastCall = s.lastCall)
    (hreading : s'.pc.reading = true → s.pc.reading = true)
    (hpolling : s'.pc.polling = false → s.pc.polling = false)
    (hseen : s.view ≠ none ∨ s.pc = .viewLen ∨ (∃ outCap, s.pc = .copyLen outCap) →
      s'.view ≠ none) : Rounds cfg stream d s' := by
  obtain ⟨hnext, hseq, hstatus⟩ := hobj
  have hround : s'.roundOpen = s.roundOpen := by rw [Session.roundOpen, hstatus, hlast]; rfl
  refine ⟨hview, hserves, fun hp => absurd hp hborn, fun hr => ?_⟩
  obtain ⟨hok, hcur, hv⟩ := h.current (hr.imp hreading fun hr => ⟨hpolling hr.1, hround ▸ hr.2⟩)
  exact ⟨hstatus.trans hok, by rw [hseq, hnext, hcur], .inl (hseen hv)⟩

theorem registered {i id : Nat} {attach : Bool} (h : Rounds cfg stream d s)
    (hpc : s.pc = .claimCursor i attach ∨ s.pc = .initCursor i attach)
    (hview : ViewSound cfg stream d (s.registered id attach))
    (hserves : (s.registered id attach).pc.Serves (s.registered id attach).lastCall) :
    Rounds cfg stream d (s.registered id attach) := by
  have hsrc : s.pc.polling = false ∧ s.pc ≠ .viewLen ∧ ∀ outCap, s.pc ≠ .copyLen outCap := by
    rcases hpc with hpc | hpc <;> rw [hpc] <;> simp [SessionPc.polling]
  refine h.steady hview hserves (Session.registered_ne_unborn _ _) ⟨rfl, rfl, rfl⟩ rfl
    (fun hr => ?_) (fun _ => hsrc.1) (fun hv => ?_)
  · rw [Session.reading_registered] at hr
    cases hr
  · rcases hv with hv | hv | ⟨outCap, hv⟩
    · exact hv
    · exact absurd hv hsrc.2.1
    · exact absurd hv (hsrc.2.2 outCap)

theorem doRead {call : ReadCall} {stamp : Nat}
    (hview : ViewSound cfg stream d (s.afterDoRead cfg call stamp))
    (hserves : (s.afterDoRead cfg call stamp).pc.Serves
      (s.afterDoRead cfg call stamp).lastCall) :
    Rounds cfg stream d (s.afterDoRead cfg call stamp) := by
  by_cases hs : stamp = s.obj.next
  · rw [Session.afterDoRead_ok hs] at *
    refine ⟨hview, hserves, fun hp => ?_, fun _ => ⟨rfl, rfl, .inr ?_⟩⟩
    · cases call <;> cases hp
    · cases call with
      | readCopy outCap => exact .inr ⟨outCap, rfl⟩
      | _ => exact .inl rfl
  · have hne := Consumer.classify_ne_ok hs
    rw [Session.afterDoRead_ne hs] at *
    dsimp only at *
    generalize Consumer.classify stamp s.obj.next = status at *
    revert hview hserves
    split <;> intro hview hserves
    · exact closed hview hserves (Session.waitPc_ne_unborn _) (Session.reading_waitPc _) (by simp)
    · exact closed hview hserves (by simp) rfl (by simp [Session.roundOpen, hne])

theorem copyValidate {n : Nat} {valid : Bool} (h : Rounds cfg stream d s)
    (hpc : s.pc = .copyValidate n)
    (hview : ViewSound cfg stream d (s.afterCopy cfg n valid)) :
    Rounds cfg stream d (s.afterCopy cfg n valid) ∧
      Session.Change cfg stream cells d s (s.afterCopy cfg n valid) := by
  obtain ⟨outCap, hlast⟩ : ∃ outCap, s.lastCall = some (.readCopy outCap) := by
    have := h.serves
    rwa [hpc] at this
  obtain ⟨-, hseq, hseen⟩ := h.current (.inl (by rw [hpc]; rfl))
  obtain ⟨v, hv⟩ : ∃ v, s.view = some v := by
    rw [hpc] at hseen
    simpa [Option.ne_none_iff_exists'] using hseen
  cases valid with
  | true =>
    refine ⟨closed hview (SessionPc.serves_cursorPc _) (Session.cursorPc_ne_unborn _)
      (Session.reading_cursorPc _) fun _ => ?_, ?_⟩
    · simp [Session.afterCopy, Session.commit, Session.publishCursor, Session.roundOpen, hlast,
        Call.inRound]
    · refine .commit v (hseq ▸ hview.valid rfl v hv) (hseq ▸ hview.stamped (.inr ?_)) ?_ ?_
      · simp [Session.afterCopy, Session.commit, Session.publishCursor, hv]
      · simp [Session.afterCopy, Session.commit, Session.publishCursor, Consumer.commit, hseq]
      · simp [Session.afterCopy, Session.commit, Session.publishCursor, hv, hseq]
  | false =>
    refine ⟨closed hview trivial (by simp [Session.afterCopy]) rfl fun _ => ?_, .stay rfl rfl⟩
    simp [Session.afterCopy, Session.roundOpen]

theorem moves (h : Rounds cfg stream d s) (himage : Image cfg stream cells d)
    (hok : cells (.slotSeq (cfg.slot s.obj.next)) = s.obj.next → s.obj.next < d.stampedCount)
    (hval : s.pc.validating = true → s.obj.readSeq < d.stampedCount →
      cells (.slotSeq (cfg.slot s.obj.readSeq)) = s.obj.readSeq →
      d.Resident cfg s.obj.readSeq)
    (hm : s.Moves cfg cells s') :
    Rounds cfg stream d s' ∧ Session.Change cfg stream cells d s s' := by
  have hview := h.view.moves himage hok hval hm
  have hserves := hm.serves h.serves
  cases hm with
  | control hn =>
    refine ⟨h.steady hview hserves hn.ne_unborn ⟨rfl, rfl, rfl⟩ rfl (fun hr => ?_)
      (fun hp => hn.polling.symm.trans hp) (fun hv => ?_), .stay rfl rfl⟩
    · rw [hn.reading] at hr
      cases hr
    · rcases hv with hv | hv | ⟨outCap, hv⟩
      · exact hv
      · rw [hv] at hn
        cases hn
      · rw [hv] at hn
        cases hn
  | registrationFailed hpc => exact ⟨h.registered (.inl hpc) hview hserves, .stay rfl rfl⟩
  | registered hpc => exact ⟨h.registered (.inr hpc) hview hserves, .stay rfl rfl⟩
  | attached hpc =>
    have hlast := h.serves
    rw [hpc] at hlast
    refine ⟨closed hview hserves (Session.cursorPc_ne_unborn _) (Session.reading_cursorPc _)
      fun _ => ?_, .attach hpc rfl rfl⟩
    have hlast' : s.lastCall = some .attachAtCurrent := hlast
    simp [Session.seek, Session.publishCursor, Session.roundOpen, hlast', Call.inRound]
  | @doRead call hpc =>
    refine ⟨doRead hview hserves, ?_⟩
    by_cases hs : cells (.slotSeq (cfg.slot s.obj.next)) = s.obj.next
    · rw [Session.afterDoRead_ok hs]
      exact .stay rfl rfl
    · rw [Session.afterDoRead_ne hs]
      dsimp only
      split <;> exact .stay rfl rfl
  | viewLen hpc =>
    refine ⟨h.steady hview hserves ?_ ⟨rfl, rfl, rfl⟩ rfl (fun _ => ?_) (fun _ => ?_) (by simp),
      .stay rfl rfl⟩
    · rcases hpc with ⟨-, rfl⟩ | ⟨outCap, -, rfl⟩
      · simp
      · unfold Session.copyFromPc
        split <;> simp
    · rcases hpc with ⟨hpc, -⟩ | ⟨outCap, hpc, -⟩ <;> rw [hpc] <;> rfl
    · rcases hpc with ⟨hpc, -⟩ | ⟨outCap, hpc, -⟩ <;> rw [hpc] <;> rfl
  | viewByte hpc =>
    have hsrc : s.pc.reading = true ∧ s.pc.polling = false ∧ s.pc ≠ .viewLen ∧
        ∀ outCap, s.pc ≠ .copyLen outCap := by
      rcases hpc with ⟨hpc, -⟩ | ⟨n, hpc, -⟩ <;> rw [hpc] <;>
        simp [SessionPc.reading, SessionPc.polling]
    refine ⟨h.steady hview hserves ?_ ⟨rfl, rfl, rfl⟩ rfl (fun _ => hsrc.1) (fun _ => hsrc.2.1)
      (fun hv => ?_), .stay rfl rfl⟩
    · rcases hpc with ⟨-, rfl⟩ | ⟨n, -, rfl⟩
      · simp
      · unfold Session.copyFromPc
        split <;> simp
    · rcases hv with hv | hv | ⟨outCap, hv⟩
      · simpa [Session.viewed] using hv
      · exact absurd hv hsrc.2.2.1
      · exact absurd hv (hsrc.2.2.2 outCap)
  | copyValidate hpc => exact h.copyValidate hpc hview
  | validate hpc =>
    refine ⟨h.steady hview hserves (by simp) ⟨rfl, rfl, rfl⟩ rfl (fun hr => ?_) (fun _ => ?_)
      (fun hv => ?_), .stay rfl rfl⟩
    · cases hr
    · rw [hpc]
      rfl
    · rw [hpc] at hv
      simpa using hv
  | produced hpc =>
    refine ⟨h.steady hview hserves (by simp) ⟨rfl, rfl, rfl⟩ rfl (fun hr => ?_) (fun _ => ?_)
      (fun hv => ?_), .stay rfl rfl⟩
    · cases hr
    · rw [hpc]
      rfl
    · rw [hpc] at hv
      simpa using hv

theorem inspect {k : Call} (h : Rounds cfg stream d s) (hpc : s.pc = .idle)
    (hk : k.inspects = true) (hopen : s.roundOpen = true)
    (hview : ViewSound cfg stream d ((s.noteCall k).enter cfg k))
    (hserves : ((s.noteCall k).enter cfg k).pc.Serves ((s.noteCall k).enter cfg k).lastCall) :
    Rounds cfg stream d ((s.noteCall k).enter cfg k) := by
  obtain ⟨hok, hseq, hseen⟩ := h.current (.inr ⟨by rw [hpc]; rfl, hopen⟩)
  have hv : s.view ≠ none := by simpa [hpc] using hseen
  cases k with
  | viewByte j => exact ⟨hview, hserves, (by cases ·), fun _ => ⟨hok, hseq, .inl hv⟩⟩
  | validate => exact ⟨hview, hserves, (by cases ·), fun _ => ⟨hok, hseq, .inl hv⟩⟩
  | _ => cases hk

theorem enter {k : Call} (h : Rounds cfg stream d s) (hk : s.enabled k = true)
    (hopen : k.inspects = true → s.roundOpen = true) :
    Rounds cfg stream d ((s.noteCall k).enter cfg k) := by
  have hview : ViewSound cfg stream d ((s.noteCall k).enter cfg k) :=
    h.view.call (Session.call_eq_some.mpr ⟨hk, rfl⟩)
  have hserves : ((s.noteCall k).enter cfg k).pc.Serves ((s.noteCall k).enter cfg k).lastCall :=
    Session.serves_enter hk
  have hborn : ((s.noteCall k).enter cfg k).pc ≠ .unborn := Session.enter_pc_ne_unborn k hk
  cases hi : k.inspects with
  | true =>
    have hpc : s.pc = .idle := by
      cases k <;> simp_all [Call.inspects, Session.enabled]
    exact h.inspect hpc hi (hopen hi) hview hserves
  | false =>
    have hreading : ((s.noteCall k).enter cfg k).pc.reading = false := by
      by_contra hr
      obtain ⟨j, -, rfl, -⟩ := Session.enter_reading (s := s.noteCall k) hk (by simpa using hr)
      cases hi
    refine closed hview hserves hborn hreading fun hp => ?_
    have hlast : ((s.noteCall k).enter cfg k).lastCall = some k := Session.lastCall_enter k
    have hround : k.inRound = false := by
      cases k with
      | read => cases hp
      | readBlocking => cases hp
      | viewByte j => cases hi
      | validate => cases hi
      | _ => rfl
    simp [Session.roundOpen, hlast, hround]

theorem enter_change {k : Call} (h : Rounds cfg stream d s) (hk : s.enabled k = true)
    (hcommit : k = .commit → s.confirmed = true) (hseek : ∀ seq, k ≠ .seek seq)
    (hresync : ∀ p, k ≠ .resync p) :
    Session.Change cfg stream cells d s ((s.noteCall k).enter cfg k) := by
  cases k with
  | construct => exact .stay (by rw [h.unborn (of_decide_eq_true hk)]; rfl) rfl
  | attachAtCurrent => exact .stay (by rw [h.unborn (of_decide_eq_true hk)]; rfl) rfl
  | commit =>
    have hpc : s.pc = .idle := of_decide_eq_true hk
    obtain ⟨⟨hopen, hval⟩, -⟩ : (s.roundOpen = true ∧ s.validated = true) ∧ _ := by
      simpa [Session.confirmed] using hcommit rfl
    obtain ⟨-, hseq, hseen⟩ := h.current (.inr ⟨by rw [hpc]; rfl, hopen⟩)
    obtain ⟨v, hv⟩ : ∃ v, s.view = some v := by
      simpa [hpc, Option.ne_none_iff_exists'] using hseen
    refine .commit v (hseq ▸ h.view.valid hval v hv)
      (hseq ▸ h.view.stamped (.inr (by simp [hv]))) ?_ ?_
    · simp [Session.enter, Session.noteCall, Session.commit, Session.publishCursor,
        Consumer.commit, hseq]
    · simp [Session.enter, Session.noteCall, Session.commit, Session.publishCursor, hv, hseq]
  | seek seq => exact absurd rfl (hseek seq)
  | resync p => exact absurd rfl (hresync p)
  | _ => exact .stay rfl rfl

end Rounds

end Shimmy
