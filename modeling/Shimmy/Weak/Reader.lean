import Shimmy.Backpressure.Pace
import Shimmy.Weak.Annals
import Shimmy.Weak.Glimpse

namespace Shimmy

open Concurrency Function

theorem SessionPc.live_of_active {pc : SessionPc}
    (h : pc.polling = true ∨ pc.validating = true ∨ pc.reading = true) :
    pc.arriving = false ∧ pc.departing = false := by
  cases pc <;> first | exact ⟨rfl, rfl⟩ | simp [polling, validating, reading] at h

namespace Session

variable {cfg : RingConfig} {cells : Loc → Nat} {s s' : Session}

def engaged (s : Session) : Prop := s.pc.reading = true ∨ s.view ≠ none

theorem engaged_enter {k : Call} (hin : s.pc.InView s.view) (hk : s.enabled k = true)
    (h : ((s.noteCall k).enter cfg k).engaged) :
    s.engaged ∧ ((s.noteCall k).enter cfg k).obj.readSeq = s.obj.readSeq := by
  have hk' : (s.noteCall k).enabled k = true := hk
  have hview : s.view ≠ none := by
    rcases h with hr | hv
    · obtain ⟨j, v, -, hv, -⟩ := Session.enter_reading hk' hr
      have hv' : s.view = some v := hv
      simp [hv']
    · rwa [Session.enter_view] at hv
  refine ⟨.inr hview, Session.enter_readSeq (fun hp => hview ?_) hk'⟩
  rwa [show s.pc = .unborn from hp] at hin

theorem Moves.engaged (hm : s.Moves cfg cells s') (h : s'.engaged) :
    s.engaged ∧ s'.obj.readSeq = s.obj.readSeq ∨
      ∃ call, s.pc = .doRead call ∧ cells (.slotSeq (cfg.slot s.obj.next)) = s.obj.next ∧
        s'.obj.readSeq = s.obj.next := by
  have hkeep (hpc : s'.pc.reading = false) (hview : s'.view = s.view) : s.engaged :=
    .inr (by simpa [Session.engaged, hpc, hview] using h)
  cases hm with
  | control hn => exact .inl ⟨hkeep hn.reading rfl, rfl⟩
  | registrationFailed => exact .inl ⟨hkeep (reading_registered _ _) rfl, rfl⟩
  | registered => exact .inl ⟨hkeep (reading_registered _ _) rfl, rfl⟩
  | attached => exact .inl ⟨hkeep (reading_cursorPc _) rfl, rfl⟩
  | @doRead call hpc =>
    by_cases hs : cells (.slotSeq (cfg.slot s.obj.next)) = s.obj.next
    · rw [afterDoRead_ok hs]
      exact .inr ⟨call, hpc, hs, rfl⟩
    · left
      rw [afterDoRead_ne hs] at h ⊢
      dsimp only at h ⊢
      split at h
      · exact ⟨.inr (by simpa [Session.engaged] using h), rfl⟩
      · exact ⟨.inr (by simpa [Session.engaged, SessionPc.reading] using h), rfl⟩
  | viewLen hpc =>
    refine .inl ⟨.inl ?_, rfl⟩
    rcases hpc with ⟨hpc, -⟩ | ⟨outCap, hpc, -⟩ <;> rw [hpc] <;> rfl
  | viewByte hpc =>
    refine .inl ⟨.inl ?_, rfl⟩
    rcases hpc with ⟨hpc, -⟩ | ⟨n, hpc, -⟩ <;> rw [hpc] <;> rfl
  | copyValidate hpc =>
    refine .inl ⟨.inl (by rw [hpc]; rfl), ?_⟩
    unfold afterCopy
    split <;> rfl
  | validate => exact .inl ⟨hkeep rfl rfl, rfl⟩
  | produced => exact .inl ⟨hkeep rfl rfl, rfl⟩

end Session

namespace Backpressure

variable {ι : Type} {cfg : RingConfig} {stream : Nat → Message cfg.blockSize}
  {cells : Loc → Nat} {m m' : WeakMemory (Thread ι) Loc Nat} {f f' : Frontier Loc} {d : Pos}
  {s s' : Session} {a : Loc} {w : Write Loc Nat} {next : Nat → Session} {seq : Nat}

structure Anchor (cfg : RingConfig) (m : WeakMemory (Thread ι) Loc Nat) (f : Frontier Loc)
    (seq : Nat) (e : Write Loc Nat) : Prop where
  mem : e ∈ m.history (.slotSeq (cfg.slot seq))
  val : e.val = seq
  front : e.front ≤ f
  time : e.time ≤ f (.slotSeq (cfg.slot seq))

def Sighted (cfg : RingConfig) (m : WeakMemory (Thread ι) Loc Nat) (f : Frontier Loc)
    (s : Session) : Prop :=
  s.engaged → ∃ e, Anchor cfg m f s.obj.readSeq e

namespace Sighted

theorem mono (h : Sighted cfg m f s) (hm : ∀ i, ∀ e ∈ m.history (.slotSeq i),
    e ∈ m'.history (.slotSeq i)) (hf : f ≤ f') : Sighted cfg m' f' s := fun hs => by
  obtain ⟨e, he⟩ := h hs
  exact ⟨e, hm _ e he.mem, he.val, he.front.trans hf, he.time.trans (hf _)⟩

theorem enter {k : Call} (h : Sighted cfg m f s) (hin : s.pc.InView s.view)
    (hk : s.enabled k = true) : Sighted cfg m f ((s.noteCall k).enter cfg k) := fun hs => by
  obtain ⟨hs, hseq⟩ := Session.engaged_enter hin hk hs
  rw [hseq]
  exact h hs

theorem moves (h : Sighted cfg m f s) (hm : s.Moves cfg cells s')
    (hread : ∀ call, s.pc = .doRead call → cells (.slotSeq (cfg.slot s.obj.next)) = s.obj.next →
      ∃ e, Anchor cfg m f s.obj.next e) : Sighted cfg m f s' := fun hs => by
  rcases hm.engaged hs with ⟨hs, hseq⟩ | ⟨call, hpc, hok, hseq⟩
  · rw [hseq]
    exact h hs
  · rw [hseq]
    exact hread call hpc hok

end Sighted

section Values

theorem stamp_close (h : Annals cfg stream cells m d) (hw : w ∈ m.history (.slotSeq (cfg.slot seq)))
    (hne : w.val ≠ emptySeq) (hclear : d.touched ≤ seq + cfg.capacity) : w.val ≤ seq := by
  obtain ⟨hlt, hslot⟩ := h.stamps _ w hw hne
  rw [cfg.slot_eq_mod, cfg.slot_eq_mod] at hslot
  by_contra hgt
  have := add_le_of_mod_eq_of_lt hslot.symm (by omega)
  have := d.stampedCount_le_touched
  omega

theorem Anchor.resident {e : Write Loc Nat} (he : Anchor cfg m f seq e)
    (h : Annals cfg stream cells m d) (hne : seq ≠ emptySeq)
    (hclear : d.touched ≤ seq + cfg.capacity) : d.Resident cfg seq := by
  have hval := he.val
  subst hval
  exact ⟨(h.stamps _ e he.mem hne).1, hclear⟩

theorem Anchor.stamp {e : Write Loc Nat} (he : Anchor cfg m f seq e)
    (h : Annals cfg stream cells m d) (hne : seq ≠ emptySeq)
    (hclear : d.touched ≤ seq + cfg.capacity)
    (hw : w ∈ m.history (.slotSeq (cfg.slot seq)))
    (ht : f (.slotSeq (cfg.slot seq)) ≤ w.time) : w.val = seq := by
  obtain ⟨hreal, hle⟩ := h.rising _ e he.mem (he.val ▸ hne) w hw (he.time.trans ht)
  exact le_antisymm (stamp_close h hw hreal hclear) (he.val ▸ hle)

theorem Anchor.bears {e : Write Loc Nat} {v : Nat} (he : Anchor cfg m f seq e)
    (h : Annals cfg stream cells m d) (hne : seq ≠ emptySeq)
    (hclear : d.touched ≤ seq + cfg.capacity) (hb : (stream seq).Bears (cfg.slot seq) a v)
    (hw : w ∈ m.history a) (ht : f a ≤ w.time) : w.val = v := by
  have hval := he.val
  subst hval
  exact h.content _ e he.mem hne hclear a v hb w hw ((he.front a).trans ht)

theorem true_value (hp : Paced cfg stream d s) (h : Annals cfg stream cells m d)
    (hs : Sighted cfg m f s) (hn : d.stampedCount < emptySeq)
    (hclear : d.touched ≤ s.obj.next + cfg.capacity)
    (hpc : s.pc.reading = true ∨ s.pc = .validate)
    (hcode : s.code cfg = some (.load a next)) (hw : w ∈ m.history a) (ht : f a ≤ w.time) :
    w.val = cells a := by
  have hcur : s.obj.readSeq = s.obj.next ∧ s.engaged := by
    rcases hpc with hpc | hpc
    · exact ⟨(hp.rounds.current (.inl hpc)).2.1, .inl hpc⟩
    · have hseen := hp.rounds.current (.inr ⟨by rw [hpc]; rfl, hp.checking hpc⟩)
      exact ⟨hseen.2.1, .inr (by simpa [hpc] using hseen.2.2)⟩
  obtain ⟨hseq, hengaged⟩ := hcur
  obtain ⟨e, he⟩ := hs hengaged
  have hne : s.obj.readSeq ≠ emptySeq := by
    have := hp.next
    omega
  rw [← hseq] at hclear
  have hres := he.resident h hne hclear
  have hholds := h.image.content _ hres
  have hin := hp.rounds.view.inView
  have hbyte {j : Nat} {v : View} (hv : s.view = some v) (hj : j < v.len) :
      (stream s.obj.readSeq).Bears (cfg.slot s.obj.readSeq)
        (.payload (cfg.slot s.obj.readSeq) j) ((stream s.obj.readSeq).bytes.getD j 0) ∧
      cells (.payload (cfg.slot s.obj.readSeq) j) = (stream s.obj.readSeq).bytes.getD j 0 := by
    have hlt : j < (stream s.obj.readSeq).len := (hp.rounds.view.loaded v hv hres).1 ▸ hj
    exact ⟨.byte hlt, hholds.bytes j hlt⟩
  have hstamp (hw : w ∈ m.history (.slotSeq (cfg.slot s.obj.readSeq)))
      (ht : f (.slotSeq (cfg.slot s.obj.readSeq)) ≤ w.time) :
      w.val = cells (.slotSeq (cfg.slot s.obj.readSeq)) := by
    rw [h.image.stamps _ (cfg.slot_lt _), Pos.stampAt_slot_eq hres]
    exact he.stamp h hne hclear hw ht
  unfold Session.code at hcode
  cases hp' : s.pc with
  | viewLen =>
    rw [hp'] at hcode
    cases hcode
    exact (he.bears h hne hclear .len hw ht).trans hholds.len.symm
  | copyLen outCap =>
    rw [hp'] at hcode
    cases hcode
    exact (he.bears h hne hclear .len hw ht).trans hholds.len.symm
  | viewByte j =>
    rw [hp'] at hcode hin
    cases hcode
    obtain ⟨v, hv, hj⟩ := hin
    obtain ⟨hb, hcells⟩ := hbyte hv hj
    exact (he.bears h hne hclear hb hw ht).trans hcells.symm
  | copyByte n j =>
    rw [hp'] at hcode hin
    cases hcode
    obtain ⟨v, hv, hle, hj⟩ := hin
    obtain ⟨hb, hcells⟩ := hbyte hv (hj.trans_le hle)
    exact (he.bears h hne hclear hb hw ht).trans hcells.symm
  | copyValidate n =>
    rw [hp'] at hcode
    cases hcode
    exact hstamp hw ht
  | validate =>
    rw [hp'] at hcode
    cases hcode
    exact hstamp hw ht
  | _ =>
    rw [hp'] at hpc
    rcases hpc with hpc | hpc <;> cases hpc

end Values

namespace Paced

theorem polled {call : ReadCall} {stamp : Nat} (h : Paced cfg stream d s)
    (hpc : s.pc = .doRead call) (hempty : Consumer.classify stamp s.obj.next = .empty) :
    Paced cfg stream d (s.afterDoRead cfg call stamp) ∧
      s.Change cfg stream cells d (s.afterDoRead cfg call stamp) := by
  have hne : stamp ≠ s.obj.next := by
    rintro rfl
    simp [Consumer.classify] at hempty
  have hm : s.Moves cfg (fun _ => stamp) (s.afterDoRead cfg call stamp) := .doRead hpc
  have hview : ViewSound cfg stream d (s.afterDoRead cfg call stamp) :=
    h.rounds.view.afterDoRead fun hs => absurd hs hne
  have hlast : s.lastCall ≠ some .validate := by
    have hserves := h.rounds.serves
    rw [hpc] at hserves
    rw [show s.lastCall = some call.call from hserves]
    cases call <;> simp [ReadCall.call]
  have hsame : (s.afterDoRead cfg call stamp).obj.next = s.obj.next ∧
      (s.afterDoRead cfg call stamp).committed = s.committed ∧
      (s.afterDoRead cfg call stamp).obj.lastStatus = .empty := by
    rw [Session.afterDoRead_ne hne, hempty]
    cases call <;> exact ⟨rfl, rfl, rfl⟩
  obtain ⟨hnext, hcommitted, hstatus⟩ := hsame
  refine ⟨⟨.doRead hview (hm.serves h.rounds.serves), hnext.trans_le h.next, fun ha => ?_,
    fun hp => absurd hp hm.ne_validate, by simp [hstatus], fun hl => ?_⟩, .stay hnext hcommitted⟩
  · rw [Session.arriving_afterDoRead] at ha
    cases ha
  · rw [hm.lastCall] at hl
    exact absurd hl hlast

theorem told (h : Paced cfg stream d s) (hborn : s.pc ≠ .unborn) (n : Option Nat) :
    Paced cfg stream d { s with produced := n } where
  rounds := ⟨⟨h.rounds.view.stamped, h.rounds.view.loaded, h.rounds.view.valid, h.rounds.view.len,
    h.rounds.view.inView⟩, h.rounds.serves, fun hp => absurd hp hborn, h.rounds.current⟩
  next := h.next
  arriving := h.arriving
  checking := h.checking
  status := h.status
  validated := h.validated

theorem load (hp : Paced cfg stream d s) (hbp : cfg.overflow = .backpressure)
    (h : Annals cfg stream cells m d) (hs : Sighted cfg m f s) (hn : d.stampedCount < emptySeq)
    (hlast : s.lastCall ≠ some .attachAtCurrent)
    (hclear : s.pc.arriving = false → s.pc.departing = false →
      d.touched ≤ s.obj.next + cfg.capacity)
    (hcode : s.code cfg = some (.load a next)) (hw : w ∈ m.history a) (ht : f a ≤ w.time) :
    Paced cfg stream d (next w.val) ∧ s.Change cfg stream cells d (next w.val) := by
  have hmoves {s' : Session} (hm : s.Moves cfg cells s') :
      Paced cfg stream d s' ∧ s.Change cfg stream cells d s' := by
    refine hp.moves hbp h.image (hn.trans (by decide)) (fun hpc => ?_) hm
    obtain ⟨harr, hdep⟩ := SessionPc.live_of_active (hpc.imp_right .inl)
    exact hclear harr hdep
  have htrue (hval : w.val = cells a) :
      Paced cfg stream d (next w.val) ∧ s.Change cfg stream cells d (next w.val) :=
    hval ▸ hmoves (Session.moves_of_cells cells hcode)
  by_cases hpc : s.pc.reading = true ∨ s.pc = .validate
  · have hactive : s.pc.polling = true ∨ s.pc.validating = true ∨ s.pc.reading = true :=
      hpc.elim (fun hr => .inr (.inr hr)) fun hv => .inr (.inl (by rw [hv]; rfl))
    obtain ⟨harr, hdep⟩ := SessionPc.live_of_active hactive
    exact htrue (true_value hp h hs hn (hclear harr hdep) hpc hcode hw ht)
  have hnot := hpc
  cases hpc : s.pc with
  | attachProduced =>
    have hserves := hp.rounds.serves
    rw [hpc] at hserves
    exact absurd hserves hlast
  | doRead call =>
    unfold Session.code at hcode
    rw [hpc] at hcode
    cases hcode
    have hguard := hclear (by rw [hpc]; rfl) (by rw [hpc]; rfl)
    have hle : s.obj.next < emptySeq := hp.next.trans_lt hn
    by_cases hval : w.val = s.obj.next
    · refine htrue ?_
      have hstamped := (h.stamps _ w hw (by omega)).1
      rw [h.image.stamps _ (cfg.slot_lt _), Pos.stampAt_slot_eq ⟨hval ▸ hstamped, hguard⟩, hval]
    · refine hp.polled hpc ?_
      unfold Consumer.classify
      rw [if_neg hval]
      by_cases hempty : w.val = emptySeq
      · simp [hempty]
      · have := stamp_close h hw hempty hguard
        simp only [ite_eq_left_iff]
        intro _ hno
        exact absurd (.inr (by omega)) hno
  | produced =>
    unfold Session.code at hcode
    rw [hpc] at hcode
    cases hcode
    obtain ⟨hpaced, -⟩ := hmoves (.produced hpc)
    exact ⟨hpaced.told (by simp) (some w.val), .stay rfl rfl⟩
  | waitReload iter =>
    unfold Session.code at hcode
    rw [hpc] at hcode
    cases hcode
    refine hmoves (.control ?_)
    rw [hpc]
    split
    · exact .caughtUp
    · exact .behind
  | _ =>
    unfold Session.code at hcode
    rw [hpc] at hcode hnot
    first | exact absurd (.inl rfl) hnot | exact absurd (.inr rfl) hnot | cases hcode

end Paced

end Backpressure

end Shimmy
