import Shimmy.Ring.View
import Shimmy.Segment.Ready

namespace Shimmy

open Concurrency Function

def Loc.ofSlot : Loc → Option Nat
  | .slotSeq i => some i
  | .slotLen i => some i
  | .payload i _ => some i
  | _ => none

theorem Holds.congr {cfg : RingConfig} {cells cells' : Loc → Nat} {msg : Message cfg.blockSize}
    {i : Nat} (h : Holds cfg cells msg i) (hc : ∀ a, a.ofSlot = some i → cells' a = cells a) :
    Holds cfg cells' msg i :=
  ⟨(hc _ rfl).trans h.len, fun k hk => (hc _ rfl).trans (h.bytes k hk)⟩

variable {ι : Type} {cfg : RingConfig}

structure SlotTrue (cfg : RingConfig) (cells : Loc → Nat) (h : History ι cfg.blockSize) (i : Nat) :
    Prop where
  marked : cfg.overflow = .overwrite → h.torn i = true → cells (.slotSeq i) = writingSeq
  blank : h.fate i = .blank → h.torn i = false → cells (.slotSeq i) = emptySeq
  recorded : ∀ seq msg, h.fate i = .stamped seq msg → (seq, msg) ∈ h.published
  stamped : ∀ seq msg, h.fate i = .stamped seq msg → h.torn i = false →
    cells (.slotSeq i) = seq ∧ Holds cfg cells msg i

structure Untroubled (cfg : RingConfig) (h : History ι cfg.blockSize) (c : ι) (seq : Nat) :
    Prop where
  disturbed : h.disturbed c = false
  zeroed : h.recreated (.consumer c) = true → (h.fate (cfg.slot seq)).isZeroed = false
  torn : cfg.overflow = .backpressure → h.torn (cfg.slot seq) = false
  sentinel : seq < writingSeq

namespace SlotTrue

variable {cells cells' : Loc → Nat} {h h' : History ι cfg.blockSize} {i : Nat}

theorem congr (hs : SlotTrue cfg cells h i) (hfate : h'.fate i = h.fate i)
    (htorn : h'.torn i = h.torn i) (hpub : ∀ e ∈ h.published, e ∈ h'.published)
    (hc : ∀ a, a.ofSlot = some i → cells' a = cells a) : SlotTrue cfg cells' h' i where
  marked ho ht := (hc _ rfl).trans (hs.marked ho (htorn ▸ ht))
  blank hf ht := (hc _ rfl).trans (hs.blank (hfate ▸ hf) (htorn ▸ ht))
  recorded seq msg hf := hpub _ (hs.recorded seq msg (hfate ▸ hf))
  stamped seq msg hf ht := by
    obtain ⟨hstamp, hholds⟩ := hs.stamped seq msg (hfate ▸ hf) (htorn ▸ ht)
    exact ⟨(hc _ rfl).trans hstamp, hholds.congr hc⟩

theorem settled {c : ι} {seq : Nat} (hs : SlotTrue cfg cells h (cfg.slot seq))
    (hstamp : cells (.slotSeq (cfg.slot seq)) = seq) (hu : Untroubled cfg h c seq)
    (hraised : h.recreated (.consumer c) = false → h.Raised cfg) :
    h.torn (cfg.slot seq) = false ∧ ∃ msg, h.fate (cfg.slot seq) = .stamped seq msg := by
  have hlt := hu.sentinel
  have htorn : h.torn (cfg.slot seq) = false := by
    cases ho : cfg.overflow with
    | backpressure => exact hu.torn ho
    | overwrite =>
      refine Bool.eq_false_iff.mpr fun ht => ?_
      have hmark := hs.marked ho ht
      rw [hstamp] at hmark
      omega
  refine ⟨htorn, ?_⟩
  cases hfate : h.fate (cfg.slot seq) with
  | zeroed =>
    have hz : (h.fate (cfg.slot seq)).isZeroed = false := by
      cases hr : h.recreated (.consumer c) with
      | false => exact hraised hr _ (cfg.slot_lt seq)
      | true => exact hu.zeroed hr
    rw [hfate] at hz
    cases hz
  | blank =>
    have hempty := hs.blank hfate htorn
    rw [hstamp] at hempty
    unfold emptySeq at hempty
    unfold writingSeq at hlt
    omega
  | stamped seq' msg =>
    obtain rfl : seq = seq' := hstamp.symm.trans (hs.stamped seq' msg hfate htorn).1
    exact ⟨msg, rfl⟩

end SlotTrue

structure Sighting (cfg : RingConfig) (h : History ι cfg.blockSize) (c : ι) (s : Session) :
    Prop where
  loaded : s.pc.reading = true ∨ s.view ≠ none → h.disturbed c = false →
    h.torn (cfg.slot s.obj.readSeq) = false →
      ∀ seq msg, h.fate (cfg.slot s.obj.readSeq) = .stamped seq msg →
        s.obj.readSeq = seq ∧ ∀ v, s.view = some v → v.Matches msg
  valid : s.validated = true → ∀ v, s.view = some v →
    ∃ msg, (s.obj.readSeq, msg) ∈ h.published ∧ v.Matches msg
  inView : s.pc.InView s.view

theorem Session.sights_iff {cells : Loc → Nat} {s : Session} : s.sights cfg cells = true ↔
    (∃ call, s.pc = .doRead call) ∧ cells (.slotSeq (cfg.slot s.obj.next)) = s.obj.next := by
  cases hpc : s.pc <;> simp [Session.sights, hpc]

namespace Sighting

variable {h h' : History ι cfg.blockSize} {c : ι} {s s' : Session} {cells : Loc → Nat}

theorem initial : Sighting cfg h c (Session.initial cfg) where
  loaded hr := by simp [Session.initial, SessionPc.reading] at hr
  valid hv := by cases hv
  inView := rfl

theorem mono (hs : Sighting cfg h c s) (hpub : ∀ e ∈ h.published, e ∈ h'.published)
    (hkeep : h'.disturbed c = false → h'.torn (cfg.slot s.obj.readSeq) = false →
      ∀ seq msg, h'.fate (cfg.slot s.obj.readSeq) = .stamped seq msg →
        h.disturbed c = false ∧ h.torn (cfg.slot s.obj.readSeq) = false ∧
          h.fate (cfg.slot s.obj.readSeq) = .stamped seq msg) : Sighting cfg h' c s where
  loaded hr hd ht seq msg hf := by
    obtain ⟨hd, ht, hf⟩ := hkeep hd ht seq msg hf
    exact hs.loaded hr hd ht seq msg hf
  valid hv v hview := by
    obtain ⟨msg, hmem, hmatch⟩ := hs.valid hv v hview
    exact ⟨msg, hpub _ hmem, hmatch⟩
  inView := hs.inView

theorem congr (hs : Sighting cfg h c s) (hview : s'.view = s.view)
    (hseq : s.view ≠ none → s'.obj.readSeq = s.obj.readSeq)
    (hvalid : s'.validated = true → s.validated = true) (hpc : s'.pc.reading = false)
    (hin : s'.pc ≠ .unborn) : Sighting cfg h c s' where
  loaded hr := by
    have hne : s.view ≠ none := by simpa [hpc, hview] using hr
    rw [hseq hne, hview]
    exact hs.loaded (.inr hne)
  valid hv v hvv := by
    rw [hview] at hvv
    rw [hseq (by simp [hvv])]
    exact hs.valid (hvalid hv) v hvv
  inView := by
    cases hp : s'.pc <;> simp_all [SessionPc.reading, SessionPc.InView]

theorem call {k : Call} (hs : Sighting cfg h c s) (hc : s.call cfg k = some s') :
    Sighting cfg h c s' := by
  obtain ⟨hk, rfl⟩ := Session.call_eq_some.mp hc
  have hk' : (s.noteCall k).enabled k = true := hk
  by_cases hpc : ((s.noteCall k).enter cfg k).pc.reading = true
  · obtain ⟨j, v, rfl, hv, hj⟩ := Session.enter_reading hk' hpc
    have hv' : s.view = some v := hv
    exact ⟨fun _ => hs.loaded (.inr (by simp [hv'])), hs.valid, v, hv, hj⟩
  · refine hs.congr (Session.enter_view k) (fun hne => ?_) (fun hv => ?_) (by simpa using hpc)
      (Session.enter_pc_ne_unborn k hk')
    · refine (Session.enter_readSeq (fun hp => hne ?_) hk').trans rfl
      have hin := hs.inView
      rwa [show s.pc = .unborn from hp] at hin
    · rwa [Session.enter_validated] at hv

theorem viewLen {len : Nat} {pc : SessionPc} (hs : Sighting cfg h c s)
    (hpc : s.pc.reading = true)
    (hlen : ∀ seq msg, h.fate (cfg.slot s.obj.readSeq) = .stamped seq msg →
      h.torn (cfg.slot s.obj.readSeq) = false → len = msg.len)
    (hin : pc.InView (some ⟨len, []⟩)) :
    Sighting cfg h c { s with pc := pc, view := some ⟨len, []⟩, validated := false } where
  loaded _ hd ht seq msg hf := by
    refine ⟨(hs.loaded (.inl hpc) hd ht seq msg hf).1, fun v hv => ?_⟩
    cases hv
    exact ⟨hlen seq msg hf ht, by simp⟩
  valid hv := by cases hv
  inView := hin

theorem viewed {j b : Nat} {pc : SessionPc} {v : View} (hs : Sighting cfg h c s)
    (hv : s.view = some v)
    (hb : ∀ seq msg, h.fate (cfg.slot s.obj.readSeq) = .stamped seq msg →
      h.torn (cfg.slot s.obj.readSeq) = false → v.len = msg.len → msg.bytes[j]? = some b)
    (hin : pc.InView (some ⟨v.len, v.bytes ++ [(j, b)]⟩)) :
    Sighting cfg h c { s.viewed j b with pc := pc, validated := false } := by
  have hview : (s.viewed j b).view = some ⟨v.len, v.bytes ++ [(j, b)]⟩ := by
    simp [Session.viewed, hv]
  refine ⟨fun _ hd ht seq msg hf => ?_, fun hval => ?_, hview ▸ hin⟩
  · obtain ⟨hseq, hmatch⟩ := hs.loaded (.inr (by simp [hv])) hd ht seq msg hf
    refine ⟨hseq, fun w hw => ?_⟩
    rw [hview] at hw
    cases hw
    have hm := hmatch v hv
    exact hm.snoc (hb seq msg hf ht hm.1)
  · cases hval

theorem validated {valid : Bool} (hs : Sighting cfg h c s)
    (hval : valid = true → ∀ v, s.view = some v →
      ∃ msg, (s.obj.readSeq, msg) ∈ h.published ∧ v.Matches msg)
    (hview : s'.view = s.view) (hseq : s'.obj.readSeq = s.obj.readSeq)
    (hvalid : s'.validated = true → valid = true) (hpc : s'.pc.reading = false)
    (hin : s'.pc ≠ .unborn) : Sighting cfg h c s' where
  loaded hr := by
    rw [hseq, hview]
    exact hs.loaded (.inr (by simpa [hpc, hview] using hr))
  valid hv v hvv := by
    rw [hview] at hvv
    rw [hseq]
    exact hval (hvalid hv) v hvv
  inView := by
    cases hp : s'.pc <;> simp_all [SessionPc.reading, SessionPc.InView]

theorem confirm (hs : Sighting cfg h c s) (hslot : SlotTrue cfg cells h (cfg.slot s.obj.readSeq))
    (hstamp : cells (.slotSeq (cfg.slot s.obj.readSeq)) = s.obj.readSeq)
    (hu : Untroubled cfg h c s.obj.readSeq)
    (hraised : h.recreated (.consumer c) = false → h.Raised cfg) {v : View}
    (hv : s.view = some v) : ∃ msg, (s.obj.readSeq, msg) ∈ h.published ∧ v.Matches msg := by
  obtain ⟨htorn, msg, hfate⟩ := hslot.settled hstamp hu hraised
  obtain ⟨-, hmatch⟩ := hs.loaded (.inr (by simp [hv])) hu.disturbed htorn _ msg hfate
  exact ⟨msg, hslot.recorded _ msg hfate, hmatch v hv⟩

theorem sighted [DecidableEq ι] (hslot : SlotTrue cfg cells h (cfg.slot s.obj.next))
    (hstamp : cells (.slotSeq (cfg.slot s.obj.next)) = s.obj.next) (call : ReadCall) :
    Sighting cfg (h.sighted c) c
      (s.afterDoRead cfg call (cells (.slotSeq (cfg.slot s.obj.next)))) := by
  rw [Session.afterDoRead_ok hstamp]
  refine ⟨fun _ _ ht seq msg hf => ?_, fun hv => ?_, ?_⟩
  · exact ⟨hstamp.symm.trans (hslot.stamped seq msg hf ht).1, fun v hv => (by cases hv)⟩
  · cases hv
  · cases call <;> exact trivial

theorem unsighted (hs : Sighting cfg h c s) {stamp : Nat} (hstamp : stamp ≠ s.obj.next)
    (call : ReadCall) : Sighting cfg h c (s.afterDoRead cfg call stamp) := by
  rw [Session.afterDoRead_ne hstamp]
  dsimp only
  split
  · exact hs.congr rfl (fun _ => rfl) id (by simp) (by simp)
  · exact hs.congr rfl (fun _ => rfl) id rfl (by simp)

theorem moves_of_not_sights (hs : Sighting cfg h c s) (hslots : ∀ i, SlotTrue cfg cells h i)
    (hconf : s.pc.validating = true →
      cells (.slotSeq (cfg.slot s.obj.readSeq)) = s.obj.readSeq →
        Untroubled cfg h c s.obj.readSeq)
    (hraised : h.recreated (.consumer c) = false → h.Raised cfg)
    (hsights : s.sights cfg cells = false) (hm : s.Moves cfg cells s') :
    Sighting cfg h c s' := by
  have hvalid (hpc : s.pc.validating = true)
      (heq : decide (cells (.slotSeq (cfg.slot s.obj.readSeq)) = s.obj.readSeq) = true)
      (v : View) (hv : s.view = some v) :
      ∃ msg, (s.obj.readSeq, msg) ∈ h.published ∧ v.Matches msg :=
    hs.confirm (hslots _) (of_decide_eq_true heq) (hconf hpc (of_decide_eq_true heq)) hraised hv
  have hin := hs.inView
  cases hm with
  | control hn => exact hs.congr rfl (fun _ => rfl) id hn.reading hn.ne_unborn
  | registrationFailed hpc =>
    exact hs.congr rfl (fun _ => rfl) id (Session.reading_registered _ _)
      (Session.registered_ne_unborn _ _)
  | registered hpc =>
    exact hs.congr rfl (fun _ => rfl) id (Session.reading_registered _ _)
      (Session.registered_ne_unborn _ _)
  | attached hpc =>
    exact hs.congr rfl (fun _ => rfl) id (Session.reading_cursorPc _) (Session.cursorPc_ne_unborn _)
  | @doRead call hpc =>
    refine hs.unsighted (fun heq => ?_) call
    simp [Session.sights, hpc, heq] at hsights
  | viewLen hpc =>
    have hlen (seq : Nat) (msg : Message cfg.blockSize)
        (hf : h.fate (cfg.slot s.obj.readSeq) = .stamped seq msg)
        (ht : h.torn (cfg.slot s.obj.readSeq) = false) :=
      ((hslots _).stamped seq msg hf ht).2.len
    rcases hpc with ⟨hpc, rfl⟩ | ⟨outCap, hpc, rfl⟩
    · exact hs.viewLen (by rw [hpc]; rfl) hlen trivial
    · exact hs.viewLen (by rw [hpc]; rfl) hlen (SessionPc.inView_copyFromPc (min_le_left _ _))
  | @viewByte j _ hpc =>
    have hbyte {v : View} (hj : j < v.len) (seq : Nat) (msg : Message cfg.blockSize)
        (hf : h.fate (cfg.slot s.obj.readSeq) = .stamped seq msg)
        (ht : h.torn (cfg.slot s.obj.readSeq) = false) (hv : v.len = msg.len) :=
      ((hslots _).stamped seq msg hf ht).2.byte (hv ▸ hj)
    rcases hpc with ⟨hpc, rfl⟩ | ⟨n, hpc, rfl⟩
    · rw [hpc] at hin
      obtain ⟨v, hv, hj⟩ := hin
      exact hs.viewed hv (hbyte hj) trivial
    · rw [hpc] at hin
      obtain ⟨v, hv, hn, hj⟩ := hin
      exact hs.viewed hv (hbyte (hj.trans_le hn)) (SessionPc.inView_copyFromPc hn)
  | copyValidate hpc =>
    unfold Session.afterCopy
    split
    · exact hs.validated (hvalid (by rw [hpc]; rfl)) rfl rfl (fun _ => ‹_›)
        (Session.reading_cursorPc _) (Session.cursorPc_ne_unborn _)
    · exact hs.validated (fun (hf : false = true) => (by cases hf)) rfl rfl id rfl (by simp)
  | validate hpc =>
    exact hs.validated (hvalid (by rw [hpc]; rfl)) rfl rfl id rfl (by simp)
  | produced hpc => exact hs.congr rfl (fun _ => rfl) id rfl (by simp)

theorem moves [DecidableEq ι] (hs : Sighting cfg h c s) (hslots : ∀ i, SlotTrue cfg cells h i)
    (hconf : s.pc.validating = true →
      cells (.slotSeq (cfg.slot s.obj.readSeq)) = s.obj.readSeq →
        Untroubled cfg h c s.obj.readSeq)
    (hraised : h.recreated (.consumer c) = false → h.Raised cfg) (hm : s.Moves cfg cells s') :
    Sighting cfg (if s.sights cfg cells then h.sighted c else h) c s' := by
  cases hsights : s.sights cfg cells with
  | false => exact hs.moves_of_not_sights hslots hconf hraised hsights hm
  | true =>
    obtain ⟨⟨call, hpc⟩, heq⟩ := Session.sights_iff.mp hsights
    cases hm with
    | doRead hpc' =>
      exact sighted (hslots _) heq _
    | control hn =>
      rw [hpc] at hn
      cases hn
    | viewLen hpc' =>
      rw [hpc] at hpc'
      rcases hpc' with ⟨hpc', -⟩ | ⟨outCap, hpc', -⟩ <;> cases hpc'
    | viewByte hpc' =>
      rw [hpc] at hpc'
      rcases hpc' with ⟨hpc', -⟩ | ⟨n, hpc', -⟩ <;> cases hpc'
    | registrationFailed hpc' | registered hpc' | attached hpc' | copyValidate hpc'
    | validate hpc' | produced hpc' =>
      rw [hpc] at hpc'
      cases hpc'

end Sighting

end Shimmy
