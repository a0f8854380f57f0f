import Shimmy.Ring.Session

namespace Shimmy

open Concurrency Function

def View.Matches {blockSize : Nat} (v : View) (msg : Message blockSize) : Prop :=
  v.len = msg.len ∧ ∀ e ∈ v.bytes, msg.bytes[e.1]? = some e.2

def SessionPc.reading : SessionPc → Bool
  | .viewLen => true
  | .viewByte _ => true
  | .copyLen _ => true
  | .copyByte _ _ => true
  | .copyValidate _ => true
  | _ => false

def SessionPc.validating : SessionPc → Bool
  | .copyValidate _ => true
  | .validate => true
  | _ => false

def SessionPc.InView (view : Option View) : SessionPc → Prop
  | .viewByte j => ∃ v, view = some v ∧ j < v.len
  | .copyByte n j => ∃ v, view = some v ∧ n ≤ v.len ∧ j < n
  | .unborn => view = none
  | _ => True

theorem SessionPc.inView_copyFromPc {n j : Nat} {v : View} (hn : n ≤ v.len) :
    (Session.copyFromPc n j).InView (some v) := by
  unfold Session.copyFromPc
  split
  · exact ⟨v, rfl, hn, ‹_›⟩
  · exact trivial

theorem SessionPc.Next.reading {pc pc' : SessionPc} (h : pc.Next pc') : pc'.reading = false := by
  cases h <;> rfl

theorem SessionPc.Next.ne_unborn {pc pc' : SessionPc} (h : pc.Next pc') : pc' ≠ .unborn := by
  cases h <;> simp

namespace Session

variable {cfg : RingConfig} {s s' : Session}

@[simp] theorem reading_cursorPc (o : Consumer) : (cursorPc cfg o).reading = false := by
  unfold cursorPc
  split <;> rfl

@[simp] theorem reading_destructPc (o : Consumer) (last : Bool) :
    (destructPc cfg o last).reading = false := by
  unfold destructPc
  split
  · rfl
  · cases last <;> rfl

@[simp] theorem reading_waitPc (iter : Nat) : (waitPc cfg iter).reading = false := by
  unfold waitPc
  split <;> rfl

@[simp] theorem reading_registered (id : Nat) (attach : Bool) :
    (s.registered id attach).pc.reading = false := by
  cases attach <;> rfl

theorem registered_ne_unborn (id : Nat) (attach : Bool) :
    (s.registered id attach).pc ≠ .unborn := by
  cases attach <;> simp [registered]

@[simp] theorem cursorPc_ne_unborn (o : Consumer) : cursorPc cfg o ≠ .unborn := by
  unfold cursorPc
  split <;> simp

@[simp] theorem destructPc_ne_unborn (o : Consumer) (last : Bool) :
    destructPc cfg o last ≠ .unborn := by
  unfold destructPc
  split
  · simp
  · cases last <;> simp

@[simp] theorem waitPc_ne_unborn (iter : Nat) : waitPc cfg iter ≠ .unborn := by
  unfold waitPc
  split <;> simp

@[simp] theorem enter_view (k : Call) : (s.enter cfg k).view = s.view := by cases k <;> rfl

@[simp] theorem enter_validated (k : Call) : (s.enter cfg k).validated = s.validated := by
  cases k <;> rfl

theorem enter_readSeq {k : Call} (hpc : s.pc ≠ .unborn) (hk : s.enabled k = true) :
    (s.enter cfg k).obj.readSeq = s.obj.readSeq := by
  cases k <;> first | rfl | simp_all [enabled]

theorem enter_pc_ne_unborn (k : Call) (hk : s.enabled k = true) : (s.enter cfg k).pc ≠ .unborn := by
  cases k with
  | construct => simp only [enter, construct]; split <;> simp
  | attachAtCurrent => simp only [enter, construct]; split <;> simp
  | move => simp_all [enter, move, enabled]
  | _ => simp [enter, beginRead, commit, publishCursor, seek, resync, destruct]

theorem enter_reading {k : Call} (hk : s.enabled k = true)
    (hpc : (s.enter cfg k).pc.reading = true) :
    ∃ j v, k = .viewByte j ∧ s.view = some v ∧ j < v.len := by
  cases k with
  | viewByte j =>
    obtain ⟨v, hv, hj⟩ : ∃ v, s.view = some v ∧ j < v.len := by
      simp only [enabled, Bool.decide_and, Bool.and_eq_true, decide_eq_true_eq] at hk
      simpa [Option.any_eq_true] using hk.2
    exact ⟨j, v, rfl, hv, hj⟩
  | construct => simp only [enter, construct] at hpc; split at hpc <;> simp [SessionPc.reading] at hpc
  | attachAtCurrent =>
    simp only [enter, construct] at hpc
    split at hpc <;> simp [SessionPc.reading] at hpc
  | move => simp_all [enter, move, enabled, SessionPc.reading]
  | read => simp [enter, beginRead, SessionPc.reading] at hpc
  | readBlocking => simp [enter, beginRead, SessionPc.reading] at hpc
  | readCopy outCap => simp [enter, beginRead, SessionPc.reading] at hpc
  | validate => simp [enter, SessionPc.reading] at hpc
  | produced => simp [enter, SessionPc.reading] at hpc
  | _ => simp [enter, commit, publishCursor, seek, resync, destruct] at hpc

end Session

theorem View.Matches.snoc {blockSize j b : Nat} {v : View} {msg : Message blockSize}
    (h : v.Matches msg) (hb : msg.bytes[j]? = some b) :
    View.Matches ⟨v.len, v.bytes ++ [(j, b)]⟩ msg := by
  refine ⟨h.1, fun e he => ?_⟩
  rcases List.mem_append.mp he with he | he
  · exact h.2 e he
  · obtain rfl := List.mem_singleton.mp he
    exact hb

theorem View.Matches.bytes_eq {blockSize : Nat} {v : View} {msg : Message blockSize}
    (h : v.Matches msg) (hfst : v.bytes.map Prod.fst = List.range msg.len) :
    v.bytes.map Prod.snd = msg.bytes := by
  refine List.ext_getElem? fun k => ?_
  have hlen : v.bytes.length = msg.len := by simpa using congrArg List.length hfst
  rcases Nat.lt_or_ge k v.bytes.length with hk | hk
  · have hidx : (v.bytes[k]).1 = k := by
      have := congrArg (fun l => l[k]?) hfst
      simpa [hk, hlen ▸ hk] using this
    have hb := h.2 v.bytes[k] (List.getElem_mem hk)
    rw [hidx] at hb
    simp [hk, hb]
  · have hk' : msg.bytes.length ≤ k := hlen.symm.le.trans hk
    simp [hk, hk']

theorem Holds.byte {cfg : RingConfig} {cells : Loc → Nat} {msg : Message cfg.blockSize} {i k : Nat}
    (h : Holds cfg cells msg i) (hk : k < msg.len) :
    msg.bytes[k]? = some (cells (.payload i k)) := by
  have hlt : k < msg.bytes.length := hk
  rw [h.bytes k hk, List.getD_eq_getElem?_getD, List.getElem?_eq_getElem hlt, Option.getD_some]

structure ViewSound (cfg : RingConfig) (stream : Nat → Message cfg.blockSize) (d : Pos)
    (s : Session) : Prop where
  stamped : s.pc.reading = true ∨ s.view ≠ none → s.obj.readSeq < d.stampedCount
  loaded : ∀ v, s.view = some v → d.Resident cfg s.obj.readSeq →
    v.Matches (stream s.obj.readSeq)
  valid : s.validated = true → ∀ v, s.view = some v → v.Matches (stream s.obj.readSeq)
  len : ∀ v, s.view = some v → v.len ≤ cfg.blockSize
  inView : s.pc.InView s.view

namespace ViewSound

variable {cfg : RingConfig} {stream : Nat → Message cfg.blockSize} {d : Pos} {s s' : Session}

theorem initial : ViewSound cfg stream d (Session.initial cfg) where
  stamped h := by simp [Session.initial, SessionPc.reading] at h
  loaded v h := by cases h
  valid h := by cases h
  len v h := by cases h
  inView := rfl

theorem succ (h : ViewSound cfg stream d s) : ViewSound cfg stream (d.succ cfg stream) s where
  stamped hs := (h.stamped hs).trans_le d.stampedCount_le_succ
  loaded v hv hr := h.loaded v hv (hr.of_succ (h.stamped (.inr (by simp [hv]))))
  valid := h.valid
  len := h.len
  inView := h.inView

theorem congr (h : ViewSound cfg stream d s) (hview : s'.view = s.view)
    (hseq : s.view ≠ none → s'.obj.readSeq = s.obj.readSeq)
    (hvalid : s'.validated = true → s.validated = true) (hpc : s'.pc.reading = false)
    (hin : s'.pc ≠ .unborn) : ViewSound cfg stream d s' where
  stamped hs := by
    have hne : s.view ≠ none := by simpa [hpc, hview] using hs
    rw [hseq hne]
    exact h.stamped (.inr hne)
  loaded v hv := by
    rw [hview] at hv
    rw [hseq (by simp [hv])]
    exact h.loaded v hv
  valid hval v hv := by
    rw [hview] at hv
    rw [hseq (by simp [hv])]
    exact h.valid (hvalid hval) v hv
  len v hv := h.len v (hview ▸ hv)
  inView := by
    cases hp : s'.pc <;> simp_all [SessionPc.reading, SessionPc.InView]

theorem dropped (hview : s'.view = none) (hpc : s'.pc.reading = true → s'.obj.readSeq < d.stampedCount)
    (hin : s'.pc.InView none) : ViewSound cfg stream d s' where
  stamped hs := hpc (by simpa [hview] using hs)
  loaded v hv := by simp [hview] at hv
  valid _ v hv := by simp [hview] at hv
  len v hv := by simp [hview] at hv
  inView := hview ▸ hin

theorem call {k : Call} (h : ViewSound cfg stream d s) (hc : s.call cfg k = some s') :
    ViewSound cfg stream d s' := by
  obtain ⟨hk, rfl⟩ := Session.call_eq_some.mp hc
  have hk' : (s.noteCall k).enabled k = true := hk
  by_cases hpc : ((s.noteCall k).enter cfg k).pc.reading = true
  · obtain ⟨j, v, rfl, hv, hj⟩ := Session.enter_reading hk' hpc
    have hv' : s.view = some v := hv
    exact ⟨fun _ => h.stamped (.inr (by simp [hv'])), h.loaded, h.valid, h.len, v, hv, hj⟩
  · refine h.congr (Session.enter_view k) (fun hne => ?_) (fun hv => ?_) (by simpa using hpc)
      (Session.enter_pc_ne_unborn k hk')
    · refine (Session.enter_readSeq (fun hp => hne ?_) hk').trans rfl
      have hin := h.inView
      rwa [show s.pc = .unborn from hp] at hin
    · rwa [Session.enter_validated] at hv

theorem afterDoRead {call : ReadCall} {stamp : Nat} (h : ViewSound cfg stream d s)
    (hok : stamp = s.obj.next → s.obj.next < d.stampedCount) :
    ViewSound cfg stream d (s.afterDoRead cfg call stamp) := by
  by_cases hs : stamp = s.obj.next
  · rw [Session.afterDoRead_ok hs]
    refine .dropped rfl (fun _ => hok hs) ?_
    cases call <;> exact trivial
  · rw [Session.afterDoRead_ne hs]
    dsimp only
    split
    · exact h.congr rfl (fun _ => rfl) id (by simp) (by simp)
    · exact h.congr rfl (fun _ => rfl) id rfl (by simp)

theorem viewLen {len : Nat} {pc : SessionPc} (h : ViewSound cfg stream d s)
    (hpc : s.pc.reading = true) (hle : len ≤ cfg.blockSize)
    (hlen : d.Resident cfg s.obj.readSeq → len = (stream s.obj.readSeq).len)
    (hin : pc.InView (some ⟨len, []⟩)) :
    ViewSound cfg stream d { s with pc := pc, view := some ⟨len, []⟩, validated := false } := by
  refine ⟨fun _ => h.stamped (.inl hpc), fun v hv hres => ?_, fun hval => ?_, fun v hv => ?_, hin⟩
  · cases hv
    exact ⟨hlen hres, by simp⟩
  · cases hval
  · cases hv
    exact hle

theorem viewed {j b : Nat} {pc : SessionPc} {v : View} (h : ViewSound cfg stream d s)
    (hv : s.view = some v)
    (hb : d.Resident cfg s.obj.readSeq → v.len = (stream s.obj.readSeq).len →
      (stream s.obj.readSeq).bytes[j]? = some b)
    (hin : pc.InView (some ⟨v.len, v.bytes ++ [(j, b)]⟩)) :
    ViewSound cfg stream d { s.viewed j b with pc := pc, validated := false } := by
  have hview : (s.viewed j b).view = some ⟨v.len, v.bytes ++ [(j, b)]⟩ := by
    simp [Session.viewed, hv]
  refine ⟨fun _ => h.stamped (.inr (by simp [hv])), fun w hw hres => ?_, fun hval => ?_,
    fun w hw => ?_, hview ▸ hin⟩
  · rw [hview] at hw
    cases hw
    have hm := h.loaded v hv hres
    exact hm.snoc (hb hres hm.1)
  · cases hval
  · rw [hview] at hw
    cases hw
    exact h.len v hv

theorem validated {valid : Bool} (h : ViewSound cfg stream d s)
    (hval : valid = true → ∀ v, s.view = some v → d.Resident cfg s.obj.readSeq)
    (hview : s'.view = s.view) (hseq : s'.obj.readSeq = s.obj.readSeq)
    (hvalid : s'.validated = true → valid = true) (hpc : s'.pc.reading = false)
    (hin : s'.pc ≠ .unborn) : ViewSound cfg stream d s' where
  stamped hs := by
    rw [hseq]
    exact h.stamped (.inr (by simpa [hpc, hview] using hs))
  loaded v hv := by
    rw [hseq]
    exact h.loaded v (hview ▸ hv)
  valid hv v hvv := by
    rw [hview] at hvv
    rw [hseq]
    exact h.loaded v hvv (hval (hvalid hv) v hvv)
  len v hv := h.len v (hview ▸ hv)
  inView := by
    cases hp : s'.pc <;> simp_all [SessionPc.reading, SessionPc.InView]

theorem afterCopy {n : Nat} {valid : Bool} (h : ViewSound cfg stream d s)
    (hval : valid = true → ∀ v, s.view = some v → d.Resident cfg s.obj.readSeq) :
    ViewSound cfg stream d (s.afterCopy cfg n valid) := by
  cases valid with
  | true =>
    exact h.validated hval rfl rfl (fun _ => rfl) (Session.reading_cursorPc _)
      (Session.cursorPc_ne_unborn _)
  | false => exact h.validated hval rfl rfl id rfl (by simp [Session.afterCopy])

theorem moves {cells : Loc → Nat} (h : ViewSound cfg stream d s) (himage : Image cfg stream cells d)
    (hok : cells (.slotSeq (cfg.slot s.obj.next)) = s.obj.next → s.obj.next < d.stampedCount)
    (hval : s.pc.validating = true → s.obj.readSeq < d.stampedCount →
      cells (.slotSeq (cfg.slot s.obj.readSeq)) = s.obj.readSeq →
      d.Resident cfg s.obj.readSeq)
    (hm : s.Moves cfg cells s') : ViewSound cfg stream d s' := by
  have hstamp {v : View} (hpc : s.pc.validating = true) (hv : s.view = some v)
      (hs : decide (cells (.slotSeq (cfg.slot s.obj.readSeq)) = s.obj.readSeq) = true) :
      d.Resident cfg s.obj.readSeq :=
    hval hpc (h.stamped (.inr (by simp [hv]))) (of_decide_eq_true hs)
  have hin := h.inView
  cases hm with
  | control hn => exact h.congr rfl (fun _ => rfl) id hn.reading hn.ne_unborn
  | registrationFailed hpc =>
    exact h.congr rfl (fun _ => rfl) id (Session.reading_registered _ _)
      (Session.registered_ne_unborn _ _)
  | registered hpc =>
    exact h.congr rfl (fun _ => rfl) id (Session.reading_registered _ _)
      (Session.registered_ne_unborn _ _)
  | attached hpc =>
    exact h.congr rfl (fun _ => rfl) id (Session.reading_cursorPc _) (Session.cursorPc_ne_unborn _)
  | doRead hpc => exact h.afterDoRead hok
  | viewLen hpc =>
    have hlen (hr : d.Resident cfg s.obj.readSeq) := (himage.content _ hr).len
    rcases hpc with ⟨hpc, rfl⟩ | ⟨outCap, hpc, rfl⟩
    · exact h.viewLen (by rw [hpc]; rfl) (himage.lens _) hlen trivial
    · exact h.viewLen (by rw [hpc]; rfl) (himage.lens _) hlen
        (SessionPc.inView_copyFromPc (min_le_left _ _))
  | @viewByte j _ hpc =>
    have hbyte {v : View} (hj : j < v.len) (hr : d.Resident cfg s.obj.readSeq)
        (hv : v.len = (stream s.obj.readSeq).len) := (himage.content _ hr).byte (hv ▸ hj)
    rcases hpc with ⟨hpc, rfl⟩ | ⟨n, hpc, rfl⟩
    · rw [hpc] at hin
      obtain ⟨v, hv, hj⟩ := hin
      exact h.viewed hv (hbyte hj) trivial
    · rw [hpc] at hin
      obtain ⟨v, hv, hn, hj⟩ := hin
      exact h.viewed hv (hbyte (hj.trans_le hn)) (SessionPc.inView_copyFromPc hn)
  | copyValidate hpc => exact h.afterCopy fun hs v hv => hstamp (by rw [hpc]; rfl) hv hs
  | validate hpc =>
    exact h.validated (fun hs v hv => hstamp (by rw [hpc]; rfl) hv hs) rfl rfl id rfl (by simp)
  | produced hpc => exact h.congr rfl (fun _ => rfl) id rfl (by simp)

end ViewSound

end Shimmy
