import Shimmy.Weak.Chronicle
import Shimmy.Overwrite.Seqlock

namespace Shimmy

open Concurrency Function

namespace Session

variable {cfg : RingConfig} {s s' : Session} {i : Instr Loc Nat Session}

inductive Turns (cfg : RingConfig) (s : Session) : Session → Prop
  | control {pc : SessionPc} (h : s.pc.Next pc) : Turns cfg s { s with pc := pc }
  | registrationFailed {i : Nat} {attach : Bool} (hpc : s.pc = .claimCursor i attach) :
      Turns cfg s (s.registered cfg.maxConsumers attach)
  | registered {i : Nat} {attach : Bool} (hpc : s.pc = .initCursor i attach) :
      Turns cfg s (s.registered i attach)

theorem turns_of_leads (hi : s.code cfg = some i) (hl : i.Leads s')
    (hload : ∀ a next, i ≠ .load a next) : s.Turns cfg s' := by
  unfold Session.code at hi
  cases hp : s.pc with
  | claimCursor i attach =>
    rw [hp] at hi
    cases hi
    obtain ⟨v, rfl⟩ := hl
    dsimp only
    split
    · exact .control (hp ▸ .claimed)
    · split
      · exact .control (hp ▸ .occupied)
      · exact .registrationFailed hp
  | initCursor i attach =>
    rw [hp] at hi
    cases hi
    exact (show s' = _ from hl) ▸ .registered hp
  | publishCursor =>
    rw [hp] at hi
    cases hi
    exact (show s' = _ from hl) ▸ .control (hp ▸ .published)
  | waitAnnounce iter =>
    rw [hp] at hi
    cases hi
    obtain ⟨v, rfl⟩ := hl
    exact .control (hp ▸ .announced)
  | waitSyscall iter cmp =>
    rw [hp] at hi
    cases hi
    rcases hl with rfl | rfl
    · exact .control (hp ▸ .slept)
    · exact .control (hp ▸ .moved)
  | waitAsleep iter =>
    rw [hp] at hi
    cases hi
    exact (show s' = _ from hl) ▸ .control (hp ▸ .woken)
  | waitLeave iter =>
    rw [hp] at hi
    cases hi
    obtain ⟨v, rfl⟩ := hl
    exact .control (hp ▸ .left)
  | retireValue id last =>
    rw [hp] at hi
    cases hi
    exact (show s' = _ from hl) ▸ .control (hp ▸ .retired)
  | retireInUse id last =>
    rw [hp] at hi
    cases hi
    rw [show s' = _ from hl]
    cases last
    · exact .control (hp ▸ .released)
    · exact .control (hp ▸ .destroyed)
  | _ =>
    rw [hp] at hi
    cases hi <;> exact absurd rfl (hload _ _)

theorem Turns.moves (h : s.Turns cfg s') (cells : Loc → Nat) : s.Moves cfg cells s' := by
  cases h with
  | control hn => exact .control hn
  | registrationFailed hpc => exact .registrationFailed hpc
  | registered hpc => exact .registered hpc

theorem moves_of_leads (hi : s.code cfg = some i) (hl : i.Leads s') :
    ∃ cells, s.Moves cfg cells s' := by
  by_cases hload : ∃ a next, i = .load a next
  · obtain ⟨a, next, rfl⟩ := hload
    obtain ⟨v, rfl⟩ := hl
    exact ⟨_, moves_of_value v hi⟩
  · exact ⟨fun _ => 0, (turns_of_leads hi hl fun a next he => hload ⟨a, next, he⟩).moves _⟩

end Session

namespace Overwrite

variable {ι : Type} {cfg : RingConfig} {stream : Nat → Message cfg.blockSize}
  {m m' : WeakMemory (Thread ι) Loc Nat} {v v' : Fronts Loc} {s s' : Session}

structure Anchor (cfg : RingConfig) (stream : Nat → Message cfg.blockSize)
    (m : WeakMemory (Thread ι) Loc Nat) (v : Fronts Loc) (s : Session) (e : Write Loc Nat) :
    Prop where
  mem : e ∈ m.history (.slotSeq (cfg.slot s.obj.readSeq))
  val : e.val = s.obj.readSeq
  lt : s.obj.readSeq < writingSeq
  front : e.front ≤ v.current
  loaded : ∀ view, s.view = some view →
    v.acquired (.slotSeq (cfg.slot s.obj.readSeq)) ≤ e.time → view.Matches (stream s.obj.readSeq)

structure Glimpse (cfg : RingConfig) (stream : Nat → Message cfg.blockSize)
    (m : WeakMemory (Thread ι) Loc Nat) (v : Fronts Loc) (s : Session) : Prop where
  anchor : s.pc.reading = true ∨ s.view ≠ none → ∃ e, Anchor cfg stream m v s e
  valid : s.validated = true → ∀ view, s.view = some view → view.Matches (stream s.obj.readSeq)
  len : ∀ view, s.view = some view → view.len ≤ cfg.blockSize
  inView : s.pc.InView s.view

namespace Glimpse

theorem initial : Glimpse cfg stream m v (Session.initial cfg) where
  anchor h := by simp [Session.initial, SessionPc.reading] at h
  valid h := by cases h
  len v h := by cases h
  inView := rfl

theorem congr (h : Glimpse cfg stream m v s) (hview : s'.view = s.view)
    (hseq : s.view ≠ none → s'.obj.readSeq = s.obj.readSeq)
    (hvalid : s'.validated = true → s.validated = true) (hpc : s'.pc.reading = false)
    (hin : s'.pc ≠ .unborn) : Glimpse cfg stream m v s' where
  anchor hs := by
    have hne : s.view ≠ none := by simpa [hpc, hview] using hs
    obtain ⟨e, he⟩ := h.anchor (.inr hne)
    have heq := hseq hne
    exact ⟨e, heq ▸ he.mem, heq ▸ he.val, heq ▸ he.lt, he.front, by
      rw [hview, heq]
      exact he.loaded⟩
  valid hval view hv := by
    rw [hview] at hv
    rw [hseq (by simp [hv])]
    exact h.valid (hvalid hval) view hv
  len view hv := h.len view (hview ▸ hv)
  inView := by
    cases hp : s'.pc <;> simp_all [SessionPc.reading, SessionPc.InView]

theorem mono (h : Glimpse cfg stream m v s) (hg : v.Grows v')
    (hm : ∀ i, ∀ e ∈ m.history (.slotSeq i), e ∈ m'.history (.slotSeq i)) :
    Glimpse cfg stream m' v' s where
  anchor hs := by
    obtain ⟨e, he⟩ := h.anchor hs
    exact ⟨e, hm _ e he.mem, he.val, he.lt, he.front.trans hg.current,
      fun view hv hacq => he.loaded view hv ((hg.acquired _).trans hacq)⟩
  valid := h.valid
  len := h.len
  inView := h.inView

theorem dropped (hview : s.view = none)
    (hpc : s.pc.reading = true → ∃ e ∈ m.history (.slotSeq (cfg.slot s.obj.readSeq)),
      e.val = s.obj.readSeq ∧ s.obj.readSeq < writingSeq ∧ e.front ≤ v.current)
    (hin : s.pc.InView none) : Glimpse cfg stream m v s where
  anchor hs := by
    obtain ⟨e, hmem, hval, hlt, hfront⟩ := hpc (by simpa [hview] using hs)
    exact ⟨e, hmem, hval, hlt, hfront, fun view hv => by simp [hview] at hv⟩
  valid _ view hv := by simp [hview] at hv
  len view hv := by simp [hview] at hv
  inView := hview ▸ hin

theorem call {k : Call} (h : Glimpse cfg stream m v s) (hc : s.call cfg k = some s') :
    Glimpse cfg stream m v s' := by
  obtain ⟨hk, rfl⟩ := Session.call_eq_some.mp hc
  have hk' : (s.noteCall k).enabled k = true := hk
  by_cases hpc : ((s.noteCall k).enter cfg k).pc.reading = true
  · obtain ⟨j, view, rfl, hv, hj⟩ := Session.enter_reading hk' hpc
    have hv' : s.view = some view := hv
    obtain ⟨e, he⟩ := h.anchor (.inr (by simp [hv']))
    exact ⟨fun _ => ⟨e, he.mem, he.val, he.lt, he.front, he.loaded⟩, h.valid, h.len, view, hv, hj⟩
  · refine h.congr (Session.enter_view k) (fun hne => ?_) (fun hv => ?_) (by simpa using hpc)
      (Session.enter_pc_ne_unborn k hk')
    · refine (Session.enter_readSeq (fun hp => hne ?_) hk').trans rfl
      have hin := h.inView
      rwa [show s.pc = .unborn from hp] at hin
    · rwa [Session.enter_validated] at hv

theorem turns (h : Glimpse cfg stream m v s) (ht : s.Turns cfg s') :
    Glimpse cfg stream m v s' := by
  cases ht with
  | control hn => exact h.congr rfl (fun _ => rfl) id hn.reading hn.ne_unborn
  | registrationFailed =>
    exact h.congr rfl (fun _ => rfl) id (Session.reading_registered _ _)
      (Session.registered_ne_unborn _ _)
  | registered =>
    exact h.congr rfl (fun _ => rfl) id (Session.reading_registered _ _)
      (Session.registered_ne_unborn _ _)

theorem afterDoRead {call : ReadCall} {w : Write Loc Nat} (h : Glimpse cfg stream m v s)
    (hnext : s.obj.next < writingSeq) (hw : w ∈ m.history (.slotSeq (cfg.slot s.obj.next)))
    (hfront : w.front ≤ v.current) :
    Glimpse cfg stream m v (s.afterDoRead cfg call w.val) := by
  by_cases hs : w.val = s.obj.next
  · rw [Session.afterDoRead_ok hs]
    refine .dropped rfl (fun _ => ⟨w, hw, hs, hnext, hfront⟩) ?_
    cases call <;> exact trivial
  · rw [Session.afterDoRead_ne hs]
    dsimp only
    split
    · exact h.congr rfl (fun _ => rfl) id (by simp) (by simp)
    · exact h.congr rfl (fun _ => rfl) id rfl (by simp)

theorem viewLen {len : Nat} {pc : SessionPc} (h : Glimpse cfg stream m v s)
    (hpc : s.pc.reading = true) (hle : len ≤ cfg.blockSize) (hg : v.Grows v')
    (hlen : ∀ e, Anchor cfg stream m v s e →
      v'.acquired (.slotSeq (cfg.slot s.obj.readSeq)) ≤ e.time → len = (stream s.obj.readSeq).len)
    (hin : pc.InView (some ⟨len, []⟩)) :
    Glimpse cfg stream m v' { s with pc := pc, view := some ⟨len, []⟩, validated := false } := by
  refine ⟨fun _ => ?_, fun hval => ?_, fun view hv => ?_, hin⟩
  · obtain ⟨e, he⟩ := h.anchor (.inl hpc)
    refine ⟨e, he.mem, he.val, he.lt, he.front.trans hg.current, fun view hv hacq => ?_⟩
    cases hv
    exact ⟨hlen e he hacq, by simp⟩
  · cases hval
  · cases hv
    exact hle

theorem viewed {j b : Nat} {pc : SessionPc} {view : View} (h : Glimpse cfg stream m v s)
    (hv : s.view = some view) (hg : v.Grows v')
    (hb : ∀ e, Anchor cfg stream m v s e →
      v'.acquired (.slotSeq (cfg.slot s.obj.readSeq)) ≤ e.time →
      view.len = (stream s.obj.readSeq).len → (stream s.obj.readSeq).bytes[j]? = some b)
    (hin : pc.InView (some ⟨view.len, view.bytes ++ [(j, b)]⟩)) :
    Glimpse cfg stream m v' { s.viewed j b with pc := pc, validated := false } := by
  have hview : (s.viewed j b).view = some ⟨view.len, view.bytes ++ [(j, b)]⟩ := by
    simp [Session.viewed, hv]
  refine ⟨fun _ => ?_, fun hval => ?_, fun w hw => ?_, hview ▸ hin⟩
  · obtain ⟨e, he⟩ := h.anchor (.inr (by simp [hv]))
    refine ⟨e, he.mem, he.val, he.lt, he.front.trans hg.current, fun w hw hacq => ?_⟩
    rw [hview] at hw
    cases hw
    have hm := he.loaded view hv ((hg.acquired _).trans hacq)
    exact hm.snoc (hb e he hacq hm.1)
  · cases hval
  · rw [hview] at hw
    cases hw
    exact h.len view hv

theorem validated {valid : Bool} (h : Glimpse cfg stream m v s)
    (hval : valid = true → ∀ view, s.view = some view → view.Matches (stream s.obj.readSeq))
    (hview : s'.view = s.view) (hseq : s'.obj.readSeq = s.obj.readSeq)
    (hvalid : s'.validated = true → valid = true) (hpc : s'.pc.reading = false)
    (hin : s'.pc ≠ .unborn) : Glimpse cfg stream m v s' where
  anchor hs := by
    obtain ⟨e, he⟩ := h.anchor (.inr (by simpa [hpc, hview] using hs))
    exact ⟨e, hseq ▸ he.mem, hseq ▸ he.val, hseq ▸ he.lt, he.front, by
      rw [hview, hseq]
      exact he.loaded⟩
  valid hv view hvv := by
    rw [hview] at hvv
    rw [hseq]
    exact hval (hvalid hv) view hvv
  len view hv := h.len view (hview ▸ hv)
  inView := by
    cases hp : s'.pc <;> simp_all [SessionPc.reading, SessionPc.InView]

theorem afterCopy {n : Nat} {valid : Bool} (h : Glimpse cfg stream m v s)
    (hval : valid = true → ∀ view, s.view = some view → view.Matches (stream s.obj.readSeq)) :
    Glimpse cfg stream m v (s.afterCopy cfg n valid) := by
  cases valid with
  | true =>
    exact h.validated hval rfl rfl (fun _ => rfl) (Session.reading_cursorPc _)
      (Session.cursorPc_ne_unborn _)
  | false => exact h.validated hval rfl rfl id rfl (by simp [Session.afterCopy])

end Glimpse

end Overwrite

end Shimmy
