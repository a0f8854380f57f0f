import Shimmy.Ring.Sound

namespace Shimmy

open Concurrency Function

theorem Setup.Sound.touched_le_begun {ι : Type} {S : Setup ι} {σ : System ι} {d : Pos}
    (h : S.Sound σ d) : d.touched ≤ σ.producer.begun :=
  h.pending.touched_le.trans σ.producer.pos_touched_le_begun

theorem Setup.Sound.stampedCount_le_begun {ι : Type} {S : Setup ι} {σ : System ι} {d : Pos}
    (h : S.Sound σ d) : d.stampedCount ≤ σ.producer.begun :=
  d.stampedCount_le_touched.trans h.touched_le_begun

inductive SessionPc.Next : SessionPc → SessionPc → Prop
  | claimed {i : Nat} {attach : Bool} : Next (.claimCursor i attach) (.initCursor i attach)
  | occupied {i : Nat} {attach : Bool} :
      Next (.claimCursor i attach) (.claimCursor (i + 1) attach)
  | published : Next .publishCursor .idle
  | announced {iter : Nat} : Next (.waitAnnounce iter) (.waitReload iter)
  | caughtUp {iter : Nat} : Next (.waitReload iter) (.waitLeave iter)
  | behind {iter cmp : Nat} : Next (.waitReload iter) (.waitSyscall iter cmp)
  | slept {iter cmp : Nat} : Next (.waitSyscall iter cmp) (.waitAsleep iter)
  | moved {iter cmp : Nat} : Next (.waitSyscall iter cmp) (.waitLeave iter)
  | woken {iter : Nat} : Next (.waitAsleep iter) (.waitLeave iter)
  | left {iter : Nat} :
      Next (.waitLeave iter) (.doRead (.readBlocking ((iter + 1) % 2 ^ 64)))
  | retired {id : Nat} {last : Bool} : Next (.retireValue id last) (.retireInUse id last)
  | released {id : Nat} : Next (.retireInUse id false) .idle
  | destroyed {id : Nat} : Next (.retireInUse id true) .dead

theorem Consumer.classify_ne_ok {stamp want : Nat} (h : stamp ≠ want) :
    classify stamp want ≠ .ok := by
  unfold classify
  rw [if_neg h]
  split_ifs <;> simp

theorem Consumer.doRead_status (o : Consumer) (stamp : Nat) :
    (o.doRead stamp).lastStatus = classify stamp o.next := by
  unfold doRead
  split
  · rename_i h
    exact (if_pos h).symm
  · rfl

namespace Session

variable {cfg : RingConfig} {s s' : Session}

inductive Moves (cfg : RingConfig) (cells : Loc → Nat) (s : Session) : Session → Prop
  | control {pc : SessionPc} (h : s.pc.Next pc) : Moves cfg cells s { s with pc := pc }
  | registrationFailed {i : Nat} {attach : Bool} (hpc : s.pc = .claimCursor i attach) :
      Moves cfg cells s (s.registered cfg.maxConsumers attach)
  | registered {i : Nat} {attach : Bool} (hpc : s.pc = .initCursor i attach) :
      Moves cfg cells s (s.registered i attach)
  | attached (hpc : s.pc = .attachProduced) : Moves cfg cells s (s.seek cfg (cells .nextPublish))
  | doRead {call : ReadCall} (hpc : s.pc = .doRead call) :
      Moves cfg cells s (s.afterDoRead cfg call (cells (.slotSeq (cfg.slot s.obj.next))))
  | viewLen {pc : SessionPc} (hpc : s.pc = .viewLen ∧ pc = .idle ∨
        ∃ outCap, s.pc = .copyLen outCap ∧
          pc = copyFromPc (min (cells (.slotLen (cfg.slot s.obj.readSeq))) outCap) 0) :
      Moves cfg cells s { s with
        pc := pc
        view := some ⟨cells (.slotLen (cfg.slot s.obj.readSeq)), []⟩
        validated := false }
  | viewByte {j : Nat} {pc : SessionPc} (hpc : s.pc = .viewByte j ∧ pc = .idle ∨
        ∃ n, s.pc = .copyByte n j ∧ pc = copyFromPc n (j + 1)) :
      Moves cfg cells s { s.viewed j (cells (.payload (cfg.slot s.obj.readSeq) j)) with
        pc := pc
        validated := false }
  | copyValidate {n : Nat} (hpc : s.pc = .copyValidate n) :
      Moves cfg cells s (s.afterCopy cfg n
        (cells (.slotSeq (cfg.slot s.obj.readSeq)) = s.obj.readSeq))
  | validate (hpc : s.pc = .validate) :
      Moves cfg cells s { s with
        pc := .idle
        validated := cells (.slotSeq (cfg.slot s.obj.readSeq)) = s.obj.readSeq }
  | produced (hpc : s.pc = .produced) :
      Moves cfg cells s { s with pc := .idle, produced := some (cells .nextPublish) }

theorem moves_of_exec {ι : Type} [DecidableEq ι] {model : Model} {key : Loc → Nat × Nat}
    {t : Thread ι} {m m' : RingMemory ι} {i : Instr Loc Nat Session}
    (hread : ∀ a, a.ofProducer = true → m.read t a = m.cells a) (hi : s.code cfg = some i)
    (hx : m.exec model key t i = some (s', m')) : Moves cfg m.cells s s' := by
  have hl := Memory.exec_leads hx
  unfold Session.code at hi
  cases hp : s.pc with
  | unborn => rw [hp] at hi; cases hi
  | idle => rw [hp] at hi; cases hi
  | dead => rw [hp] at hi; cases hi
  | claimCursor i attach =>
    rw [hp] at hi
    cases hi
    obtain ⟨v, rfl⟩ := hl
    dsimp only
    split
    · exact .control (hp ▸ .claimed)
    · split
      · exact .control (hp ▸ .occupied)
      · exact .registrationFailed hp
  | initCursor i attach =>
    rw [hp] at hi
    cases hi
    exact (show s' = _ from hl) ▸ .registered hp
  | attachProduced =>
    rw [hp] at hi
    cases hi
    cases hx
    rw [hread _ rfl]
    exact .attached hp
  | publishCursor =>
    rw [hp] at hi
    cases hi
    exact (show s' = _ from hl) ▸ .control (hp ▸ .published)
  | doRead call =>
    rw [hp] at hi
    cases hi
    cases hx
    rw [hread _ rfl]
    exact .doRead hp
  | viewLen =>
    rw [hp] at hi
    cases hi
    cases hx
    rw [hread _ rfl]
    exact .viewLen (.inl ⟨hp, rfl⟩)
  | viewByte j =>
    rw [hp] at hi
    cases hi
    cases hx
    rw [hread _ rfl]
    exact .viewByte (.inl ⟨hp, rfl⟩)
  | copyLen outCap =>
    rw [hp] at hi
    cases hi
    cases hx
    rw [hread _ rfl]
    exact .viewLen (.inr ⟨outCap, hp, rfl⟩)
  | copyByte n j =>
    rw [hp] at hi
    cases hi
    cases hx
    rw [hread _ rfl]
    exact .viewByte (.inr ⟨n, hp, rfl⟩)
  | copyValidate n =>
    rw [hp] at hi
    cases hi
    cases hx
    rw [hread _ rfl]
    exact .copyValidate hp
  | validate =>
    rw [hp] at hi
    cases hi
    cases hx
    rw [hread _ rfl]
    exact .validate hp
  | produced =>
    rw [hp] at hi
    cases hi
    cases hx
    rw [hread _ rfl]
    exact .produced hp
  | waitAnnounce iter =>
    rw [hp] at hi
    cases hi
    obtain ⟨v, rfl⟩ := hl
    exact .control (hp ▸ .announced)
  | waitReload iter =>
    rw [hp] at hi
    cases hi
    obtain ⟨v, rfl⟩ := hl
    refine .control ?_
    rw [hp]
    split
    · exact .caughtUp
    · exact .behind
  | waitSyscall iter cmp =>
    rw [hp] at hi
    cases hi
    rcases hl with rfl | rfl
    · exact .control (hp ▸ .slept)
    · exact .control (hp ▸ .moved)
  | waitAsleep iter =>
    rw [hp] at hi
    cases hi
    exact (show s' = _ from hl) ▸ .control (hp ▸ .woken)
  | waitLeave iter =>
    rw [hp] at hi
    cases hi
    obtain ⟨v, rfl⟩ := hl
    exact .control (hp ▸ .left)
  | retireValue id last =>
    rw [hp] at hi
    cases hi
    exact (show s' = _ from hl) ▸ .control (hp ▸ .retired)
  | retireInUse id last =>
    rw [hp] at hi
    cases hi
    rw [show s' = _ from hl]
    cases last
    · exact .control (hp ▸ .released)
    · exact .control (hp ▸ .destroyed)

theorem Moves.lastCall {cells : Loc → Nat} (h : s.Moves cfg cells s') :
    s'.lastCall = s.lastCall := by
  cases h with
  | doRead =>
    unfold Session.afterDoRead
    dsimp only
    split <;> rfl
  | copyValidate =>
    unfold Session.afterCopy
    split <;> rfl
  | _ => rfl

theorem pc_of_enabled {k : Call} (hk : s.enabled k = true) : s.pc = .idle ∨ s.pc = .unborn := by
  cases k <;> simp_all [enabled]

theorem call_eq_some {k : Call} : s.call cfg k = some s' ↔
    s.enabled k = true ∧ s' = (s.noteCall k).enter cfg k := by
  by_cases hk : s.enabled k = true <;> simp [call, hk, eq_comm]

theorem afterDoRead_ok {call : ReadCall} {stamp : Nat} (h : stamp = s.obj.next) :
    s.afterDoRead cfg call stamp = { s with
      obj := { s.obj with readSeq := s.obj.next, lastStatus := .ok }
      pc := match call with | .readCopy outCap => .copyLen outCap | _ => .viewLen
      view := none
      validated := false } := by
  unfold afterDoRead Consumer.doRead
  rw [if_pos h]
  cases call <;> rfl

theorem afterDoRead_ne {call : ReadCall} {stamp : Nat} (h : stamp ≠ s.obj.next) :
    s.afterDoRead cfg call stamp =
      let o := { s.obj with lastStatus := Consumer.classify stamp s.obj.next }
      match Consumer.classify stamp s.obj.next, call with
      | .empty, .readBlocking iter => { s with obj := o, pc := waitPc cfg iter }
      | _, _ => { s with obj := o, pc := .idle, returned := 0 } := by
  unfold afterDoRead Consumer.doRead
  rw [if_neg h]
  cases hc : Consumer.classify stamp s.obj.next with
  | ok => exact absurd hc (Consumer.classify_ne_ok h)
  | empty => cases call <;> rfl
  | lapped => cases call <;> rfl

end Session

def SessionPc.polling : SessionPc → Bool
  | .doRead _ => true
  | .waitAnnounce _ => true
  | .waitReload _ => true
  | .waitSyscall _ _ => true
  | .waitAsleep _ => true
  | .waitLeave _ => true
  | _ => false

theorem SessionPc.Next.polling {pc pc' : SessionPc} (h : pc.Next pc') :
    pc'.polling = pc.polling := by
  cases h <;> rfl

@[simp] theorem Session.polling_waitPc {cfg : RingConfig} {iter : Nat} :
    (Session.waitPc cfg iter).polling = true := by
  unfold Session.waitPc
  split <;> rfl

def ReadCall.call : ReadCall → Call
  | .read => .read
  | .readBlocking _ => .readBlocking
  | .readCopy outCap => .readCopy outCap

def SessionPc.Serves (last : Option Call) : SessionPc → Prop
  | .unborn => last = none
  | .claimCursor _ attach => last = some (if attach then .attachAtCurrent else .construct)
  | .initCursor _ attach => last = some (if attach then .attachAtCurrent else .construct)
  | .attachProduced => last = some .attachAtCurrent
  | .doRead call => last = some call.call
  | .viewLen => last = some .read ∨ last = some .readBlocking
  | .viewByte j => last = some (.viewByte j)
  | .copyLen outCap => last = some (.readCopy outCap)
  | .copyByte _ _ => ∃ outCap, last = some (.readCopy outCap)
  | .copyValidate _ => ∃ outCap, last = some (.readCopy outCap)
  | .validate => last = some .validate
  | .produced => last = some .produced
  | .waitAnnounce _ => last = some .readBlocking
  | .waitReload _ => last = some .readBlocking
  | .waitSyscall _ _ => last = some .readBlocking
  | .waitAsleep _ => last = some .readBlocking
  | .waitLeave _ => last = some .readBlocking
  | _ => True

namespace SessionPc

variable {cfg : RingConfig} {last : Option Call}

theorem serves_cursorPc (o : Consumer) : (Session.cursorPc cfg o).Serves last := by
  unfold Session.cursorPc
  split <;> exact trivial

theorem serves_destructPc (o : Consumer) (b : Bool) : (Session.destructPc cfg o b).Serves last := by
  unfold Session.destructPc
  split
  · exact trivial
  · cases b <;> exact trivial

theorem serves_waitPc (iter : Nat) (h : last = some .readBlocking) :
    (Session.waitPc cfg iter).Serves last := by
  unfold Session.waitPc
  split <;> exact h

theorem serves_copyFromPc {n j : Nat} (h : ∃ outCap, last = some (.readCopy outCap)) :
    (Session.copyFromPc n j).Serves last := by
  unfold Session.copyFromPc
  split <;> exact h

theorem Next.serves {pc pc' : SessionPc} (h : pc.Next pc') (hs : pc.Serves last) :
    pc'.Serves last := by
  cases h <;> exact hs

end SessionPc

namespace Session

variable {cfg : RingConfig} {cells : Loc → Nat} {s s' : Session}

theorem serves_registered {i : Nat} {attach : Bool}
    (h : s.lastCall = some (if attach then .attachAtCurrent else .construct)) :
    (s.registered i attach).pc.Serves s.lastCall := by
  cases attach
  · exact trivial
  · exact h

theorem serves_enter {k : Call} (hk : s.enabled k = true) :
    ((s.noteCall k).enter cfg k).pc.Serves ((s.noteCall k).enter cfg k).lastCall := by
  cases k with
  | construct =>
    simp only [enter, construct, noteCall]
    split <;> simp [SessionPc.Serves]
  | attachAtCurrent =>
    simp only [enter, construct, noteCall]
    split <;> simp [SessionPc.Serves]
  | commit => exact SessionPc.serves_cursorPc _
  | seek seq => exact SessionPc.serves_cursorPc _
  | resync p => exact SessionPc.serves_cursorPc _
  | destroy => exact SessionPc.serves_destructPc _ _
  | destroyMoved => exact SessionPc.serves_destructPc _ _
  | move =>
    have hpc : s.pc = .idle := of_decide_eq_true hk
    simp only [enter, move, noteCall, hpc]
    exact trivial
  | _ => exact rfl

theorem lastCall_enter (k : Call) : ((s.noteCall k).enter cfg k).lastCall = some k := by
  cases k <;> rfl

theorem Moves.serves (h : s.Moves cfg cells s') (hs : s.pc.Serves s.lastCall) :
    s'.pc.Serves s'.lastCall := by
  rw [h.lastCall]
  cases h with
  | control hn => exact hn.serves hs
  | registrationFailed hpc => exact serves_registered (by rw [hpc] at hs; exact hs)
  | registered hpc => exact serves_registered (by rw [hpc] at hs; exact hs)
  | attached hpc => exact SessionPc.serves_cursorPc _
  | @doRead call hpc =>
    rw [hpc] at hs
    by_cases hst : cells (.slotSeq (cfg.slot s.obj.next)) = s.obj.next
    · rw [afterDoRead_ok hst]
      cases call with
      | read => exact .inl hs
      | readBlocking iter => exact .inr hs
      | readCopy outCap => exact hs
    · rw [afterDoRead_ne hst]
      dsimp only
      split
      · exact SessionPc.serves_waitPc _ hs
      · exact trivial
  | viewLen hpc =>
    rcases hpc with ⟨-, rfl⟩ | ⟨outCap, hpc, rfl⟩
    · exact trivial
    · rw [hpc] at hs
      exact SessionPc.serves_copyFromPc ⟨_, hs⟩
  | viewByte hpc =>
    rcases hpc with ⟨-, rfl⟩ | ⟨n, hpc, rfl⟩
    · exact trivial
    · rw [hpc] at hs
      exact SessionPc.serves_copyFromPc hs
  | copyValidate hpc =>
    unfold afterCopy
    split
    · exact SessionPc.serves_cursorPc _
    · exact trivial
  | validate hpc => exact trivial
  | produced hpc => exact trivial

end Session

theorem Setup.Sound.sessions_step {ι : Type} [DecidableEq ι] {S : Setup ι} {l : Label ι}
    {σ σ' : System ι} {d : Pos} {P : Pos → ι → Session → Prop} (hd : S.Sound σ d)
    (hs : S.step l σ = some σ') (h : ∀ c, P d c (σ.consumer c))
    (hsucc : ∀ c s, P d c s → P (d.succ S.cfg S.stream) c s)
    (hcall : ∀ c k s, S.client c (σ.consumer c) k = true →
      (σ.consumer c).call S.cfg k = some s → P d c s)
    (hmoves : ∀ c s, l = .consumer c → (σ.consumer c).Moves S.cfg σ.memory.cells s → P d c s) (c : ι) :
    P (S.advance l d) c (σ'.consumer c) := by
  cases Setup.step_iff.mp hs with
  | producer => exact h c
  | @call _ b k s hc hx =>
    rcases eq_or_ne c b with rfl | hcb
    · simpa [Setup.advance] using hcall c k s hc hx
    · simpa [Setup.advance, hcb] using h c
  | @consumer _ b i s m hi hx =>
    rcases eq_or_ne c b with rfl | hcb
    · simpa [Setup.advance] using
        hmoves c s rfl (Session.moves_of_exec (fun a ha => hd.read_eq c ha) hi hx)
    · simpa [Setup.advance, hcb] using h c
  | @drain _ t e es hb =>
    by_cases ht : t = .producer
    · simpa [Setup.advance, ht] using hsucc c _ (h c)
    · simpa [Setup.advance, ht] using h c

theorem Setup.Sound.lastCall_step {ι : Type} [DecidableEq ι] {S : Setup ι} {l : Label ι}
    {σ σ' : System ι} {d : Pos} (hd : S.Sound σ d) (hs : S.step l σ = some σ') (c : ι) :
    (σ'.consumer c).lastCall = (σ.consumer c).lastCall ∨
      ∃ k, S.client c (σ.consumer c) k = true ∧ (σ'.consumer c).lastCall = some k := by
  refine hd.sessions_step (P := fun _ b s => s.lastCall = (σ.consumer b).lastCall ∨
    ∃ k, S.client b (σ.consumer b) k = true ∧ s.lastCall = some k) hs ?_ ?_ ?_ ?_ c
  · exact fun b => .inl rfl
  · exact fun b s h => h
  · intro b k s hc hcall
    obtain ⟨hk, rfl⟩ := Session.call_eq_some.mp hcall
    exact .inr ⟨k, hc, Session.lastCall_enter k⟩
  · exact fun b s _ hm => .inl hm.lastCall

end Shimmy
