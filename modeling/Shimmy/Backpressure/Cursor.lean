import Shimmy.Ring.Session

namespace Shimmy

open Concurrency Function

def Loc.ofCursor : Loc → Bool
  | .cursorValue _ => true
  | .cursorInUse _ => true
  | _ => false

theorem Loc.ofCursor_of_ofProducer {a : Loc} (h : a.ofProducer = true) : a.ofCursor = false := by
  cases a <;> first | rfl | cases h

def SessionPc.Names (cfg : RingConfig) (o : Consumer) : SessionPc → Prop
  | .unborn => o.cursorId = cfg.maxConsumers
  | .claimCursor i _ => o.cursorId = cfg.maxConsumers ∧ i < cfg.maxConsumers
  | .initCursor i _ => o.cursorId = cfg.maxConsumers ∧ i < cfg.maxConsumers
  | .publishCursor => o.cursorId < cfg.maxConsumers
  | .retireValue id last => id = o.cursorId ∧ id < cfg.maxConsumers ∧ last = true
  | .retireInUse id last => id = o.cursorId ∧ id < cfg.maxConsumers ∧ last = true
  | _ => True

def Consumer.cursor (cfg : RingConfig) (o : Consumer) : Option Nat :=
  if o.cursorId < cfg.maxConsumers then some o.cursorId else none

def SessionPc.cursor (cfg : RingConfig) (o : Consumer) : SessionPc → Option Nat
  | .unborn => none
  | .claimCursor _ _ => none
  | .initCursor i _ => some i
  | .dead => none
  | _ => o.cursor cfg

def SessionPc.plain : SessionPc → Bool
  | .unborn => false
  | .claimCursor _ _ => false
  | .initCursor _ _ => false
  | .dead => false
  | _ => true

def SessionPc.departing : SessionPc → Bool
  | .retireInUse _ _ => true
  | .dead => true
  | _ => false

theorem SessionPc.cursor_of_plain {cfg : RingConfig} {o : Consumer} {pc : SessionPc}
    (h : pc.plain = true) : pc.cursor cfg o = o.cursor cfg := by
  cases pc <;> first | rfl | cases h

namespace Session

variable {cfg : RingConfig} {s s' : Session}

def cursor (cfg : RingConfig) (s : Session) : Option Nat := s.pc.cursor cfg s.obj

structure Registered (cfg : RingConfig) (s : Session) : Prop where
  moved : ∀ o ∈ s.moved, o.cursorId = cfg.maxConsumers
  names : s.pc.Names cfg s.obj

theorem names_cursorPc {o : Consumer} : (cursorPc cfg o).Names cfg o := by
  unfold cursorPc
  split
  · rename_i h
    exact h.2.2
  · exact trivial

theorem names_destructPc {o : Consumer} {last : Bool}
    (h : last = true ∨ o.cursorId = cfg.maxConsumers) : (destructPc cfg o last).Names cfg o := by
  unfold destructPc
  split
  · rename_i hc
    rcases h with rfl | h
    · exact ⟨rfl, hc.2.2, rfl⟩
    · omega
  · cases last <;> exact trivial

theorem Registered.initial : Registered cfg (Session.initial cfg) :=
  ⟨by simp [Session.initial], rfl⟩

theorem Registered.cursor_lt {i : Nat} (h : Registered cfg s) (hc : s.cursor cfg = some i) :
    i < cfg.maxConsumers := by
  have hnames := h.names
  have hid (hc : s.obj.cursor cfg = some i) : i < cfg.maxConsumers := by
    unfold Consumer.cursor at hc
    split at hc <;> cases hc
    assumption
  unfold cursor at hc
  cases hp : s.pc <;> rw [hp] at hc hnames <;> first | cases hc; exact hnames.2 | exact hid hc | cases hc

theorem Registered.enter {k : Call} (h : Registered cfg s) (hk : s.enabled k = true) :
    Registered cfg ((s.noteCall k).enter cfg k) := by
  have hfirst (attach : Bool) : SessionPc.Names cfg (Consumer.construct cfg)
      (if cfg.overflow = .backpressure then .claimCursor 0 attach
        else if attach then .attachProduced else .idle) := by
    split
    · exact ⟨rfl, cfg.maxConsumers_ge⟩
    · cases attach <;> exact trivial
  cases k with
  | construct => exact ⟨h.moved, hfirst false⟩
  | attachAtCurrent => exact ⟨h.moved, hfirst true⟩
  | commit => exact ⟨h.moved, names_cursorPc⟩
  | seek seq => exact ⟨h.moved, names_cursorPc⟩
  | resync p => exact ⟨h.moved, names_cursorPc⟩
  | move =>
    have hpc : s.pc = .idle := of_decide_eq_true hk
    refine ⟨fun o ho => ?_, ?_⟩
    · rcases List.mem_cons.mp ho with rfl | ho
      · rfl
      · exact h.moved o ho
    · simp only [Session.enter, Session.move, noteCall, hpc]
      exact trivial
  | destroy => exact ⟨h.moved, names_destructPc (.inl rfl)⟩
  | destroyMoved =>
    have hne : s.moved ≠ [] := by
      simp only [enabled, Bool.decide_and, Bool.and_eq_true, decide_eq_true_eq] at hk
      exact hk.2
    obtain ⟨o, os, hos⟩ := List.exists_cons_of_ne_nil hne
    have ho : o.cursorId = cfg.maxConsumers := h.moved o (by rw [hos]; exact List.mem_cons_self)
    refine ⟨fun b hb => h.moved b (List.mem_of_mem_tail hb), ?_⟩
    have hpc : destructPc cfg o false = .idle := by
      simp [destructPc, ho]
    simp only [Session.enter, Session.destruct, noteCall, hos, List.headD_cons, hpc]
    exact trivial
  | _ => exact ⟨h.moved, trivial⟩

theorem plain_cursorPc (o : Consumer) : (cursorPc cfg o).plain = true := by
  unfold cursorPc
  split <;> rfl

theorem plain_waitPc (iter : Nat) : (waitPc cfg iter).plain = true := by
  unfold waitPc
  split <;> rfl

theorem plain_copyFromPc (n j : Nat) : (copyFromPc n j).plain = true := by
  unfold copyFromPc
  split <;> rfl

theorem plain_registered (i : Nat) (attach : Bool) : (s.registered i attach).pc.plain = true := by
  cases attach <;> rfl

theorem plain_afterDoRead (call : ReadCall) (stamp : Nat) :
    (s.afterDoRead cfg call stamp).pc.plain = true := by
  unfold afterDoRead
  dsimp only
  split
  · rfl
  · rfl
  · exact plain_waitPc _
  · rfl

theorem plain_afterCopy (n : Nat) (valid : Bool) : (s.afterCopy cfg n valid).pc.plain = true := by
  cases valid
  · rfl
  · exact plain_cursorPc _

theorem cursorId_afterDoRead (call : ReadCall) (stamp : Nat) :
    (s.afterDoRead cfg call stamp).obj.cursorId = s.obj.cursorId := by
  unfold afterDoRead Consumer.doRead
  dsimp only
  split <;> split <;> rfl

theorem cursorId_afterCopy (n : Nat) (valid : Bool) :
    (s.afterCopy cfg n valid).obj.cursorId = s.obj.cursorId := by
  cases valid <;> rfl

theorem cursor_congr (h : s.pc.plain = true) (h' : s'.pc.plain = true)
    (hid : s'.obj.cursorId = s.obj.cursorId) : s'.cursor cfg = s.cursor cfg := by
  rw [cursor, cursor, SessionPc.cursor_of_plain h, SessionPc.cursor_of_plain h', Consumer.cursor,
    Consumer.cursor, hid]

theorem cursor_destructPc (hbp : cfg.overflow = .backpressure) (o : Consumer) :
    (destructPc cfg o true).cursor cfg o = o.cursor cfg := by
  unfold destructPc Consumer.cursor
  by_cases hlt : o.cursorId < cfg.maxConsumers
  · rw [if_pos ⟨hbp, by omega, hlt⟩]
    exact rfl
  · rw [if_neg fun h => hlt h.2.2, if_neg hlt]
    rfl

theorem cursor_destructPc_moved {o b : Consumer} (ho : o.cursorId = cfg.maxConsumers) :
    (destructPc cfg o false).cursor cfg b = b.cursor cfg := by
  simp [destructPc, ho, SessionPc.cursor]

theorem cursor_enter (hbp : cfg.overflow = .backpressure) {k : Call} (h : Registered cfg s)
    (hk : s.enabled k = true) : ((s.noteCall k).enter cfg k).cursor cfg = s.cursor cfg := by
  have hidle (hpc : s.pc = .idle) : s.cursor cfg = s.obj.cursor cfg := by
    rw [cursor, hpc]
    rfl
  have hunborn (hpc : s.pc = .unborn) : s.cursor cfg = none := by
    rw [cursor, hpc]
    rfl
  cases k with
  | construct =>
    rw [hunborn (of_decide_eq_true hk)]
    simp [Session.enter, Session.construct, cursor, SessionPc.cursor, hbp]
  | attachAtCurrent =>
    rw [hunborn (of_decide_eq_true hk)]
    simp [Session.enter, Session.construct, cursor, SessionPc.cursor, hbp]
  | commit =>
    rw [hidle (of_decide_eq_true hk)]
    exact SessionPc.cursor_of_plain (plain_cursorPc _)
  | seek seq =>
    have hpc : s.pc = .idle := by simp [enabled] at hk; exact hk.1
    rw [hidle hpc]
    exact SessionPc.cursor_of_plain (plain_cursorPc _)
  | resync p =>
    have hpc : s.pc = .idle := by simp [enabled] at hk; exact hk.1
    rw [hidle hpc]
    exact SessionPc.cursor_of_plain (plain_cursorPc _)
  | destroy =>
    rw [hidle (of_decide_eq_true hk)]
    exact cursor_destructPc hbp _
  | destroyMoved =>
    have hpc : s.pc = .idle ∧ s.moved ≠ [] := by simpa [enabled] using hk
    obtain ⟨o, os, hos⟩ := List.exists_cons_of_ne_nil hpc.2
    have ho : o.cursorId = cfg.maxConsumers := h.moved o (by rw [hos]; exact List.mem_cons_self)
    rw [hidle hpc.1]
    simp only [Session.enter, Session.destruct, noteCall, cursor, hos, List.headD_cons]
    exact cursor_destructPc_moved ho
  | viewByte j =>
    have hpc : s.pc = .idle := by simp [enabled] at hk; exact hk.1
    rw [hidle hpc]
    rfl
  | move => rfl
  | _ =>
    rw [hidle (of_decide_eq_true hk)]
    rfl

inductive CursorStep {ι : Type} [DecidableEq ι] (cfg : RingConfig) (t : Thread ι)
    (m m' : RingMemory ι) (s s' : Session) : Prop
  | quiet (hcells : ∀ a, a.ofCursor = true → m'.cells a = m.cells a) (hbuf : m'.buffer = m.buffer)
      (hcur : s'.cursor cfg = s.cursor cfg) (hlive : s.pc.departing = false)
      (hinit : ∀ i attach, s.pc ≠ .initCursor i attach ∧ s'.pc ≠ .initCursor i attach)
  | claim (i : Nat) (attach : Bool) (hpc : s.pc = .claimCursor i attach)
      (hfree : m.cells (.cursorInUse i) = 0) (hempty : m.buffer t = [])
      (hcells : m'.cells = update m.cells (.cursorInUse i) 1) (hbuf : m'.buffer = m.buffer)
      (hs : s' = { s with pc := .initCursor i attach })
  | store (j v : Nat) (hcur : s.cursor cfg = some j) (hcur' : s'.cursor cfg = some j)
      (hv : (∃ attach, s.pc = .initCursor j attach ∧ v = 0 ∧ s' = s.registered j attach) ∨
        (s.pc = .publishCursor ∧ v = s.obj.next ∧ s' = { s with pc := .idle }) ∨
        ∃ last, s.pc = .retireValue j last ∧ v = 2 ^ 64 - 1 ∧
          s' = { s with pc := .retireInUse j last })
      (hcells : m'.cells = m.cells)
      (hbuf : m'.buffer = update m.buffer t (m.buffer t ++ [(.cursorValue j, v)]))
  | release (j : Nat) (hcur : s.cursor cfg = some j) (hpc : s.pc = .retireInUse j true)
      (hs : s' = { s with pc := .dead }) (hcells : m'.cells = m.cells)
      (hbuf : m'.buffer = update m.buffer t (m.buffer t ++ [(.cursorInUse j, 0)]))

structure Quiet (cfg : RingConfig) (s s' : Session) : Prop where
  plain : s'.pc.plain = true
  cursorId : s'.obj.cursorId = s.obj.cursorId
  moved : s'.moved = s.moved
  names : s'.pc.Names cfg s'.obj

theorem quiet_afterDoRead (call : ReadCall) (stamp : Nat) :
    Quiet cfg s (s.afterDoRead cfg call stamp) := by
  refine ⟨plain_afterDoRead _ _, cursorId_afterDoRead _ _, ?_, ?_⟩
  · unfold afterDoRead
    dsimp only
    split <;> rfl
  · unfold afterDoRead
    dsimp only
    split
    · exact trivial
    · exact trivial
    · unfold waitPc
      split <;> exact trivial
    · exact trivial

theorem quiet_afterCopy (n : Nat) (valid : Bool) : Quiet cfg s (s.afterCopy cfg n valid) := by
  refine ⟨plain_afterCopy _ _, cursorId_afterCopy _ _, ?_, ?_⟩
  · cases valid <;> rfl
  · cases valid
    · exact trivial
    · exact names_cursorPc

theorem names_copyFromPc (n j : Nat) (o : Consumer) : (copyFromPc n j).Names cfg o := by
  unfold copyFromPc
  split <;> exact trivial

structure QuietInstr (cfg : RingConfig) (s : Session) (i : Instr Loc Nat Session) : Prop where
  writes : ∀ a, a.ofCursor = true → i.writes ≠ some a
  stores : ∀ b v n, i ≠ .store b v n
  leads : ∀ s', i.Leads s' → Quiet cfg s s'

theorem QuietInstr.load {a : Loc} {next : Nat → Session} (h : ∀ v, Quiet cfg s (next v)) :
    QuietInstr cfg s (.load a next) :=
  ⟨fun _ _ => by simp [Instr.writes], fun _ _ _ => by simp, by rintro _ ⟨v, rfl⟩; exact h v⟩

theorem QuietInstr.rmw {f : Nat → Nat} {next : Nat → Session} (h : ∀ v, Quiet cfg s (next v)) :
    QuietInstr cfg s (.rmw .waiters f next) := by
  refine ⟨fun b hb hw => ?_, fun _ _ _ => by simp, by rintro _ ⟨v, rfl⟩; exact h v⟩
  cases hw
  cases hb

theorem code_quiet {i : Instr Loc Nat Session} (hi : s.code cfg = some i)
    (hp : s.pc.plain = true) (hpub : s.pc ≠ .publishCursor)
    (hvalue : ∀ id last, s.pc ≠ .retireValue id last)
    (hinUse : ∀ id last, s.pc ≠ .retireInUse id last) : QuietInstr cfg s i := by
  unfold code at hi
  cases hpc : s.pc with
  | attachProduced =>
    rw [hpc] at hi
    cases hi
    exact .load fun v => ⟨plain_cursorPc _, rfl, rfl, names_cursorPc⟩
  | doRead call =>
    rw [hpc] at hi
    cases hi
    exact .load fun v => quiet_afterDoRead _ _
  | viewLen =>
    rw [hpc] at hi
    cases hi
    exact .load fun v => ⟨rfl, rfl, rfl, trivial⟩
  | viewByte j =>
    rw [hpc] at hi
    cases hi
    exact .load fun v => ⟨rfl, rfl, rfl, trivial⟩
  | copyLen outCap =>
    rw [hpc] at hi
    cases hi
    exact .load fun v => ⟨plain_copyFromPc _ _, rfl, rfl, names_copyFromPc _ _ _⟩
  | copyByte n j =>
    rw [hpc] at hi
    cases hi
    exact .load fun v => ⟨plain_copyFromPc _ _, rfl, rfl, names_copyFromPc _ _ _⟩
  | copyValidate n =>
    rw [hpc] at hi
    cases hi
    exact .load fun v => quiet_afterCopy _ _
  | validate =>
    rw [hpc] at hi
    cases hi
    exact .load fun v => ⟨rfl, rfl, rfl, trivial⟩
  | produced =>
    rw [hpc] at hi
    cases hi
    exact .load fun v => ⟨rfl, rfl, rfl, trivial⟩
  | waitAnnounce iter =>
    rw [hpc] at hi
    cases hi
    exact .rmw fun v => ⟨rfl, rfl, rfl, trivial⟩
  | waitReload iter =>
    rw [hpc] at hi
    cases hi
    refine .load fun v => ⟨?_, rfl, rfl, ?_⟩
    · dsimp only
      split <;> rfl
    · dsimp only
      split <;> exact trivial
  | waitSyscall iter cmp =>
    rw [hpc] at hi
    cases hi
    refine ⟨fun _ _ => by simp [Instr.writes], fun _ _ _ => by simp, ?_⟩
    rintro _ (rfl | rfl) <;> exact ⟨rfl, rfl, rfl, trivial⟩
  | waitAsleep iter =>
    rw [hpc] at hi
    cases hi
    refine ⟨fun _ _ => by simp [Instr.writes], fun _ _ _ => by simp, ?_⟩
    rintro _ rfl
    exact ⟨rfl, rfl, rfl, trivial⟩
  | waitLeave iter =>
    rw [hpc] at hi
    cases hi
    exact .rmw fun v => ⟨rfl, rfl, rfl, trivial⟩
  | idle => rw [hpc] at hi; cases hi
  | publishCursor => exact absurd hpc hpub
  | retireValue id last => exact absurd hpc (hvalue id last)
  | retireInUse id last => exact absurd hpc (hinUse id last)
  | _ => rw [hpc] at hp; cases hp

theorem CursorStep.value_eq {ι : Type} [DecidableEq ι] {t : Thread ι} {m m' : RingMemory ι}
    (h : CursorStep cfg t m m' s s') (i : Nat) :
    m'.cells (.cursorValue i) = m.cells (.cursorValue i) := by
  cases h with
  | quiet hcells => exact hcells _ rfl
  | claim i attach hpc hfree hempty hcells => rw [hcells, update_of_ne (by simp)]
  | store j v hcur hcur' hv hcells => rw [hcells]
  | release j hcur hpc hs hcells => rw [hcells]

theorem cursorStep_of_exec {ι : Type} [DecidableEq ι] {key : Loc → Nat × Nat} {t : Thread ι}
    {m m' : RingMemory ι} {i : Instr Loc Nat Session} (h : Registered cfg s)
    (hi : s.code cfg = some i) (hx : m.exec .tso key t i = some (s', m')) :
    CursorStep cfg t m m' s s' ∧ Registered cfg s' := by
  by_cases hquiet : s.pc.plain = true ∧ s.pc ≠ .publishCursor ∧
      (∀ id last, s.pc ≠ .retireValue id last) ∧ ∀ id last, s.pc ≠ .retireInUse id last
  · obtain ⟨hplain, hpub, hvalue, hinUse⟩ := hquiet
    obtain ⟨hwrites, hstore, hleads⟩ := code_quiet hi hplain hpub hvalue hinUse
    obtain ⟨hplain', hid, hmoved, hnames⟩ := hleads s' (Memory.exec_leads hx)
    refine ⟨.quiet (fun a ha => Memory.exec_cells hx (hwrites a ha)) ?_
      (cursor_congr hplain hplain' hid) ?_ ?_, ⟨hmoved ▸ h.moved, hnames⟩⟩
    · rcases Memory.exec_buffer hx with hb | ⟨b, v, next, rfl, -⟩
      · exact hb
      · exact absurd rfl (hstore b v next)
    · cases hp : s.pc with
      | retireInUse id last => exact absurd hp (hinUse id last)
      | dead => rw [hp] at hplain; cases hplain
      | _ => rfl
    · intro i attach
      refine ⟨fun hp => ?_, fun hp => ?_⟩
      · rw [hp] at hplain
        cases hplain
      · rw [hp] at hplain'
        cases hplain'
  obtain ⟨hmoved, hnames⟩ := h
  unfold code at hi
  cases hp : s.pc with
  | unborn => rw [hp] at hi; cases hi
  | dead => rw [hp] at hi; cases hi
  | claimCursor i attach =>
    rw [hp] at hi hnames
    cases hi
    obtain ⟨hid, hlt⟩ := hnames
    simp only [Memory.exec] at hx
    split at hx
    · rename_i hempty
      by_cases hfree : m.cells (.cursorInUse i) = 0
      · simp only [hfree, if_true] at hx
        cases hx
        exact ⟨.claim i attach hp hfree hempty rfl rfl rfl, hmoved, hid, hlt⟩
      · simp only [hfree, if_false] at hx
        have hsame : (m.write (.cursorInUse i) (m.cells (.cursorInUse i))).cells = m.cells :=
          update_eq_self _ _
        have hcur : s.cursor cfg = none := by
          rw [cursor, hp]
          rfl
        split at hx <;> cases hx
        · exact ⟨.quiet (fun a _ => congrFun hsame a) rfl hcur.symm (by rw [hp]; rfl)
            (by simp [hp]), hmoved, hid, ‹_›⟩
        · refine ⟨.quiet (fun a _ => congrFun hsame a) rfl ?_ (by rw [hp]; rfl) ?_, hmoved,
            ?_⟩
          · rw [hcur, cursor, SessionPc.cursor_of_plain (plain_registered _ _)]
            simp [Consumer.cursor, registered]
          · intro j b
            refine ⟨by simp [hp], fun hpc => ?_⟩
            have hplain := plain_registered (s := s) cfg.maxConsumers attach
            rw [hpc] at hplain
            cases hplain
          · cases attach <;> exact trivial
    · cases hx
  | initCursor i attach =>
    rw [hp] at hi hnames
    cases hi
    cases hx
    refine ⟨.store i 0 ?_ ?_ (.inl ⟨attach, hp, rfl, rfl⟩) rfl rfl, hmoved, ?_⟩
    · rw [cursor, hp]
      rfl
    · rw [cursor, SessionPc.cursor_of_plain (plain_registered _ _)]
      simp [Consumer.cursor, registered, hnames.2]
    · cases attach <;> exact trivial
  | publishCursor =>
    rw [hp] at hi hnames
    cases hi
    cases hx
    have hlt : s.obj.cursorId < cfg.maxConsumers := hnames
    refine ⟨.store s.obj.cursorId s.obj.next ?_ ?_ (.inr (.inl ⟨hp, rfl, rfl⟩)) rfl rfl, hmoved,
      trivial⟩
    · rw [cursor, hp]
      exact if_pos hlt
    · exact if_pos hlt
  | retireValue id last =>
    rw [hp] at hi hnames
    cases hi
    cases hx
    obtain ⟨rfl, hlt, rfl⟩ := hnames
    refine ⟨.store s.obj.cursorId _ ?_ ?_ (.inr (.inr ⟨true, hp, rfl, rfl⟩)) rfl rfl, hmoved,
      rfl, hlt, rfl⟩
    · rw [cursor, hp]
      exact if_pos hlt
    · exact if_pos hlt
  | retireInUse id last =>
    rw [hp] at hi hnames
    cases hi
    cases hx
    obtain ⟨rfl, hlt, rfl⟩ := hnames
    refine ⟨.release s.obj.cursorId ?_ hp rfl rfl rfl, hmoved, trivial⟩
    rw [cursor, hp]
    exact if_pos hlt
  | _ => exact absurd ⟨by rw [hp]; rfl, by simp [hp], by simp [hp], by simp [hp]⟩ hquiet

end Session

end Shimmy
