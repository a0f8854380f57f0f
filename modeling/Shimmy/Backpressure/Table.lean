import Shimmy.Backpressure.Pace

namespace Shimmy

open Concurrency Function

def SessionPc.settled : SessionPc → Bool
  | .initCursor _ _ => false
  | .publishCursor => false
  | .retireInUse _ _ => false
  | _ => true

namespace Session

variable {cfg : RingConfig} {cells : Loc → Nat} {s s' : Session}

def objects (s : Session) : List Consumer := if s.pc.plain then s.obj :: s.moved else s.moved

def stored (cfg : RingConfig) (s : Session) : Option Loc :=
  match s.code cfg with
  | some (.store a _ _) => some a
  | _ => none

theorem Registered.object {o : Consumer} {j : Nat} (h : Registered cfg s)
    (ho : s.objects[j]? = some o) (hlt : o.cursorId < cfg.maxConsumers) :
    j = 0 ∧ s.cursor cfg = some o.cursorId := by
  have hmoved {k : Nat} (hk : s.moved[k]? = some o) : False := by
    have := h.moved o (List.mem_of_getElem? hk)
    omega
  unfold objects at ho
  split at ho
  · rename_i hplain
    cases j with
    | zero =>
      cases ho
      exact ⟨rfl, (SessionPc.cursor_of_plain hplain).trans (if_pos hlt)⟩
    | succ k => exact (hmoved ho).elim
  · exact (hmoved ho).elim

theorem Registered.cursor_retiring {id : Nat} {last : Bool} (h : Registered cfg s)
    (hpc : s.pc = .retireInUse id last) : s.cursor cfg = some id := by
  have hnames := h.names
  rw [hpc] at hnames
  obtain ⟨rfl, hlt, -⟩ := hnames
  rw [cursor, hpc]
  exact if_pos hlt

theorem cursorPc_of_cursor {o : Consumer} {i : Nat} (hbp : cfg.overflow = .backpressure)
    (h : (cursorPc cfg o).cursor cfg o = some i) : cursorPc cfg o = .publishCursor := by
  rw [SessionPc.cursor_of_plain (plain_cursorPc o), Consumer.cursor] at h
  split at h
  · rename_i hlt
    exact if_pos ⟨hbp, by omega, hlt⟩
  · cases h

theorem Moves.next_kept (h : s.Moves cfg cells s') :
    s'.obj.next = s.obj.next ∨ s'.pc = cursorPc cfg s'.obj := by
  cases h with
  | attached hpc => exact .inr rfl
  | doRead hpc =>
    left
    unfold afterDoRead Consumer.doRead
    dsimp only
    split <;> split <;> rfl
  | copyValidate hpc =>
    unfold afterCopy
    split
    · exact .inr rfl
    · exact .inl rfl
  | _ => exact .inl rfl

theorem enter_next {k : Call} (hk : s.enabled k = true) :
    ((s.noteCall k).enter cfg k).obj.next = s.obj.next ∨
      ((s.noteCall k).enter cfg k).pc = cursorPc cfg ((s.noteCall k).enter cfg k).obj ∨
      s.pc = .unborn := by
  cases k with
  | construct => exact .inr (.inr (of_decide_eq_true hk))
  | attachAtCurrent => exact .inr (.inr (of_decide_eq_true hk))
  | commit => exact .inr (.inl rfl)
  | seek seq => exact .inr (.inl rfl)
  | resync p => exact .inr (.inl rfl)
  | _ => exact .inl rfl

theorem Moves.retiring {id : Nat} {last : Bool} (h : s.Moves cfg cells s')
    (hpc : s'.pc = .retireInUse id last) : s.pc = .retireValue id last := by
  have hcursor (o : Consumer) : cursorPc cfg o ≠ .retireInUse id last := by
    unfold cursorPc
    split <;> simp
  have hcopy (n j : Nat) : copyFromPc n j ≠ .retireInUse id last := by
    unfold copyFromPc
    split <;> simp
  cases h with
  | control hn =>
    generalize s.pc = pc at hn ⊢
    cases hpc
    cases hn
    rfl
  | @registrationFailed i attach _ => cases attach <;> cases hpc
  | @registered i attach _ => cases attach <;> cases hpc
  | attached _ => exact absurd hpc (hcursor _)
  | doRead _ =>
    exfalso
    unfold afterDoRead waitPc at hpc
    dsimp only at hpc
    split at hpc
    · cases hpc
    · cases hpc
    · dsimp only at hpc
      split at hpc <;> cases hpc
    · cases hpc
  | viewLen hv =>
    rcases hv with ⟨-, rfl⟩ | ⟨outCap, -, rfl⟩
    · cases hpc
    · exact absurd hpc (hcopy _ _)
  | viewByte hv =>
    rcases hv with ⟨-, rfl⟩ | ⟨n, -, rfl⟩
    · cases hpc
    · exact absurd hpc (hcopy _ _)
  | copyValidate _ =>
    exfalso
    unfold afterCopy at hpc
    split at hpc
    · exact hcursor _ hpc
    · cases hpc
  | validate _ => cases hpc
  | produced _ => cases hpc

theorem enter_ne_retireInUse {k : Call} {id : Nat} {last : Bool} (hk : s.enabled k = true) :
    ((s.noteCall k).enter cfg k).pc ≠ .retireInUse id last := by
  have hdestruct (o : Consumer) (b : Bool) : destructPc cfg o b ≠ .retireInUse id last := by
    unfold destructPc
    split
    · simp
    · cases b <;> simp
  have hcursor (o : Consumer) : cursorPc cfg o ≠ .retireInUse id last := by
    unfold cursorPc
    split <;> simp
  have hfirst (attach : Bool) : (if cfg.overflow = .backpressure then .claimCursor 0 attach
      else if attach then .attachProduced else .idle) ≠ SessionPc.retireInUse id last := by
    split
    · simp
    · cases attach <;> simp
  cases k with
  | construct => exact hfirst false
  | attachAtCurrent => exact hfirst true
  | commit => exact hcursor _
  | seek seq => exact hcursor _
  | resync p => exact hcursor _
  | destroy => exact hdestruct _ _
  | destroyMoved => exact hdestruct _ _
  | move =>
    have hpc : s.pc = .idle := of_decide_eq_true hk
    simp [enter, move, noteCall, hpc]
  | _ => simp [enter, beginRead]

theorem settled_of_enabled {k : Call} (hk : s.enabled k = true) : s.pc.settled = true := by
  rcases pc_of_enabled hk with hpc | hpc
  · rw [hpc]
    rfl
  · rw [hpc]
    rfl

inductive TableStep (cfg : RingConfig) (cells cells' : Loc → Nat) (s s' : Session) : Prop
  | quiet (hcells : ∀ a, a.ofCursor = true → cells' a = cells a)
      (hcur : s'.cursor cfg = s.cursor cfg) (hlive : s.pc.departing = false)
      (hinit : ∀ i attach, s.pc ≠ .initCursor i attach ∧ s'.pc ≠ .initCursor i attach)
      (hstored : s.stored cfg = none)
      (htaken : ∀ i attach, s.pc = .claimCursor i attach → cells (.cursorInUse i) ≠ 0 ∧
        (s'.pc = .claimCursor (i + 1) attach ∨ cfg.maxConsumers ≤ i + 1))
  | claim (i : Nat) (attach : Bool) (hpc : s.pc = .claimCursor i attach)
      (hfree : cells (.cursorInUse i) = 0) (hcells : cells' = update cells (.cursorInUse i) 1)
      (hs : s' = { s with pc := .initCursor i attach })
  | store (j v : Nat) (hcur : s.cursor cfg = some j) (hcur' : s'.cursor cfg = some j)
      (hv : (∃ attach, s.pc = .initCursor j attach ∧ v = 0 ∧ s' = s.registered j attach) ∨
        (s.pc = .publishCursor ∧ v = s.obj.next ∧ s' = { s with pc := .idle }) ∨
        ∃ last, s.pc = .retireValue j last ∧ v = 2 ^ 64 - 1 ∧
          s' = { s with pc := .retireInUse j last })
      (hcells : cells' = update cells (.cursorValue j) v)
  | release (j : Nat) (hcur : s.cursor cfg = some j) (hpc : s.pc = .retireInUse j true)
      (hs : s' = { s with pc := .dead }) (hcells : cells' = update cells (.cursorInUse j) 0)

theorem tableStep_of_exec {ι : Type} [DecidableEq ι] {key : Loc → Nat × Nat} {t : Thread ι}
    {m m' : RingMemory ι} {i : Instr Loc Nat Session} (hempty : ∀ u, m.buffer u = [])
    (h : Registered cfg s) (hi : s.code cfg = some i)
    (hx : m.exec .sc key t i = some (s', m')) :
    TableStep cfg m.cells m'.cells s s' ∧ Registered cfg s' := by
  obtain ⟨hempty', htso | ⟨m₁, htso, hdrain⟩⟩ := Memory.exec_sc_tso hempty hx
  · obtain ⟨hstep, hreg⟩ := cursorStep_of_exec h hi htso
    refine ⟨?_, hreg⟩
    have hlanded {e : Loc × Nat} (hbuf : m'.buffer = update m.buffer t (m.buffer t ++ [e])) :
        False := by
      have hnil := hempty' t
      rw [hbuf, update_self] at hnil
      simp at hnil
    cases hstep with
    | quiet hcells hbuf hcur hlive hinit =>
      refine .quiet hcells hcur hlive hinit ?_ ?_
      · unfold stored
        rw [hi]
        cases i with
        | store a v next =>
          cases htso
          exact (hlanded rfl).elim
        | _ => rfl
      · intro j attach hpc
        simp only [code, hpc, Option.some.injEq] at hi
        subst hi
        obtain ⟨-, hs, -⟩ := Memory.exec_rmw htso
        by_cases hfree : m.cells (.cursorInUse j) = 0
        · rw [hfree, if_pos rfl] at hs
          exact absurd (by rw [hs]) (hinit j attach).2
        · refine ⟨hfree, ?_⟩
          rw [if_neg hfree] at hs
          split at hs
          · exact .inl (by rw [hs])
          · exact .inr (Nat.le_of_not_lt ‹_›)
    | claim i attach hpc hfree _ hcells _ hs => exact .claim i attach hpc hfree hcells hs
    | store j v hcur hcur' hv hcells hbuf => exact (hlanded hbuf).elim
    | release j hcur hpc hs hcells hbuf => exact (hlanded hbuf).elim
  · obtain ⟨hstep, hreg⟩ := cursorStep_of_exec h hi htso
    refine ⟨?_, hreg⟩
    obtain ⟨e, es, hhead, rfl⟩ := Memory.drain_eq_some.mp hdrain
    have hquiet (hbuf : m₁.buffer = m.buffer) : False := by
      rw [hbuf, hempty] at hhead
      cases hhead
    have hone {f : Loc × Nat} (hbuf : m₁.buffer = update m.buffer t (m.buffer t ++ [f])) :
        e = f := by
      rw [hbuf, update_self, hempty, List.nil_append, List.cons.injEq] at hhead
      exact hhead.1.symm
    cases hstep with
    | quiet hcells hbuf => exact (hquiet hbuf).elim
    | claim i attach hpc hfree hempty hcells hbuf => exact (hquiet hbuf).elim
    | store j v hcur hcur' hv hcells hbuf =>
      obtain rfl := hone hbuf
      exact .store j v hcur hcur' hv (by rw [← hcells]; rfl)
    | release j hcur hpc hs hcells hbuf =>
      obtain rfl := hone hbuf
      exact .release j hcur hpc hs (by rw [← hcells]; rfl)

theorem TableStep.cursorValue {i : Nat} {cells' : Loc → Nat} (h : TableStep cfg cells cells' s s')
    (hother : s.cursor cfg ≠ some i) : cells' (.cursorValue i) = cells (.cursorValue i) := by
  cases h with
  | quiet hcells => exact hcells _ rfl
  | claim j attach hpc hfree hcells => rw [hcells, update_of_ne (by simp)]
  | store j v hcur hcur' hv hcells =>
    rw [hcells, update_of_ne]
    rintro ⟨rfl⟩
    exact hother hcur
  | release j hcur hpc hs hcells => rw [hcells, update_of_ne (by simp)]

end Session

namespace Backpressure

variable {ι : Type} {S : Setup ι} {σ σ' : System ι} {c : ι} {l : Label ι}

inductive Turn [DecidableEq ι] (S : Setup ι) (σ : System ι) : Label ι → System ι → Prop
  | producer {p : Producer} {m : RingMemory ι}
      (hx : σ.memory.exec .sc (S.key .producer) .producer
        (σ.producer.code S.cfg S.stream) = some (p, m))
      (hcells : ∀ a, a.ofCursor = true → m.cells a = σ.memory.cells a) :
      Turn S σ .producer { σ with producer := p, memory := m }
  | call {c : ι} {k : Call} (hk : (σ.consumer c).enabled k = true) :
      Turn S σ (.call c k) { σ with
        consumer := update σ.consumer c (((σ.consumer c).noteCall k).enter S.cfg k) }
  | consumer {c : ι} {s : Session} {m : RingMemory ι}
      (hstep : Session.TableStep S.cfg σ.memory.cells m.cells (σ.consumer c) s)
      (hmoves : (σ.consumer c).Moves S.cfg σ.memory.cells s) (hreg : s.Registered S.cfg) :
      Turn S σ (.consumer c) { σ with consumer := update σ.consumer c s, memory := m }

theorem turn_of_step [DecidableEq ι] (hm : S.model = .sc) (hempty : Setup.BuffersEmpty σ)
    (hreg : ∀ c, (σ.consumer c).Registered S.cfg) (hs : S.step l σ = some σ') :
    Turn S σ l σ' := by
  cases Setup.step_iff.mp hs with
  | producer hx =>
    rw [hm] at hx
    refine .producer hx fun a ha => Memory.exec_cells hx fun hw => ?_
    rw [Loc.ofCursor_of_ofProducer (Producer.code_writes hw)] at ha
    cases ha
  | call hc hx =>
    obtain ⟨hk, rfl⟩ := Session.call_eq_some.mp hx
    exact .call hk
  | @consumer _ c i s m hi hx =>
    have hmoves := Session.moves_of_exec
      (fun a _ => Memory.read_eq_cells (by simp [hempty _])) hi hx
    rw [hm] at hx
    obtain ⟨hstep, hreg'⟩ := Session.tableStep_of_exec hempty (hreg c) hi hx
    exact .consumer hstep hmoves hreg'
  | drain hb =>
    rw [hempty] at hb
    cases hb

structure Table (S : Setup ι) (σ : System ι) : Prop where
  registered : ∀ c, (σ.consumer c).Registered S.cfg
  fresh : ∀ c, (σ.consumer c).pc.arriving = true → (σ.consumer c).obj.next = 0
  held : ∀ c i, (σ.consumer c).cursor S.cfg = some i → σ.memory.cells (.cursorInUse i) = 1
  unique : ∀ c b i, (σ.consumer c).cursor S.cfg = some i → (σ.consumer b).cursor S.cfg = some i →
    c = b
  free : ∀ i, (∀ c, (σ.consumer c).cursor S.cfg ≠ some i) → σ.memory.cells (.cursorInUse i) = 0
  value : ∀ c i, (σ.consumer c).cursor S.cfg = some i → (σ.consumer c).pc.settled = true →
    σ.memory.cells (.cursorValue i) = (σ.consumer c).obj.next
  parting : ∀ c i last, (σ.consumer c).pc = .retireInUse i last →
    σ.memory.cells (.cursorValue i) = 2 ^ 64 - 1

namespace Table

theorem initial (fresh : Loc → Nat) : Table S (S.initial fresh) where
  registered _ := .initial
  fresh _ _ := rfl
  held c i h := by cases h
  unique c b i h := by cases h
  free i _ := rfl
  value c i h := by cases h
  parting c i last h := by cases h

variable [DecidableEq ι]

theorem forall_update {P : ι → Session → Prop} {s : Session} (hown : P c s)
    (hother : ∀ b, b ≠ c → P b (σ.consumer b)) : ∀ b, P b (update σ.consumer c s b) :=
  (forall_update_iff σ.consumer P).mpr ⟨hown, hother⟩

theorem seated {s : Session} {m : RingMemory ι} (h : Table S σ) (hreg : s.Registered S.cfg)
    (hfresh : s.pc.arriving = true → s.obj.next = 0)
    (hother : ∀ b, b ≠ c → ∀ i, (σ.consumer b).cursor S.cfg = some i →
      s.cursor S.cfg ≠ some i ∧ m.cells (.cursorInUse i) = 1 ∧
        m.cells (.cursorValue i) = σ.memory.cells (.cursorValue i))
    (hheld : ∀ i, s.cursor S.cfg = some i → m.cells (.cursorInUse i) = 1)
    (hfree : ∀ i, s.cursor S.cfg ≠ some i → (∀ b, b ≠ c → (σ.consumer b).cursor S.cfg ≠ some i) →
      m.cells (.cursorInUse i) = 0)
    (hvalue : ∀ i, s.cursor S.cfg = some i → s.pc.settled = true →
      m.cells (.cursorValue i) = s.obj.next)
    (hparting : ∀ i last, s.pc = .retireInUse i last → m.cells (.cursorValue i) = 2 ^ 64 - 1) :
    Table S { σ with consumer := update σ.consumer c s, memory := m } := by
  constructor
  · exact forall_update (P := fun _ s => s.Registered S.cfg) hreg fun b _ => h.registered b
  · exact forall_update (P := fun _ s => s.pc.arriving = true → s.obj.next = 0) hfresh
      fun b _ => h.fresh b
  · exact forall_update (P := fun _ s => ∀ i, s.cursor S.cfg = some i →
      m.cells (.cursorInUse i) = 1) hheld fun b hbc i hi => (hother b hbc i hi).2.1
  · refine forall_update (P := fun b s => ∀ b' i, s.cursor S.cfg = some i →
      (update σ.consumer c _ b').cursor S.cfg = some i → b = b') ?_ ?_
    · intro b' i hi
      refine forall_update (P := fun b' s => s.cursor S.cfg = some i → c = b') (fun _ => rfl) ?_ b'
      intro b' hbc hb'
      exact absurd hi (hother b' hbc i hb').1
    · intro b hbc b' i hi
      refine forall_update (P := fun b' s => s.cursor S.cfg = some i → b = b') ?_ ?_ b'
      · intro hi'
        exact absurd hi' (hother b hbc i hi).1
      · intro b' _ hi'
        exact h.unique b b' i hi hi'
  · intro i hi
    refine hfree i (by simpa using hi c) fun b hbc => ?_
    simpa [hbc] using hi b
  · refine forall_update (P := fun _ s => ∀ i, s.cursor S.cfg = some i → s.pc.settled = true →
      m.cells (.cursorValue i) = s.obj.next) hvalue fun b hbc i hi hsettled => ?_
    rw [(hother b hbc i hi).2.2]
    exact h.value b i hi hsettled
  · refine forall_update (P := fun _ s => ∀ i last, s.pc = .retireInUse i last →
      m.cells (.cursorValue i) = 2 ^ 64 - 1) hparting fun b hbc i last hpc => ?_
    rw [(hother b hbc i ((h.registered b).cursor_retiring hpc)).2.2]
    exact h.parting b i last hpc

theorem same_cursor {s : Session} {m : RingMemory ι} (h : Table S σ)
    (hreg : s.Registered S.cfg) (hfresh : s.pc.arriving = true → s.obj.next = 0)
    (hcur : s.cursor S.cfg = (σ.consumer c).cursor S.cfg)
    (hinUse : ∀ i, m.cells (.cursorInUse i) = σ.memory.cells (.cursorInUse i))
    (hkept : ∀ b, b ≠ c → ∀ i, (σ.consumer b).cursor S.cfg = some i →
      m.cells (.cursorValue i) = σ.memory.cells (.cursorValue i))
    (hvalue : ∀ i, s.cursor S.cfg = some i → s.pc.settled = true →
      m.cells (.cursorValue i) = s.obj.next)
    (hparting : ∀ i last, s.pc = .retireInUse i last → m.cells (.cursorValue i) = 2 ^ 64 - 1) :
    Table S { σ with consumer := update σ.consumer c s, memory := m } := by
  refine h.seated hreg hfresh ?_ ?_ ?_ hvalue hparting
  · intro b hbc i hi
    refine ⟨fun hc => hbc (h.unique b c i hi (hcur.symm.trans hc)), ?_, hkept b hbc i hi⟩
    rw [hinUse]
    exact h.held b i hi
  · intro i hi
    rw [hinUse]
    exact h.held c i (hcur.symm.trans hi)
  · intro i hi hothers
    rw [hinUse]
    refine h.free i fun b hb => ?_
    rcases eq_or_ne b c with rfl | hbc
    · exact hi (hcur.trans hb)
    · exact hothers b hbc hb

theorem call_step (hbp : S.cfg.overflow = .backpressure) (h : Table S σ) {k : Call}
    (hk : (σ.consumer c).enabled k = true) :
    Table S { σ with
      consumer := update σ.consumer c (((σ.consumer c).noteCall k).enter S.cfg k) } := by
  have hcur := Session.cursor_enter hbp (h.registered c) hk
  refine h.same_cursor ((h.registered c).enter hk) ?_ hcur (fun _ => rfl) (fun _ _ _ _ => rfl) ?_
    fun i last hpc => absurd hpc (Session.enter_ne_retireInUse hk)
  · intro ha
    by_cases hborn : k = .construct ∨ k = .attachAtCurrent
    · rcases hborn with rfl | rfl
      · rfl
      · rfl
    · rw [Session.arriving_enter hk (fun h => hborn (.inl h)) fun h => hborn (.inr h)] at ha
      cases ha
  · intro i hi hsettled
    rcases @Session.enter_next S.cfg (σ.consumer c) k hk with hnext | hpc | hunborn
    · rw [hnext]
      exact h.value c i (hcur.symm.trans hi) (Session.settled_of_enabled hk)
    · rw [Session.cursor, hpc] at hi
      rw [hpc, Session.cursorPc_of_cursor hbp hi] at hsettled
      cases hsettled
    · rw [hcur, Session.cursor, hunborn] at hi
      cases hi

theorem consumer_step (hbp : S.cfg.overflow = .backpressure) (h : Table S σ) {s : Session}
    {m : RingMemory ι}
    (hstep : Session.TableStep S.cfg σ.memory.cells m.cells (σ.consumer c) s)
    (hmoves : (σ.consumer c).Moves S.cfg σ.memory.cells s) (hreg : s.Registered S.cfg) :
    Table S { σ with consumer := update σ.consumer c s, memory := m } := by
  have hfresh (ha : s.pc.arriving = true) : s.obj.next = 0 :=
    (hmoves.arriving ha).2.1.trans (h.fresh c (hmoves.arriving ha).1)
  have hkept (b : ι) (hbc : b ≠ c) (i : Nat) (hi : (σ.consumer b).cursor S.cfg = some i) :
      m.cells (.cursorValue i) = σ.memory.cells (.cursorValue i) :=
    hstep.cursorValue fun hc => hbc (h.unique b c i hi hc)
  cases hstep with
  | quiet hcells hcur hlive hinit hstored htaken =>
    refine h.same_cursor hreg hfresh hcur (fun i => hcells _ rfl) hkept
      (fun i hi hsettled => ?_) fun i last hpc => ?_
    have hbefore : (σ.consumer c).pc.settled = true := by
      cases hpc : (σ.consumer c).pc with
      | initCursor j attach => exact absurd hpc (hinit j attach).1
      | publishCursor => simp [Session.stored, Session.code, hpc] at hstored
      | retireInUse id last => simp [SessionPc.departing, hpc] at hlive
      | _ => rfl
    rcases hmoves.next_kept with hnext | hpc
    · rw [hcells _ rfl, hnext]
      exact h.value c i (hcur.symm.trans hi) hbefore
    · rw [Session.cursor, hpc] at hi
      rw [hpc, Session.cursorPc_of_cursor hbp hi] at hsettled
      cases hsettled
    · simp [Session.stored, Session.code, hmoves.retiring hpc] at hstored
  | claim i attach hpc hfree hcells hs =>
    have hcur : s.cursor S.cfg = some i := by
      rw [hs]
      rfl
    have hnone : (σ.consumer c).cursor S.cfg = none := by
      rw [Session.cursor, hpc]
      rfl
    have hother (b : ι) (j : Nat) (hj : (σ.consumer b).cursor S.cfg = some j) : j ≠ i := by
      rintro rfl
      have := h.held b j hj
      omega
    refine h.seated hreg hfresh ?_ ?_ ?_ ?_ fun j last hpc => ?_
    · intro b hbc j hj
      have hji := hother b j hj
      refine ⟨fun hc => hji (Option.some.inj (hc.symm.trans hcur)), ?_, hkept b hbc j hj⟩
      rw [hcells, update_of_ne (by simpa using hji)]
      exact h.held b j hj
    · intro j hj
      obtain rfl : i = j := Option.some.inj (hcur.symm.trans hj)
      rw [hcells, update_self]
    · intro j hj hothers
      have hji : j ≠ i := fun hji => hj (hji ▸ hcur)
      rw [hcells, update_of_ne (by simpa using hji)]
      refine h.free j fun b hb => ?_
      rcases eq_or_ne b c with rfl | hbc
      · rw [hnone] at hb
        cases hb
      · exact hothers b hbc hb
    · intro j _ hsettled
      rw [hs] at hsettled
      cases hsettled
    · rw [hs] at hpc
      cases hpc
  | store j v hcur hcur' hv hcells =>
    refine h.same_cursor hreg hfresh (hcur'.trans hcur.symm) (fun i => ?_) hkept
      (fun i hi hsettled => ?_) fun i last hpc => ?_
    · rw [hcells, update_of_ne (by simp)]
    · obtain rfl : j = i := Option.some.inj (hcur'.symm.trans hi)
      rw [hcells, update_self]
      rcases hv with ⟨attach, hpc, rfl, rfl⟩ | ⟨hpc, rfl, rfl⟩ | ⟨last, hpc, rfl, rfl⟩
      · exact (h.fresh c (by rw [hpc]; rfl)).symm
      · rfl
      · cases hsettled
    · obtain rfl : j = i := Option.some.inj (hcur'.symm.trans (hreg.cursor_retiring hpc))
      rw [hcells, update_self]
      rcases hv with ⟨attach, hold, rfl, rfl⟩ | ⟨hold, rfl, rfl⟩ | ⟨last', hold, rfl, rfl⟩
      · cases attach <;> cases hpc
      · cases hpc
      · rfl
  | release j hcur hpc hs hcells =>
    have hdead : s.cursor S.cfg = none := by
      rw [hs]
      rfl
    have hgone (i : Nat) : s.cursor S.cfg ≠ some i := by
      rw [hdead]
      simp
    refine h.seated hreg hfresh ?_ ?_ ?_ ?_ fun i last hpc => ?_
    · intro b hbc i hi
      have hij : i ≠ j := by
        rintro rfl
        exact hbc (h.unique b c i hi hcur)
      refine ⟨hgone i, ?_, hkept b hbc i hi⟩
      rw [hcells, update_of_ne (by simpa using hij)]
      exact h.held b i hi
    · intro i hi
      exact absurd hi (hgone i)
    · intro i _ hothers
      rcases eq_or_ne i j with rfl | hij
      · rw [hcells, update_self]
      · rw [hcells, update_of_ne (by simpa using hij)]
        refine h.free i fun b hb => ?_
        rcases eq_or_ne b c with rfl | hbc
        · exact hij (Option.some.inj (hb.symm.trans hcur))
        · exact hothers b hbc hb
    · intro i hi
      exact absurd hi (hgone i)
    · rw [hs] at hpc
      cases hpc

theorem turn (hbp : S.cfg.overflow = .backpressure) (h : Table S σ) (ht : Turn S σ l σ') :
    Table S σ' := by
  cases ht with
  | producer hx hcells =>
    refine ⟨h.registered, h.fresh, ?_, h.unique, ?_, ?_, ?_⟩
    · intro c i hi
      exact (hcells _ rfl).trans (h.held c i hi)
    · intro i hi
      exact (hcells _ rfl).trans (h.free i hi)
    · intro c i hi hsettled
      exact (hcells _ rfl).trans (h.value c i hi hsettled)
    · intro c i last hpc
      exact (hcells _ rfl).trans (h.parting c i last hpc)
  | call hk => exact h.call_step hbp hk
  | consumer hstep hmoves hreg => exact h.consumer_step hbp hstep hmoves hreg

theorem of_reachable (hbp : S.cfg.overflow = .backpressure) (hm : S.model = .sc)
    (h : S.Reachable σ) : Setup.BuffersEmpty σ ∧ Table S σ := by
  obtain ⟨fresh, hr⟩ := h
  refine hr.invariant (I := fun σ => Setup.BuffersEmpty σ ∧ Table S σ)
    ⟨fun _ => rfl, .initial fresh⟩ fun l u v ⟨hempty, hu⟩ _ hs => ?_
  constructor
  · exact (Setup.step_tso hm hempty hs).1
  · exact hu.turn hbp (turn_of_step hm hempty hu.registered hs)

end Table

theorem cursor_table [DecidableEq ι] (hbp : S.cfg.overflow = .backpressure) (hm : S.model = .sc)
    (h : S.Reachable σ) :
    (∀ c b (j k : Nat) (o o' : Consumer), (σ.consumer c).objects[j]? = some o →
      (σ.consumer b).objects[k]? = some o' → o.cursorId = o'.cursorId →
      o.cursorId < S.cfg.maxConsumers → c = b ∧ j = k) ∧
    (∀ c i, (σ.consumer c).cursor S.cfg = some i → σ.memory.cells (.cursorInUse i) = 1) ∧
    (∀ i, (∀ c, (σ.consumer c).cursor S.cfg ≠ some i) → σ.memory.cells (.cursorInUse i) = 0) ∧
    (∀ c i, (σ.consumer c).cursor S.cfg = some i → (σ.consumer c).pc = .idle →
      σ.memory.cells (.cursorValue i) = (σ.consumer c).obj.next) := by
  obtain ⟨-, htable⟩ := Table.of_reachable hbp hm h
  refine ⟨?_, htable.held, htable.free, ?_⟩
  · intro c b j k o o' ho ho' hid hlt
    obtain ⟨rfl, hc⟩ := (htable.registered c).object ho hlt
    obtain ⟨rfl, hb⟩ := (htable.registered b).object ho' (hid ▸ hlt)
    exact ⟨htable.unique c b _ hc (hid ▸ hb), rfl⟩
  · intro c i hi hpc
    refine htable.value c i hi ?_
    rw [hpc]
    rfl

def churnSetup : Setup (Fin 2) where
  cfg := .lone .backpressure .spin
  stream n := .ofByte n
  client _ _ _ := true
  model := .sc
  process _ := ⟨0, 0⟩

def churnRun : List (Label (Fin 2)) :=
  [.call 0 .construct, .consumer 0, .consumer 0, .call 0 .move, .call 0 .destroyMoved,
    .call 0 (.seek 1), .consumer 0]

theorem cursor_table_moved : ∃ σ, churnSetup.Reachable σ ∧
    (σ.consumer 0).lastCall = some (.seek 1) ∧ σ.memory.cells (.cursorInUse 0) = 1 ∧
    σ.memory.cells (.cursorValue 0) = (σ.consumer 0).obj.next := by
  obtain ⟨σ, hr, hp⟩ := Lts.exists_of_run (M := churnSetup.lts)
    (fun σ : System (Fin 2) => (σ.consumer 0).lastCall = some (.seek 1) &&
      (σ.consumer 0).cursor churnSetup.cfg = some 0 && (σ.consumer 0).pc = .idle)
    churnRun (churnSetup.initial fun _ => 0) (by decide +kernel)
  simp only [Bool.and_eq_true, decide_eq_true_eq] at hp
  obtain ⟨⟨hlast, hcursor⟩, hpc⟩ := hp
  obtain ⟨-, hheld, -, hvalue⟩ := cursor_table (S := churnSetup) rfl rfl ⟨_, hr⟩
  exact ⟨σ, ⟨_, hr⟩, hlast, hheld 0 0 hcursor, hvalue 0 0 hcursor hpc⟩

end Backpressure

end Shimmy
