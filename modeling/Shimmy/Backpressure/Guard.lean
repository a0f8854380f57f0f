import Shimmy.Backpressure.Pace

namespace Shimmy

open Concurrency Function

namespace Producer

variable {cfg : RingConfig} {stream : Nat → Message cfg.blockSize} {p p' : Producer} {i : Nat}

def passed (p : Producer) (i : Nat) : Nat :=
  match p.pc with
  | .idle => p.sent
  | .awaitInUse seq j => if i < j then seq + 1 else seq
  | .awaitValue seq j => if i < j then seq + 1 else seq
  | _ => p.sent + 1

theorem touched_le_passed (h : p.Wf cfg stream) : (p.pos cfg stream).touched ≤ p.passed i := by
  obtain ⟨pc, n⟩ := p
  cases pc with
  | awaitInUse seq j =>
    obtain rfl : seq = n := h.1
    simp only [pos, Pos.touched, passed, if_true]
    split <;> omega
  | awaitValue seq j =>
    obtain rfl : seq = n := h.1
    simp only [pos, Pos.touched, passed, if_true]
    split <;> omega
  | storeLen seq => by_cases ho : cfg.overflow = .overwrite <;> simp [pos, Pos.touched, passed, ho]
  | _ => simp [pos, Pos.touched, passed]

theorem passed_le_begun (h : p.Wf cfg stream) : p.passed i ≤ p.begun := by
  obtain ⟨pc, n⟩ := p
  cases pc with
  | awaitInUse seq j =>
    obtain rfl : seq = n := h.1
    simp only [passed, begun]
    split <;> simp
  | awaitValue seq j =>
    obtain rfl : seq = n := h.1
    simp only [passed, begun]
    split <;> simp
  | _ => simp [passed, begun]

theorem sent_le_passed (h : p.Wf cfg stream) (i : Nat) : p.sent ≤ p.passed i := by
  obtain ⟨pc, n⟩ := p
  cases pc with
  | awaitInUse seq j =>
    obtain rfl : seq = n := h.1
    simp only [passed]
    split <;> omega
  | awaitValue seq j =>
    obtain rfl : seq = n := h.1
    simp only [passed]
    split <;> omega
  | _ => simp [passed]

theorem passed_beginWrite (n seq : Nat) : passed ⟨cfg.beginWrite seq, n⟩ i = n + 1 := by
  unfold RingConfig.beginWrite
  split <;> rfl

theorem passed_awaitFrom (n j : Nat) (hi : i < cfg.maxConsumers) :
    passed ⟨cfg.awaitFrom n j, n⟩ i = if i < j then n + 1 else n := by
  unfold RingConfig.awaitFrom
  split
  · rfl
  · rw [passed_beginWrite, if_pos (by omega)]

inductive Pass (cfg : RingConfig) (value : Loc → Nat) (p p' : Producer) (i : Nat) : Prop
  | behind (h : p'.passed i ≤ p.passed i)
  | firstLap (h : p'.passed i ≤ cfg.capacity)
  | unused (seq : Nat) (hpc : p.pc = .awaitInUse seq i) (h : value (.cursorInUse i) = 0)
  | ahead (seq : Nat) (hpc : p.pc = .awaitValue seq i)
      (h : seq - cfg.capacity < value (.cursorValue i)) (hp : p'.passed i = seq + 1)

theorem pass_of_leads {value : Loc → Nat} (hbp : cfg.overflow = .backpressure)
    (hi : i < cfg.maxConsumers) (hwf : p.Wf cfg stream)
    (hnext : p.pc = .idle → value .nextPublish = p.sent)
    (h : (p.code cfg stream).LeadsFrom value p') : Pass cfg value p p' i := by
  obtain ⟨pc, n⟩ := p
  cases pc with
  | idle =>
    cases h
    rw [hnext rfl]
    dsimp only
    by_cases hcap : cfg.capacity ≤ n
    · refine .behind ?_
      rw [RingConfig.publishFrom, if_pos ⟨hbp, hcap⟩, passed_awaitFrom n 0 hi]
      simp [passed]
    · refine .firstLap ?_
      rw [RingConfig.publishFrom, if_neg fun hc => hcap hc.2, passed_beginWrite]
      omega
  | awaitInUse seq j =>
    cases h
    obtain rfl : seq = n := hwf.1
    dsimp only
    by_cases hfree : value (.cursorInUse j) = 0
    · rcases eq_or_ne i j with rfl | hij
      · exact .unused seq rfl hfree
      · refine .behind ?_
        rw [if_pos hfree, passed_awaitFrom _ _ hi]
        simp only [passed]
        split <;> split <;> omega
    · refine .behind ?_
      rw [if_neg hfree]
      exact le_rfl
  | awaitValue seq j =>
    cases h
    obtain rfl : seq = n := hwf.1
    dsimp only
    by_cases hle : value (.cursorValue j) ≤ seq - cfg.capacity
    · refine .behind ?_
      rw [if_pos hle, passed_awaitFrom _ _ hi]
      simp only [passed]
      split <;> split <;> omega
    · rcases eq_or_ne i j with rfl | hij
      · refine .ahead seq rfl (Nat.lt_of_not_le hle) ?_
        rw [if_neg hle, passed_awaitFrom _ _ hi, if_pos (Nat.lt_succ_self _)]
      · refine .behind ?_
        rw [if_neg hle, passed_awaitFrom _ _ hi]
        simp only [passed]
        split <;> split <;> omega
  | mark seq => cases h; exact .behind le_rfl
  | storeLen seq =>
    cases h
    refine .behind ?_
    unfold copyFrom
    split <;> exact le_rfl
  | copy seq j =>
    cases h
    refine .behind ?_
    unfold copyFrom
    split <;> exact le_rfl
  | stamp seq => cases h; exact .behind le_rfl
  | advance seq =>
    cases h
    refine .behind ?_
    split <;> exact le_rfl
  | notify seq =>
    cases h
    refine .behind ?_
    dsimp only
    split <;> exact le_rfl
  | wake seq => cases h; exact .behind le_rfl

theorem pass_of_exec {ι : Type} [DecidableEq ι] {key : Loc → Nat × Nat} {m m' : RingMemory ι}
    (hbp : cfg.overflow = .backpressure) (hi : i < cfg.maxConsumers) (hwf : p.Wf cfg stream)
    (hnext : p.pc = .idle → m.read .producer .nextPublish = p.sent)
    (h : m.exec .tso key .producer (p.code cfg stream) = some (p', m')) :
    Pass cfg (m.read .producer) p p' i :=
  pass_of_leads hbp hi hwf hnext (Memory.exec_leadsFrom h)

end Producer

namespace Backpressure

structure Trails (cells : Loc → Nat) (es : List (Loc × Nat)) (i next : Nat) : Prop where
  pending : ∀ e ∈ es, e.2 ≤ next
  visible : cells (.cursorValue i) ≤ next ∨ es.head? = some (.cursorValue i, 0)

namespace Trails

variable {cells cells' : Loc → Nat} {es : List (Loc × Nat)} {i next next' v : Nat}

theorem mono (h : Trails cells es i next) (hn : next ≤ next') : Trails cells es i next' :=
  ⟨fun e he => (h.pending e he).trans hn, h.visible.imp (fun hv => hv.trans hn) id⟩

theorem congr (h : Trails cells es i next)
    (hc : cells' (.cursorValue i) = cells (.cursorValue i)) : Trails cells' es i next :=
  ⟨h.pending, hc ▸ h.visible⟩

theorem zero : Trails cells [(.cursorValue i, 0)] i next :=
  ⟨fun e he => by rw [List.mem_singleton.mp he]; exact Nat.zero_le _, .inr rfl⟩

theorem snoc (h : Trails cells es i next) (hv : v ≤ next) :
    Trails cells (es ++ [(.cursorValue i, v)]) i next := by
  refine ⟨fun e he => ?_, ?_⟩
  · rcases List.mem_append.mp he with he | he
    · exact h.pending e he
    · rw [List.mem_singleton.mp he]
      exact hv
  · rcases h.visible with hc | hh
    · exact .inl hc
    · cases es with
      | nil => cases hh
      | cons e es => exact .inr hh

theorem drain {e : Loc × Nat} (h : Trails cells (e :: es) i next) (he : e.1 = .cursorValue i) :
    Trails (update cells e.1 e.2) es i next :=
  ⟨fun f hf => h.pending f (List.mem_cons_of_mem _ hf),
    .inl (by rw [he, update_self]; exact h.pending e List.mem_cons_self)⟩

end Trails

variable {ι : Type} {S : Setup ι} {σ σ' : System ι} {d : Pos} {c b : ι} {i : Nat}

def Clear (S : Setup ι) (c : ι) (σ : System ι) : Prop :=
  ∃ i, (σ.consumer c).cursor S.cfg = some i ∧
    σ.producer.passed i ≤ (σ.consumer c).obj.next + S.cfg.capacity

structure StaleScan (S : Setup ι) (c : ι) (σ : System ι) (i seq : Nat) : Prop where
  staying : (σ.consumer c).pc.departing = false
  cursor : (σ.consumer c).cursor S.cfg = some i
  scanning : σ.producer.pc = .awaitValue seq i
  buffered : (σ.memory.buffer (.consumer c)).head? = some (.cursorValue i, 0)
  passes : seq - S.cfg.capacity < σ.memory.cells (.cursorValue i)
  ahead : (σ.consumer c).obj.next + S.cfg.capacity ≤ seq

structure Buffers (cfg : RingConfig) (cells : Loc → Nat) (es : List (Loc × Nat))
    (s : Session) : Prop where
  fresh : ∀ i attach, s.pc = .initCursor i attach → es = []
  trails : ∀ i, s.cursor cfg = some i → (∀ j attach, s.pc ≠ .initCursor j attach) →
    s.pc.departing = false → Trails cells es i s.obj.next

namespace Buffers

variable {cfg : RingConfig} {cells cells' : Loc → Nat} {es : List (Loc × Nat)} {s s' : Session}

theorem congr (h : Buffers cfg cells es s) (hcells : ∀ i, s.cursor cfg = some i →
    cells' (.cursorValue i) = cells (.cursorValue i)) : Buffers cfg cells' es s where
  fresh := h.fresh
  trails i hcur hinit hstay := (h.trails i hcur hinit hstay).congr (hcells i hcur)

theorem enter {k : Call} (hbp : cfg.overflow = .backpressure) (h : Buffers cfg cells es s)
    (hreg : s.Registered cfg) (hk : s.enabled k = true)
    (hle : s.obj.next ≤ ((s.noteCall k).enter cfg k).obj.next) :
    Buffers cfg cells es ((s.noteCall k).enter cfg k) where
  fresh i attach hp := absurd hp (Session.enter_ne_initCursor hk)
  trails i hi hinit hstay := by
    have hpc := Session.pc_of_enabled hk
    rw [Session.cursor_enter hbp hreg hk] at hi
    refine (h.trails i hi (fun j attach hp => ?_) ?_).mono hle
    · rcases hpc with hpc | hpc <;> rw [hpc] at hp <;> cases hp
    · rcases hpc with hpc | hpc <;> rw [hpc] <;> rfl

theorem own_step {ι : Type} [DecidableEq ι] {t : Thread ι} {m m' : RingMemory ι}
    (h : Buffers cfg m.cells (m.buffer t) s) (hle : s.obj.next ≤ s'.obj.next)
    (hstep : s.CursorStep cfg t m m' s') : Buffers cfg m'.cells (m'.buffer t) s' := by
  cases hstep with
  | quiet hcells hbuf hcur hlive hinit =>
    refine ⟨fun i attach hp => absurd hp (hinit i attach).2, fun i hi _ _ => ?_⟩
    rw [hcur] at hi
    rw [hbuf]
    exact ((h.trails i hi (fun j a => (hinit j a).1) hlive).mono hle).congr (hcells _ rfl)
  | claim i attach hpc hfree hempty hcells hbuf hs =>
    refine ⟨fun j b hp => by rw [hbuf, hempty], fun j hj hinit _ => ?_⟩
    exact absurd (by rw [hs]) (hinit i attach)
  | store j v hcur hcur' hv hcells hbuf =>
    have hbuf' : m'.buffer t = m.buffer t ++ [(.cursorValue j, v)] := by
      rw [hbuf, update_self]
    rw [hbuf', hcells]
    rcases hv with ⟨attach, hpc, rfl, rfl⟩ | ⟨hpc, rfl, rfl⟩ | ⟨last, hpc, rfl, rfl⟩
    · refine ⟨fun i a hp => ?_, fun i hi _ _ => ?_⟩
      · have hplain := Session.plain_registered (s := s) j attach
        rw [hp] at hplain
        cases hplain
      · obtain rfl : j = i := Option.some.inj (hcur'.symm.trans hi)
        rw [h.fresh j attach hpc]
        exact .zero
    · refine ⟨fun i a hp => (by cases hp), fun i hi _ _ => ?_⟩
      obtain rfl : j = i := Option.some.inj (hcur'.symm.trans hi)
      exact (h.trails j hcur (by simp [hpc]) (by rw [hpc]; rfl)).snoc le_rfl
    · exact ⟨fun i a hp => (by cases hp), fun i hi _ hstay => (by cases hstay)⟩
  | release j hcur hpc hs hcells hbuf =>
    rw [hs]
    exact ⟨fun i a hp => (by cases hp), fun i hi => (by cases hi)⟩

end Buffers

structure Guarded (S : Setup ι) (c : ι) (early : Nat) (σ : System ι) (d : Pos) : Prop where
  sound : S.Sound σ d
  owned : Owned S σ
  paced : Paced S.cfg S.stream d (σ.consumer c)
  buffers : Buffers S.cfg σ.memory.cells (σ.memory.buffer (.consumer c)) (σ.consumer c)
  guard : (σ.consumer c).pc.arriving = false → (σ.consumer c).pc.departing = false →
    σ.producer.begun < early ∨ Clear S c σ

theorem Owned.departing_step [DecidableEq ι] {l : Label ι} (h : Owned S σ) (hm : S.model = .tso)
    (hs : S.step l σ = some σ') (hstay : (σ'.consumer c).pc.departing = false) :
    (σ.consumer c).pc.departing = false := by
  cases Setup.step_iff.mp hs with
  | producer hx => exact hstay
  | @call _ b k s hc hx =>
    rcases eq_or_ne c b with rfl | hcb
    · obtain ⟨hk, -⟩ := Session.call_eq_some.mp hx
      cases hpc : (σ.consumer c).pc with
      | retireInUse id last => cases k <;> simp [Session.enabled, hpc] at hk
      | dead => cases k <;> simp [Session.enabled, hpc] at hk
      | _ => rfl
    · simpa [hcb] using hstay
  | @consumer _ b i s m hi hx =>
    rcases eq_or_ne c b with rfl | hcb
    · rw [hm] at hx
      obtain ⟨hstep, -⟩ := Session.cursorStep_of_exec (h.registered c) hi hx
      simp only [update_self] at hstay
      cases hstep with
      | quiet hcells hbuf hcur hlive hinit => exact hlive
      | claim i attach hpc => rw [hpc]; rfl
      | store j v hcur hcur' hv =>
        rcases hv with ⟨attach, hpc, -⟩ | ⟨hpc, -⟩ | ⟨last, hpc, -⟩ <;> rw [hpc] <;> rfl
      | release j hcur hpc hs =>
        rw [hs] at hstay
        cases hstay
    · simpa [hcb] using hstay
  | drain hb => exact hstay

theorem Owned.cursor_step [DecidableEq ι] {l : Label ι} (h : Owned S σ)
    (hbp : S.cfg.overflow = .backpressure) (hm : S.model = .tso) (hs : S.step l σ = some σ')
    (ha : (σ.consumer c).pc.arriving = false) :
    (σ'.consumer c).cursor S.cfg = (σ.consumer c).cursor S.cfg ∨
      (σ'.consumer c).cursor S.cfg = none := by
  cases Setup.step_iff.mp hs with
  | producer hx => exact .inl rfl
  | @call _ b k s hcl hx =>
    rcases eq_or_ne c b with rfl | hcb
    · obtain ⟨hk, rfl⟩ := Session.call_eq_some.mp hx
      simp only [update_self]
      exact .inl (Session.cursor_enter hbp (h.registered c) hk)
    · simp [hcb]
  | @consumer _ b i s m hi hx =>
    rcases eq_or_ne c b with rfl | hcb
    · rw [hm] at hx
      obtain ⟨hstep, -⟩ := Session.cursorStep_of_exec (h.registered c) hi hx
      simp only [update_self]
      cases hstep with
      | quiet hcells hbuf hcur => exact .inl hcur
      | claim i attach hpc =>
        rw [hpc] at ha
        cases ha
      | store j v hcur hcur' => exact .inl (hcur'.trans hcur.symm)
      | release j hcur hpc hs =>
        rw [hs]
        exact .inr rfl
    · simp [hcb]
  | drain hb => exact .inl rfl

namespace Guarded

variable {early : Nat}

theorem initial (fresh : Loc → Nat) : Guarded S c early (S.initial fresh) ⟨0, .fresh⟩ where
  sound := .initial S fresh
  owned := .initial fresh
  paced := .initial
  buffers := ⟨fun _ _ _ => rfl, fun i h => (by cases h)⟩
  guard h := by cases h

theorem touched_le (h : Guarded S c early σ d) (hearly : early ≤ S.cfg.capacity + 1)
    (hp : (σ.consumer c).pc.polling = true ∨ (σ.consumer c).pc.validating = true) :
    d.touched ≤ (σ.consumer c).obj.next + S.cfg.capacity := by
  have harr : (σ.consumer c).pc.arriving = false ∧ (σ.consumer c).pc.departing = false := by
    cases hpc : (σ.consumer c).pc <;> rw [hpc] at hp <;>
      simp_all [SessionPc.polling, SessionPc.validating, SessionPc.arriving, SessionPc.departing]
  rcases h.guard harr.1 harr.2 with hlt | ⟨i, hcur, hle⟩
  · have := h.sound.touched_le_begun
    omega
  · have h1 := h.sound.pending.touched_le
    have h2 := Producer.touched_le_passed (i := i) h.sound.wf
    omega

variable [DecidableEq ι]

theorem paced_step {attach : Bool} {l : Label ι} (hbp : S.cfg.overflow = .backpressure)
    (hclient : ∀ s k, S.client c s k = true → follows attach s k = true)
    (h : Guarded S c early σ d) (hearly : early ≤ S.cfg.capacity + 1)
    (hlt : d.stampedCount < 2 ^ 64) (hs : S.step l σ = some σ') :
    Paced S.cfg S.stream (S.advance l d) (σ'.consumer c) ∧
      (σ.consumer c).Change S.cfg S.stream σ.memory.cells d (σ'.consumer c) := by
  refine h.sound.sessions_step (P := fun d' b s => b = c → Paced S.cfg S.stream d' s ∧
    (σ.consumer c).Change S.cfg S.stream σ.memory.cells d s) hs ?_ ?_ ?_ ?_ c rfl
  · rintro b rfl
    exact ⟨h.paced, .stay rfl rfl⟩
  · intro b s hbs hbc
    exact ⟨(hbs hbc).1.succ, (hbs hbc).2⟩
  · rintro b k s hcl hcall rfl
    obtain ⟨hk, rfl⟩ := Session.call_eq_some.mp hcall
    exact h.paced.enter hlt h.sound.image hk (hclient _ _ hcl)
  · rintro b s - hmoves rfl
    exact h.paced.moves hbp h.sound.image hlt (h.touched_le hearly) hmoves

theorem scan (h : Guarded S c early σ d) (hbp : S.cfg.overflow = .backpressure)
    (hm : S.model = .tso) {p : Producer} {m : RingMemory ι}
    (hx : σ.memory.exec S.model (S.key .producer) .producer
      (σ.producer.code S.cfg S.stream) = some (p, m))
    (hlive : (σ.consumer c).pc.arriving = false) (hstay : (σ.consumer c).pc.departing = false)
    (hscan : ∀ i seq, ¬ StaleScan S c σ i seq) (hclear : Clear S c σ) :
    Clear S c { σ with producer := p, memory := m } := by
  obtain ⟨i, hcur, hle⟩ := hclear
  refine ⟨i, hcur, ?_⟩
  rw [hm] at hx
  have hi := (h.owned.registered c).cursor_lt hcur
  have hidle : σ.producer.pc = .idle →
      σ.memory.read .producer .nextPublish = σ.producer.sent := by
    intro hpc
    rw [h.sound.read_nextPublish, Producer.pos, hpc]
  have hinit (j : Nat) (attach : Bool) : (σ.consumer c).pc ≠ .initCursor j attach := by
    intro hpc
    rw [hpc] at hlive
    cases hlive
  cases Producer.pass_of_exec hbp hi h.sound.wf hidle hx with
  | behind hp => exact hp.trans hle
  | firstLap hp => exact hp.trans (Nat.le_add_left _ _)
  | unused seq hpc hfree =>
    rw [h.sound.read_foreign rfl] at hfree
    exact absurd hfree (h.owned.claimed c i (.inl hcur))
  | ahead seq hpc hv hp =>
    rw [h.sound.read_foreign rfl] at hv
    dsimp only
    rw [hp]
    by_contra hgt
    rcases (h.buffers.trails i hcur hinit hstay).visible with hvis | hhead
    · omega
    · exact hscan i seq ⟨hstay, hcur, hpc, hhead, hv, by omega⟩

theorem value_step {l : Label ι} (hm : S.model = .tso) (h : Guarded S c early σ d)
    (hcur : (σ.consumer c).cursor S.cfg = some i) (hs : S.step l σ = some σ') :
    σ'.memory.cells (.cursorValue i) = σ.memory.cells (.cursorValue i) ∨
      ∃ v es, σ.memory.buffer (.consumer c) = (.cursorValue i, v) :: es ∧
        σ'.memory.cells (.cursorValue i) = v ∧ l = .drain (.consumer c) := by
  cases Setup.step_iff.mp hs with
  | producer hx =>
    rw [hm] at hx
    exact .inl (by rw [Producer.exec_tso hx])
  | call => exact .inl rfl
  | consumer hi hx =>
    rw [hm] at hx
    obtain ⟨hstep, -⟩ := Session.cursorStep_of_exec (h.owned.registered _) hi hx
    exact .inl (hstep.value_eq i)
  | @drain _ t e es hb =>
    by_cases he : e.1 = .cursorValue i
    · right
      have hholder : t = .consumer c := by
        cases t with
        | producer =>
          have hp := h.sound.pending.ofProducer (hb ▸ List.mem_cons_self)
          rw [he] at hp
          cases hp
        | consumer b =>
          have hb' := h.owned.holder_of_value (hb ▸ List.mem_cons_self) he
          rw [h.owned.unique b c i hb' (.inl hcur)]
      subst hholder
      exact ⟨e.2, es, by rw [hb, ← he], by rw [← he]; exact update_self _ _ _, rfl⟩
    · exact .inl (update_of_ne (Ne.symm he) _ _)

theorem buffers_step {l : Label ι} (hbp : S.cfg.overflow = .backpressure) (hm : S.model = .tso)
    (h : Guarded S c early σ d) (hle : (σ.consumer c).obj.next ≤ (σ'.consumer c).obj.next)
    (hs : S.step l σ = some σ') :
    Buffers S.cfg σ'.memory.cells (σ'.memory.buffer (.consumer c)) (σ'.consumer c) := by
  cases Setup.step_iff.mp hs with
  | producer hx =>
    rw [Memory.exec_buffer_of_ne hx (by simp)]
    rw [hm] at hx
    refine h.buffers.congr fun i _ => ?_
    rw [Producer.exec_tso hx]
  | @call _ b k s hc hx =>
    rcases eq_or_ne c b with rfl | hcb
    · obtain ⟨hk, rfl⟩ := Session.call_eq_some.mp hx
      simp only [update_self] at hle ⊢
      exact h.buffers.enter hbp (h.owned.registered c) hk hle
    · simpa [hcb] using h.buffers
  | @consumer _ b i s m hi hx =>
    rw [hm] at hx
    obtain ⟨hstep, -⟩ := Session.cursorStep_of_exec (h.owned.registered b) hi hx
    rcases eq_or_ne c b with rfl | hcb
    · simp only [update_self] at hle ⊢
      exact h.buffers.own_step hle hstep
    · dsimp only
      rw [Memory.exec_buffer_of_ne hx (by simpa using hcb), update_of_ne hcb]
      exact h.buffers.congr fun i _ => hstep.value_eq i
  | @drain _ t e es hb =>
    by_cases ht : t = .consumer c
    · subst ht
      have hbuf : (σ.memory.land (.consumer c) e es).buffer (.consumer c) = es := by
        simp [Memory.land]
      rw [hbuf]
      refine ⟨fun i attach hp => ?_, fun i hcur hinit hstay => ?_⟩
      · have hnil := h.buffers.fresh i attach hp
        rw [hb] at hnil
        cases hnil
      · have htrails := h.buffers.trails i hcur hinit hstay
        rw [hb] at htrails
        exact htrails.drain ((h.owned.shape c).values hcur (hb ▸ List.mem_cons_self))
    · have hbuf : (σ.memory.land t e es).buffer (.consumer c) =
          σ.memory.buffer (.consumer c) := by
        simp [Memory.land, Ne.symm ht]
      rw [hbuf]
      refine h.buffers.congr fun i hcur => (h.value_step hm hcur hs).resolve_right ?_
      rintro ⟨v, es', -, -, hl⟩
      exact ht (Label.drain.inj hl)

theorem clear_step {l : Label ι} (hbp : S.cfg.overflow = .backpressure) (hm : S.model = .tso)
    (h : Guarded S c early σ d) (hle : (σ.consumer c).obj.next ≤ (σ'.consumer c).obj.next)
    (hscan : l = .producer → ∀ i seq, ¬ StaleScan S c σ i seq)
    (hlive : (σ.consumer c).pc.arriving = false) (hstay : (σ'.consumer c).pc.departing = false)
    (hclear : Clear S c σ) (hs : S.step l σ = some σ') : Clear S c σ' := by
  have hgrow {s : Session} {m : RingMemory ι} (hcur : s.cursor S.cfg = (σ.consumer c).cursor S.cfg)
      (hle : (σ.consumer c).obj.next ≤ s.obj.next) :
      Clear S c { σ with consumer := update σ.consumer c s, memory := m } := by
    obtain ⟨i, hi, hp⟩ := hclear
    refine ⟨i, ?_, ?_⟩
    · simpa using hcur.trans hi
    · simpa using hp.trans (Nat.add_le_add_right hle _)
  cases Setup.step_iff.mp hs with
  | producer hx => exact h.scan hbp hm hx hlive hstay (hscan rfl) hclear
  | @call _ b k s hc hx =>
    rcases eq_or_ne c b with rfl | hcb
    · obtain ⟨hk, rfl⟩ := Session.call_eq_some.mp hx
      exact hgrow (Session.cursor_enter hbp (h.owned.registered c) hk) (by simpa using hle)
    · simpa [Clear, hcb] using hclear
  | @consumer _ b i s m hi hx =>
    rcases eq_or_ne c b with rfl | hcb
    · rw [hm] at hx
      obtain ⟨hstep, -⟩ := Session.cursorStep_of_exec (h.owned.registered c) hi hx
      simp only [update_self] at hle hstay
      cases hstep with
      | quiet hcells hbuf hcur hlive hinit => exact hgrow hcur hle
      | claim i attach hpc =>
        rw [hpc] at hlive
        cases hlive
      | store j v hcur hcur' => exact hgrow (hcur'.trans hcur.symm) hle
      | release j hcur hpc hs =>
        rw [hs] at hstay
        cases hstay
    · simpa [Clear, hcb] using hclear
  | drain hb => exact hclear

theorem step {attach : Bool} {l : Label ι} (hbp : S.cfg.overflow = .backpressure)
    (hm : S.model = .tso)
    (hclient : ∀ s k, S.client c s k = true → follows attach s k = true)
    (h : Guarded S c early σ d) (hearly : early ≤ S.cfg.capacity + 1)
    (hb : σ'.producer.begun < 2 ^ 64)
    (hstill : σ.producer.begun < early → σ'.producer.begun < early)
    (hscan : l = .producer → early ≤ σ.producer.begun → ∀ i seq, ¬ StaleScan S c σ i seq)
    (harrive : (σ.consumer c).pc.arriving = true → (σ'.consumer c).pc.arriving = false →
      σ'.producer.begun < early ∨ Clear S c σ')
    (hs : S.step l σ = some σ') :
    Guarded S c early σ' (S.advance l d) ∧
      (σ.consumer c).Change S.cfg S.stream σ.memory.cells d (σ'.consumer c) := by
  have hlt : d.stampedCount < 2 ^ 64 :=
    (h.sound.stampedCount_le_begun.trans (Setup.begun_le hs)).trans_lt hb
  obtain ⟨hpaced, hchange⟩ := h.paced_step hbp hclient hearly hlt hs
  have hle := h.paced.next_le hchange hlt
  refine ⟨⟨h.sound.step hm hb hs, h.owned.step hbp hm h.sound hs, hpaced,
    h.buffers_step hbp hm hle hs, fun hlive hstay => ?_⟩, hchange⟩
  cases hold : (σ.consumer c).pc.arriving with
  | true => exact harrive hold hlive
  | false =>
    by_cases hsoon : σ.producer.begun < early
    · exact .inl (hstill hsoon)
    · right
      have hstay' := h.owned.departing_step hm hs hstay
      exact h.clear_step hbp hm hle (fun hl => hscan hl (by omega)) hold hstay
        ((h.guard hold hstay').resolve_left hsoon) hs

end Guarded

end Backpressure

end Shimmy
