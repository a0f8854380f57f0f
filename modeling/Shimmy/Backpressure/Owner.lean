import Shimmy.Backpressure.Cursor

namespace Shimmy

open Concurrency Function

namespace Backpressure

def Shape (cfg : RingConfig) (s : Session) (es : List (Loc × Nat)) : Prop :=
  match s.cursor cfg with
  | some i => ∀ e ∈ es, e.1 = .cursorValue i
  | none => es = [] ∨ s.pc = .dead ∧
      ∃ i vs, es = vs ++ [(.cursorInUse i, 0)] ∧ ∀ e ∈ vs, e.1 = .cursorValue i

namespace Shape

variable {cfg : RingConfig} {s s' : Session} {e : Loc × Nat} {es : List (Loc × Nat)} {i j : Nat}

theorem of_some (hcur : s.cursor cfg = some i) (h : ∀ e ∈ es, e.1 = .cursorValue i) :
    Shape cfg s es := by
  rw [Shape, hcur]
  exact h

theorem values (h : Shape cfg s es) (hcur : s.cursor cfg = some i) (he : e ∈ es) :
    e.1 = .cursorValue i := by
  rw [Shape, hcur] at h
  exact h e he

theorem empty (h : Shape cfg s es) (hcur : s.cursor cfg = none) (hlive : s.pc ≠ .dead) :
    es = [] := by
  rw [Shape, hcur] at h
  exact h.resolve_right fun hd => hlive hd.1

theorem congr (h : Shape cfg s es) (hcur : s'.cursor cfg = s.cursor cfg) (hlive : s.pc ≠ .dead) :
    Shape cfg s' es := by
  cases hc : s.cursor cfg with
  | none =>
    rw [Shape, hcur, hc]
    exact .inl (h.empty hc hlive)
  | some i => exact of_some (hcur.trans hc) fun e he => h.values hc he

theorem ofCursor (h : Shape cfg s es) (he : e ∈ es) : e.1.ofCursor = true := by
  unfold Shape at h
  split at h
  · rw [h e he]
    rfl
  · rcases h with rfl | ⟨-, i, vs, rfl, hvs⟩
    · cases he
    · rcases List.mem_append.mp he with he | he
      · rw [hvs e he]
        rfl
      · rw [List.mem_singleton.mp he]
        rfl

theorem tail (h : Shape cfg s (e :: es)) : Shape cfg s es := by
  unfold Shape at h ⊢
  split at h
  · exact fun f hf => h f (List.mem_cons_of_mem _ hf)
  · rcases h with hnil | ⟨hdead, i, vs, heq, hvs⟩
    · cases hnil
    · cases vs with
      | nil =>
        left
        simpa using congrArg List.tail heq
      | cons v vs =>
        rw [List.cons_append, List.cons.injEq] at heq
        exact .inr ⟨hdead, i, vs, heq.2, fun f hf => hvs f (List.mem_cons_of_mem _ hf)⟩

theorem release (h : Shape cfg s (e :: es)) (he : e.1 = .cursorInUse i) :
    e = (.cursorInUse i, 0) ∧ es = [] ∧ s.cursor cfg = none := by
  unfold Shape at h
  split at h
  · have hv := h e List.mem_cons_self
    rw [he] at hv
    cases hv
  · rename_i hcur
    rcases h with hnil | ⟨-, j, vs, heq, hvs⟩
    · cases hnil
    · cases vs with
      | nil =>
        obtain ⟨rfl, rfl⟩ := List.cons.inj heq
        cases he
        exact ⟨rfl, rfl, hcur⟩
      | cons v vs =>
        rw [List.cons_append, List.cons.injEq] at heq
        have hv := hvs v List.mem_cons_self
        rw [← heq.1, he] at hv
        cases hv

theorem not_mem_release (h : Shape cfg s es) (hcur : s.cursor cfg = some j) :
    (.cursorInUse i, 0) ∉ es := by
  intro he
  have := h.values hcur he
  cases this

end Shape

variable {ι : Type} {S : Setup ι} {σ σ' : System ι} {d : Pos} {c b : ι} {i : Nat}

def Holder (S : Setup ι) (σ : System ι) (c : ι) (i : Nat) : Prop :=
  (σ.consumer c).cursor S.cfg = some i ∨ (.cursorInUse i, 0) ∈ σ.memory.buffer (.consumer c)

structure Owned (S : Setup ι) (σ : System ι) : Prop where
  registered : ∀ c, (σ.consumer c).Registered S.cfg
  shape : ∀ c, Shape S.cfg (σ.consumer c) (σ.memory.buffer (.consumer c))
  claimed : ∀ c i, Holder S σ c i → σ.memory.cells (.cursorInUse i) ≠ 0
  unique : ∀ c b i, Holder S σ c i → Holder S σ b i → c = b

namespace Owned

theorem initial (fresh : Loc → Nat) : Owned S (S.initial fresh) where
  registered _ := .initial
  shape _ := .inl rfl
  claimed c i h := by
    rcases h with h | h
    · cases h
    · cases h
  unique c b i h := by
    rcases h with h | h
    · cases h
    · cases h

theorem narrow (h : Owned S σ) (hreg : ∀ c, (σ'.consumer c).Registered S.cfg)
    (hshape : ∀ c, Shape S.cfg (σ'.consumer c) (σ'.memory.buffer (.consumer c)))
    (hholder : ∀ c i, Holder S σ' c i → Holder S σ c i)
    (hcells : ∀ c i, Holder S σ' c i →
      σ'.memory.cells (.cursorInUse i) = σ.memory.cells (.cursorInUse i)) : Owned S σ' where
  registered := hreg
  shape := hshape
  claimed c i hc := by
    rw [hcells c i hc]
    exact h.claimed c i (hholder c i hc)
  unique c b i hc hb := h.unique c b i (hholder c i hc) (hholder b i hb)

theorem holder_of_value (h : Owned S σ) {e : Loc × Nat}
    (he : e ∈ σ.memory.buffer (.consumer c)) (hv : e.1 = .cursorValue i) : Holder S σ c i := by
  have hshape := h.shape c
  unfold Shape at hshape
  split at hshape
  · rename_i j hcur
    have hj := hshape e he
    rw [hv, Loc.cursorValue.injEq] at hj
    exact .inl (hj ▸ hcur)
  · rcases hshape with hnil | ⟨-, j, vs, heq, hvs⟩
    · rw [hnil] at he
      cases he
    · rw [heq] at he
      rcases List.mem_append.mp he with he | he
      · have hj := hvs e he
        rw [hv, Loc.cursorValue.injEq] at hj
        subst hj
        right
        rw [heq]
        simp
      · rw [List.mem_singleton.mp he] at hv
        cases hv

variable [DecidableEq ι]

theorem producer_step (hm : S.model = .tso) (h : Owned S σ) {p : Producer} {m : RingMemory ι}
    (hx : σ.memory.exec S.model (S.key .producer) .producer
      (σ.producer.code S.cfg S.stream) = some (p, m)) :
    Owned S { σ with producer := p, memory := m } := by
  have hbuf (c : ι) : m.buffer (.consumer c) = σ.memory.buffer (.consumer c) :=
    Memory.exec_buffer_of_ne hx (by simp)
  rw [hm] at hx
  refine h.narrow h.registered (fun c => ?_) (fun c i hc => ?_) fun c i _ => ?_
  · rw [hbuf]
    exact h.shape c
  · unfold Holder at hc
    rwa [hbuf] at hc
  · exact congrFun (Producer.exec_tso hx) _

theorem call_step (hbp : S.cfg.overflow = .backpressure) (h : Owned S σ) {k : Call} {s : Session}
    (hx : (σ.consumer c).call S.cfg k = some s) :
    Owned S { σ with consumer := update σ.consumer c s } := by
  obtain ⟨hk, rfl⟩ := Session.call_eq_some.mp hx
  have hcur := Session.cursor_enter hbp (h.registered c) hk
  have hlive : (σ.consumer c).pc ≠ .dead := by
    intro hdead
    cases k <;> simp [Session.enabled, hdead] at hk
  refine h.narrow (fun b => ?_) (fun b => ?_) (fun b i hb => ?_) fun _ _ _ => rfl
  · rcases eq_or_ne b c with rfl | hbc
    · simpa using (h.registered b).enter hk
    · simpa [hbc] using h.registered b
  · rcases eq_or_ne b c with rfl | hbc
    · simpa using (h.shape b).congr hcur hlive
    · simpa [hbc] using h.shape b
  · rcases eq_or_ne b c with rfl | hbc
    · rcases hb with hb | hb
      · exact .inl (hcur.symm.trans (by simpa using hb))
      · exact .inr hb
    · simpa [Holder, hbc] using hb

theorem consumer_step (hm : S.model = .tso) (h : Owned S σ) {i : Instr Loc Nat Session}
    {s : Session} {m : RingMemory ι} (hi : (σ.consumer c).code S.cfg = some i)
    (hx : σ.memory.exec S.model (S.key (.consumer c)) (.consumer c) i = some (s, m)) :
    Owned S { σ with consumer := update σ.consumer c s, memory := m } := by
  rw [hm] at hx
  obtain ⟨hstep, hreg⟩ := Session.cursorStep_of_exec (h.registered c) hi hx
  have hother {b : ι} (hbc : b ≠ c) : m.buffer (.consumer b) = σ.memory.buffer (.consumer b) :=
    Memory.exec_buffer_of_ne hx (by simpa using hbc)
  have hregs (b : ι) : (update σ.consumer c s b).Registered S.cfg := by
    rcases eq_or_ne b c with rfl | hbc
    · simpa using hreg
    · simpa [hbc] using h.registered b
  have hholder {b : ι} {j : Nat} (hbc : b ≠ c)
      (hb : Holder S { σ with consumer := update σ.consumer c s, memory := m } b j) :
      Holder S σ b j := by
    simpa [Holder, hbc, hother hbc] using hb
  have hshape {b : ι} (hbc : b ≠ c) : Shape S.cfg (update σ.consumer c s b)
      (m.buffer (.consumer b)) := by
    rw [update_of_ne hbc, hother hbc]
    exact h.shape b
  have hlocal (hc : Shape S.cfg s (m.buffer (.consumer c)))
      (hown : ∀ j, s.cursor S.cfg = some j ∨ (.cursorInUse j, 0) ∈ m.buffer (.consumer c) →
        Holder S σ c j)
      (hcells : ∀ j, m.cells (.cursorInUse j) = σ.memory.cells (.cursorInUse j)) :
      Owned S { σ with consumer := update σ.consumer c s, memory := m } := by
    refine h.narrow hregs (fun b => ?_) (fun b j hb => ?_) fun b j _ => hcells j
    · rcases eq_or_ne b c with rfl | hbc
      · simpa using hc
      · exact hshape hbc
    · rcases eq_or_ne b c with rfl | hbc
      · exact hown j (by simpa [Holder] using hb)
      · exact hholder hbc hb
  cases hstep with
  | quiet hcells hbuf hcur hlive hinit =>
    refine hlocal ?_ (fun j hj => ?_) fun j => hcells _ rfl
    · rw [hbuf]
      exact (h.shape c).congr hcur fun hdead => by
        rw [hdead] at hlive
        cases hlive
    · rwa [hbuf, hcur] at hj
  | claim i attach hpc hfree hempty hcells hbuf hs =>
    have hcur : s.cursor S.cfg = some i := by
      rw [hs]
      rfl
    have hnew : ∀ j, Holder S { σ with consumer := update σ.consumer c s, memory := m } c j →
        j = i := by
      intro j hj
      simpa [Holder, hcur, hbuf, hempty, eq_comm] using hj
    have hne {b : ι} {j : Nat} (hbc : b ≠ c)
        (hb : Holder S { σ with consumer := update σ.consumer c s, memory := m } b j) : j ≠ i := by
      rintro rfl
      exact h.claimed b j (hholder hbc hb) hfree
    refine ⟨hregs, fun b => ?_, fun b j hb => ?_, fun b b' j hb hb' => ?_⟩
    · rcases eq_or_ne b c with rfl | hbc
      · refine Shape.of_some (i := i) (by simpa using hcur) ?_
        simp [hbuf, hempty]
      · exact hshape hbc
    · rcases eq_or_ne b c with rfl | hbc
      · rw [hnew j hb, hcells, update_self]
        exact one_ne_zero
      · rw [hcells, update_of_ne (by simpa using hne hbc hb)]
        exact h.claimed b j (hholder hbc hb)
    · rcases eq_or_ne b c with rfl | hbc
      · by_contra hne'
        exact hne (Ne.symm hne') hb' (hnew j hb)
      · by_cases hbc' : b' = c
        · subst hbc'
          exact absurd (hnew j hb') (hne hbc hb)
        · exact h.unique b b' j (hholder hbc hb) (hholder hbc' hb')
  | store j v hcur hcur' hv hcells hbuf =>
    have hbuf' : m.buffer (.consumer c) =
        σ.memory.buffer (.consumer c) ++ [(.cursorValue j, v)] := by
      rw [hbuf, update_self]
    refine hlocal (.of_some hcur' fun e he => ?_) (fun k hk => ?_) fun k => by rw [hcells]
    · rw [hbuf'] at he
      rcases List.mem_append.mp he with he | he
      · exact (h.shape c).values hcur he
      · rw [List.mem_singleton.mp he]
    · rw [hcur', hbuf'] at hk
      refine hk.imp (fun hk => hcur.trans hk) fun hk => ?_
      simpa using hk
  | release j hcur hpc hs hcells hbuf =>
    have hbuf' : m.buffer (.consumer c) =
        σ.memory.buffer (.consumer c) ++ [(.cursorInUse j, 0)] := by
      rw [hbuf, update_self]
    have hdead : s.cursor S.cfg = none := by
      rw [hs]
      rfl
    refine hlocal ?_ (fun k hk => ?_) fun k => by rw [hcells]
    · rw [Shape, hdead]
      exact .inr ⟨by rw [hs], j, _, hbuf', fun e he => (h.shape c).values hcur he⟩
    · rw [hdead, hbuf'] at hk
      rcases hk with hk | hk
      · cases hk
      · rcases List.mem_append.mp hk with hk | hk
        · exact absurd hk ((h.shape c).not_mem_release hcur)
        · obtain rfl : k = j := by simpa using hk
          exact .inl hcur

theorem drain_step (h : Owned S σ) (hd : S.Sound σ d) {t : Thread ι} {e : Loc × Nat}
    {es : List (Loc × Nat)} (hb : σ.memory.buffer t = e :: es) :
    Owned S { σ with memory := σ.memory.land t e es } := by
  cases t with
  | producer =>
    have he : e.1.ofCursor = false := by
      have hp := hd.pending
      rw [hb] at hp
      exact Loc.ofCursor_of_ofProducer (hp.ofProducer List.mem_cons_self)
    have hbuf (c : ι) : (σ.memory.land .producer e es).buffer (.consumer c) =
        σ.memory.buffer (.consumer c) := by
      simp [Memory.land]
    refine h.narrow h.registered (fun c => ?_) (fun c i hc => ?_) fun c i _ => ?_
    · rw [hbuf]
      exact h.shape c
    · unfold Holder at hc
      rwa [hbuf] at hc
    · refine update_of_ne ?_ _ _
      rintro heq
      rw [← heq] at he
      cases he
  | consumer c =>
    have hbuf : (σ.memory.land (.consumer c) e es).buffer (.consumer c) = es := by
      simp [Memory.land]
    have hother {b : ι} (hbc : b ≠ c) : (σ.memory.land (.consumer c) e es).buffer (.consumer b) =
        σ.memory.buffer (.consumer b) := by
      simp [Memory.land, hbc]
    have hshape := h.shape c
    rw [hb] at hshape
    have hwas (b : ι) (i : Nat)
        (hh : Holder S { σ with memory := σ.memory.land (.consumer c) e es } b i) :
        Holder S σ b i := by
      unfold Holder at hh ⊢
      rcases eq_or_ne b c with rfl | hbc
      · rw [hbuf] at hh
        rw [hb]
        exact hh.imp id (List.mem_cons_of_mem _)
      · rwa [hother hbc] at hh
    refine h.narrow h.registered (fun b => ?_) hwas fun b i hh => ?_
    · rcases eq_or_ne b c with rfl | hbc
      · rw [hbuf]
        exact hshape.tail
      · rw [hother hbc]
        exact h.shape b
    · refine update_of_ne ?_ _ _
      rintro heq
      obtain ⟨he, hnil, hcur⟩ := hshape.release heq.symm
      have hc : Holder S σ c i := by
        right
        rw [hb, he]
        exact List.mem_cons_self
      obtain rfl := h.unique b c i (hwas b i hh) hc
      unfold Holder at hh
      rw [hbuf, hnil, hcur] at hh
      simp at hh

theorem step {l : Label ι} (hbp : S.cfg.overflow = .backpressure) (hm : S.model = .tso)
    (hd : S.Sound σ d) (h : Owned S σ) (hs : S.step l σ = some σ') : Owned S σ' := by
  cases Setup.step_iff.mp hs with
  | producer hx => exact h.producer_step hm hx
  | call hc hx => exact h.call_step hbp hx
  | consumer hi hx => exact h.consumer_step hm hi hx
  | drain hb => exact h.drain_step hd hb

end Owned

end Backpressure

end Shimmy
