import Shimmy.Backpressure.Pace
import Shimmy.Concurrency.Lease
import Shimmy.Weak.System

namespace Shimmy

open Concurrency Function

namespace Session

variable {ι : Type} [DecidableEq ι] {cfg : RingConfig} {s s' : Session} {o : Orders}
  {t : Thread ι} {m m' : WeakMemory (Thread ι) Loc Nat} {i : Instr Loc Nat Session}

inductive CursorEffect (cfg : RingConfig) (t : Thread ι) (m m' : WeakMemory (Thread ι) Loc Nat)
    (s s' : Session) : Prop
  | quiet (hhist : ∀ a, a.ofCursor = true → m'.history a = m.history a)
      (hcur : s'.cursor cfg = s.cursor cfg) (hlive : s.pc.departing = false)
      (hinit : ∀ i attach, s.pc ≠ .initCursor i attach ∧ s'.pc ≠ .initCursor i attach)
  | claim (i : Nat) (attach : Bool) (w : Write Loc Nat) (front : Frontier Loc)
      (hpc : s.pc = .claimCursor i attach) (hw : w ∈ m.history (.cursorInUse i)) (hfree : w.val = 0)
      (hf : m.Fresh ((m.fronts t).read .acqRel (.cursorInUse i) w) (.cursorInUse i) (w.time + 1))
      (hm : m' = m.add t (((m.fronts t).read .acqRel (.cursorInUse i) w).write (.cursorInUse i)
        (w.time + 1)) (.cursorInUse i) ⟨w.time + 1, 1, front⟩)
      (hs : s' = { s with pc := .initCursor i attach })
  | store (j v time : Nat) (front : Frontier Loc) (hcur : s.cursor cfg = some j)
      (hcur' : s'.cursor cfg = some j)
      (hv : (∃ attach, s.pc = .initCursor j attach ∧ v = 0 ∧ s' = s.registered j attach) ∨
        (s.pc = .publishCursor ∧ v = s.obj.next ∧ s' = { s with pc := .idle }) ∨
        ∃ last, s.pc = .retireValue j last ∧ v = 2 ^ 64 - 1 ∧
          s' = { s with pc := .retireInUse j last })
      (hf : m.Fresh (m.fronts t) (.cursorValue j) time)
      (hm : m' = m.add t ((m.fronts t).write (.cursorValue j) time) (.cursorValue j)
        ⟨time, v, front⟩)
  | release (j time : Nat) (hcur : s.cursor cfg = some j) (hpc : s.pc = .retireInUse j true)
      (hs : s' = { s with pc := .dead }) (hf : m.Fresh (m.fronts t) (.cursorInUse j) time)
      (hm : m' = m.add t ((m.fronts t).write (.cursorInUse j) time) (.cursorInUse j)
        ⟨time, 0, (m.fronts t).front .release (.cursorInUse j) time⟩)

theorem cursor_registered {j : Nat} {attach : Bool} :
    (s.registered j attach).cursor cfg = if j < cfg.maxConsumers then some j else none := by
  rw [cursor, SessionPc.cursor_of_plain (plain_registered _ _)]
  rfl

theorem cursorEffect_of_effect (h : Registered cfg s) (hi : s.code cfg = some i)
    (hx : m.Effect (s.pc.access o) t i s' m') :
    CursorEffect cfg t m m' s s' ∧ Registered cfg s' := by
  by_cases hquiet : s.pc.plain = true ∧ s.pc ≠ .publishCursor ∧
      (∀ id last, s.pc ≠ .retireValue id last) ∧ ∀ id last, s.pc ≠ .retireInUse id last
  · obtain ⟨hplain, hpub, hvalue, hinUse⟩ := hquiet
    obtain ⟨hwrites, -, hleads⟩ := code_quiet hi hplain hpub hvalue hinUse
    obtain ⟨hplain', hid, hmoved, hnames⟩ := hleads s' hx.leads
    refine ⟨.quiet (fun a ha => hx.history_of_ne (hwrites a ha))
      (cursor_congr hplain hplain' hid) ?_ ?_, ⟨hmoved ▸ h.moved, hnames⟩⟩
    · cases hp : s.pc with
      | retireInUse id last => exact absurd hp (hinUse id last)
      | dead => rw [hp] at hplain; cases hplain
      | _ => rfl
    · intro i attach
      refine ⟨fun hp => ?_, fun hp => ?_⟩
      · rw [hp] at hplain
        cases hplain
      · rw [hp] at hplain'
        cases hplain'
  obtain ⟨hmoved, hnames⟩ := h
  unfold code at hi
  cases hp : s.pc with
  | unborn => rw [hp] at hi; cases hi
  | dead => rw [hp] at hi; cases hi
  | claimCursor i attach =>
    rw [hp] at hi hnames hx
    cases hi
    obtain ⟨hid, hlt⟩ := hnames
    have hcur : s.cursor cfg = none := by
      rw [cursor, hp]
      rfl
    cases hx with
    | @swapped _ _ _ w hw ht hv hf =>
      have hfree : w.val = 0 := by
        by_contra hne
        exact hv (if_neg hne)
      refine ⟨?_, ?_⟩
      · simp only [hfree, if_true]
        exact .claim i attach w _ hp hw hfree hf rfl rfl
      · simp only [hfree, if_true]
        exact ⟨hmoved, hid, hlt⟩
    | @refused _ _ _ w hw ht hv =>
      have hbusy : w.val ≠ 0 := by
        intro hz
        simp [hz] at hv
      simp only [hbusy, if_false]
      split
      · exact ⟨.quiet (fun _ _ => rfl) hcur.symm (by rw [hp]; rfl) (by simp [hp]), hmoved, hid, ‹_›⟩
      · refine ⟨.quiet (fun _ _ => rfl) ?_ (by rw [hp]; rfl) fun j b => ⟨by simp [hp], fun hpc => ?_⟩,
          hmoved, ?_⟩
        · rw [hcur, cursor_registered, if_neg (lt_irrefl _)]
        · have hplain := plain_registered (s := s) cfg.maxConsumers attach
          rw [hpc] at hplain
          cases hplain
        · cases attach <;> exact trivial
    | quiet _ hw => cases hw
  | initCursor i attach =>
    rw [hp] at hi hnames hx
    cases hi
    obtain ⟨rfl, time, hf, rfl⟩ := hx.store rfl
    refine ⟨.store i 0 time _ ?_ ?_ (.inl ⟨attach, hp, rfl, rfl⟩) hf rfl, hmoved, ?_⟩
    · rw [cursor, hp]
      rfl
    · rw [cursor_registered, if_pos hnames.2]
    · cases attach <;> exact trivial
  | publishCursor =>
    rw [hp] at hi hnames hx
    cases hi
    obtain ⟨rfl, time, hf, rfl⟩ := hx.store rfl
    have hlt : s.obj.cursorId < cfg.maxConsumers := hnames
    refine ⟨.store s.obj.cursorId s.obj.next time _ ?_ ?_ (.inr (.inl ⟨hp, rfl, rfl⟩)) hf rfl, hmoved,
      trivial⟩
    · rw [cursor, hp]
      exact if_pos hlt
    · exact if_pos hlt
  | retireValue id last =>
    rw [hp] at hi hnames hx
    cases hi
    obtain ⟨rfl, hlt, rfl⟩ := hnames
    obtain ⟨rfl, time, hf, rfl⟩ := hx.store rfl
    refine ⟨.store s.obj.cursorId _ time _ ?_ ?_ (.inr (.inr ⟨true, hp, rfl, rfl⟩)) hf rfl, hmoved,
      rfl, hlt, rfl⟩
    · rw [cursor, hp]
      exact if_pos hlt
    · exact if_pos hlt
  | retireInUse id last =>
    rw [hp] at hi hnames hx
    cases hi
    obtain ⟨rfl, hlt, rfl⟩ := hnames
    obtain ⟨rfl, time, hf, rfl⟩ := hx.store rfl
    refine ⟨.release s.obj.cursorId time ?_ hp rfl hf rfl, hmoved, trivial⟩
    rw [cursor, hp]
    exact if_pos hlt
  | _ => exact absurd ⟨by rw [hp]; rfl, by simp [hp], by simp [hp], by simp [hp]⟩ hquiet

theorem stored_le {j v : Nat}
    (hv : (∃ attach, s.pc = .initCursor j attach ∧ v = 0 ∧ s' = s.registered j attach) ∨
      (s.pc = .publishCursor ∧ v = s.obj.next ∧ s' = { s with pc := .idle }) ∨
      ∃ last, s.pc = .retireValue j last ∧ v = 2 ^ 64 - 1 ∧
        s' = { s with pc := .retireInUse j last })
    (hstay : s'.pc.departing = false) : v ≤ s'.obj.next := by
  rcases hv with ⟨attach, hpc, rfl, rfl⟩ | ⟨hpc, rfl, rfl⟩ | ⟨last, hpc, rfl, rfl⟩
  · exact Nat.zero_le _
  · exact le_rfl
  · cases hstay

theorem CursorEffect.value_history {j : Nat} (h : CursorEffect cfg t m m' s s')
    (hj : s.cursor cfg ≠ some j) : m'.history (.cursorValue j) = m.history (.cursorValue j) := by
  cases h with
  | quiet hhist => exact hhist _ rfl
  | claim i attach w front hpc hw hfree hf hm =>
    rw [hm, WeakMemory.history_add_of_ne (by simp)]
  | store k v time front hcur hcur' hv hf hm =>
    have hne : j ≠ k := by
      rintro rfl
      exact hj hcur
    rw [hm, WeakMemory.history_add_of_ne (by simpa using hne)]
  | release k time hcur hpc hs hf hm => rw [hm, WeakMemory.history_add_of_ne (by simp)]

theorem CursorEffect.word_history {j : Nat} (h : CursorEffect cfg t m m' s s')
    (hj : s.cursor cfg ≠ some j) (hj' : s'.cursor cfg ≠ some j) :
    m'.history (.cursorInUse j) = m.history (.cursorInUse j) := by
  cases h with
  | quiet hhist => exact hhist _ rfl
  | claim i attach w front hpc hw hfree hf hm hs =>
    have hne : j ≠ i := by
      rintro rfl
      exact hj' (by rw [hs]; rfl)
    rw [hm, WeakMemory.history_add_of_ne (by simpa using hne)]
  | store k v time front hcur hcur' hv hf hm =>
    rw [hm, WeakMemory.history_add_of_ne (by simp)]
  | release k time hcur hpc hs hf hm =>
    have hne : j ≠ k := by
      rintro rfl
      exact hj hcur
    rw [hm, WeakMemory.history_add_of_ne (by simpa using hne)]

end Session

namespace Backpressure

variable {ι : Type} {S : Setup ι} {o : Orders} {σ σ' : WeakSystem ι} {owner : Nat → Option (Thread ι)}
  {l : WeakLabel ι}

def Cell (i : Nat) (a : Loc) : Prop := a = .cursorValue i

structure Tenure (S : Setup ι) (σ : WeakSystem ι) (owner : Nat → Option (Thread ι)) : Prop where
  registered : ∀ c, (σ.consumer c).Registered S.cfg
  lease : ∀ i, σ.memory.Lease (.cursorInUse i) (Cell i) (owner i)
  holder : ∀ c i, (σ.consumer c).cursor S.cfg = some i ↔ owner i = some (.consumer c)

namespace Tenure

theorem not_cell (i j : Nat) : ¬ Cell i (.cursorInUse j) := fun h => by cases h

theorem initial (fresh : Loc → Nat) : Tenure S (S.weakInitial fresh) fun _ => none where
  registered _ := .initial
  lease i := .start _
  holder c i := ⟨fun h => (by cases h), fun h => (by cases h)⟩

theorem unique (h : Tenure S σ owner) {b c : ι} {i : Nat}
    (hb : (σ.consumer b).cursor S.cfg = some i) (hc : (σ.consumer c).cursor S.cfg = some i) :
    b = c := by
  have := ((h.holder b i).mp hb).symm.trans ((h.holder c i).mp hc)
  simpa using this

theorem keep {m : WeakMemory (Thread ι) Loc Nat} {i : Nat}
    (h : σ.memory.Lease (.cursorInUse i) (Cell i) (owner i))
    (hword : m.history (.cursorInUse i) = σ.memory.history (.cursorInUse i))
    (hvalue : m.history (.cursorValue i) = σ.memory.history (.cursorValue i))
    (hgrow : ∀ t, (σ.memory.fronts t).Grows (m.fronts t)) :
    m.Lease (.cursorInUse i) (Cell i) (owner i) :=
  h.congr hword (fun g hg => by rw [show g = _ from hg, hvalue]) hgrow

theorem quiet (h : Tenure S σ owner) {consumer : ι → Session} {p : Producer}
    {m : WeakMemory (Thread ι) Loc Nat} (hreg : ∀ c, (consumer c).Registered S.cfg)
    (hcur : ∀ c, (consumer c).cursor S.cfg = (σ.consumer c).cursor S.cfg)
    (hhist : ∀ a, a.ofCursor = true → m.history a = σ.memory.history a)
    (hgrow : ∀ t, (σ.memory.fronts t).Grows (m.fronts t)) : Tenure S ⟨m, p, consumer⟩ owner where
  registered := hreg
  lease i := keep (h.lease i) (hhist _ rfl) (hhist _ rfl) hgrow
  holder c i := by
    dsimp only
    rw [hcur]
    exact h.holder c i

variable [DecidableEq ι] {cfg : RingConfig} {consumer : ι → Session} {c : ι} {s : Session} {i : Nat}

theorem holder_claim
    (h : ∀ b j, (consumer b).cursor cfg = some j ↔ owner j = some (.consumer b))
    (hc : (consumer c).cursor cfg = none) (hs : s.cursor cfg = some i) (hi : owner i = none)
    (b : ι) (j : Nat) : (update consumer c s b).cursor cfg = some j ↔
      update owner i (some (.consumer c)) j = some (.consumer b) := by
  have hold := h b j
  rcases eq_or_ne b c with rfl | hbc
  · rw [update_self, hs]
    by_cases hji : j = i
    · simp [hji]
    · simpa [hji, Ne.symm hji, hc] using hold
  · rw [update_of_ne hbc, hold]
    by_cases hji : j = i
    · simp [hji, hi, Ne.symm hbc]
    · rw [update_of_ne hji]

theorem holder_release
    (h : ∀ b j, (consumer b).cursor cfg = some j ↔ owner j = some (.consumer b))
    (hc : (consumer c).cursor cfg = some i) (hs : s.cursor cfg = none) (b : ι) (j : Nat) :
    (update consumer c s b).cursor cfg = some j ↔
      update owner i none j = some (.consumer b) := by
  have hold := h b j
  have hown := (h c i).mp hc
  rcases eq_or_ne b c with rfl | hbc
  · rw [update_self, hs]
    by_cases hji : j = i
    · simp [hji]
    · simpa [hji, Ne.symm hji, hc] using hold
  · rw [update_of_ne hbc, hold]
    by_cases hji : j = i
    · simp [hji, hown, Ne.symm hbc]
    · rw [update_of_ne hji]

theorem consumer_step (h : Tenure S σ owner) {i : Instr Loc Nat Session}
    {m : WeakMemory (Thread ι) Loc Nat} (hi : (σ.consumer c).code S.cfg = some i)
    (hx : σ.memory.Effect ((σ.consumer c).pc.access o) (.consumer c) i s m) :
    ∃ owner', Tenure S { σ with consumer := update σ.consumer c s, memory := m } owner' := by
  obtain ⟨hstep, hreg⟩ := Session.cursorEffect_of_effect (h.registered c) hi hx
  have hregs : ∀ b, (update σ.consumer c s b).Registered S.cfg :=
    (forall_update_iff σ.consumer fun _ s => s.Registered S.cfg).mpr
      ⟨hreg, fun b _ => h.registered b⟩
  have hgrow := hx.grows_all
  have hsame (hcur : s.cursor S.cfg = (σ.consumer c).cursor S.cfg) :
      ∀ b, (update σ.consumer c s b).cursor S.cfg = (σ.consumer b).cursor S.cfg :=
    (forall_update_iff σ.consumer fun b s => s.cursor S.cfg = (σ.consumer b).cursor S.cfg).mpr
      ⟨hcur, fun _ _ => rfl⟩
  cases hstep with
  | quiet hhist hcur => exact ⟨owner, h.quiet hregs (hsame hcur) hhist hgrow⟩
  | claim i attach w front hpc hw hfree hf hm hs =>
    subst hm hs
    have hnone := ((h.lease i).vacant hw hfree hf.2).1
    have hcur : (σ.consumer c).cursor S.cfg = none := by
      rw [Session.cursor, hpc]
      rfl
    refine ⟨update owner i (some (.consumer c)), hregs, fun j => ?_, fun b j => ?_⟩
    · rcases eq_or_ne j i with rfl | hji
      · rw [update_self]
        exact (h.lease j).claim (not_cell _ _) hw hfree rfl one_ne_zero hf
      · rw [update_of_ne hji]
        exact keep (h.lease j) (WeakMemory.history_add_of_ne (by simpa using hji))
          (WeakMemory.history_add_of_ne (by simp)) hgrow
    · exact holder_claim h.holder hcur rfl hnone b j
  | store j v time front hcur hcur' hv hf hm =>
    subst hm
    refine ⟨owner, hregs, fun k => ?_, fun b k => ?_⟩
    · rcases eq_or_ne k j with rfl | hkj
      · have hlease := h.lease k
        rw [(h.holder c k).mp hcur] at hlease ⊢
        exact hlease.write (not_cell _ _) rfl hf
      · exact keep (h.lease k) (WeakMemory.history_add_of_ne (by simp))
          (WeakMemory.history_add_of_ne (by simpa using hkj)) hgrow
    · dsimp only
      rw [hsame (hcur'.trans hcur.symm)]
      exact h.holder b k
  | release j time hcur hpc hs hf hm =>
    subst hm hs
    have hown := (h.holder c j).mp hcur
    refine ⟨update owner j none, hregs, fun k => ?_, fun b k => ?_⟩
    · rcases eq_or_ne k j with rfl | hkj
      · have hlease := h.lease k
        rw [hown] at hlease
        rw [update_self]
        exact hlease.release (not_cell _ _) hf rfl
      · rw [update_of_ne hkj]
        exact keep (h.lease k) (WeakMemory.history_add_of_ne (by simpa using hkj))
          (WeakMemory.history_add_of_ne (by simp)) hgrow
    · exact holder_release h.holder hcur rfl b k

theorem step (hbp : S.cfg.overflow = .backpressure) (h : Tenure S σ owner)
    (hs : S.weakStep o l σ = some σ') : ∃ owner', Tenure S σ' owner' := by
  cases Setup.weak_cases hs with
  | producer hx =>
    refine ⟨owner, h.quiet h.registered (fun _ => rfl) (fun a ha => ?_) hx.grows_all⟩
    refine hx.history_of_ne fun hw => ?_
    rw [Loc.ofCursor_of_ofProducer (Producer.code_writes hw)] at ha
    cases ha
  | @call _ c k s hclient hcall =>
    obtain ⟨hk, rfl⟩ := Session.call_eq_some.mp hcall
    refine ⟨owner, h.quiet ?_ ?_ (fun _ _ => rfl) fun _ => .refl⟩
    · exact (forall_update_iff σ.consumer fun _ s => s.Registered S.cfg).mpr
        ⟨(h.registered c).enter hk, fun b _ => h.registered b⟩
    · exact (forall_update_iff σ.consumer fun b s =>
        s.cursor S.cfg = (σ.consumer b).cursor S.cfg).mpr
          ⟨Session.cursor_enter hbp (h.registered c) hk, fun _ _ => rfl⟩
  | consumer hi hx => exact h.consumer_step hi hx

end Tenure

end Backpressure

end Shimmy
