import Shimmy.Concurrency.Weak

namespace Concurrency

open Function

namespace WeakMemory

variable {Tid Loc Val State : Type} {m m' : WeakMemory Tid Loc Val} {v : Fronts Loc}
  {f f' : Frontier Loc} {a b : Loc} {P Q : Val → Prop} {w : Write Loc Val} {time : Nat}

def Sees (m : WeakMemory Tid Loc Val) (f : Frontier Loc) (a : Loc) (P : Val → Prop) : Prop :=
  ∀ w ∈ m.history a, f a ≤ w.time → P w.val

def Covers (m : WeakMemory Tid Loc Val) (f : Frontier Loc) (a : Loc) : Prop :=
  ∀ w ∈ m.history a, w.time ≤ f a

theorem Sees.imp (h : m.Sees f a P) (hPQ : ∀ x, P x → Q x) : m.Sees f a Q :=
  fun w hw ht => hPQ _ (h w hw ht)

theorem Sees.mono (h : m.Sees f a P) (hm : ∀ w ∈ m'.history a, w ∈ m.history a ∨ P w.val)
    (hf : f a ≤ f' a) : m'.Sees f' a P := fun w hw ht =>
  (hm w hw).elim (fun hold => h w hold (hf.trans ht)) id

theorem Sees.congr (h : m.Sees f a P) (hm : m'.history a = m.history a) (hf : f a ≤ f' a) :
    m'.Sees f' a P :=
  h.mono (fun _ hw => .inl (hm ▸ hw)) hf

theorem Covers.congr (h : m.Covers f a) (hm : m'.history a = m.history a) (hf : f a ≤ f' a) :
    m'.Covers f' a :=
  fun w hw => (h w (hm ▸ hw)).trans hf

theorem Sees.start (cells : Loc → Val) (h : P (cells a)) :
    (start cells : WeakMemory Tid Loc Val).Sees f a P := fun w hw _ => by
  obtain rfl := List.mem_singleton.mp hw
  exact h

theorem Covers.start (cells : Loc → Val) : (start cells : WeakMemory Tid Loc Val).Covers f a :=
  fun w hw => by
    obtain rfl := List.mem_singleton.mp hw
    exact Nat.zero_le _

variable [DecidableEq Tid] {t u : Tid}

variable [DecidableEq Loc] {acc : Access} {i : Instr Loc Val State} {s : State}

theorem history_add_self : (m.add t v a w).history a = w :: m.history a := update_self _ _ _

theorem history_add_of_ne (h : b ≠ a) : (m.add t v a w).history b = m.history b :=
  update_of_ne h _ _

theorem Effect.leadsFrom [Inhabited Val] (h : Effect m acc t i s m') :
    ∃ value, i.LeadsFrom value s ∧ ∀ a next, i = .load a next →
      ∃ w ∈ m.history a, (m.fronts t).current a ≤ w.time ∧ w.val = value a := by
  have hleads := h.leads
  cases i with
  | load a next =>
    obtain ⟨w, hw, ht, rfl, -⟩ := h.load
    refine ⟨fun _ => w.val, rfl, ?_⟩
    rintro b next' ⟨rfl⟩
    exact ⟨w, hw, ((Fronts.grows_fenceAcquire _).current _).trans ht, rfl⟩
  | _ => exact ⟨fun _ => default, hleads, by simp⟩

theorem Covers.add (h : m.Covers f a) (hf : f a < w.time) (ht : f' a = w.time) :
    (m.add t v a w).Covers f' a := fun e he => by
  rw [history_add_self] at he
  rcases List.mem_cons.mp he with rfl | he
  · exact ht.ge
  · have := h e he
    omega

theorem Covers.sees_add (h : m.Covers f a) (hf : f a < w.time) (ht : f' a = w.time)
    (hP : P w.val) : (m.add t v a w).Sees f' a P := fun e he hle => by
  rw [history_add_self] at he
  rcases List.mem_cons.mp he with rfl | he
  · exact hP
  · have := h e he
    omega

end WeakMemory

end Concurrency
