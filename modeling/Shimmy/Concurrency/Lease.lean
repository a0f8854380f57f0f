import Shimmy.Concurrency.Knowledge

namespace Concurrency

open Function

namespace WeakMemory

variable {Tid Loc : Type} {m m' : WeakMemory Tid Loc Nat} {a g : Loc} {G : Loc → Prop}
  {owner : Option Tid} {t : Tid} {w : Write Loc Nat} {x time : Nat} {order : MemoryOrder}
  {front : Frontier Loc}

-- the word a guards the words G: zero means free, and a compare-and-swap takes it
structure Lease (m : WeakMemory Tid Loc Nat) (a : Loc) (G : Loc → Prop) (owner : Option Tid) :
    Prop where
  free : ∀ w ∈ m.history a, w.val = 0 → (∃ e ∈ m.history a, e.time = w.time + 1) ∨
    owner = none ∧ (∀ e ∈ m.history a, e.time ≤ w.time) ∧ ∀ g, G g → m.Covers w.front g
  word : ∀ t, owner = some t →
    m.Covers (m.fronts t).current a ∧ m.Sees (m.fronts t).current a (· ≠ 0)
  guarded : ∀ t, owner = some t → ∀ g, G g → m.Covers (m.fronts t).current g

namespace Lease

theorem start (cells : Loc → Nat) :
    Lease (start cells : WeakMemory Tid Loc Nat) a G none where
  free w hw _ := by
    obtain rfl := List.mem_singleton.mp hw
    refine .inr ⟨rfl, fun e he => ?_, fun g _ => .start cells⟩
    obtain rfl := List.mem_singleton.mp he
    exact le_rfl
  word t h := by cases h
  guarded t h := by cases h

theorem congr (h : Lease m a G owner) (ha : m'.history a = m.history a)
    (hg : ∀ g, G g → m'.history g = m.history g) (hgrow : ∀ t, (m.fronts t).Grows (m'.fronts t)) :
    Lease m' a G owner where
  free w hw hval := by
    rw [ha] at hw ⊢
    exact (h.free w hw hval).imp id fun ⟨hnone, htop, hcover⟩ =>
      ⟨hnone, htop, fun g hG => (hcover g hG).congr (hg g hG) le_rfl⟩
  word t ht := ⟨(h.word t ht).1.congr ha ((hgrow t).current a),
    (h.word t ht).2.congr ha ((hgrow t).current a)⟩
  guarded t ht g hG := (h.guarded t ht g hG).congr (hg g hG) ((hgrow t).current g)

theorem vacant (h : Lease m a G owner) (hw : w ∈ m.history a) (hval : w.val = 0)
    (hnext : ∀ e ∈ m.history a, e.time ≠ w.time + 1) :
    owner = none ∧ (∀ e ∈ m.history a, e.time ≤ w.time) ∧ ∀ g, G g → m.Covers w.front g :=
  (h.free w hw hval).resolve_left fun ⟨e, he, ht⟩ => hnext e he ht

variable [DecidableEq Tid] [DecidableEq Loc]

theorem claim (h : Lease m a G owner) (hG : ¬ G a) (hw : w ∈ m.history a) (hval : w.val = 0)
    (hacq : order.acquires = true) (hx : x ≠ 0)
    (hf : m.Fresh ((m.fronts t).read order a w) a (w.time + 1)) :
    Lease (m.add t (((m.fronts t).read order a w).write a (w.time + 1)) a
      ⟨w.time + 1, x, front⟩) a G (some t) := by
  obtain ⟨-, htop, hcover⟩ := h.vacant hw hval hf.2
  have hcur := Fronts.current_write_self hf.1
  refine ⟨fun e he hzero => ?_, ?_, ?_⟩
  · rw [history_add_self] at he ⊢
    rcases List.mem_cons.mp he with rfl | he
    · exact absurd hzero hx
    · left
      rcases h.free e he hzero with ⟨e', he', ht⟩ | ⟨-, htop', -⟩
      · exact ⟨e', List.mem_cons_of_mem _ he', ht⟩
      · have hsame : e.time = w.time := le_antisymm (htop e he) (htop' w hw)
        exact ⟨_, List.mem_cons_self, by rw [hsame]⟩
  · rintro u ⟨rfl⟩
    have hall : m.Covers ((m.fronts t).read order a w).current a := fun e he => by
      have hread : w.time ≤ ((m.fronts t).read order a w).current a := by
        simp only [Fronts.read, Pi.sup_apply, Pi.single_eq_same]
        omega
      exact (htop e he).trans hread
    rw [fronts_add]
    exact ⟨hall.add hf.1 hcur, hall.sees_add hf.1 hcur hx⟩
  · rintro u ⟨rfl⟩ g hg
    have hne : g ≠ a := fun heq => hG (heq ▸ hg)
    rw [fronts_add]
    refine (hcover g hg).congr (history_add_of_ne hne) ?_
    rw [Fronts.current_write_of_ne _ hne]
    exact Fronts.front_le_current hacq w g

theorem write (h : Lease m a G (some t)) (hG : ¬ G a) (hg : G g)
    (hf : m.Fresh (m.fronts t) g time) :
    Lease (m.add t ((m.fronts t).write g time) g ⟨time, x, front⟩) a G (some t) := by
  have hgrow := Fronts.grows_write (v := m.fronts t) (a := g) time
  have hne : a ≠ g := fun heq => hG (heq ▸ hg)
  refine ⟨fun e he hzero => ?_, ?_, ?_⟩
  · rw [history_add_of_ne hne] at he ⊢
    exact (h.free e he hzero).imp id fun ⟨hnone, _⟩ => by cases hnone
  · rintro u ⟨rfl⟩
    obtain ⟨hword, hsees⟩ := h.word t rfl
    rw [fronts_add]
    exact ⟨hword.congr (history_add_of_ne hne) (hgrow.current a),
      hsees.congr (history_add_of_ne hne) (hgrow.current a)⟩
  · rintro u ⟨rfl⟩ b hb
    rw [fronts_add]
    rcases eq_or_ne b g with rfl | hbg
    · exact (h.guarded t rfl b hb).add hf.1 (Fronts.current_write_self hf.1)
    · exact (h.guarded t rfl b hb).congr (history_add_of_ne hbg) (hgrow.current b)

theorem release (h : Lease m a G (some t)) (hG : ¬ G a) (hf : m.Fresh (m.fronts t) a time)
    (hrel : order.releases = true) :
    Lease (m.add t ((m.fronts t).write a time) a ⟨time, x, (m.fronts t).front order a time⟩) a G
      none := by
  obtain ⟨hword, -⟩ := h.word t rfl
  refine ⟨fun e he hzero => ?_, fun _ hu => (by cases hu), fun _ hu => (by cases hu)⟩
  rw [history_add_self] at he ⊢
  rcases List.mem_cons.mp he with rfl | he
  · refine .inr ⟨rfl, fun e he => ?_, fun g hg => ?_⟩
    · rcases List.mem_cons.mp he with rfl | he
      · exact le_rfl
      · exact (hword e he).trans hf.1.le
    · have hne : g ≠ a := fun heq => hG (heq ▸ hg)
      refine (h.guarded t rfl g hg).congr (history_add_of_ne hne) ?_
      simp [Fronts.front, hrel, hne]
  · left
    obtain ⟨e', he', ht⟩ := (h.free e he hzero).resolve_right fun ⟨hnone, _⟩ => by cases hnone
    exact ⟨e', List.mem_cons_of_mem _ he', ht⟩

end Lease

end WeakMemory

end Concurrency
