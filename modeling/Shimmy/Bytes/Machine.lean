import Mathlib.Data.Option.Basic
import Shimmy.Bytes.Layout
import Shimmy.Concurrency.Memory

namespace Bytes

open Concurrency Function

variable {Tid Loc Key State : Type}

def Obeys (L : Layout Loc) (limit : Loc → Nat) (P : State → Prop) : Instr Loc Nat State → Prop
  | .load a next => L.valid a ∧ ∀ v < limit a, P (next v)
  | .store a v next => L.valid a ∧ v < limit a ∧ P next
  | .rmw a f next => L.valid a ∧ ∀ v < limit a, f v < limit a ∧ P (next v)
  | .futexWait a same parked skipped =>
      L.valid a ∧ 4 ≤ L.width a ∧ (∀ v, same v = same (v % 2 ^ 32)) ∧ P parked ∧ P skipped
  | .futexWake a next => L.valid a ∧ P next
  | .blocked next => P next

theorem Obeys.mono {L : Layout Loc} {limit : Loc → Nat} {P Q : State → Prop}
    {i : Instr Loc Nat State} (h : Obeys L limit P i) (hPQ : ∀ s, P s → Q s) :
    Obeys L limit Q i := by
  cases i with
  | load a next => exact ⟨h.1, fun v hv => hPQ _ (h.2 v hv)⟩
  | store a v next => exact ⟨h.1, h.2.1, hPQ _ h.2.2⟩
  | rmw a f next => exact ⟨h.1, fun v hv => ⟨(h.2 v hv).1, hPQ _ (h.2 v hv).2⟩⟩
  | futexWait a same parked skipped =>
    exact ⟨h.1, h.2.1, h.2.2.1, hPQ _ h.2.2.2.1, hPQ _ h.2.2.2.2⟩
  | futexWake a next => exact ⟨h.1, hPQ _ h.2⟩
  | blocked next => exact hPQ _ h

structure Sized (L : Layout Loc) (limit : Loc → Nat) (μ : Memory Tid Loc Nat Key) : Prop where
  cells : ∀ a, L.valid a → μ.cells a < limit a
  buffer : ∀ t, ∀ e ∈ μ.buffer t, L.valid e.1 ∧ e.2 < limit e.1

namespace Sized

variable {L : Layout Loc} {limit : Loc → Nat} {μ μ' : Memory Tid Loc Nat Key} {key : Loc → Key}
  {t : Tid} {a : Loc} {v : Nat}

theorem parked (h : Sized L limit μ) (parked : Tid → Option Key) :
    Sized L limit { μ with parked := parked } := ⟨h.cells, h.buffer⟩

theorem push [DecidableEq Tid] (h : Sized L limit μ) (ha : L.valid a) (hv : v < limit a) :
    Sized L limit (μ.push t a v) where
  cells := h.cells
  buffer u e he := by
    rcases eq_or_ne u t with rfl | hut
    · simp only [Memory.push, update_self, List.mem_append, List.mem_singleton] at he
      rcases he with he | rfl
      · exact h.buffer u e he
      · exact ⟨ha, hv⟩
    · simp only [Memory.push, update_of_ne hut] at he
      exact h.buffer u e he

variable [DecidableEq Loc]

theorem applyStores {es : List (Loc × Nat)} {cells : Loc → Nat}
    (hc : ∀ b, L.valid b → cells b < limit b)
    (he : ∀ e ∈ es, L.valid e.1 ∧ e.2 < limit e.1) (ha : L.valid a) :
    Concurrency.applyStores cells es a < limit a := by
  induction es generalizing cells with
  | nil => exact hc a ha
  | cons e es ih =>
    obtain ⟨hhead, hrest⟩ := List.forall_mem_cons.mp he
    refine ih (fun b hb => ?_) hrest
    by_cases hbe : b = e.1
    · rw [hbe, update_self]
      exact hhead.2
    · rw [update_of_ne hbe]
      exact hc b hb

theorem read (h : Sized L limit μ) (ha : L.valid a) : μ.read t a < limit a :=
  applyStores h.cells (h.buffer t) ha

theorem write (h : Sized L limit μ) (hv : v < limit a) : Sized L limit (μ.write a v) where
  cells b hb := by
    rcases eq_or_ne b a with rfl | hba
    · simpa [Memory.write] using hv
    · simpa [Memory.write, hba] using h.cells b hb
  buffer := h.buffer

variable [DecidableEq Tid]

theorem land (h : Sized L limit μ) {e : Loc × Nat} {es : List (Loc × Nat)}
    (hb : μ.buffer t = e :: es) : Sized L limit (μ.land t e es) where
  cells b hval := by
    by_cases hbe : b = e.1
    · subst hbe
      simpa [Memory.land] using (h.buffer t e (hb ▸ List.mem_cons_self)).2
    · simpa [Memory.land, hbe] using h.cells b hval
  buffer u f hf := by
    rcases eq_or_ne u t with rfl | hut
    · simp only [Memory.land, update_self] at hf
      exact h.buffer u f (hb ▸ List.mem_cons_of_mem _ hf)
    · simp only [Memory.land, update_of_ne hut] at hf
      exact h.buffer u f hf

variable [DecidableEq Key]

theorem exec {model : Model} {P : State → Prop} {i : Instr Loc Nat State} {s : State}
    (h : Sized L limit μ) (hi : Obeys L limit P i)
    (hx : μ.exec model key t i = some (s, μ')) : P s ∧ Sized L limit μ' := by
  cases i with
  | load a next =>
    cases hx
    exact ⟨hi.2 _ (h.read hi.1), h⟩
  | store a v next =>
    cases model <;> cases hx
    · exact ⟨hi.2.2, h.write hi.2.1⟩
    · exact ⟨hi.2.2, h.push hi.1 hi.2.1⟩
  | rmw a f next =>
    obtain ⟨-, rfl, rfl⟩ := Memory.exec_rmw hx
    obtain ⟨hf, hP⟩ := hi.2 _ (h.cells a hi.1)
    exact ⟨hP, h.write hf⟩
  | futexWait a same parked skipped =>
    simp only [Memory.exec] at hx
    split at hx <;> cases hx
    · exact ⟨hi.2.2.2.1, h.parked _⟩
    · exact ⟨hi.2.2.2.2, h⟩
  | futexWake a next =>
    cases hx
    exact ⟨hi.2, h.parked _⟩
  | blocked next =>
    simp only [Memory.exec] at hx
    split at hx <;> cases hx
    exact ⟨hi, h⟩

end Sized

structure ByteMemory (Tid Key : Type) where
  bytes : Nat → Nat
  parked : Tid → Option Key

namespace ByteMemory

variable [DecidableEq Tid] [DecidableEq Key]

def write (m : ByteMemory Tid Key) (L : Layout Loc) (a : Loc) (v : Nat) : ByteMemory Tid Key :=
  { m with bytes := L.put m.bytes a v }

def exec (L : Layout Loc) (key : Loc → Key) (t : Tid) (m : ByteMemory Tid Key) :
    Instr Loc Nat State → Option (State × ByteMemory Tid Key)
  | .load a next => some (next (L.view m.bytes a), m)
  | .store a v next => some (next, m.write L a v)
  | .rmw a f next => some (next (L.view m.bytes a), m.write L a (f (L.view m.bytes a)))
  | .futexWait a same parked skipped =>
      if same (load m.bytes (L.offset a) 4) then
        some (parked, { m with parked := update m.parked t (some (key a)) })
      else some (skipped, m)
  | .futexWake a next =>
      some (next, { m with
        parked := fun u => if m.parked u = some (key a) then none else m.parked u })
  | .blocked next => if m.parked t = none then some (next, m) else none

end ByteMemory

structure Renders (L : Layout Loc) (μ : Memory Tid Loc Nat Key) (m : ByteMemory Tid Key) :
    Prop where
  buffer : ∀ t, μ.buffer t = []
  cells : ∀ a, L.valid a → L.view m.bytes a = μ.cells a
  bytes : ∀ x, m.bytes x < 256
  parked : m.parked = μ.parked

namespace Renders

variable {L : Layout Loc} {limit : Loc → Nat} {μ : Memory Tid Loc Nat Key}
  {m : ByteMemory Tid Key} {a : Loc} {v : Nat}

theorem park (h : Renders L μ m) (parked : Tid → Option Key) :
    Renders L { μ with parked := parked } { m with parked := parked } :=
  ⟨h.buffer, h.cells, h.bytes, rfl⟩

variable [DecidableEq Loc]

theorem write (h : Renders L μ m) (ha : L.valid a) (hv : v < 256 ^ L.width a) :
    Renders L (μ.write a v) (m.write L a v) where
  buffer := h.buffer
  cells c hc := by
    rcases eq_or_ne c a with rfl | hca
    · have hput : L.view (L.put m.bytes c v) c = v := Layout.view_put_self hv
      simpa [Memory.write, ByteMemory.write] using hput
    · have hput : L.view (L.put m.bytes a v) c = L.view m.bytes c :=
        Layout.view_put_of_ne ha hc hca
      simpa [Memory.write, ByteMemory.write, hca] using hput.trans (h.cells c hc)
  bytes := store_lt h.bytes
  parked := h.parked

variable [DecidableEq Tid] [DecidableEq Key]

theorem exec {P : State → Prop} {i : Instr Loc Nat State} (h : Renders L μ m)
    (hs : Sized L limit μ) (hl : ∀ a, limit a ≤ 256 ^ L.width a) (hi : Obeys L limit P i)
    (key : Loc → Key) (t : Tid) :
    Option.Rel (fun x y => x.1 = y.1 ∧ Renders L x.2 y.2 ∧
        ∀ b, L.Outside b → y.2.bytes b = m.bytes b)
      (μ.exec .sc key t i) (m.exec L key t i) := by
  cases i with
  | load a next =>
    have hread : μ.read t a = L.view m.bytes a := by
      rw [Memory.read, h.buffer]
      exact (h.cells a hi.1).symm
    exact .some ⟨congrArg next hread, h, fun _ _ => rfl⟩
  | store a v next =>
    exact .some ⟨rfl, h.write hi.1 (hi.2.1.trans_le (hl a)),
      fun b hb => Layout.put_of_outside hi.1 hb⟩
  | rmw a f next =>
    have hf := (hi.2 _ (hs.cells a hi.1)).1
    rw [Memory.exec_rmw_of_drained (h.buffer t), ByteMemory.exec, h.cells a hi.1]
    exact .some ⟨rfl, h.write hi.1 (hf.trans_le (hl a)),
      fun b hb => Layout.put_of_outside hi.1 hb⟩
  | futexWait a same parked skipped =>
    obtain ⟨ha, hwidth, hlow, -⟩ := hi
    have hword : same (Bytes.load m.bytes (L.offset a) 4) = same (μ.cells a) := by
      rw [load_of_le h.bytes hwidth, hlow (μ.cells a), ← h.cells a ha]
      rfl
    simp only [Memory.exec, ByteMemory.exec, hword]
    split
    · rw [h.parked]
      exact .some ⟨rfl, h.park _, fun _ _ => rfl⟩
    · exact .some ⟨rfl, h, fun _ _ => rfl⟩
  | futexWake a next =>
    simp only [Memory.exec, ByteMemory.exec, h.parked]
    exact .some ⟨rfl, h.park _, fun _ _ => rfl⟩
  | blocked next =>
    simp only [Memory.exec, ByteMemory.exec, h.parked]
    split
    · exact .some ⟨rfl, h, fun _ _ => rfl⟩
    · exact .none

end Renders

end Bytes
