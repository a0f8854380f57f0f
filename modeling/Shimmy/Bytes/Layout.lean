import Mathlib.Logic.Function.Basic
import Mathlib.Tactic.Ring

namespace Bytes

open Function

def load (mem : Nat → Nat) : Nat → Nat → Nat
  | _, 0 => 0
  | addr, n + 1 => mem addr + 256 * load mem (addr + 1) n

def store (mem : Nat → Nat) : Nat → Nat → Nat → Nat → Nat
  | _, 0, _ => mem
  | addr, n + 1, v => update (store mem (addr + 1) n (v / 256)) addr (v % 256)

variable {mem : Nat → Nat} {addr b k n v : Nat}

theorem store_of_outside (h : b < addr ∨ addr + n ≤ b) : store mem addr n v b = mem b := by
  induction n generalizing addr v with
  | zero => rfl
  | succ n ih =>
    rw [store, update_of_ne (by omega)]
    exact ih (by omega)

theorem load_congr {mem' : Nat → Nat} (h : ∀ x, addr ≤ x → x < addr + n → mem' x = mem x) :
    load mem' addr n = load mem addr n := by
  induction n generalizing addr with
  | zero => rfl
  | succ n ih =>
    rw [load, load, h addr le_rfl (by omega), ih fun x h1 h2 => h x (by omega) (by omega)]

theorem load_store_of_apart (h : b + k ≤ addr ∨ addr + n ≤ b) :
    load (store mem addr n v) b k = load mem b k :=
  load_congr fun x h1 h2 => store_of_outside (by omega)

theorem load_store : load (store mem addr n v) addr n = v % 256 ^ n := by
  induction n generalizing addr v with
  | zero => rw [load, pow_zero, Nat.mod_one]
  | succ n ih =>
    have hrest : load (store mem addr (n + 1) v) (addr + 1) n = v / 256 % 256 ^ n := by
      rw [store, ← @ih (addr + 1)]
      exact load_congr fun x h1 h2 => update_of_ne (by omega) _ _
    rw [load, hrest, store, update_self, pow_succ', Nat.mod_mul]

theorem load_lt (h : ∀ x, mem x < 256) : load mem addr n < 256 ^ n := by
  induction n generalizing addr with
  | zero => exact Nat.one_pos
  | succ n ih =>
    have hhead := h addr
    have hrest := @ih (addr + 1)
    rw [load, pow_succ']
    omega

theorem load_of_le (h : ∀ x, mem x < 256) (hk : k ≤ n) :
    load mem addr k = load mem addr n % 256 ^ k := by
  induction k generalizing addr n with
  | zero => rw [load, pow_zero, Nat.mod_one]
  | succ k ih =>
    obtain ⟨n, rfl⟩ : ∃ m, n = m + 1 := ⟨n - 1, by omega⟩
    rw [load, load, ih (n := n) (by omega), pow_succ', Nat.mod_mul]
    have hhead := h addr
    have hmod : (mem addr + 256 * load mem (addr + 1) n) % 256 = mem addr := by omega
    have hdiv : (mem addr + 256 * load mem (addr + 1) n) / 256 = load mem (addr + 1) n := by omega
    rw [hmod, hdiv]

theorem store_lt (h : ∀ x, mem x < 256) (x : Nat) : store mem addr n v x < 256 := by
  induction n generalizing addr v with
  | zero => exact h x
  | succ n ih =>
    rw [store]
    by_cases hx : x = addr
    · rw [hx, update_self]
      exact Nat.mod_lt v (by decide)
    · rw [update_of_ne hx]
      exact ih

theorem eq_of_load_eq {mem' : Nat → Nat} (h : ∀ x, mem x < 256) (h' : ∀ x, mem' x < 256)
    (heq : load mem addr n = load mem' addr n) {x : Nat} (hx : addr ≤ x) (hxn : x < addr + n) :
    mem x = mem' x := by
  induction n generalizing addr with
  | zero => omega
  | succ n ih =>
    have hhead := h addr
    have hhead' := h' addr
    simp only [load] at heq
    rcases eq_or_ne x addr with rfl | hxa
    · omega
    · exact @ih (addr + 1) (by omega) (by omega) (by omega)

structure Layout (Loc : Type) where
  valid : Loc → Prop
  offset : Loc → Nat
  width : Loc → Nat
  apart : ∀ a b, valid a → valid b → a ≠ b →
    offset a + width a ≤ offset b ∨ offset b + width b ≤ offset a

namespace Layout

variable {Loc Loc' : Type} (L : Layout Loc)

def view (mem : Nat → Nat) (a : Loc) : Nat := load mem (L.offset a) (L.width a)

def put (mem : Nat → Nat) (a : Loc) (v : Nat) : Nat → Nat := store mem (L.offset a) (L.width a) v

def putAll (mem : Nat → Nat) (ws : List (Loc × Nat)) : Nat → Nat :=
  ws.foldl (fun mem w => L.put mem w.1 w.2) mem

def Outside (x : Nat) : Prop := ∀ a, L.valid a → x < L.offset a ∨ L.offset a + L.width a ≤ x

def comap (f : Loc' → Loc) (hf : Injective f) : Layout Loc' where
  valid a := L.valid (f a)
  offset a := L.offset (f a)
  width a := L.width (f a)
  apart a b ha hb hne := L.apart (f a) (f b) ha hb (hf.ne hne)

variable {L} {a c : Loc}

theorem view_put_self (hv : v < 256 ^ L.width a) : L.view (L.put mem a v) a = v :=
  load_store.trans (Nat.mod_eq_of_lt hv)

theorem view_put_of_ne (ha : L.valid a) (hc : L.valid c) (hne : c ≠ a) :
    L.view (L.put mem a v) c = L.view mem c :=
  load_store_of_apart (L.apart c a hc ha hne)

theorem put_of_outside {x : Nat} (ha : L.valid a) (hx : L.Outside x) : L.put mem a v x = mem x :=
  store_of_outside (hx a ha)

theorem putAll_lt {ws : List (Loc × Nat)} (h : ∀ x, mem x < 256) (x : Nat) :
    L.putAll mem ws x < 256 := by
  induction ws generalizing mem with
  | nil => exact h x
  | cons w ws ih => exact ih (store_lt h)

theorem putAll_of_outside {ws : List (Loc × Nat)} {x : Nat} (hw : ∀ w ∈ ws, L.valid w.1)
    (hx : L.Outside x) : L.putAll mem ws x = mem x := by
  induction ws generalizing mem with
  | nil => rfl
  | cons w ws ih =>
    obtain ⟨hhead, hrest⟩ := List.forall_mem_cons.mp hw
    exact (ih hrest).trans (put_of_outside hhead hx)

theorem view_putAll [DecidableEq Loc] {ws : List (Loc × Nat)} {cells : Loc → Nat}
    (hw : ∀ w ∈ ws, L.valid w.1 ∧ w.2 < 256 ^ L.width w.1)
    (hm : ∀ c, L.valid c → L.view mem c = cells c) (hc : L.valid c) :
    L.view (L.putAll mem ws) c =
      ws.foldl (fun cells w => update cells w.1 w.2) cells c := by
  induction ws generalizing mem cells with
  | nil => exact hm c hc
  | cons w ws ih =>
    obtain ⟨⟨hvalid, hfits⟩, hrest⟩ := List.forall_mem_cons.mp hw
    refine ih hrest fun b hb => ?_
    change L.view (L.put mem w.1 w.2) b = update cells w.1 w.2 b
    by_cases hbw : b = w.1
    · rw [hbw, update_self]
      exact view_put_self hfits
    · rw [update_of_ne hbw, ← hm b hb]
      exact view_put_of_ne hvalid hb hbw

end Layout

end Bytes
