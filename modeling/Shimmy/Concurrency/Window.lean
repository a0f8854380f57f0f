import Mathlib.Data.Nat.Count
import Mathlib.Data.Nat.ModEq

namespace Concurrency

theorem eq_of_mod_eq_of_close {cap p q : Nat} (hm : p % cap = q % cap) (hpq : p < q + cap)
    (hqp : q < p + cap) : p = q := by
  rcases Nat.le_total p q with h | h
  · have hd : (q - p) % cap = 0 := Nat.sub_mod_eq_zero_of_mod_eq hm.symm
    rw [Nat.mod_eq_of_lt (by omega)] at hd
    omega
  · have hd : (p - q) % cap = 0 := Nat.sub_mod_eq_zero_of_mod_eq hm
    rw [Nat.mod_eq_of_lt (by omega)] at hd
    omega

theorem add_le_of_mod_eq_of_lt {cap p q : Nat} (hm : p % cap = q % cap) (h : p < q) :
    p + cap ≤ q := by
  by_contra hlt
  have := eq_of_mod_eq_of_close hm (by omega) (by omega)
  omega

def lastBefore (cap n i : Nat) : Option Nat :=
  if i < n then some (n - 1 - (n - 1 - i) % cap) else none

theorem lastBefore_eq_none {cap n i : Nat} : lastBefore cap n i = none ↔ n ≤ i := by
  simp [lastBefore]

theorem lastBefore_eq_some {cap n i q : Nat} (hi : i < cap) :
    lastBefore cap n i = some q ↔ q < n ∧ n ≤ q + cap ∧ q % cap = i := by
  have hcap : 0 < cap := by omega
  have hspec : i < n → (n - 1 - (n - 1 - i) % cap) % cap = i ∧
      n ≤ n - 1 - (n - 1 - i) % cap + cap ∧ n - 1 - (n - 1 - i) % cap < n := by
    intro h
    have hr := Nat.mod_lt (n - 1 - i) hcap
    have hle := Nat.mod_le (n - 1 - i) cap
    have hdiv := Nat.div_add_mod (n - 1 - i) cap
    have hq : n - 1 - (n - 1 - i) % cap = i + cap * ((n - 1 - i) / cap) := by omega
    refine ⟨?_, by omega, by omega⟩
    rw [hq, Nat.add_mul_mod_self_left, Nat.mod_eq_of_lt hi]
  constructor
  · intro h
    simp only [lastBefore] at h
    split at h
    · rename_i hn
      obtain ⟨h1, h2, h3⟩ := hspec hn
      cases h
      exact ⟨h3, h2, h1⟩
    · cases h
  · rintro ⟨hq, hn, hmod⟩
    have hin : i < n := by
      have := Nat.mod_le q cap
      omega
    obtain ⟨h1, h2, h3⟩ := hspec hin
    simp only [lastBefore, if_pos hin, Option.some.injEq]
    exact eq_of_mod_eq_of_close (h1.trans hmod.symm) (by omega) (by omega)

theorem lastBefore_succ_of_mod {cap n i : Nat} (hi : i < cap) (h : n % cap = i) :
    lastBefore cap (n + 1) i = some n :=
  (lastBefore_eq_some hi).mpr ⟨by omega, by omega, h⟩

theorem lastBefore_succ_of_ne {cap n i : Nat} (hi : i < cap) (h : n % cap ≠ i) :
    lastBefore cap (n + 1) i = lastBefore cap n i := by
  cases hq : lastBefore cap n i with
  | none =>
    rw [lastBefore_eq_none] at hq ⊢
    rcases Nat.lt_or_ge i (n + 1) with hlt | hge
    · have : n = i := by omega
      exact absurd (by rw [this, Nat.mod_eq_of_lt hi]) h
    · exact hge
  | some q =>
    obtain ⟨h1, h2, h3⟩ := (lastBefore_eq_some hi).mp hq
    refine (lastBefore_eq_some hi).mpr ⟨by omega, ?_, h3⟩
    rcases Nat.lt_or_ge n (q + cap) with hlt | hge
    · omega
    · have : n = q + cap := by omega
      exact absurd (by rw [this, Nat.add_mod_right, h3]) h

def rewrites (cap i n n' : Nat) : Nat := Nat.count (fun j => (n + j) % cap = i) (n' - n)

theorem rewrites_self (cap i n : Nat) : rewrites cap i n n = 0 := by
  unfold rewrites
  rw [Nat.sub_self, Nat.count_zero]

theorem rewrites_succ {cap i n n' : Nat} (h : n ≤ n') :
    rewrites cap i n (n' + 1) = rewrites cap i n n' + if n' % cap = i then 1 else 0 := by
  unfold rewrites
  rw [Nat.succ_sub h, Nat.count_succ, Nat.add_sub_cancel' h]

theorem lastBefore_rewrites {cap n n' i q : Nat} (hi : i < cap) (h : n ≤ n')
    (hq : lastBefore cap n i = some q) :
    lastBefore cap n' i = some (q + rewrites cap i n n' * cap) := by
  induction n', h using Nat.le_induction with
  | base => rw [rewrites_self, Nat.zero_mul, Nat.add_zero, hq]
  | succ n' hn ih =>
    rw [rewrites_succ hn]
    split
    · rename_i hmod
      obtain ⟨hlt, hle, hlast⟩ := (lastBefore_eq_some hi).mp ih
      have hnext := add_le_of_mod_eq_of_lt (hlast.trans hmod.symm) hlt
      rw [lastBefore_succ_of_mod hi hmod, Nat.add_mul, Nat.one_mul, ← Nat.add_assoc]
      exact congrArg some (Nat.le_antisymm hle hnext)
    · rename_i hmod
      rw [lastBefore_succ_of_ne hi hmod, ih, Nat.add_zero]

end Concurrency
