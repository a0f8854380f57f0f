import Shimmy.Ring.Session

namespace Shimmy

open Concurrency Function

variable {ι : Type} {S : Setup ι} {σ σ' : System ι} {c : ι}

namespace Setup

def Asleep (σ : System ι) (c : ι) : Prop := σ.memory.parked (.consumer c) ≠ none

def Bedded (σ : System ι) (c : ι) : Prop :=
  Asleep σ c → ∃ iter, (σ.consumer c).pc = .waitAsleep iter

def stampKey (S : Setup ι) (t : Thread ι) (seq : Nat) : Nat × Nat :=
  S.key t (.slotSeq (S.cfg.slot seq))

inductive Dozes (S : Setup ι) (c : ι) (l : Label ι) (σ σ' : System ι) : Prop
  | awake (h : σ'.memory.parked (.consumer c) = none)
  | still (h : σ'.memory.parked (.consumer c) = σ.memory.parked (.consumer c))
      (hs : σ'.consumer c = σ.consumer c)
      (hwake : ∀ seq, l = .producer → σ.producer.pc = .wake seq →
        σ.memory.parked (.consumer c) ≠ some (S.stampKey .producer seq))
  | falls {iter cmp : Nat} (hl : l = .consumer c)
      (hpc : (σ.consumer c).pc = .waitSyscall iter cmp)
      (hcmp : σ.memory.cells (.slotSeq (S.cfg.slot (σ.consumer c).obj.next)) % 2 ^ 32 = cmp)
      (hs : σ'.consumer c = { σ.consumer c with pc := .waitAsleep iter })
      (hp : σ'.producer = σ.producer) (hcells : σ'.memory.cells = σ.memory.cells)
      (h : σ'.memory.parked (.consumer c) =
        some (S.stampKey (.consumer c) (σ.consumer c).obj.next))

end Setup

theorem Session.code_wakes {cfg : RingConfig} {s : Session} {i : Instr Loc Nat Session}
    (h : s.code cfg = some i) : i.wakes = none := by
  unfold Session.code at h
  split at h <;> cases h <;> rfl

theorem Session.code_futexWait {cfg : RingConfig} {s p q : Session} {a : Loc} {same : Nat → Bool}
    (h : s.code cfg = some (.futexWait a same p q)) :
    ∃ iter cmp, s.pc = .waitSyscall iter cmp ∧ a = .slotSeq (cfg.slot s.obj.next) ∧
      (∀ word, same word = true ↔ word % 2 ^ 32 = cmp) ∧ p = { s with pc := .waitAsleep iter } := by
  unfold Session.code at h
  split at h <;> cases h
  exact ⟨_, _, ‹_›, rfl, fun word => by simp, rfl⟩

theorem Producer.code_futexWait {cfg : RingConfig} {stream : Nat → Message cfg.blockSize}
    {p : Producer} {a : Loc} {same : Nat → Bool} {q r : Producer} :
    p.code cfg stream ≠ .futexWait a same q r := by
  unfold Producer.code
  split <;> simp

theorem Producer.code_futexWake {cfg : RingConfig} {stream : Nat → Message cfg.blockSize}
    {p q : Producer} {a : Loc} (h : p.code cfg stream = .futexWake a q) :
    ∃ seq, p.pc = .wake seq ∧ a = .slotSeq (cfg.slot seq) := by
  unfold Producer.code at h
  split at h <;> cases h
  exact ⟨_, ‹_›, rfl⟩

namespace Setup

variable {l : Label ι}

theorem Dozes.bedded (h : Bedded σ c) (hd : Dozes S c l σ σ') : Bedded σ' c := by
  intro hasleep
  cases hd with
  | awake hn => exact absurd hn hasleep
  | still hk hs hwake =>
    rw [hs]
    exact h (by rwa [Asleep, ← hk])
  | falls hl hpc hcmp hs => exact ⟨_, by rw [hs]⟩

variable [DecidableEq ι]

theorem Bedded.dozes (h : Bedded σ c) (hs : S.step l σ = some σ') : Dozes S c l σ σ' := by
  have hnone (hpc : ∀ iter, (σ.consumer c).pc ≠ .waitAsleep iter) :
      σ.memory.parked (.consumer c) = none := by
    by_contra hne
    obtain ⟨iter, hiter⟩ := h hne
    exact hpc iter hiter
  cases step_iff.mp hs with
  | @producer _ p m hx =>
    generalize hi : σ.producer.code S.cfg S.stream = i at hx
    cases Memory.exec_parks hx with
    | kept hw hk =>
      refine .still (by rw [hk]) rfl fun seq _ hpc => ?_
      simp [Producer.code, hpc] at hi
      rw [← hi] at hw
      cases hw
    | waited hsame hm => exact absurd hi Producer.code_futexWait
    | @woke a hm =>
      obtain ⟨seq, hpc, rfl⟩ := Producer.code_futexWake hi
      by_cases hk : σ.memory.parked (.consumer c) = some (S.stampKey .producer seq)
      · exact .awake (by rw [hm]; exact if_pos hk)
      · refine .still (by rw [hm]; exact if_neg hk) rfl fun q _ hq => ?_
        obtain rfl : seq = q := by simpa [hpc] using hq
        exact hk
  | @call _ b k s hc hx =>
    rcases eq_or_ne c b with rfl | hcb
    · refine .awake (hnone fun iter hpc => ?_)
      obtain ⟨hk, -⟩ := Session.call_eq_some.mp hx
      cases k <;> simp [Session.enabled, hpc] at hk
    · exact .still rfl (update_of_ne hcb _ _) fun seq hl => (by cases hl)
  | @consumer _ b i s m hi hx =>
    have hparks := Memory.exec_parks hx
    rcases eq_or_ne c b with rfl | hcb
    · cases hparks with
      | kept hw hk =>
        refine .awake ?_
        rw [hk]
        by_contra hne
        obtain ⟨iter, hpc⟩ := h hne
        simp only [Session.code, hpc, Option.some.injEq] at hi
        subst hi
        simp only [Memory.exec] at hx
        split at hx
        · exact hne ‹_›
        · cases hx
      | waited hsame hm =>
        obtain ⟨iter, cmp, hpc, rfl, hword, rfl⟩ := Session.code_futexWait hi
        refine .falls rfl hpc ((hword _).mp hsame) (update_self _ _ _) rfl (by rw [hm]; rfl) ?_
        rw [hm]
        exact update_self _ _ _
      | woke hm => exact absurd (Session.code_wakes hi) (by simp [Instr.wakes])
    · refine .still ?_ (update_of_ne hcb _ _) fun seq hl => (by cases hl)
      cases hparks with
      | kept hw hk => rw [hk]
      | waited hsame hm =>
        rw [hm]
        exact update_of_ne (by simpa using hcb) _ _
      | woke hm => exact absurd (Session.code_wakes hi) (by simp [Instr.wakes])
  | drain hb => exact .still rfl rfl fun seq hl => (by cases hl)

end Setup

end Shimmy
