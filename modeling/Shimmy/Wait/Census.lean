import Shimmy.Backpressure.Owner
import Shimmy.Wait.Sleep

namespace Shimmy

open Concurrency Function

def SessionPc.waiting : SessionPc → Bool
  | .waitReload _ => true
  | .waitSyscall _ _ => true
  | .waitAsleep _ => true
  | .waitLeave _ => true
  | _ => false

namespace Session

variable {cfg : RingConfig} {s s' : Session}

theorem waiting_cursorPc (o : Consumer) : (cursorPc cfg o).waiting = false := by
  unfold cursorPc
  split <;> rfl

theorem waiting_destructPc (o : Consumer) (last : Bool) :
    (destructPc cfg o last).waiting = false := by
  unfold destructPc
  split
  · rfl
  · cases last <;> rfl

theorem waiting_copyFromPc (n j : Nat) : (copyFromPc n j).waiting = false := by
  unfold copyFromPc
  split <;> rfl

theorem waiting_registered (i : Nat) (attach : Bool) :
    (s.registered i attach).pc.waiting = false := by
  cases attach <;> rfl

theorem waiting_afterDoRead (call : ReadCall) (stamp : Nat) :
    (s.afterDoRead cfg call stamp).pc.waiting = false := by
  unfold afterDoRead waitPc
  dsimp only
  split
  · rfl
  · rfl
  · dsimp only
    split <;> rfl
  · rfl

theorem waiting_enter (cfg : RingConfig) {k : Call} (hk : s.enabled k = true) :
    s.pc.waiting = false ∧ ((s.noteCall k).enter cfg k).pc.waiting = false := by
  have hpc := pc_of_enabled hk
  refine ⟨by rcases hpc with hpc | hpc <;> rw [hpc] <;> rfl, ?_⟩
  cases k with
  | construct =>
    simp only [enter, construct]
    split <;> rfl
  | attachAtCurrent =>
    simp only [enter, construct]
    split <;> rfl
  | commit => exact waiting_cursorPc _
  | seek seq => exact waiting_cursorPc _
  | resync p => exact waiting_cursorPc _
  | destroy => exact waiting_destructPc _ _
  | destroyMoved => exact waiting_destructPc _ _
  | move =>
    have hidle : s.pc = .idle := of_decide_eq_true hk
    simp only [enter, move, noteCall, hidle]
    rfl
  | _ => rfl

inductive Counts (s : Session) (i : Instr Loc Nat Session) : Prop
  | announces {iter : Nat} (hpc : s.pc = .waitAnnounce iter)
      (hi : i = .rmw .waiters (fun n => (n + 1) % 2 ^ 32)
        fun _ => { s with pc := .waitReload iter })
  | leaves {iter : Nat} (hpc : s.pc = .waitLeave iter)
      (hi : i = .rmw .waiters (fun n => (n + (2 ^ 32 - 1)) % 2 ^ 32)
        fun _ => { s with pc := .doRead (.readBlocking ((iter + 1) % 2 ^ 64)) })
  | keeps (hw : i.writes ≠ some .waiters)
      (h : ∀ s', i.Leads s' → s'.pc.waiting = s.pc.waiting)

theorem code_counts {i : Instr Loc Nat Session} (hi : s.code cfg = some i) : Counts s i := by
  unfold code at hi
  cases hp : s.pc with
  | unborn => rw [hp] at hi; cases hi
  | idle => rw [hp] at hi; cases hi
  | dead => rw [hp] at hi; cases hi
  | waitAnnounce iter =>
    rw [hp] at hi
    cases hi
    exact .announces hp rfl
  | waitLeave iter =>
    rw [hp] at hi
    cases hi
    exact .leaves hp rfl
  | claimCursor i attach =>
    rw [hp] at hi
    cases hi
    refine .keeps (by simp [Instr.writes]) ?_
    rintro _ ⟨v, rfl⟩
    rw [hp]
    dsimp only
    split
    · rfl
    · split
      · rfl
      · exact waiting_registered _ _
  | initCursor i attach =>
    rw [hp] at hi
    cases hi
    refine .keeps (by simp [Instr.writes]) ?_
    rintro _ rfl
    rw [hp]
    exact waiting_registered _ _
  | attachProduced =>
    rw [hp] at hi
    cases hi
    refine .keeps (by simp [Instr.writes]) ?_
    rintro _ ⟨v, rfl⟩
    rw [hp]
    exact waiting_cursorPc _
  | publishCursor =>
    rw [hp] at hi
    cases hi
    refine .keeps (by simp [Instr.writes]) ?_
    rintro _ rfl
    rw [hp]
    rfl
  | doRead call =>
    rw [hp] at hi
    cases hi
    refine .keeps (by simp [Instr.writes]) ?_
    rintro _ ⟨v, rfl⟩
    rw [hp]
    exact waiting_afterDoRead _ _
  | viewLen =>
    rw [hp] at hi
    cases hi
    refine .keeps (by simp [Instr.writes]) ?_
    rintro _ ⟨v, rfl⟩
    rw [hp]
    rfl
  | viewByte j =>
    rw [hp] at hi
    cases hi
    refine .keeps (by simp [Instr.writes]) ?_
    rintro _ ⟨v, rfl⟩
    rw [hp]
    rfl
  | validate =>
    rw [hp] at hi
    cases hi
    refine .keeps (by simp [Instr.writes]) ?_
    rintro _ ⟨v, rfl⟩
    rw [hp]
    rfl
  | produced =>
    rw [hp] at hi
    cases hi
    refine .keeps (by simp [Instr.writes]) ?_
    rintro _ ⟨v, rfl⟩
    rw [hp]
    rfl
  | copyLen outCap =>
    rw [hp] at hi
    cases hi
    refine .keeps (by simp [Instr.writes]) ?_
    rintro _ ⟨v, rfl⟩
    rw [hp]
    exact waiting_copyFromPc _ _
  | copyByte n j =>
    rw [hp] at hi
    cases hi
    refine .keeps (by simp [Instr.writes]) ?_
    rintro _ ⟨v, rfl⟩
    rw [hp]
    exact waiting_copyFromPc _ _
  | copyValidate n =>
    rw [hp] at hi
    cases hi
    refine .keeps (by simp [Instr.writes]) ?_
    rintro _ ⟨v, rfl⟩
    rw [hp]
    dsimp only [afterCopy]
    split
    · exact waiting_cursorPc _
    · rfl
  | waitReload iter =>
    rw [hp] at hi
    cases hi
    refine .keeps (by simp [Instr.writes]) ?_
    rintro _ ⟨v, rfl⟩
    rw [hp]
    dsimp only
    split <;> rfl
  | waitSyscall iter cmp =>
    rw [hp] at hi
    cases hi
    refine .keeps (by simp [Instr.writes]) ?_
    rintro _ (rfl | rfl)
    all_goals
      rw [hp]
      rfl
  | waitAsleep iter =>
    rw [hp] at hi
    cases hi
    refine .keeps (by simp [Instr.writes]) ?_
    rintro _ rfl
    rw [hp]
    rfl
  | retireValue id last =>
    rw [hp] at hi
    cases hi
    refine .keeps (by simp [Instr.writes]) ?_
    rintro _ rfl
    rw [hp]
    rfl
  | retireInUse id last =>
    rw [hp] at hi
    cases hi
    refine .keeps (by simp [Instr.writes]) ?_
    rintro _ rfl
    rw [hp]
    cases last <;> rfl

theorem code_store {a : Loc} {v : Nat} (h : s.code cfg = some (.store a v s')) : a ≠ .waiters := by
  unfold code at h
  split at h <;> cases h <;> nofun

theorem Moves.of_syscall {cells : Loc → Nat} {iter cmp : Nat} (hm : s.Moves cfg cells s')
    (hpc : s'.pc = .waitSyscall iter cmp) : s.pc = .waitReload iter := by
  have hw : s'.pc.waiting = true := by rw [hpc]; rfl
  cases hm with
  | control hn =>
    obtain rfl : _ = SessionPc.waitSyscall iter cmp := hpc
    generalize s.pc = pc at hn
    cases hn
    rfl
  | registrationFailed hp => rw [waiting_registered] at hw; cases hw
  | registered hp => rw [waiting_registered] at hw; cases hw
  | attached hp => rw [show (s.seek cfg _).pc.waiting = false from waiting_cursorPc _] at hw; cases hw
  | doRead hp => rw [waiting_afterDoRead] at hw; cases hw
  | viewLen hp =>
    rcases hp with ⟨-, rfl⟩ | ⟨outCap, -, rfl⟩
    · cases hw
    · rw [waiting_copyFromPc] at hw
      cases hw
  | viewByte hp =>
    rcases hp with ⟨-, rfl⟩ | ⟨n, -, rfl⟩
    · cases hw
    · rw [waiting_copyFromPc] at hw
      cases hw
  | copyValidate hp =>
    unfold afterCopy at hw
    split at hw
    · rw [show (Session.commit cfg _).pc.waiting = false from waiting_cursorPc _] at hw
      cases hw
    · cases hw
  | validate hp => cases hw
  | produced hp => cases hw

end Session

namespace Wait

variable {ι : Type} {S : Setup ι} {σ σ' : System ι} {d : Pos} {ws : List ι}

structure Census (σ : System ι) (ws : List ι) : Prop where
  nodup : ws.Nodup
  mem : ∀ c, c ∈ ws ↔ (σ.consumer c).pc.waiting = true
  word : σ.memory.cells .waiters = ws.length % 2 ^ 32

theorem Census.initial (fresh : Loc → Nat) : Census (S.initial fresh) [] where
  nodup := .nil
  mem c := by simp [Setup.initial, Session.initial, SessionPc.waiting]
  word := rfl

theorem Census.empty (h : Census σ ws) (hzero : σ.memory.cells .waiters = 0)
    (hcrowd : ws.length < 2 ^ 32) (c : ι) : (σ.consumer c).pc.waiting = false := by
  have hword := h.word
  rw [hzero, Nat.mod_eq_of_lt hcrowd] at hword
  obtain rfl := List.length_eq_zero_iff.mp hword.symm
  by_contra hne
  exact absurd ((h.mem c).mpr (by simpa using hne)) List.not_mem_nil

structure Sleepers (σ : System ι) : Prop where
  pending : ∀ t, ∀ e ∈ σ.memory.buffer t, e.1 ≠ .waiters
  census : ∃ ws, Census σ ws
  bedded : ∀ c, Setup.Bedded σ c

theorem Sleepers.initial (fresh : Loc → Nat) : Sleepers (S.initial fresh) where
  pending _ _ he := by cases he
  census := ⟨[], .initial fresh⟩
  bedded _ h := absurd rfl h

variable [DecidableEq ι] {l : Label ι}

theorem Census.keep {b : ι} {s : Session} {m : RingMemory ι} (h : Census σ ws)
    (hw : s.pc.waiting = (σ.consumer b).pc.waiting)
    (hc : m.cells .waiters = σ.memory.cells .waiters) :
    Census { σ with consumer := update σ.consumer b s, memory := m } ws where
  nodup := h.nodup
  mem c := by
    rcases eq_or_ne c b with rfl | hcb
    · simp only [update_self, hw]
      exact h.mem c
    · simp only [update_of_ne hcb]
      exact h.mem c
  word := hc.trans h.word

theorem Census.step (hpend : ∀ t, ∀ e ∈ σ.memory.buffer t, e.1 ≠ .waiters) (h : Census σ ws)
    (hs : S.step l σ = some σ') : ∃ ws', Census σ' ws' := by
  cases Setup.step_iff.mp hs with
  | producer hx =>
    refine ⟨ws, h.nodup, h.mem, (Memory.exec_cells hx fun hw => ?_).trans h.word⟩
    have hp := Producer.code_writes hw
    cases hp
  | call hc hx =>
    obtain ⟨hk, rfl⟩ := Session.call_eq_some.mp hx
    obtain ⟨hbefore, hafter⟩ := Session.waiting_enter S.cfg hk
    exact ⟨ws, h.keep (hafter.trans hbefore.symm) rfl⟩
  | @consumer _ b i s m hi hx =>
    cases Session.code_counts hi with
    | announces hpc hinstr =>
      subst hinstr
      obtain ⟨-, rfl, rfl⟩ := Memory.exec_rmw hx
      have hout : b ∉ ws := fun hb => by
        have hwaiting := (h.mem b).mp hb
        rw [hpc] at hwaiting
        cases hwaiting
      refine ⟨b :: ws, List.nodup_cons.mpr ⟨hout, h.nodup⟩, fun c => ?_, ?_⟩
      · rcases eq_or_ne c b with rfl | hcb
        · simp [SessionPc.waiting]
        · simp [hcb, h.mem]
      · simp only [Memory.write, update_self, h.word, List.length_cons]
        omega
    | leaves hpc hinstr =>
      subst hinstr
      obtain ⟨-, rfl, rfl⟩ := Memory.exec_rmw hx
      have hin : b ∈ ws := (h.mem b).mpr (by rw [hpc]; rfl)
      have hpos := List.length_pos_of_mem hin
      refine ⟨ws.erase b, h.nodup.erase b, fun c => ?_, ?_⟩
      · rcases eq_or_ne c b with rfl | hcb
        · simp [SessionPc.waiting, h.nodup.not_mem_erase]
        · simp [hcb, List.mem_erase_of_ne hcb, h.mem]
      · simp only [Memory.write, update_self, h.word, List.length_erase_of_mem hin]
        omega
    | keeps hw hk => exact ⟨ws, h.keep (hk s (Memory.exec_leads hx)) (Memory.exec_cells hx hw)⟩
  | @drain _ t e es hb =>
    exact ⟨ws, h.nodup, h.mem,
      (update_of_ne (hpend t e (hb ▸ List.mem_cons_self)).symm _ _).trans h.word⟩

theorem census_step (hd : S.Sound σ d) (howned : Backpressure.Owned S σ) (h : Census σ ws)
    (hs : S.step l σ = some σ') : ∃ ws', Census σ' ws' := by
  refine h.step (fun t e he heq => ?_) hs
  cases t with
  | producer =>
    have hp := hd.pending.ofProducer he
    rw [heq] at hp
    cases hp
  | consumer b =>
    have hc := (howned.shape b).ofCursor he
    rw [heq] at hc
    cases hc

theorem Sleepers.step (h : Sleepers σ) (hs : S.step l σ = some σ') : Sleepers σ' := by
  obtain ⟨ws, hws⟩ := h.census
  refine ⟨?_, hws.step h.pending hs, fun c => ((h.bedded c).dozes hs).bedded (h.bedded c)⟩
  intro t e he
  cases Setup.step_iff.mp hs with
  | producer hx =>
    rcases Memory.exec_buffer_mem hx he with hold | ⟨-, hw⟩
    · exact h.pending t e hold
    · intro heq
      have hp := Producer.code_writes hw
      rw [heq] at hp
      cases hp
  | call => exact h.pending t e he
  | @consumer _ b i s m hi hx =>
    rcases Memory.exec_buffer hx with hb | ⟨a, v, next, rfl, -, hb⟩
    · exact h.pending t e (hb ▸ he)
    · rw [hb] at he
      by_cases ht : t = .consumer b
      · subst ht
        rw [update_self, List.mem_append, List.mem_singleton] at he
        rcases he with he | rfl
        · exact h.pending _ e he
        · exact Session.code_store hi
      · rw [update_of_ne ht] at he
        exact h.pending t e he
  | @drain _ u f es hb =>
    simp only [Memory.land] at he
    rcases eq_or_ne t u with rfl | ht
    · rw [update_self] at he
      exact h.pending t e (hb ▸ List.mem_cons_of_mem _ he)
    · rw [update_of_ne ht] at he
      exact h.pending t e he

theorem waiters_census (h : S.Reachable σ) :
    ∃ ws : List ι, ws.Nodup ∧ (∀ c, c ∈ ws ↔ (σ.consumer c).pc.waiting = true) ∧
      σ.memory.cells .waiters = ws.length % 2 ^ 32 ∧
      ∀ c, σ.memory.parked (.consumer c) ≠ none → c ∈ ws := by
  obtain ⟨fresh, hr⟩ := h
  have hs : Sleepers σ := hr.invariant (.initial fresh) fun l u v hu _ hs => hu.step hs
  obtain ⟨ws, hws⟩ := hs.census
  refine ⟨ws, hws.nodup, hws.mem, hws.word, fun c hc => ?_⟩
  obtain ⟨iter, hpc⟩ := hs.bedded c hc
  exact (hws.mem c).mpr (by rw [hpc]; rfl)

def dozeSetup : Setup (Fin 2) where
  cfg := .lone .overwrite .futex
  stream n := .ofByte n
  client _ _ _ := true
  model := .sc
  process _ := ⟨0, 0⟩

def takeOne (c : Fin 2) : List (Label (Fin 2)) :=
  .call c (.readCopy 64) :: List.replicate 4 (.consumer c)

def dropOff (c : Fin 2) : List (Label (Fin 2)) :=
  [.call c .construct] ++ takeOne c ++ takeOne c ++ [.call c .readBlocking] ++
    List.replicate 68 (.consumer c)

theorem waiters_census_two : ∃ σ, dozeSetup.Reachable σ ∧ (∀ c, Setup.Asleep σ c) ∧
    ∃ ws : List (Fin 2), ws.Nodup ∧ (∀ c, c ∈ ws) ∧
      σ.memory.cells .waiters = ws.length % 2 ^ 32 := by
  obtain ⟨σ, hr, hp⟩ := Lts.exists_of_run (M := dozeSetup.lts)
    (fun σ : System (Fin 2) => decide (∀ c : Fin 2, (σ.memory.parked (.consumer c)).isSome))
    (List.replicate 14 .producer ++ dropOff 0 ++ dropOff 1) (dozeSetup.initial fun _ => 0)
    (by decide +kernel)
  have hasleep (c : Fin 2) : Setup.Asleep σ c :=
    Option.isSome_iff_ne_none.mp (of_decide_eq_true hp c)
  obtain ⟨ws, hnodup, -, hword, hparked⟩ := waiters_census (S := dozeSetup) ⟨_, hr⟩
  exact ⟨σ, ⟨_, hr⟩, hasleep, ws, hnodup, fun c => hparked c (hasleep c), hword⟩

end Wait

end Shimmy
