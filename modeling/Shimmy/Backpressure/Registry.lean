import Shimmy.Backpressure.Table

namespace Shimmy

open Concurrency Function

inductive RegistryEvent where
  | claim (i : Nat)
  | release (i : Nat)
  | refuse
  | silent
  deriving DecidableEq, Repr

structure Registry where
  size : Nat
  used : Nat → Prop

namespace Registry

def full (r : Registry) : Prop := ∀ i < r.size, r.used i

inductive Step (r : Registry) : RegistryEvent → Registry → Prop
  | claim {i : Nat} (hi : i < r.size) (hfree : ¬ r.used i) :
      Step r (.claim i) { r with used := fun j => j = i ∨ r.used j }
  | release {i : Nat} (hused : r.used i) :
      Step r (.release i) { r with used := fun j => j ≠ i ∧ r.used j }
  | refuse (hfull : r.full) : Step r .refuse r
  | silent : Step r .silent r

theorem ext_used {n : Nat} {used used' : Nat → Prop} (h : ∀ j, used j ↔ used' j) :
    (⟨n, used⟩ : Registry) = ⟨n, used'⟩ := by
  have heq : used = used' := funext fun j => propext (h j)
  rw [heq]

end Registry

namespace Session

def event (s s' : Session) : RegistryEvent :=
  match s.pc, s'.pc with
  | .claimCursor i _, .initCursor _ _ => .claim i
  | .claimCursor _ _, .claimCursor _ _ => .silent
  | .claimCursor _ _, _ => .refuse
  | .retireInUse i _, _ => .release i
  | _, _ => .silent

theorem Moves.claiming {cfg : RingConfig} {cells : Loc → Nat} {s s' : Session} {i : Nat}
    {attach : Bool} (h : s.Moves cfg cells s') (hpc : s'.pc = .claimCursor i attach) :
    ∃ k, s.pc = .claimCursor k attach ∧ i = k + 1 := by
  have ha := (h.arriving (by rw [hpc]; rfl)).1
  cases h with
  | control hn =>
    generalize s.pc = pc at hn ⊢
    cases hpc
    cases hn
    exact ⟨_, rfl, rfl⟩
  | @registrationFailed k attach' _ => cases attach' <;> cases hpc
  | @registered k attach' _ => cases attach' <;> cases hpc
  | attached _ =>
    have hlive : (s.seek cfg (cells .nextPublish)).pc.arriving = false := arriving_cursorPc _
    rw [hpc] at hlive
    cases hlive
  | doRead hold => rw [hold] at ha; cases ha
  | viewLen hold => rcases hold with ⟨hold, -⟩ | ⟨n, hold, -⟩ <;> rw [hold] at ha <;> cases ha
  | viewByte hold => rcases hold with ⟨hold, -⟩ | ⟨n, hold, -⟩ <;> rw [hold] at ha <;> cases ha
  | copyValidate hold => rw [hold] at ha; cases ha
  | validate hold => rw [hold] at ha; cases ha
  | produced hold => rw [hold] at ha; cases ha

theorem enter_claiming {cfg : RingConfig} {s : Session} {k : Call} {i : Nat} {attach : Bool}
    (hk : s.enabled k = true) (hpc : ((s.noteCall k).enter cfg k).pc = .claimCursor i attach) :
    i = 0 := by
  by_cases hborn : k = .construct ∨ k = .attachAtCurrent
  · rcases hborn with rfl | rfl
    all_goals
      simp only [enter, construct, noteCall] at hpc
      split at hpc
      · cases hpc
        rfl
      · cases hpc
  · have ha : ((s.noteCall k).enter cfg k).pc.arriving = false :=
      arriving_enter hk (fun h => hborn (.inl h)) fun h => hborn (.inr h)
    rw [hpc] at ha
    cases ha

theorem event_of_pc {s s' : Session} (hclaim : ∀ i attach, s.pc ≠ .claimCursor i attach)
    (hretire : ∀ i last, s.pc ≠ .retireInUse i last) : s.event s' = .silent := by
  unfold event
  split
  · exact absurd ‹_› (hclaim _ _)
  · exact absurd ‹_› (hclaim _ _)
  · exact absurd ‹_› (hclaim _ _)
  · exact absurd ‹_› (hretire _ _)
  · rfl

end Session

namespace Backpressure

variable {ι : Type} {S : Setup ι} {σ σ' : System ι} {c : ι} {l : Label ι}

def event (l : Label ι) (σ σ' : System ι) : RegistryEvent :=
  match l with
  | .consumer c => (σ.consumer c).event (σ'.consumer c)
  | _ => .silent

def registry (S : Setup ι) (σ : System ι) : Registry :=
  ⟨S.cfg.maxConsumers, fun i => σ.memory.cells (.cursorInUse i) ≠ 0⟩

def Refused (σ : System ι) : Prop :=
  ∀ c i attach, (σ.consumer c).pc = .claimCursor i attach →
    ∀ j < i, σ.memory.cells (.cursorInUse j) ≠ 0

def Keeps (l : Label ι) (σ : System ι) : Prop :=
  ∀ b j last, l = .consumer b → (σ.consumer b).pc = .retireInUse j last →
    ∀ c i attach, (σ.consumer c).pc = .claimCursor i attach → i ≤ j

theorem registry_eq {m : RingMemory ι} {p : Producer} {consumer : ι → Session}
    (h : ∀ i, m.cells (.cursorInUse i) = σ.memory.cells (.cursorInUse i)) :
    registry S ⟨m, p, consumer⟩ = registry S σ :=
  Registry.ext_used fun j => by rw [h]

variable [DecidableEq ι]

theorem Refused.turn (h : Refused σ) (hkeeps : Keeps l σ) (ht : Turn S σ l σ') : Refused σ' := by
  cases ht with
  | producer hx hcells =>
    intro c i attach hpc j hj
    dsimp only
    rw [hcells _ rfl]
    exact h c i attach hpc j hj
  | @call c k hk =>
    refine Table.forall_update (P := fun _ s => ∀ i attach, s.pc = .claimCursor i attach →
      ∀ j < i, σ.memory.cells (.cursorInUse j) ≠ 0) ?_ fun b _ => h b
    intro i attach hpc j hj
    rw [Session.enter_claiming hk hpc] at hj
    exact absurd hj (Nat.not_lt_zero _)
  | @consumer c s m hstep hmoves hreg =>
    refine Table.forall_update (P := fun _ s => ∀ i attach, s.pc = .claimCursor i attach →
      ∀ j < i, m.cells (.cursorInUse j) ≠ 0) ?_ ?_
    · intro i attach hpc j hj
      obtain ⟨k, hold, rfl⟩ := hmoves.claiming hpc
      cases hstep with
      | quiet hcells hcur hlive hinit hstored htaken =>
        rw [hcells _ rfl]
        rcases Nat.lt_succ_iff_lt_or_eq.mp hj with hlt | rfl
        · exact h c k attach hold j hlt
        · exact (htaken j attach hold).1
      | claim i' attach' hpc' hfree hcells hs =>
        rw [hs] at hpc
        cases hpc
      | store i' v hcur hcur' hv =>
        rcases hv with ⟨a, hpc', -⟩ | ⟨hpc', -⟩ | ⟨b, hpc', -⟩ <;> rw [hold] at hpc' <;> cases hpc'
      | release i' hcur hpc' =>
        rw [hold] at hpc'
        cases hpc'
    · intro b hbc i attach hpc j hj
      have hbefore := h b i attach hpc j hj
      cases hstep with
      | quiet hcells =>
        rw [hcells _ rfl]
        exact hbefore
      | claim i' attach' hpc' hfree hcells hs =>
        rw [hcells]
        rcases eq_or_ne j i' with rfl | hji
        · rw [update_self]
          exact one_ne_zero
        · rw [update_of_ne (by simpa using hji)]
          exact hbefore
      | store i' v hcur hcur' hv hcells =>
        rw [hcells, update_of_ne (by simp)]
        exact hbefore
      | release i' hcur hpc' hs hcells =>
        have hle := hkeeps c i' true rfl hpc' b i attach hpc
        have hji : j ≠ i' := by omega
        rw [hcells, update_of_ne (by simpa using hji)]
        exact hbefore

theorem Refused.refines (htable : Table S σ) (h : Refused σ) (ht : Turn S σ l σ') :
    (registry S σ).Step (event l σ σ') (registry S σ') := by
  cases ht with
  | producer hx hcells =>
    rw [registry_eq fun i => hcells _ rfl]
    exact .silent
  | call hk => exact .silent
  | @consumer c s m hstep hmoves hreg =>
    have hevent : event (.consumer c) σ { σ with consumer := update σ.consumer c s, memory := m } =
        (σ.consumer c).event s := by
      simp [event]
    rw [hevent]
    cases hstep with
    | quiet hcells hcur hlive hinit hstored htaken =>
      rw [registry_eq fun i => hcells _ rfl]
      cases hpc : (σ.consumer c).pc with
      | claimCursor i attach =>
        obtain ⟨hused, hnext | hlast⟩ := htaken i attach hpc
        · have : (σ.consumer c).event s = .silent := by
            simp [Session.event, hpc, hnext]
          rw [this]
          exact .silent
        · have hgone (k : Nat) (b : Bool) : s.pc ≠ .claimCursor k b := by
            intro hs
            obtain ⟨i', hi', rfl⟩ := hmoves.claiming hs
            rw [hpc] at hi'
            cases hi'
            have hnames := hreg.names
            rw [hs] at hnames
            exact absurd hnames.2 (by omega)
          have : (σ.consumer c).event s = .refuse := by
            unfold Session.event
            rw [hpc]
            split
            · exact absurd ‹_› (hinit _ _).2
            · exact absurd ‹_› (hgone _ _)
            · rfl
            · cases ‹SessionPc.claimCursor i attach = _›
            · exact absurd rfl (‹∀ i attach, SessionPc.claimCursor _ _ = _ → False› _ _)
          rw [this]
          refine .refuse fun j hj => ?_
          rcases Nat.lt_or_ge j i with hlt | hge
          · exact h c i attach hpc j hlt
          · have hlt : j < S.cfg.maxConsumers := hj
            obtain rfl : j = i := by omega
            exact hused
      | retireInUse j last => rw [hpc] at hlive; cases hlive
      | _ =>
        rw [Session.event_of_pc (by simp [hpc]) (by simp [hpc])]
        exact .silent
    | claim i attach hpc hfree hcells hs =>
      have : (σ.consumer c).event s = .claim i := by
        simp [Session.event, hpc, hs]
      have hlt : i < S.cfg.maxConsumers := by
        have hnames := hreg.names
        rw [hs] at hnames
        exact hnames.2
      have hafter : registry S { σ with consumer := update σ.consumer c s, memory := m } =
          { registry S σ with used := fun j => j = i ∨ (registry S σ).used j } := by
        refine Registry.ext_used fun j => ?_
        dsimp only [registry]
        rw [hcells]
        rcases eq_or_ne j i with rfl | hji
        · simp
        · rw [update_of_ne (by simpa using hji)]
          simp [hji]
      rw [this, hafter]
      exact .claim hlt fun hused => hused hfree
    | store j v hcur hcur' hv hcells =>
      have : (σ.consumer c).event s = .silent := by
        rcases hv with ⟨a, hpc, -⟩ | ⟨hpc, -⟩ | ⟨b, hpc, -⟩
        all_goals exact Session.event_of_pc (by simp [hpc]) (by simp [hpc])
      have hinUse (i : Nat) : m.cells (.cursorInUse i) = σ.memory.cells (.cursorInUse i) := by
        rw [hcells, update_of_ne (by simp)]
      rw [this, registry_eq hinUse]
      exact .silent
    | release j hcur hpc hs hcells =>
      have : (σ.consumer c).event s = .release j := by
        simp [Session.event, hpc]
      have hafter : registry S { σ with consumer := update σ.consumer c s, memory := m } =
          { registry S σ with used := fun k => k ≠ j ∧ (registry S σ).used k } := by
        refine Registry.ext_used fun k => ?_
        dsimp only [registry]
        rw [hcells]
        rcases eq_or_ne k j with rfl | hkj
        · simp
        · rw [update_of_ne (by simpa using hkj)]
          simp [hkj]
      rw [this, hafter]
      refine .release fun hfree => ?_
      rw [htable.held c j hcur] at hfree
      cases hfree

theorem registry_refines {fresh : Loc → Nat} (hbp : S.cfg.overflow = .backpressure)
    (hm : S.model = .sc) (hr : S.lts.Reach Keeps (S.initial fresh) σ)
    (hs : S.step l σ = some σ') : (registry S σ).Step (event l σ σ') (registry S σ') := by
  have hinv : (Setup.BuffersEmpty σ ∧ Table S σ) ∧ Refused σ := by
    refine hr.invariant (I := fun σ => (Setup.BuffersEmpty σ ∧ Table S σ) ∧ Refused σ)
      ⟨⟨fun _ => rfl, .initial fresh⟩, fun c i attach h => (by cases h)⟩ ?_
    rintro l u v ⟨⟨hempty, htable⟩, hrefused⟩ hkeeps hs
    have hturn := turn_of_step hm hempty htable.registered hs
    exact ⟨⟨(Setup.step_tso hm hempty hs).1, htable.turn hbp hturn⟩,
      hrefused.turn hkeeps hturn⟩
  obtain ⟨⟨hempty, htable⟩, hrefused⟩ := hinv
  exact hrefused.refines htable (turn_of_step hm hempty htable.registered hs)

def busySetup : Setup (Fin 4) where
  cfg := .pair .backpressure 2 .spin (by decide) (by decide)
  stream n := .ofByte n
  client _ _ _ := true
  model := .sc
  process _ := ⟨0, 0⟩

-- 0 departs while 2 is at cursor 0, 2 takes the free cursor, and 3 finds the table full.
def busyRun : List (Label (Fin 4)) :=
  [.call 0 .construct, .consumer 0, .consumer 0, .call 1 .construct, .consumer 1, .consumer 1,
    .consumer 1, .call 2 .construct, .call 0 .destroy, .consumer 0, .consumer 0, .consumer 2,
    .consumer 2, .call 3 .construct, .consumer 3]

def scanAt : SessionPc → Nat
  | .claimCursor i _ => i
  | _ => 0

def keeps (l : Label (Fin 4)) (σ : System (Fin 4)) : Bool :=
  match l with
  | .consumer b =>
    match (σ.consumer b).pc with
    | .retireInUse j _ => decide (∀ c, scanAt (σ.consumer c).pc ≤ j)
    | _ => true
  | _ => true

theorem keeps_iff (l : Label (Fin 4)) (σ : System (Fin 4)) (h : keeps l σ = true) :
    Keeps l σ := by
  rintro b j last rfl hpc c i attach hc
  simp only [keeps, hpc, decide_eq_true_eq] at h
  simpa [scanAt, hc] using h c

theorem registry_refines_crowded : ∃ σ σ', busySetup.Reachable σ ∧
    (σ.consumer 0).pc = .dead ∧ busySetup.step (.consumer 3) σ = some σ' ∧
    (σ'.consumer 3).obj.cursorId = 2 ∧
    (registry busySetup σ).Step .refuse (registry busySetup σ') := by
  obtain ⟨σ, hr, hp⟩ := Lts.exists_of_runIf (M := busySetup.lts) keeps
    (fun σ : System (Fin 4) => (σ.consumer 0).pc = .dead &&
      (busySetup.step (.consumer 3) σ).any fun σ' =>
        event (.consumer 3) σ σ' = .refuse && (σ'.consumer 3).obj.cursorId = 2)
    busyRun (busySetup.initial fun _ => 0) (by decide +kernel)
  obtain ⟨hdead, hp⟩ := (Bool.and_eq_true _ _).mp hp
  obtain ⟨σ', hs, hp⟩ := (Option.any_eq_true _ _).mp hp
  simp only [Bool.and_eq_true, decide_eq_true_eq] at hp
  have hstep := registry_refines rfl rfl (hr.mono keeps_iff) hs
  rw [hp.1] at hstep
  exact ⟨σ, σ', ⟨_, hr.reaches⟩, of_decide_eq_true hdead, hs, hp.2, hstep⟩

def refusalSetup : Setup (Fin 3) where
  cfg := .pair .backpressure 2 .spin (by decide) (by decide)
  stream n := .ofByte n
  client _ _ _ := true
  model := .sc
  process _ := ⟨0, 0⟩

def departRun : List (Label (Fin 3)) :=
  [.call 0 .construct, .consumer 0, .consumer 0, .call 0 .destroy, .consumer 0,
    .call 1 .construct, .consumer 1]

def refusedRun : List (Label (Fin 3)) :=
  [.call 2 .construct, .consumer 2, .consumer 0, .consumer 1, .consumer 2]

theorem registry_refuses : ∃ σ σ', refusalSetup.Reachable σ ∧
    refusalSetup.lts.run refusedRun σ = some σ' ∧ (σ.consumer 2).pc = .unborn ∧
    (σ'.consumer 2).pc = .idle ∧ (σ'.consumer 2).obj.cursorId = refusalSetup.cfg.maxConsumers ∧
    refusalSetup.lts.States (fun σ => ¬ (registry refusalSetup σ).full) refusedRun σ := by
  obtain ⟨σ, hr, hp⟩ := Lts.exists_of_run (M := refusalSetup.lts)
    (fun σ : System (Fin 3) => (σ.consumer 2).pc = .unborn &&
      ((refusalSetup.lts.run refusedRun σ).any fun σ' => (σ'.consumer 2).pc = .idle &&
        (σ'.consumer 2).obj.cursorId = 2) &&
      refusalSetup.lts.States (fun σ => σ.memory.cells (.cursorInUse 0) = 0 ∨
        σ.memory.cells (.cursorInUse 1) = 0) refusedRun σ)
    departRun (refusalSetup.initial fun _ => 0) (by decide +kernel)
  simp only [Bool.and_eq_true, decide_eq_true_eq] at hp
  obtain ⟨⟨hunborn, hrun⟩, hstates⟩ := hp
  obtain ⟨σ', hσ', hend⟩ := (Option.any_eq_true _ _).mp hrun
  simp only [Bool.and_eq_true, decide_eq_true_eq] at hend
  refine ⟨σ, σ', ⟨_, hr⟩, hσ', hunborn, hend.1, hend.2, hstates.mono fun τ hfree hfull => ?_⟩
  rcases hfree with hfree | hfree
  · exact hfull 0 Nat.two_pos hfree
  · exact hfull 1 Nat.one_lt_two hfree

end Backpressure

end Shimmy
