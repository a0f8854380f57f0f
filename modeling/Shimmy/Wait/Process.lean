import Shimmy.Wait.Census

namespace Shimmy

open Concurrency Function

namespace Wait

variable {ι : Type} {S : Setup ι} {σ σ' : System ι} {c : ι}

def stampOf (S : Setup ι) (σ : System ι) (seq : Nat) : Nat :=
  σ.memory.cells (.slotSeq (S.cfg.slot seq))

structure Stranded (S : Setup ι) (c : ι) (σ : System ι) : Prop where
  asleep : Setup.Asleep σ c
  message : (σ.consumer c).obj.next < writingSeq
  published : stampOf S σ (σ.consumer c).obj.next = (σ.consumer c).obj.next
  returned : σ.producer.pc ≠ .advance (σ.consumer c).obj.next ∧
    σ.producer.pc ≠ .notify (σ.consumer c).obj.next ∧
    σ.producer.pc ≠ .wake (σ.consumer c).obj.next

def SameQueue (S : Setup ι) (c : ι) (σ : System ι) : Prop :=
  S.stampKey (.consumer c) (σ.consumer c).obj.next = S.stampKey .producer (σ.consumer c).obj.next

def Delivering (σ : System ι) (seq : Nat) : Prop :=
  σ.producer.pc = .advance seq ∨ σ.producer.pc = .notify seq ∨ σ.producer.pc = .wake seq

structure Keyed (S : Setup ι) (c : ι) (l : Label ι) (σ : System ι) : Prop where
  stamp : l = .producer → σ.producer.pc = .stamp (σ.consumer c).obj.next → Setup.Asleep σ c →
    SameQueue S c σ
  compare : ∀ iter, l = .consumer c →
    (σ.consumer c).pc = .waitSyscall iter ((σ.consumer c).obj.next % 2 ^ 32) →
    stampOf S σ (σ.consumer c).obj.next = (σ.consumer c).obj.next →
    SameQueue S c σ ∧ Delivering σ (σ.consumer c).obj.next
  crowd : l = .producer → σ.producer.pc = .notify (σ.consumer c).obj.next → ∀ ws : List ι,
    ws.Nodup → (∀ b, b ∈ ws ↔ (σ.consumer b).pc.waiting = true) → ws.length < 2 ^ 32

-- Whoever sleeps on a stamp that already is the wanted one is on the queue of a wake to come.
structure Expectant (S : Setup ι) (c : ι) (σ : System ι) : Prop where
  queued : ∀ k, σ.memory.parked (.consumer c) = some k →
    k = S.stampKey (.consumer c) (σ.consumer c).obj.next
  pending : Setup.Asleep σ c → (σ.consumer c).obj.next < writingSeq →
    stampOf S σ (σ.consumer c).obj.next = (σ.consumer c).obj.next →
    SameQueue S c σ ∧ Delivering σ (σ.consumer c).obj.next

variable [DecidableEq ι] {l : Label ι} {seq : Nat}

theorem stamp_sc {cfg : RingConfig} {stream : Nat → Message cfg.blockSize}
    {key : Loc → Nat × Nat} {p p' : Producer} {m m' : RingMemory ι} {i : Nat}
    (h : m.exec .sc key .producer (p.code cfg stream) = some (p', m')) :
    m'.cells (.slotSeq i) = m.cells (.slotSeq i) ∨ m'.cells (.slotSeq i) = writingSeq ∨
      ∃ q, p.pc = .stamp q ∧ p'.pc = .advance q ∧ m'.cells (.slotSeq i) = q := by
  by_cases hw : (p.code cfg stream).writes = some (.slotSeq i)
  · obtain ⟨pc, n⟩ := p
    cases pc with
    | mark seq =>
      cases h
      cases hw
      exact .inr (.inl (update_self _ _ _))
    | stamp seq =>
      cases h
      cases hw
      exact .inr (.inr ⟨seq, rfl, rfl, update_self _ _ _⟩)
    | _ => cases hw
  · exact .inl (Memory.exec_cells h hw)

theorem stamp_step (hm : S.model = .sc) (hempty : Setup.BuffersEmpty σ)
    (hs : S.step l σ = some σ') (seq : Nat) :
    stampOf S σ' seq = stampOf S σ seq ∨ stampOf S σ' seq = writingSeq ∨
      ∃ q, l = .producer ∧ σ.producer.pc = .stamp q ∧ σ'.producer.pc = .advance q ∧
        stampOf S σ' seq = q := by
  cases Setup.step_iff.mp hs with
  | producer hx =>
    rw [hm] at hx
    rcases stamp_sc hx with hc | hc | ⟨q, hpc, hpc', hc⟩
    · exact .inl hc
    · exact .inr (.inl hc)
    · exact .inr (.inr ⟨q, rfl, hpc, hpc', hc⟩)
  | call => exact .inl rfl
  | consumer hi hx =>
    refine .inl (Memory.exec_cells hx fun hw => ?_)
    have hp := Session.code_writes hi hw
    cases hp
  | drain hb =>
    rw [hempty] at hb
    cases hb

theorem Delivering.step (hblocks : S.cfg.wait.blocks = true) (hempty : Setup.BuffersEmpty σ)
    (h : Delivering σ seq) (hs : S.step l σ = some σ') : Delivering σ' seq ∨ l = .producer ∧
      (σ.producer.pc = .notify seq ∧ σ.memory.cells .waiters = 0 ∨
        σ.producer.pc = .wake seq) := by
  cases Setup.step_iff.mp hs with
  | @producer _ p m hx =>
    have hread : σ.memory.read .producer .waiters = σ.memory.cells .waiters :=
      Memory.read_eq_cells fun e he => by rw [hempty] at he; cases he
    rcases h with hpc | hpc | hpc
    · simp only [Producer.code, hpc, hblocks, if_true] at hx
      have hl := Memory.exec_leads hx
      exact .inl (.inr (.inl (by rw [show p = _ from hl])))
    · simp only [Producer.code, hpc] at hx
      cases hx
      rw [hread]
      by_cases hzero : σ.memory.cells .waiters = 0
      · exact .inr ⟨rfl, .inl ⟨hpc, hzero⟩⟩
      · exact .inl (.inr (.inr (by simp [hzero])))
    · exact .inr ⟨rfl, .inr hpc⟩
  | call => exact .inl h
  | consumer => exact .inl h
  | drain => exact .inl h

theorem Expectant.step (hm : S.model = .sc) (hblocks : S.cfg.wait.blocks = true)
    (hempty : Setup.BuffersEmpty σ) (hsleep : Sleepers σ) (h : Expectant S c σ)
    (hkeyed : Keyed S c l σ) (hs : S.step l σ = some σ') : Expectant S c σ' := by
  cases (hsleep.bedded c).dozes hs with
  | awake hn => exact ⟨fun k hk => (by rw [hn] at hk; cases hk), fun hasleep => absurd hn hasleep⟩
  | still hk hsame hwake =>
    refine ⟨fun k hq => by rw [hsame]; exact h.queued k (hk ▸ hq), fun hasleep hlt heq => ?_⟩
    have hbefore : Setup.Asleep σ c := fun hn => hasleep (hk.trans hn)
    unfold SameQueue
    rw [hsame] at hlt heq ⊢
    rcases stamp_step hm hempty hs (σ.consumer c).obj.next with hc | hc | ⟨q, hl, hpc, hpc', hc⟩
    · obtain ⟨hqueue, hdeliver⟩ := h.pending hbefore hlt (hc.symm.trans heq)
      refine ⟨hqueue, (hdeliver.step hblocks hempty hs).resolve_right ?_⟩
      rintro ⟨hl, ⟨hpc, hzero⟩ | hpc⟩
      · -- the sleeper was counted before it slept, so the load cannot have seen zero
        obtain ⟨ws, hws⟩ := hsleep.census
        have hidle := hws.empty hzero (hkeyed.crowd hl hpc ws hws.nodup hws.mem) c
        obtain ⟨iter, hiter⟩ := hsleep.bedded c hbefore
        rw [hiter] at hidle
        cases hidle
      · obtain ⟨k, hpark⟩ := Option.ne_none_iff_exists'.mp hbefore
        refine hwake _ hl hpc ?_
        rw [hpark, h.queued k hpark, hqueue]
    · exact absurd (hc.symm.trans heq) hlt.ne'
    · obtain rfl : q = (σ.consumer c).obj.next := hc.symm.trans heq
      exact ⟨hkeyed.stamp hl hpc hbefore, .inl hpc'⟩
  | @falls iter cmp hl hpc hcmp hsame hp hcells hpark =>
    refine ⟨fun k hk => ?_, fun _ _ heq => ?_⟩
    · rw [hpark, Option.some.injEq] at hk
      rw [hsame]
      exact hk.symm
    · unfold SameQueue Delivering
      rw [hsame, stampOf, hcells] at heq
      rw [hsame, hp]
      subst hcmp
      refine hkeyed.compare iter hl ?_ heq
      rw [hpc]
      exact congrArg (fun v => SessionPc.waitSyscall iter (v % 2 ^ 32)) heq

theorem not_stranded (hm : S.model = .sc) (hwait : S.cfg.wait = .futex) {fresh : Loc → Nat}
    (hr : S.lts.Reach (Keyed S c) (S.initial fresh) σ) : ¬ Stranded S c σ := by
  have hblocks : S.cfg.wait.blocks = true := by rw [hwait]; rfl
  obtain ⟨-, -, hinv⟩ := hr.invariant
    (I := fun σ => Setup.BuffersEmpty σ ∧ Sleepers σ ∧ Expectant S c σ)
    ⟨fun _ => rfl, .initial fresh, fun k hk => (by cases hk), fun h => absurd rfl h⟩
    fun l u v hu hkeyed hs =>
      ⟨(Setup.step_tso hm hu.1 hs).1, hu.2.1.step hs,
        hu.2.2.step hm hblocks hu.1 hu.2.1 hkeyed hs⟩
  intro h
  obtain ⟨hadvance, hnotify, hwake⟩ := h.returned
  obtain ⟨-, hpc | hpc | hpc⟩ := hinv.pending h.asleep h.message h.published
  · exact hadvance hpc
  · exact hnotify hpc
  · exact hwake hpc

def twoProcesses : Setup (Fin 1) where
  cfg := .lone .overwrite .futex
  stream n := .ofByte n
  client _ _ _ := true
  model := .sc
  process t := match t with | .producer => ⟨0, 0⟩ | .consumer _ => ⟨1, 4096⟩

def catchUpRun : List (Label (Fin 1)) :=
  List.replicate 14 .producer ++ [.call 0 .construct, .call 0 (.readCopy 64)] ++
    List.replicate 4 (.consumer 0) ++ [.call 0 (.readCopy 64)] ++ List.replicate 4 (.consumer 0)

def sleepRun : List (Label (Fin 1)) := .call 0 .readBlocking :: List.replicate 68 (.consumer 0)

def oneProcess : Setup (Fin 1) := { twoProcesses with process := fun _ => ⟨0, 0⟩ }

def keyed (_ : Label (Fin 1)) (σ : System (Fin 1)) : Bool :=
  match (σ.consumer 0).pc with
  | .waitSyscall _ cmp => cmp ≠ (σ.consumer 0).obj.next % 2 ^ 32
  | _ => true

theorem keyed_iff (l : Label (Fin 1)) (σ : System (Fin 1)) (h : keyed l σ = true) :
    Keyed oneProcess 0 l σ where
  stamp _ _ _ := rfl
  compare iter _ hpc _ := by simp [keyed, hpc] at h
  crowd _ _ ws hnodup _ := by
    match ws, hnodup with
    | [], _ => simp
    | [_], _ => simp
    | a :: b :: _, hnodup => simp [Subsingleton.elim a b] at hnodup

theorem not_stranded_woken : ∃ σ σ', oneProcess.Reachable σ ∧ Setup.Asleep σ 0 ∧
    oneProcess.lts.Reaches σ σ' ∧ σ'.producer = ⟨.idle, 3⟩ ∧ stampOf oneProcess σ' 2 = 2 ∧
    (σ'.consumer 0).obj.next = 2 ∧ ¬ Setup.Asleep σ' 0 := by
  obtain ⟨σ, hr, hp⟩ := Lts.exists_of_runIf (M := oneProcess.lts) keyed
    (fun σ : System (Fin 1) => (σ.memory.parked (.consumer 0)).isSome &&
      (oneProcess.lts.runIf keyed (List.replicate 8 .producer) σ).any fun σ' =>
        σ'.producer = ⟨.idle, 3⟩ && stampOf oneProcess σ' 2 = 2 && (σ'.consumer 0).obj.next = 2)
    (catchUpRun ++ sleepRun) (oneProcess.initial fun _ => 0) (by decide +kernel)
  obtain ⟨hasleep, hq⟩ := (Bool.and_eq_true _ _).mp hp
  obtain ⟨σ', hrun, hq⟩ := (Option.any_eq_true _ _).mp hq
  simp only [Bool.and_eq_true, decide_eq_true_eq] at hq
  obtain ⟨⟨hproducer, hstamp⟩, hnext⟩ := hq
  have hr' := Lts.reach_of_runIf hrun
  refine ⟨σ, σ', ⟨_, hr.reaches⟩, Option.isSome_iff_ne_none.mp hasleep, hr'.reaches, hproducer,
    hstamp, hnext, fun hstill => ?_⟩
  refine not_stranded (S := oneProcess) (c := 0) rfl rfl
    ((hr.mono keyed_iff).trans (hr'.mono keyed_iff)) ⟨hstill, ?_, ?_, by simp [hproducer]⟩
  · rw [hnext]
    decide
  · rw [hnext]
    exact hstamp

theorem futex_private_strands : ∃ σ, twoProcesses.Reachable σ ∧ σ.producer = ⟨.idle, 3⟩ ∧
    Stranded twoProcesses 0 σ ∧ (σ.consumer 0).obj.next = 2 := by
  obtain ⟨σ, hr, hp⟩ := Lts.exists_of_run (M := twoProcesses.lts)
    (fun σ : System (Fin 1) => (σ.memory.parked (.consumer 0)).isSome && σ.producer = ⟨.idle, 3⟩ &&
      (σ.consumer 0).obj.next = 2 && stampOf twoProcesses σ 2 = 2)
    (catchUpRun ++ sleepRun ++ List.replicate 8 .producer) (twoProcesses.initial fun _ => 0)
    (by decide +kernel)
  simp only [Bool.and_eq_true, decide_eq_true_eq] at hp
  obtain ⟨⟨⟨hasleep, hproducer⟩, hnext⟩, hstamp⟩ := hp
  refine ⟨σ, ⟨_, hr⟩, hproducer, ⟨Option.isSome_iff_ne_none.mp hasleep, ?_, ?_, ?_⟩, hnext⟩
  · rw [hnext]
    decide
  · rw [hnext]
    exact hstamp
  · simp [hproducer]

end Wait

end Shimmy
