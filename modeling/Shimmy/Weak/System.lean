import Shimmy.Concurrency.Weak
import Shimmy.Ring.View

namespace Shimmy

open Concurrency Function

structure Orders where
  mark : MemoryOrder
  markFence : Bool
  stamp : MemoryOrder
  doRead : MemoryOrder
  validateFence : Bool
  deriving DecidableEq, Repr

def Orders.source : Orders where
  mark := .release
  markFence := true
  stamp := .release
  doRead := .acquire
  validateFence := true

def ProducerPc.access (o : Orders) : ProducerPc → Access
  | .idle => { order := .relaxed }
  | .awaitInUse _ _ => { order := .acquire }
  | .awaitValue _ _ => { order := .acquire }
  | .mark _ => { order := o.mark, releaseFence := o.markFence }
  | .storeLen _ => { order := .plain }
  | .copy _ _ => { order := .plain }
  | .stamp _ => { order := o.stamp }
  | .advance _ => { order := .relaxed }
  | .notify _ => { order := .seqCst }
  | .wake _ => { order := .plain }

def SessionPc.access (o : Orders) : SessionPc → Access
  | .claimCursor _ _ => { order := .acqRel }
  | .initCursor _ _ => { order := .release }
  | .attachProduced => { order := .acquire }
  | .publishCursor => { order := .release }
  | .doRead _ => { order := o.doRead }
  | .copyValidate _ => { order := .relaxed, acquireFence := o.validateFence }
  | .validate => { order := .relaxed, acquireFence := o.validateFence }
  | .produced => { order := .acquire }
  | .waitAnnounce _ => { order := .seqCst }
  | .waitReload _ => { order := .seqCst }
  | .waitLeave _ => { order := .seqCst }
  | .retireValue _ _ => { order := .release }
  | .retireInUse _ _ => { order := .release }
  | _ => { order := .plain }

structure WeakSystem (ι : Type) where
  memory : WeakMemory (Thread ι) Loc Nat
  producer : Producer
  consumer : ι → Session

inductive WeakLabel (ι : Type) where
  | producer (time : Nat)
  | call (c : ι) (k : Call)
  | consumer (c : ι) (time : Nat)
  deriving DecidableEq, Repr

namespace Setup

variable {ι : Type} (S : Setup ι) (o : Orders)

def weakInitial (fresh : Loc → Nat) : WeakSystem ι where
  memory := .start (Ring.init fresh)
  producer := Producer.initial
  consumer _ := Session.initial S.cfg

variable [DecidableEq ι]

def weakStep : WeakLabel ι → WeakSystem ι → Option (WeakSystem ι)
  | .producer time, σ =>
      (σ.memory.exec (σ.producer.pc.access o) .producer time
        (σ.producer.code S.cfg S.stream)).map fun r =>
          { σ with producer := r.1, memory := r.2 }
  | .call c k, σ =>
      if S.client c (σ.consumer c) k then
        ((σ.consumer c).call S.cfg k).map fun s =>
          { σ with consumer := update σ.consumer c s }
      else none
  | .consumer c time, σ =>
      ((σ.consumer c).code S.cfg).bind fun i =>
        (σ.memory.exec ((σ.consumer c).pc.access o) (.consumer c) time i).map fun r =>
          { σ with consumer := update σ.consumer c r.1, memory := r.2 }

def weakLts : Lts (WeakLabel ι) (WeakSystem ι) := ⟨S.weakStep o⟩

def WeakReachable (σ : WeakSystem ι) : Prop :=
  ∃ fresh, (S.weakLts o).Reaches (S.weakInitial fresh) σ

inductive WeakStep : WeakLabel ι → WeakSystem ι → WeakSystem ι → Prop
  | producer {σ : WeakSystem ι} {time : Nat} {p : Producer} {m : WeakMemory (Thread ι) Loc Nat}
      (h : σ.memory.Effect (σ.producer.pc.access o) .producer
        (σ.producer.code S.cfg S.stream) p m) :
      WeakStep (.producer time) σ { σ with producer := p, memory := m }
  | call {σ : WeakSystem ι} {c : ι} {k : Call} {s : Session}
      (hc : S.client c (σ.consumer c) k = true) (h : (σ.consumer c).call S.cfg k = some s) :
      WeakStep (.call c k) σ { σ with consumer := update σ.consumer c s }
  | consumer {σ : WeakSystem ι} {c : ι} {time : Nat} {i : Instr Loc Nat Session} {s : Session}
      {m : WeakMemory (Thread ι) Loc Nat} (hi : (σ.consumer c).code S.cfg = some i)
      (h : σ.memory.Effect ((σ.consumer c).pc.access o) (.consumer c) i s m) :
      WeakStep (.consumer c time) σ
        { σ with consumer := update σ.consumer c s, memory := m }

-- what one step of the system is to the consumer c
inductive OwnStep (c : ι) (σ σ' : WeakSystem ι) : Prop
  | still (hs : σ'.consumer c = σ.consumer c)
  | call (k : Call) (hclient : S.client c (σ.consumer c) k = true)
      (hk : (σ.consumer c).enabled k = true)
      (hs : σ'.consumer c = ((σ.consumer c).noteCall k).enter S.cfg k)
  | own (i : Instr Loc Nat Session) (hi : (σ.consumer c).code S.cfg = some i)
      (hx : σ.memory.Effect ((σ.consumer c).pc.access o) (.consumer c) i (σ'.consumer c) σ'.memory)

variable {S o} {l : WeakLabel ι} {σ σ' : WeakSystem ι}

theorem weak_cases (h : S.weakStep o l σ = some σ') : S.WeakStep o l σ σ' := by
  cases l with
  | producer time =>
    obtain ⟨⟨p, m⟩, hx, rfl⟩ := Option.map_eq_some_iff.mp h
    exact .producer (WeakMemory.exec_effect hx)
  | call c k =>
    simp only [weakStep] at h
    split at h
    · obtain ⟨s, hx, rfl⟩ := Option.map_eq_some_iff.mp h
      exact .call ‹_› hx
    · cases h
  | consumer c time =>
    obtain ⟨i, hi, h⟩ := Option.bind_eq_some_iff.mp h
    obtain ⟨⟨s, m⟩, hx, rfl⟩ := Option.map_eq_some_iff.mp h
    exact .consumer hi (WeakMemory.exec_effect hx)

theorem weak_own (h : S.weakStep o l σ = some σ') (c : ι) : S.OwnStep o c σ σ' := by
  cases weak_cases h with
  | producer hx => exact .still rfl
  | @call _ b k s hclient hcall =>
    rcases eq_or_ne c b with rfl | hcb
    · obtain ⟨hk, rfl⟩ := Session.call_eq_some.mp hcall
      exact .call k hclient hk (update_self _ _ _)
    · exact .still (update_of_ne hcb _ _)
  | @consumer _ b time i s m hi hx =>
    rcases eq_or_ne c b with rfl | hcb
    · refine .own i hi ?_
      dsimp only
      rwa [update_self]
    · exact .still (update_of_ne hcb _ _)

theorem weak_mem_history (h : S.weakStep o l σ = some σ') {a : Loc} {e : Write Loc Nat}
    (he : e ∈ σ.memory.history a) : e ∈ σ'.memory.history a := by
  cases weak_cases h with
  | producer hx => exact hx.mem_history he
  | call => exact he
  | consumer hi hx => exact hx.mem_history he

theorem weak_grows (h : S.weakStep o l σ = some σ') (t : Thread ι) :
    (σ.memory.fronts t).Grows (σ'.memory.fronts t) := by
  cases weak_cases h with
  | producer hx => exact hx.grows_all t
  | call => exact .refl
  | consumer hi hx => exact hx.grows_all t

theorem weak_begun_le (h : S.weakStep o l σ = some σ') :
    σ.producer.begun ≤ σ'.producer.begun := by
  cases weak_cases h with
  | producer hx => exact Producer.begun_le_of_leads hx.leads
  | call => exact le_rfl
  | consumer => exact le_rfl

end Setup

namespace Session

variable {cfg : RingConfig} {s : Session}

theorem moves_of_cells (cells : Loc → Nat) {a : Loc} {next : Nat → Session}
    (hi : s.code cfg = some (.load a next)) : s.Moves cfg cells (next (cells a)) := by
  let m : RingMemory Unit := ⟨cells, fun _ => [], fun _ => none⟩
  have hx : m.exec .sc (fun _ => (0, 0)) .producer (.load a next) = some (next (cells a), m) := rfl
  exact moves_of_exec (fun _ _ => rfl) hi hx

theorem moves_of_value (v : Nat) {a : Loc} {next : Nat → Session}
    (hi : s.code cfg = some (.load a next)) : s.Moves cfg (fun _ => v) (next v) :=
  moves_of_cells (fun _ => v) hi

end Session

end Shimmy
