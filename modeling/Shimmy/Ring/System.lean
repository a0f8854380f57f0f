import Shimmy.Ring.Consumer
import Shimmy.Ring.Producer

namespace Shimmy

open Concurrency Function

inductive Thread (ι : Type) where
  | producer
  | consumer (c : ι)
  deriving DecidableEq, Repr

structure Process where
  space : Nat
  base : Nat
  deriving DecidableEq, Repr

instance oneConsumer : NeZero 1 := ⟨Nat.succ_ne_zero 0⟩

instance twoConsumers : NeZero 2 := ⟨Nat.succ_ne_zero 1⟩

instance threeConsumers : NeZero 3 := ⟨Nat.succ_ne_zero 2⟩

instance fourConsumers : NeZero 4 := ⟨Nat.succ_ne_zero 3⟩

abbrev RingMemory (ι : Type) := Memory (Thread ι) Loc Nat (Nat × Nat)

structure Setup (ι : Type) where
  cfg : RingConfig
  stream : Nat → Message cfg.blockSize
  client : ι → Session → Call → Bool
  model : Model
  process : Thread ι → Process

structure System (ι : Type) where
  memory : RingMemory ι
  producer : Producer
  consumer : ι → Session

inductive Label (ι : Type) where
  | producer
  | call (c : ι) (k : Call)
  | consumer (c : ι)
  | drain (t : Thread ι)
  deriving DecidableEq, Repr

namespace Setup

variable {ι : Type} (S : Setup ι)

def key (t : Thread ι) (a : Loc) : Nat × Nat :=
  ((S.process t).space, (S.process t).base + S.cfg.offset a)

def initial (fresh : Loc → Nat) : System ι where
  memory := ⟨Ring.init fresh, fun _ => [], fun _ => none⟩
  producer := Producer.initial
  consumer _ := Session.initial S.cfg

variable [DecidableEq ι]

def step : Label ι → System ι → Option (System ι)
  | .producer, σ =>
      (σ.memory.exec S.model (S.key .producer) .producer
        (σ.producer.code S.cfg S.stream)).map fun r =>
          { σ with producer := r.1, memory := r.2 }
  | .call c k, σ =>
      if S.client c (σ.consumer c) k then
        ((σ.consumer c).call S.cfg k).map fun s =>
          { σ with consumer := update σ.consumer c s }
      else none
  | .consumer c, σ =>
      ((σ.consumer c).code S.cfg).bind fun i =>
        (σ.memory.exec S.model (S.key (.consumer c)) (.consumer c) i).map fun r =>
          { σ with consumer := update σ.consumer c r.1, memory := r.2 }
  | .drain t, σ => (σ.memory.drain t).map fun m => { σ with memory := m }

def lts : Lts (Label ι) (System ι) := ⟨S.step⟩

def Reachable (σ : System ι) : Prop :=
  ∃ fresh, S.lts.Reaches (S.initial fresh) σ

end Setup

end Shimmy
