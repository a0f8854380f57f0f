import Shimmy.Concurrency.Memory
import Shimmy.Ring.Config

namespace Shimmy

open Concurrency

inductive ProducerPc where
  | idle
  | awaitInUse (seq i : Nat)
  | awaitValue (seq i : Nat)
  | mark (seq : Nat)
  | storeLen (seq : Nat)
  | copy (seq j : Nat)
  | stamp (seq : Nat)
  | advance (seq : Nat)
  | notify (seq : Nat)
  | wake (seq : Nat)
  deriving DecidableEq, Repr

structure Producer where
  pc : ProducerPc
  sent : Nat
  deriving DecidableEq, Repr

namespace RingConfig

variable (cfg : RingConfig)

def beginWrite (seq : Nat) : ProducerPc :=
  if cfg.overflow = .overwrite then .mark seq else .storeLen seq

def awaitFrom (seq i : Nat) : ProducerPc :=
  if i < cfg.maxConsumers then .awaitInUse seq i else cfg.beginWrite seq

def publishFrom (seq : Nat) : ProducerPc :=
  if cfg.overflow = .backpressure ∧ cfg.capacity ≤ seq then cfg.awaitFrom seq 0
  else cfg.beginWrite seq

end RingConfig

def copyFrom {blockSize : Nat} (msg : Message blockSize) (seq j : Nat) : ProducerPc :=
  if j < msg.len then .copy seq j else .stamp seq

namespace Producer

def initial : Producer := ⟨.idle, 0⟩

def returned (p : Producer) : Producer := ⟨.idle, p.sent + 1⟩

def code (cfg : RingConfig) (stream : Nat → Message cfg.blockSize) (p : Producer) :
    Instr Loc Nat Producer :=
  match p.pc with
  | .idle => .load .nextPublish fun seq => { p with pc := cfg.publishFrom seq }
  | .awaitInUse seq i => .load (.cursorInUse i) fun inUse =>
      { p with pc := if inUse = 0 then cfg.awaitFrom seq (i + 1) else .awaitValue seq i }
  | .awaitValue seq i => .load (.cursorValue i) fun value =>
      { p with pc := if value ≤ seq - cfg.capacity then cfg.awaitFrom seq 0
                     else cfg.awaitFrom seq (i + 1) }
  | .mark seq => .store (.slotSeq (cfg.slot seq)) writingSeq { p with pc := .storeLen seq }
  | .storeLen seq => .store (.slotLen (cfg.slot seq)) (stream p.sent).len
      { p with pc := copyFrom (stream p.sent) seq 0 }
  | .copy seq j => .store (.payload (cfg.slot seq) j) ((stream p.sent).bytes.getD j 0)
      { p with pc := copyFrom (stream p.sent) seq (j + 1) }
  | .stamp seq => .store (.slotSeq (cfg.slot seq)) seq { p with pc := .advance seq }
  | .advance seq => .store .nextPublish ((seq + 1) % 2 ^ 64)
      (if cfg.wait.blocks then { p with pc := .notify seq } else p.returned)
  | .notify seq => .load .waiters fun waiting =>
      if waiting = 0 then p.returned else { p with pc := .wake seq }
  | .wake seq => .futexWake (.slotSeq (cfg.slot seq)) p.returned

end Producer

end Shimmy
