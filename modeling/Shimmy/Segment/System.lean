import Shimmy.Ring.Session
import Shimmy.Segment.Header

namespace Shimmy

open Concurrency Function

inductive Handle where
  | closed
  | checking (passed : Nat)
  | ready
  deriving DecidableEq, Repr

structure Segment (ι : Type) where
  present : Bool
  header : Field → Nat
  creator : Option (List Store)
  handle : Thread ι → Handle
  ring : System ι

inductive SegmentLabel (ι : Type) where
  | create
  | build
  | creatorCrash
  | adopt
  | openSegment (t : Thread ι)
  | check (t : Thread ι)
  | ring (l : Label ι)
  | publisherCrash
  deriving DecidableEq, Repr

inductive Fate (blockSize : Nat) where
  | zeroed
  | blank
  | stamped (seq : Nat) (msg : Message blockSize)

structure History (ι : Type) (blockSize : Nat) where
  fate : Nat → Fate blockSize
  torn : Nat → Bool
  disturbed : ι → Bool
  recreated : Thread ι → Bool
  published : List (Nat × Message blockSize)

structure Lifetime (ι : Type) (blockSize : Nat) where
  segment : Segment ι
  history : History ι blockSize

def Label.thread {ι : Type} : Label ι → Thread ι
  | .producer => .producer
  | .call c _ => .consumer c
  | .consumer c => .consumer c
  | .drain t => t

def Fate.isZeroed {blockSize : Nat} : Fate blockSize → Bool
  | .zeroed => true
  | _ => false

def Fate.isStamped {blockSize : Nat} : Fate blockSize → Bool
  | .stamped _ _ => true
  | _ => false

def Producer.crashed (p : Producer) : Producer :=
  ⟨.idle, if p.pc = .idle then p.sent else p.sent + 1⟩

def Session.sights (cfg : RingConfig) (cells : Loc → Nat) (s : Session) : Bool :=
  match s.pc with
  | .doRead _ => cells (.slotSeq (cfg.slot s.obj.next)) = s.obj.next
  | _ => false

namespace Segment

variable {ι : Type}

def cells (σ : Segment ι) : Loc → Nat := σ.ring.memory.cells

def withCells (σ : Segment ι) (cells : Loc → Nat) : Segment ι :=
  { σ with ring := { σ.ring with memory := { σ.ring.memory with cells := cells } } }

def building (σ : Segment ι) : Bool :=
  match σ.creator with
  | some (_ :: _) => true
  | _ => false

def stored (σ : Segment ι) : Store → Segment ι
  | .header f v => { σ with header := update σ.header f v }
  | .ring a v => σ.withCells (update σ.cells a v)

def vacant (ring : System ι) : Segment ι where
  present := false
  header _ := 0
  creator := none
  handle _ := .closed
  ring := ring

end Segment

def Handle.afterCheck (cfg : RingConfig) (header : Field → Nat) (passed : Nat) (k : Check) :
    Handle :=
  if k.Passes header then
    if passed + 1 < cfg.checks.length then .checking (passed + 1) else .ready
  else .closed

def Handle.checksState (cfg : RingConfig) : Handle → Bool
  | .checking passed => cfg.checks[passed]?.any fun k => k.field = .state
  | _ => false

namespace History

variable {ι : Type} {blockSize : Nat}

def fresh (ι : Type) (blockSize : Nat) : History ι blockSize where
  fate _ := .zeroed
  torn _ := false
  disturbed _ := true
  recreated _ := true
  published := []

def truncated (h : History ι blockSize) : History ι blockSize :=
  { h with
    fate := fun _ => .zeroed
    torn := fun _ => false
    disturbed := fun _ => true
    recreated := fun _ => true }

def tear (h : History ι blockSize) (i : Nat) : History ι blockSize :=
  { h with torn := update h.torn i true }

def rebuilt (h : History ι blockSize) : Store → History ι blockSize
  | .ring (.slotSeq i) v =>
      { h with fate := update h.fate i (if v = emptySeq then .blank else .zeroed) }
  | _ => h

def stamp (h : History ι blockSize) (i seq : Nat) (msg : Message blockSize) (slot : ι → Nat) :
    History ι blockSize where
  fate := update h.fate i (.stamped seq msg)
  torn := update h.torn i false
  disturbed c := h.disturbed c || slot c = i
  recreated := h.recreated
  published := (seq, msg) :: h.published

variable [DecidableEq ι]

def sighted (h : History ι blockSize) (c : ι) : History ι blockSize :=
  { h with disturbed := update h.disturbed c false }

def looked (h : History ι blockSize) (t : Thread ι) : History ι blockSize :=
  { h with recreated := update h.recreated t false }

end History

namespace Setup

variable {ι : Type} [DecidableEq ι] (S : Setup ι)

def segmentStep : SegmentLabel ι → Segment ι → Option (Segment ι)
  | .create, σ =>
      if σ.creator = none then
        some { σ.withCells (fun _ => 0) with
          present := true
          header := fun _ => 0
          creator := some S.cfg.constructRingAndPublishHeader }
      else none
  | .build, σ =>
      match σ.creator with
      | some (w :: ws) => some { σ.stored w with creator := some ws }
      | _ => none
  | .creatorCrash, σ => if σ.creator = none then none else some { σ with creator := none }
  | .adopt, σ =>
      if σ.creator = some [] ∧ σ.handle .producer = .closed then
        some { σ with handle := update σ.handle .producer .ready }
      else none
  | .openSegment t, σ =>
      if σ.present = true ∧ σ.handle t = .closed then
        some { σ with handle := update σ.handle t (.checking 0) }
      else none
  | .check t, σ =>
      match σ.handle t with
      | .checking passed => S.cfg.checks[passed]?.map fun k =>
          { σ with handle := update σ.handle t (Handle.afterCheck S.cfg σ.header passed k) }
      | _ => none
  | .ring l, σ =>
      if σ.handle l.thread = .ready then
        (S.step l σ.ring).map fun ring => { σ with ring := ring }
      else none
  | .publisherCrash, σ =>
      if σ.handle .producer = .closed then none
      else some { σ with
        handle := update σ.handle .producer .closed
        ring := { σ.ring with producer := σ.ring.producer.crashed } }

def noteRing (σ : System ι) (h : History ι S.cfg.blockSize) :
    Label ι → History ι S.cfg.blockSize
  | .producer =>
      match σ.producer.pc with
      | .mark seq => h.tear (S.cfg.slot seq)
      | .storeLen seq => h.tear (S.cfg.slot seq)
      | .stamp seq => h.stamp (S.cfg.slot seq) seq (S.stream σ.producer.sent)
          fun c => S.cfg.slot (σ.consumer c).obj.readSeq
      | _ => h
  | .consumer c => if (σ.consumer c).sights S.cfg σ.memory.cells then h.sighted c else h
  | _ => h

def note (σ : Segment ι) (h : History ι S.cfg.blockSize) :
    SegmentLabel ι → History ι S.cfg.blockSize
  | .create => h.truncated
  | .build =>
      match σ.creator with
      | some (w :: _) => h.rebuilt w
      | _ => h
  | .check t => if (σ.handle t).checksState S.cfg then h.looked t else h
  | .ring l => S.noteRing σ.ring h l
  | _ => h

def lifetimeStep (l : SegmentLabel ι) (ρ : Lifetime ι S.cfg.blockSize) :
    Option (Lifetime ι S.cfg.blockSize) :=
  (S.segmentStep l ρ.segment).map fun σ => ⟨σ, S.note ρ.segment ρ.history l⟩

def unborn (fresh : Loc → Nat) : Lifetime ι S.cfg.blockSize where
  segment := .vacant (S.initial fresh)
  history := .fresh ι S.cfg.blockSize

end Setup

end Shimmy
