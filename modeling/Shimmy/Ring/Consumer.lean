import Shimmy.Concurrency.Memory
import Shimmy.Ring.Config

namespace Shimmy

open Concurrency

structure Consumer where
  next : Nat
  readSeq : Nat
  cursorId : Nat
  lastStatus : ReadStatus
  deriving DecidableEq, Repr

namespace Consumer

def construct (cfg : RingConfig) : Consumer := ⟨0, 0, cfg.maxConsumers, .empty⟩

def moveTo (o : Consumer) : Consumer := o

def movedFrom (cfg : RingConfig) (o : Consumer) : Consumer :=
  { o with cursorId := cfg.maxConsumers }

def commit (o : Consumer) : Consumer := { o with next := (o.readSeq + 1) % 2 ^ 64 }

def seek (o : Consumer) (seq : Nat) : Consumer := { o with next := seq }

def resync (cfg : RingConfig) (o : Consumer) (produced : Nat) : Consumer :=
  { o with next := if produced > cfg.capacity then produced - cfg.capacity else 0 }

def classify (stamp want : Nat) : ReadStatus :=
  if stamp = want then .ok
  else if stamp = writingSeq then .empty
  else if stamp = emptySeq ∨ stamp < want then .empty
  else .lapped

def doRead (o : Consumer) (stamp : Nat) : Consumer :=
  if stamp = o.next then { o with readSeq := o.next, lastStatus := .ok }
  else { o with lastStatus := classify stamp o.next }

end Consumer

inductive ReadCall where
  | read
  | readBlocking (iter : Nat)
  | readCopy (outCap : Nat)
  deriving DecidableEq, Repr

inductive Call where
  | construct
  | attachAtCurrent
  | read
  | readBlocking
  | readCopy (outCap : Nat)
  | viewByte (j : Nat)
  | validate
  | commit
  | seek (seq : Nat)
  | produced
  | resync (produced : Nat)
  | move
  | destroy
  | destroyMoved
  deriving DecidableEq, Repr

inductive SessionPc where
  | unborn
  | claimCursor (i : Nat) (attach : Bool)
  | initCursor (i : Nat) (attach : Bool)
  | attachProduced
  | publishCursor
  | idle
  | doRead (call : ReadCall)
  | viewLen
  | viewByte (j : Nat)
  | copyLen (outCap : Nat)
  | copyByte (n j : Nat)
  | copyValidate (n : Nat)
  | validate
  | produced
  | waitAnnounce (iter : Nat)
  | waitReload (iter : Nat)
  | waitSyscall (iter cmp : Nat)
  | waitAsleep (iter : Nat)
  | waitLeave (iter : Nat)
  | retireValue (id : Nat) (last : Bool)
  | retireInUse (id : Nat) (last : Bool)
  | dead
  deriving DecidableEq, Repr

structure View where
  len : Nat
  bytes : List (Nat × Nat)
  deriving DecidableEq, Repr

structure Session where
  obj : Consumer
  pc : SessionPc
  view : Option View
  validated : Bool
  moved : List Consumer
  committed : List (Nat × Option View)
  produced : Option Nat
  returned : Nat
  entry : Nat
  lastCall : Option Call
  deriving DecidableEq, Repr

namespace Session

variable (cfg : RingConfig)

def initial : Session where
  obj := Consumer.construct cfg
  pc := .unborn
  view := none
  validated := false
  moved := []
  committed := []
  produced := none
  returned := 0
  entry := 0
  lastCall := none

def cursorPc (o : Consumer) : SessionPc :=
  if cfg.overflow = .backpressure ∧ o.cursorId ≠ cfg.maxConsumers ∧
      o.cursorId < cfg.maxConsumers then .publishCursor
  else .idle

def publishCursor (s : Session) : Session := { s with pc := cursorPc cfg s.obj }

def commit (s : Session) : Session :=
  publishCursor cfg { s with
    obj := s.obj.commit
    committed := s.committed ++ [(s.obj.readSeq, s.view)] }

def seek (s : Session) (seq : Nat) : Session := publishCursor cfg { s with obj := s.obj.seek seq }

def resync (s : Session) (produced : Nat) : Session :=
  publishCursor cfg { s with obj := s.obj.resync cfg produced, produced := none }

def construct (s : Session) (attach : Bool) : Session :=
  { s with
    obj := Consumer.construct cfg
    pc := if cfg.overflow = .backpressure then .claimCursor 0 attach
          else if attach then .attachProduced else .idle }

def registered (s : Session) (id : Nat) (attach : Bool) : Session :=
  { s with
    obj := { s.obj with cursorId := id }
    pc := if attach then .attachProduced else .idle }

def destructPc (o : Consumer) (last : Bool) : SessionPc :=
  if cfg.overflow = .backpressure ∧ o.cursorId ≠ cfg.maxConsumers ∧
      o.cursorId < cfg.maxConsumers then .retireValue o.cursorId last
  else if last then .dead else .idle

def destruct (s : Session) (o : Consumer) (last : Bool) : Session :=
  { s with pc := destructPc cfg o last }

def move (s : Session) : Session :=
  { s with obj := s.obj.moveTo, moved := s.obj.movedFrom cfg :: s.moved }

def beginRead (s : Session) (call : ReadCall) : Session :=
  { s with pc := .doRead call, produced := none }

def enabled (s : Session) : Call → Bool
  | .construct => s.pc = .unborn
  | .attachAtCurrent => s.pc = .unborn
  | .viewByte j => s.pc = .idle ∧ s.view.any fun v => j < v.len
  | .seek seq => s.pc = .idle ∧ seq < 2 ^ 64
  | .resync produced => s.pc = .idle ∧ produced < 2 ^ 64
  | .destroyMoved => s.pc = .idle ∧ s.moved ≠ []
  | _ => s.pc = .idle

def enter (s : Session) (k : Call) : Session :=
  match k with
  | .construct => s.construct cfg false
  | .attachAtCurrent => s.construct cfg true
  | .read => s.beginRead .read
  | .readBlocking => s.beginRead (.readBlocking 0)
  | .readCopy outCap => s.beginRead (.readCopy outCap)
  | .viewByte j => { s with pc := .viewByte j }
  | .validate => { s with pc := .validate }
  | .commit => s.commit cfg
  | .seek seq => s.seek cfg seq
  | .produced => { s with pc := .produced }
  | .resync produced => s.resync cfg produced
  | .move => s.move cfg
  | .destroy => s.destruct cfg s.obj true
  | .destroyMoved =>
      { s with moved := s.moved.tail }.destruct cfg (s.moved.headD (Consumer.construct cfg)) false

def noteCall (s : Session) (k : Call) : Session :=
  { s with entry := s.obj.next, lastCall := some k }

def call (k : Call) (s : Session) : Option Session :=
  if s.enabled k then some ((s.noteCall k).enter cfg k) else none

def waitPc (iter : Nat) : SessionPc :=
  if cfg.wait.blocks ∧ spinBeforeSyscall ≤ iter then .waitAnnounce iter
  else .doRead (.readBlocking ((iter + 1) % 2 ^ 64))

def afterDoRead (s : Session) (call : ReadCall) (stamp : Nat) : Session :=
  let s' : Session := { s with obj := s.obj.doRead stamp }
  match s'.obj.lastStatus, call with
  | .ok, .readCopy outCap => { s' with pc := .copyLen outCap, view := none, validated := false }
  | .ok, _ => { s' with pc := .viewLen, view := none, validated := false }
  | .empty, .readBlocking iter => { s' with pc := waitPc cfg iter }
  | _, _ => { s' with pc := .idle, returned := 0 }

def copyFromPc (n j : Nat) : SessionPc := if j < n then .copyByte n j else .copyValidate n

def viewed (s : Session) (j b : Nat) : Session :=
  { s with view := s.view.map fun v => { v with bytes := v.bytes ++ [(j, b)] } }

def afterCopy (s : Session) (n : Nat) (valid : Bool) : Session :=
  if valid then { s with validated := true, returned := n }.commit cfg
  else { s with
    obj := { s.obj with lastStatus := .lapped }
    pc := .idle
    validated := false
    returned := 0 }

def code (s : Session) : Option (Instr Loc Nat Session) :=
  match s.pc with
  | .unborn => none
  | .claimCursor i attach => some (.rmw (.cursorInUse i) (fun v => if v = 0 then 1 else v)
      fun v => if v = 0 then { s with pc := .initCursor i attach }
        else if i + 1 < cfg.maxConsumers then { s with pc := .claimCursor (i + 1) attach }
        else s.registered cfg.maxConsumers attach)
  | .initCursor i attach => some (.store (.cursorValue i) 0 (s.registered i attach))
  | .attachProduced => some (.load .nextPublish fun cur => s.seek cfg cur)
  | .publishCursor => some (.store (.cursorValue s.obj.cursorId) s.obj.next
      { s with pc := .idle })
  | .idle => none
  | .doRead call => some (.load (.slotSeq (cfg.slot s.obj.next)) (s.afterDoRead cfg call))
  | .viewLen => some (.load (.slotLen (cfg.slot s.obj.readSeq)) fun len =>
      { s with pc := .idle, view := some ⟨len, []⟩, validated := false })
  | .viewByte j => some (.load (.payload (cfg.slot s.obj.readSeq) j) fun b =>
      { s.viewed j b with pc := .idle, validated := false })
  | .copyLen outCap => some (.load (.slotLen (cfg.slot s.obj.readSeq)) fun len =>
      { s with
        pc := copyFromPc (if len ≤ outCap then len else outCap) 0
        view := some ⟨len, []⟩
        validated := false })
  | .copyByte n j => some (.load (.payload (cfg.slot s.obj.readSeq) j) fun b =>
      { s.viewed j b with pc := copyFromPc n (j + 1), validated := false })
  | .copyValidate n => some (.load (.slotSeq (cfg.slot s.obj.readSeq)) fun stamp =>
      s.afterCopy cfg n (stamp = s.obj.readSeq))
  | .validate => some (.load (.slotSeq (cfg.slot s.obj.readSeq)) fun stamp =>
      { s with pc := .idle, validated := stamp = s.obj.readSeq })
  | .produced => some (.load .nextPublish fun n => { s with pc := .idle, produced := some n })
  | .waitAnnounce iter => some (.rmw .waiters (fun n => (n + 1) % 2 ^ 32)
      fun _ => { s with pc := .waitReload iter })
  | .waitReload iter => some (.load (.slotSeq (cfg.slot s.obj.next)) fun seen =>
      { s with pc := if s.obj.next ≤ seen then .waitLeave iter
                     else .waitSyscall iter (seen % 2 ^ 32) })
  | .waitSyscall iter cmp => some (.futexWait (.slotSeq (cfg.slot s.obj.next))
      (fun word => word % 2 ^ 32 = cmp)
      { s with pc := .waitAsleep iter } { s with pc := .waitLeave iter })
  | .waitAsleep iter => some (.blocked { s with pc := .waitLeave iter })
  | .waitLeave iter => some (.rmw .waiters (fun n => (n + (2 ^ 32 - 1)) % 2 ^ 32)
      fun _ => { s with pc := .doRead (.readBlocking ((iter + 1) % 2 ^ 64)) })
  | .retireValue id last => some (.store (.cursorValue id) (2 ^ 64 - 1)
      { s with pc := .retireInUse id last })
  | .retireInUse id last => some (.store (.cursorInUse id) 0
      { s with pc := if last then .dead else .idle })
  | .dead => none

end Session

end Shimmy
