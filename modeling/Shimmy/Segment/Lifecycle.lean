import Shimmy.Concurrency.Lts
import Shimmy.Segment.Kernel

namespace Shimmy

open Concurrency Function

structure SegmentHandle extends ShmSegment where
  map : Option Nat
  fd : Option Nat
  hugepagesActive : Bool
  name : String
  deriving DecidableEq, Repr

structure SegmentOptions where
  hugepages : Bool := false
  mode : Nat := 0o600
  deriving DecidableEq, Repr

namespace SegmentHandle

def empty : SegmentHandle where
  ring := none
  mapBytes := 0
  ownsName := false
  map := none
  fd := none
  hugepagesActive := false
  name := ""

def isCreator (seg : SegmentHandle) : Bool := seg.ownsName

def swap (seg other : SegmentHandle) : SegmentHandle × SegmentHandle := (other, seg)

def releaseNameOwnership (seg : SegmentHandle) : SegmentHandle := { seg with ownsName := false }

end SegmentHandle

structure Frame (P : Type) where
  seg : SegmentHandle
  kernel : Kernel P

def hugeBytes : Nat := 2 * 1024 * 1024

namespace Frame

variable {P : Type} [DecidableEq P]

def munmap (p : P) (f : Frame P) : Frame P :=
  match f.seg.map with
  | some a =>
    ⟨{ f.seg with map := none, mapBytes := 0 }, f.kernel.munmap (p, a) f.seg.mapBytes⟩
  | none => f

def close (p : P) (f : Frame P) : Frame P :=
  match f.seg.fd with
  | some fd => ⟨{ f.seg with fd := none }, f.kernel.close (p, fd)⟩
  | none => f

def unlinks (f : Frame P) : Bool := f.seg.ownsName && f.seg.name ≠ ""

def shmUnlink (ans : Answers) (f : Frame P) : Frame P :=
  if f.unlinks then ⟨f.seg, f.kernel.shmUnlink ans.shmUnlink f.seg.name⟩ else f

def cleared (seg : SegmentHandle) : SegmentHandle :=
  { seg with ring := none, ownsName := false, hugepagesActive := false, name := "" }

def reset (ans : Answers) (p : P) (f : Frame P) : Frame P :=
  let f := ((f.munmap p).close p).shmUnlink ans
  ⟨cleared f.seg, f.kernel⟩

theorem reset_seg (ans : Answers) (p : P) (f : Frame P) : (f.reset ans p).seg =
    { SegmentHandle.empty with mapBytes := if f.seg.map.isSome then 0 else f.seg.mapBytes } := by
  obtain ⟨⟨⟨ring, mapBytes, ownsName⟩, map, fd, hugepagesActive, name⟩, k⟩ := f
  have hunlink (f' : Frame P) : (f'.shmUnlink ans).seg = f'.seg := by
    unfold shmUnlink
    split <;> rfl
  simp only [reset, hunlink]
  cases map <;> cases fd <;> rfl

section reset

variable (ans : Answers) (p : P) (f : Frame P)

theorem munmap_keeps : (f.munmap p).kernel.names = f.kernel.names ∧
    (f.munmap p).kernel.objects = f.kernel.objects ∧
    (f.munmap p).kernel.unlinkCalls = f.kernel.unlinkCalls ∧
    (f.munmap p).seg.ownsName = f.seg.ownsName ∧ (f.munmap p).seg.name = f.seg.name := by
  unfold munmap
  split <;> exact ⟨rfl, rfl, rfl, rfl, rfl⟩

theorem close_keeps : (f.close p).kernel.names = f.kernel.names ∧
    (f.close p).kernel.objects = f.kernel.objects ∧
    (f.close p).kernel.unlinkCalls = f.kernel.unlinkCalls ∧
    (f.close p).kernel.maps = f.kernel.maps ∧
    (f.close p).seg.ownsName = f.seg.ownsName ∧ (f.close p).seg.name = f.seg.name := by
  unfold close
  split <;> exact ⟨rfl, rfl, rfl, rfl, rfl, rfl⟩

theorem released_unlinks : ((f.munmap p).close p).unlinks = f.unlinks := by
  obtain ⟨-, -, -, hmo, hmm⟩ := f.munmap_keeps p
  obtain ⟨-, -, -, -, hco, hcm⟩ := (f.munmap p).close_keeps p
  simp only [unlinks, hco, hmo, hcm, hmm]

theorem reset_names : (f.reset ans p).kernel.names =
    if f.unlinks ∧ ans.shmUnlink = none then update f.kernel.names f.seg.name none
    else f.kernel.names := by
  obtain ⟨hmn, -, -, -, hmm⟩ := f.munmap_keeps p
  obtain ⟨hcn, -, -, -, -, hcm⟩ := (f.munmap p).close_keeps p
  unfold reset shmUnlink
  rw [released_unlinks, hcm, hmm]
  by_cases hu : f.unlinks <;> simp [hu, Kernel.shmUnlink, hcn, hmn]

theorem reset_unlinkCalls : (f.reset ans p).kernel.unlinkCalls =
    f.kernel.unlinkCalls ++ if f.unlinks then [f.seg.name] else [] := by
  obtain ⟨-, -, hmu, -, hmm⟩ := f.munmap_keeps p
  obtain ⟨-, -, hcu, -, -, hcm⟩ := (f.munmap p).close_keeps p
  unfold reset shmUnlink
  rw [released_unlinks, hcm, hmm]
  by_cases hu : f.unlinks <;> simp [hu, Kernel.shmUnlink, hcu, hmu]

theorem reset_objects : (f.reset ans p).kernel.objects = f.kernel.objects := by
  obtain ⟨-, hmo, -⟩ := f.munmap_keeps p
  obtain ⟨-, hco, -⟩ := (f.munmap p).close_keeps p
  unfold reset shmUnlink
  split <;> exact hco.trans hmo

theorem reset_maps : (f.reset ans p).kernel.maps = (f.munmap p).kernel.maps := by
  obtain ⟨-, -, -, hcm, -⟩ := (f.munmap p).close_keeps p
  unfold reset shmUnlink
  split <;> exact hcm

end reset

def returned (f : Frame P) : Except Thrown SegmentHandle × Kernel P := (.ok f.seg, f.kernel)

def unwind (ans : Answers) (p : P) (thrown : Thrown) (f : Frame P) :
    Except Thrown SegmentHandle × Kernel P :=
  (.error thrown, (f.reset ans p).kernel)

def shmOpenCreate (p : P) (fd mode : Nat) (f : Frame P) : Frame P :=
  ⟨{ f.seg with fd := some fd }, f.kernel.shmOpenCreate (p, fd) f.seg.name mode⟩

def shmOpenExisting (p : P) (fd : Nat) (f : Frame P) : Frame P :=
  ⟨{ f.seg with fd := some fd }, f.kernel.shmOpenExisting (p, fd) f.seg.name⟩

def ftruncate (p : P) (fd bytes : Nat) (f : Frame P) : Frame P :=
  ⟨f.seg, f.kernel.ftruncate (p, fd) bytes⟩

def mmapShared (p : P) (fd a bytes : Nat) (f : Frame P) : Frame P :=
  ⟨{ f.seg with map := some a, mapBytes := bytes }, f.kernel.mmapShared (p, a) (p, fd) bytes⟩

def tryCreateHugetlb (ans : Answers) (p : P) (bytes : Nat) (f : Frame P) : Bool × Frame P :=
  match ans.mmapHuge with
  | .error _ => (false, f)
  | .ok a =>
    let rounded := alignUp bytes hugeBytes
    let seg := { f.seg with
      map := some a
      mapBytes := rounded
      hugepagesActive := true
      ownsName := false }
    (true, ⟨seg, f.kernel.mmapAnonymous (p, a) rounded⟩)

def constructRingAndPublishHeader (p : P) (cfg : RingConfig) (f : Frame P) : Frame P :=
  let kernel := match f.seg.map.bind fun a => f.kernel.maps (p, a) with
    | some m => f.kernel.write m.object (cfg.constructRingAndPublishHeader.foldl SharedObject.apply)
    | none => f.kernel
  ⟨{ f.seg with ring := some ringOffset }, kernel⟩

end Frame

namespace SegmentHandle

variable {P : Type} [DecidableEq P]

def createNamed (ans : Answers) (p : P) (cfg : RingConfig) (mode : Nat) (f : Frame P) :
    Except Thrown SegmentHandle × Kernel P :=
  match ans.shmOpen with
  | .error errno => f.unwind ans p (.osError errno "shm_open(O_CREAT)")
  | .ok fd =>
    let f := f.shmOpenCreate p fd mode
    match ans.ftruncate with
    | some errno => f.unwind ans p (.osError errno "ftruncate")
    | none =>
      let f := f.ftruncate p fd cfg.segmentBytes
      match ans.mmap with
      | .error errno => f.unwind ans p (.osError errno "mmap")
      | .ok a =>
        ((f.mmapShared p fd a cfg.segmentBytes).constructRingAndPublishHeader p cfg).returned

def create (ans : Answers) (p : P) (cfg : RingConfig) (name : String) (opts : SegmentOptions)
    (k : Kernel P) : Except Thrown SegmentHandle × Kernel P :=
  let f : Frame P := ⟨{ empty with name := name, ownsName := true }, k⟩
  match if opts.hugepages then f.tryCreateHugetlb ans p cfg.segmentBytes else (false, f) with
  | (true, f) => (f.constructRingAndPublishHeader p cfg).returned
  | (false, f) => createNamed ans p cfg opts.mode f

def validateHeader (ans : Answers) (p : P) (cfg : RingConfig) (o : SharedObject) (f : Frame P) :
    Except Thrown SegmentHandle × Kernel P :=
  match ShmSegment.validateHeader cfg o f.seg.toShmSegment with
  | .error thrown => f.unwind ans p thrown
  | .ok seg => (Frame.mk { f.seg with toShmSegment := seg } f.kernel).returned

def openDescriptor (ans : Answers) (p : P) (cfg : RingConfig) (fd : Nat) (f : Frame P) :
    Except Thrown SegmentHandle × Kernel P :=
  match ans.fstat with
  | some errno => f.unwind ans p (.osError errno "fstat")
  | none =>
    let size := (f.kernel.fileOf (p, fd)).size
    if size < SegmentHeader.sizeof then
      f.unwind ans p (.layoutError ("segment too small to contain a shimmy header (size=" ++
        toString size ++ ")"))
    else
      match ans.mmap with
      | .error errno => f.unwind ans p (.osError errno "mmap(open existing)")
      | .ok a =>
        let f := f.mmapShared p fd a cfg.segmentBytes
        validateHeader ans p cfg (f.kernel.viewOf (p, a)) f

def openSegment (ans : Answers) (p : P) (cfg : RingConfig) (name : String) (k : Kernel P) :
    Except Thrown SegmentHandle × Kernel P :=
  let f : Frame P := ⟨{ empty with name := name, ownsName := false }, k⟩
  match ans.shmOpen with
  | .error errno => f.unwind ans p (.osError errno "shm_open(open existing)")
  | .ok fd => openDescriptor ans p cfg fd (f.shmOpenExisting p fd)

end SegmentHandle

def Answers.os (ans : Answers) : Os where
  shmOpen := match ans.shmOpen with
    | .ok _ => none
    | .error errno => some errno
  fstat := ans.fstat
  mmap _ := match ans.mmap with
    | .ok _ => none
    | .error errno => some errno

def calm (fd addr : Nat) : Answers where
  shmOpen := .ok fd
  ftruncate := none
  fstat := none
  mmapHuge := .error 12
  mmap := .ok addr
  shmUnlink := none

inductive Factory where
  | create (name : String) (opts : SegmentOptions)
  | openSegment (name : String)
  deriving DecidableEq, Repr

namespace Factory

variable {P : Type} [DecidableEq P]

def name : Factory → String
  | .create name _ => name
  | .openSegment name => name

def call (ans : Answers) (p : P) (cfg : RingConfig) :
    Factory → Kernel P → Except Thrown SegmentHandle × Kernel P
  | .create name opts, k => SegmentHandle.create ans p cfg name opts k
  | .openSegment name, k => SegmentHandle.openSegment ans p cfg name k

def nameReady (k : Kernel P) : Factory → Bool
  | .create name _ => name ≠ ""
  | .openSegment name => (k.names name).isSome

def lawful (ans : Answers) (p : P) (k : Kernel P) (factory : Factory) : Bool :=
  k.fdFree p ans.shmOpen && k.mapFree p ans.mmap && k.mapFree p ans.mmapHuge &&
    match ans.shmOpen with
    | .ok _ => factory.nameReady k
    | .error _ => true

end Factory

namespace SegmentHandle

variable {P : Type} [DecidableEq P] {ans : Answers} {p : P} {cfg : RingConfig} {name : String}
  {k : Kernel P} {object : Nat}

theorem openSegment_view (hname : k.names name = some object) :
    (openSegment ans p cfg name k).1.map toShmSegment =
      ShmSegment.openSegment ans.os cfg (k.objects object) := by
  unfold openSegment ShmSegment.openSegment Answers.os
  cases ans.shmOpen with
  | error errno => rfl
  | ok fd =>
    have hkernel : k.shmOpenExisting (p, fd) name = k.shmOpen (p, fd) object := by
      simp only [Kernel.shmOpenExisting, hname]
    have hfile : (k.shmOpen (p, fd) object).fileOf (p, fd) = k.objects object := by
      simp [Kernel.fileOf, Kernel.shmOpen]
    simp only [openDescriptor, Frame.shmOpenExisting, hkernel, hfile]
    cases ans.fstat with
    | some errno => rfl
    | none =>
      dsimp only
      split
      · rfl
      · cases ans.mmap with
        | error errno => rfl
        | ok a =>
          have hview : ((k.shmOpen (p, fd) object).mmapShared (p, a) (p, fd)
              cfg.segmentBytes).viewOf (p, a) = k.objects object := by
            simp [Kernel.viewOf, Kernel.mmapShared, Kernel.shmOpen, Kernel.mmap]
          simp only [Frame.mmapShared, hview, validateHeader]
          generalize hr : ShmSegment.validateHeader cfg (k.objects object) _ = r
          have hr' : ShmSegment.validateHeader cfg (k.objects object)
              ⟨none, cfg.segmentBytes, false⟩ = r := hr
          rw [hr']
          cases r <;> rfl

theorem create_contents {opts : SegmentOptions} {seg : SegmentHandle} {k' : Kernel P}
    (hopts : opts.hugepages = false) (hc : create ans p cfg name opts k = (.ok seg, k')) :
    ∃ object, k'.names name = some object ∧ k'.objects object = SharedObject.create cfg := by
  simp only [create, hopts, Bool.false_eq_true, if_false, createNamed] at hc
  cases hopen : ans.shmOpen with
  | error errno =>
    rw [hopen] at hc
    cases hc
  | ok fd =>
    cases htrunc : ans.ftruncate with
    | some errno =>
      simp only [hopen, htrunc] at hc
      cases hc
    | none =>
      cases hmm : ans.mmap with
      | error errno =>
        simp only [hopen, htrunc, hmm] at hc
        cases hc
      | ok a =>
        simp only [hopen, htrunc, hmm, Frame.returned, Frame.constructRingAndPublishHeader,
          Frame.mmapShared, Frame.ftruncate, Frame.shmOpenCreate, Prod.mk.injEq,
          Option.bind_some] at hc
        obtain ⟨-, rfl⟩ := hc
        have hfd := congrFun (@Kernel.fds_shmOpenCreate P _ k (p, fd) name opts.mode) (p, fd)
        have hlinked := congrFun (@Kernel.names_shmOpenCreate P _ k (p, fd) name opts.mode) name
        have hzero := congrFun (@Kernel.objects_shmOpenCreate P _ k (p, fd) name opts.mode)
          ((k.names name).getD k.created)
        rw [update_self] at hfd hlinked hzero
        generalize (k.names name).getD k.created = object at hfd hlinked hzero
        refine ⟨object, ?_, ?_⟩
        · simp [Kernel.ftruncate, Kernel.mmapShared, Kernel.mmap, Kernel.write, hfd, hlinked]
        · simp [Kernel.ftruncate, Kernel.mmapShared, Kernel.mmap, Kernel.write, hfd, hzero]
          rfl

theorem open_created {opts : SegmentOptions} {seg : SegmentHandle} {k' : Kernel P}
    {ans' : Answers} {q : P} {cfg' : RingConfig} {fd addr : Nat} (hopts : opts.hugepages = false)
    (hc : create ans p cfg name opts k = (.ok seg, k')) (hopen : ans'.shmOpen = .ok fd)
    (hstat : ans'.fstat = none) (hmap : ans'.mmap = .ok addr) :
    (openSegment ans' q cfg' name k').1.map toShmSegment =
      match Check.run cfg.recorded cfg'.checks with
      | some what => .error (.layoutError what)
      | none => .ok ⟨some ringOffset, cfg'.segmentBytes, false⟩ := by
  obtain ⟨object, hname, hobject⟩ := create_contents hopts hc
  rw [openSegment_view hname, hobject]
  exact ShmSegment.openSegment_create (by simp [Answers.os, hopen]) hstat
    (by simp [Answers.os, hmap])

def blankKernel : Kernel Bool where
  names _ := none
  objects _ := .truncated 0
  modes _ := 0
  created := 0
  fds _ := none
  maps _ := none
  fdCalls := []
  mapCalls := []
  unlinkCalls := []

theorem open_created_pair : ∃ seg k',
    create (calm 3 4096) false ShmSegment.spinPair "/ring" {} blankKernel = (.ok seg, k') ∧
    (openSegment (calm 5 8192) true ShmSegment.spinPair "/ring" k').1.map toShmSegment =
      .ok ⟨some ringOffset, ShmSegment.spinPair.segmentBytes, false⟩ := by
  obtain ⟨seg, k', hc⟩ : ∃ seg k',
      create (calm 3 4096) false ShmSegment.spinPair "/ring" {} blankKernel = (.ok seg, k') :=
    ⟨_, _, rfl⟩
  refine ⟨seg, k', hc, ?_⟩
  refine (open_created rfl hc rfl rfl rfl).trans ?_
  rw [Check.run_eq_none.mpr RingConfig.checks_recorded]

end SegmentHandle

end Shimmy
