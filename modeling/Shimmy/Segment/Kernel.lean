import Shimmy.Concurrency.Custody
import Shimmy.Segment.Header

namespace Shimmy

open Concurrency Function

structure Mapping where
  length : Nat
  object : Nat
  deriving DecidableEq, Repr

structure Answers where
  shmOpen : Except Nat Nat
  ftruncate : Option Nat
  fstat : Option Nat
  mmapHuge : Except Nat Nat
  mmap : Except Nat Nat
  shmUnlink : Option Nat

structure Kernel (P : Type) where
  names : String → Option Nat
  objects : Nat → SharedObject
  modes : Nat → Nat
  created : Nat
  fds : P × Nat → Option Nat
  maps : P × Nat → Option Mapping
  fdCalls : List (Entry (P × Nat) Unit)
  mapCalls : List (Entry (P × Nat) Nat)
  unlinkCalls : List String

namespace Kernel

variable {P : Type} [DecidableEq P]

def shmOpen (k : Kernel P) (d : P × Nat) (object : Nat) : Kernel P :=
  { k with
    fds := update k.fds d (some object)
    fdCalls := k.fdCalls ++ [.acquire d ()] }

def shmOpenCreate (k : Kernel P) (d : P × Nat) (name : String) (mode : Nat) : Kernel P :=
  match k.names name with
  | some object =>
    { k with objects := update k.objects object (.truncated 0) }.shmOpen d object
  | none =>
    { k with
      names := update k.names name (some k.created)
      objects := update k.objects k.created (.truncated 0)
      modes := update k.modes k.created mode
      created := k.created + 1 }.shmOpen d k.created

def shmOpenExisting (k : Kernel P) (d : P × Nat) (name : String) : Kernel P :=
  match k.names name with
  | some object => k.shmOpen d object
  | none => k

def ftruncate (k : Kernel P) (d : P × Nat) (bytes : Nat) : Kernel P :=
  match k.fds d with
  | some object =>
    { k with objects := update k.objects object { k.objects object with size := bytes } }
  | none => k

def mmap (k : Kernel P) (a : P × Nat) (m : Mapping) : Kernel P :=
  { k with
    maps := update k.maps a (some m)
    mapCalls := k.mapCalls ++ [.acquire a m.length] }

def mmapAnonymous (k : Kernel P) (a : P × Nat) (bytes : Nat) : Kernel P :=
  { k with
    objects := update k.objects k.created (.truncated bytes)
    created := k.created + 1 }.mmap a ⟨bytes, k.created⟩

def mmapShared (k : Kernel P) (a d : P × Nat) (bytes : Nat) : Kernel P :=
  match k.fds d with
  | some object => k.mmap a ⟨bytes, object⟩
  | none => k

def munmap (k : Kernel P) (a : P × Nat) (bytes : Nat) : Kernel P :=
  { k with
    maps := if (k.maps a).map Mapping.length = some bytes then update k.maps a none else k.maps
    mapCalls := k.mapCalls ++ [.release a bytes] }

def close (k : Kernel P) (d : P × Nat) : Kernel P :=
  { k with
    fds := update k.fds d none
    fdCalls := k.fdCalls ++ [.release d ()] }

def shmUnlink (k : Kernel P) (refused : Option Nat) (name : String) : Kernel P :=
  { k with
    names := if refused = none then update k.names name none else k.names
    unlinkCalls := k.unlinkCalls ++ [name] }

def fileOf (k : Kernel P) (d : P × Nat) : SharedObject :=
  match k.fds d with
  | some object => k.objects object
  | none => .truncated 0

def viewOf (k : Kernel P) (a : P × Nat) : SharedObject :=
  match k.maps a with
  | some m => k.objects m.object
  | none => .truncated 0

def write (k : Kernel P) (object : Nat) (f : SharedObject → SharedObject) : Kernel P :=
  { k with objects := update k.objects object (f (k.objects object)) }

def fdFree (k : Kernel P) (p : P) : Except Nat Nat → Bool
  | .ok fd => (k.fds (p, fd)).isNone
  | .error _ => true

def mapFree (k : Kernel P) (p : P) : Except Nat Nat → Bool
  | .ok addr => (k.maps (p, addr)).isNone
  | .error _ => true

section create

variable {k : Kernel P} {d : P × Nat} {name : String}

theorem maps_shmOpenCreate (mode : Nat) : (k.shmOpenCreate d name mode).maps = k.maps := by
  unfold shmOpenCreate
  split <;> rfl

theorem fds_shmOpenCreate (mode : Nat) : (k.shmOpenCreate d name mode).fds =
    update k.fds d (some ((k.names name).getD k.created)) := by
  unfold shmOpenCreate
  split <;> simp [shmOpen, *]

theorem names_shmOpenCreate (mode : Nat) : (k.shmOpenCreate d name mode).names =
    update k.names name (some ((k.names name).getD k.created)) := by
  unfold shmOpenCreate
  split
  · rename_i object h
    rw [h, Option.getD_some, ← h, update_eq_self]
    rfl
  · simp [shmOpen, *]

theorem objects_shmOpenCreate (mode : Nat) : (k.shmOpenCreate d name mode).objects =
    update k.objects ((k.names name).getD k.created) (.truncated 0) := by
  unfold shmOpenCreate
  split <;> simp [shmOpen, *]

theorem unlinkCalls_shmOpenCreate (mode : Nat) :
    (k.shmOpenCreate d name mode).unlinkCalls = k.unlinkCalls := by
  unfold shmOpenCreate
  split <;> rfl

theorem maps_shmOpenExisting : (k.shmOpenExisting d name).maps = k.maps := by
  unfold shmOpenExisting
  split <;> rfl

theorem fds_shmOpenExisting {object : Nat} (h : k.names name = some object) :
    (k.shmOpenExisting d name).fds = update k.fds d (some object) := by
  simp [shmOpenExisting, h, shmOpen]

theorem names_shmOpenExisting : (k.shmOpenExisting d name).names = k.names := by
  unfold shmOpenExisting
  split <;> rfl

theorem unlinkCalls_shmOpenExisting :
    (k.shmOpenExisting d name).unlinkCalls = k.unlinkCalls := by
  unfold shmOpenExisting
  split <;> rfl

theorem mmapShared_eq {a : P × Nat} {object : Nat} (h : k.fds d = some object) (bytes : Nat) :
    k.mmapShared a d bytes = k.mmap a ⟨bytes, object⟩ := by
  simp only [mmapShared, h]

end create

end Kernel

namespace Kernel

variable {P : Type} {k : Kernel P} {d : P × Nat}

theorem maps_ftruncate (bytes : Nat) : (k.ftruncate d bytes).maps = k.maps := by
  unfold ftruncate
  split <;> rfl

theorem fds_ftruncate (bytes : Nat) : (k.ftruncate d bytes).fds = k.fds := by
  unfold ftruncate
  split <;> rfl

theorem names_ftruncate (bytes : Nat) : (k.ftruncate d bytes).names = k.names := by
  unfold ftruncate
  split <;> rfl

theorem unlinkCalls_ftruncate (bytes : Nat) :
    (k.ftruncate d bytes).unlinkCalls = k.unlinkCalls := by
  unfold ftruncate
  split <;> rfl

end Kernel

end Shimmy
