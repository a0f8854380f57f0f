import Shimmy.Concurrency.Window

namespace Shimmy

def cacheLineSize : Nat := 64

def emptySeq : Nat := 2 ^ 64 - 1

def writingSeq : Nat := 2 ^ 64 - 2

inductive Overflow where
  | overwrite
  | backpressure
  deriving DecidableEq, Repr

inductive WaitStrategy where
  | spin
  | spinThenYield (spinLimit : Nat)
  | futex
  deriving DecidableEq, Repr

def WaitStrategy.blocks : WaitStrategy → Bool
  | .spin => false
  | .spinThenYield _ => false
  | .futex => true

def spinBeforeSyscall : Nat := 64

inductive ReadStatus where
  | ok
  | empty
  | lapped
  deriving DecidableEq, Repr

def roundUp (n align : Nat) : Nat := (n + (align - 1)) / align * align

def slotSizeof (blockSize : Nat) : Nat := roundUp (8 + 4 + blockSize) cacheLineSize

def cursorSizeof : Nat := roundUp (8 + 1) cacheLineSize

def ringSizeof (blockSize capacity maxConsumers : Nat) : Nat :=
  roundUp 8 cacheLineSize + maxConsumers * cursorSizeof + capacity * slotSizeof blockSize +
    roundUp 4 cacheLineSize

structure RingConfig where
  blockSize : Nat
  capacity : Nat
  overflow : Overflow
  maxConsumers : Nat
  wait : WaitStrategy
  capacity_ge : 2 ≤ capacity
  capacity_pow2 : capacity &&& (capacity - 1) = 0
  blockSize_aligned : blockSize % cacheLineSize = 0
  maxConsumers_ge : 1 ≤ maxConsumers
  sizeof_lt : ringSizeof blockSize capacity maxConsumers < 2 ^ 63

structure Message (blockSize : Nat) where
  bytes : List Nat
  length_le : bytes.length ≤ blockSize
  length_lt : bytes.length < 2 ^ 32
  byte_lt : ∀ b ∈ bytes, b < 2 ^ 8

namespace Message

variable {blockSize : Nat}

def len (msg : Message blockSize) : Nat := msg.bytes.length

def empty (blockSize : Nat) : Message blockSize where
  bytes := []
  length_le := Nat.zero_le blockSize
  length_lt := Nat.two_pow_pos 32
  byte_lt := fun _ h => absurd h List.not_mem_nil

def ofByte (b : Nat) : Message 64 where
  bytes := [b % 2 ^ 8]
  length_le := Nat.succ_le_succ (Nat.zero_le 63)
  length_lt := Nat.one_lt_two_pow (Nat.succ_ne_zero 31)
  byte_lt := fun _ h => List.mem_singleton.mp h ▸ Nat.mod_lt b (Nat.two_pow_pos 8)

end Message

inductive Loc where
  | nextPublish
  | cursorValue (i : Nat)
  | cursorInUse (i : Nat)
  | slotSeq (i : Nat)
  | slotLen (i : Nat)
  | payload (i j : Nat)
  | waiters
  deriving DecidableEq, Repr

def Ring.init (fresh : Loc → Nat) : Loc → Nat
  | .nextPublish => 0
  | .waiters => 0
  | .slotSeq _ => emptySeq
  | .slotLen _ => 0
  | .cursorValue _ => 0
  | .cursorInUse _ => 0
  | .payload i j => fresh (.payload i j)

namespace RingConfig

variable (cfg : RingConfig)

def mask : Nat := cfg.capacity - 1

def slotsOffset : Nat := roundUp 8 cacheLineSize + cfg.maxConsumers * cursorSizeof

def slot (seq : Nat) : Nat := seq &&& cfg.mask

def offset : Loc → Nat
  | .nextPublish => 0
  | .cursorValue i => roundUp 8 cacheLineSize + i * cursorSizeof
  | .cursorInUse i => roundUp 8 cacheLineSize + i * cursorSizeof + 8
  | .slotSeq i => cfg.slotsOffset + i * slotSizeof cfg.blockSize
  | .slotLen i => cfg.slotsOffset + i * slotSizeof cfg.blockSize + 8
  | .payload i j => cfg.slotsOffset + i * slotSizeof cfg.blockSize + 12 + j
  | .waiters => cfg.slotsOffset + cfg.capacity * slotSizeof cfg.blockSize

theorem capacity_pos : 0 < cfg.capacity := by
  have := cfg.capacity_ge
  omega

theorem slot_eq_mod (seq : Nat) : cfg.slot seq = seq % cfg.capacity := by
  have hne : cfg.capacity ≠ 0 := by have := cfg.capacity_pos; omega
  obtain ⟨k, hk⟩ := (Nat.and_sub_one_eq_zero_iff_isPowerOfTwo hne).mp cfg.capacity_pow2
  rw [slot, mask, hk, Nat.and_two_pow_sub_one_eq_mod]

theorem slot_lt (seq : Nat) : cfg.slot seq < cfg.capacity := by
  rw [slot_eq_mod]
  exact Nat.mod_lt _ cfg.capacity_pos

theorem roundUp_ge (n align : Nat) (h : 0 < align) : n ≤ roundUp n align := by
  have hd := Nat.div_add_mod (n + (align - 1)) align
  have hm := Nat.mod_lt (n + (align - 1)) h
  rw [roundUp, Nat.mul_comm]
  omega

theorem capacity_lt : cfg.capacity < 2 ^ 63 := by
  have hs : 1 ≤ slotSizeof cfg.blockSize := by
    have := roundUp_ge (8 + 4 + cfg.blockSize) cacheLineSize (by decide)
    simp only [slotSizeof]
    omega
  have hmul := Nat.le_mul_of_pos_right cfg.capacity hs
  have hsize := cfg.sizeof_lt
  simp only [Shimmy.ringSizeof] at hsize
  omega

theorem slot_ne_of_close {p q : Nat} (hpq : p < q) (hqp : q < p + cfg.capacity) :
    cfg.slot p ≠ cfg.slot q := by
  intro h
  rw [slot_eq_mod, slot_eq_mod] at h
  have := Concurrency.eq_of_mod_eq_of_close h (by omega) hqp
  omega

def pair (overflow : Overflow) (maxConsumers : Nat) (wait : WaitStrategy)
    (h : 1 ≤ maxConsumers) (hs : ringSizeof 64 2 maxConsumers < 2 ^ 63) : RingConfig where
  blockSize := 64
  capacity := 2
  overflow := overflow
  maxConsumers := maxConsumers
  wait := wait
  capacity_ge := by decide
  capacity_pow2 := by decide
  blockSize_aligned := by decide
  maxConsumers_ge := h
  sizeof_lt := hs

def lone (overflow : Overflow) (wait : WaitStrategy) : RingConfig :=
  .pair overflow 1 wait (by decide) (by decide)

end RingConfig

end Shimmy
