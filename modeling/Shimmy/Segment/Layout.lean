import Shimmy.Bytes.Layout
import Shimmy.Segment.Header

namespace Shimmy

open Function

inductive Place where
  | header (f : Field)
  | ring (a : Loc)
  deriving DecidableEq, Repr

def Store.place : Store → Place
  | .header f _ => .header f
  | .ring a _ => .ring a

def Store.value : Store → Nat
  | .header _ v => v
  | .ring _ v => v

def SharedObject.read (o : SharedObject) : Place → Nat
  | .header f => o.header f
  | .ring a => o.cells a

theorem SharedObject.read_apply (o : SharedObject) (w : Store) (p : Place) :
    (o.apply w).read p = if p = w.place then w.value else o.read p := by
  cases w with
  | header f v =>
    cases p with
    | header g => simp [apply, read, Store.place, Store.value, update_apply]
    | ring a => simp [apply, read, Store.place]
  | ring a v =>
    cases p with
    | header g => simp [apply, read, Store.place]
    | ring b => simp [apply, read, Store.place, Store.value, update_apply]

namespace Field

def offset : Field → Nat
  | .magic => 0
  | .version => 8
  | .headerBytes => 12
  | .blockSize => 16
  | .capacity => 24
  | .policy => 32
  | .maxConsumers => 36
  | .ringSizeof => 40
  | .ringAlignof => 48
  | .slotSizeof => 56
  | .state => 64
  | .reserved => 68

def width : Field → Nat
  | .magic => 8
  | .version => 4
  | .headerBytes => 4
  | .blockSize => 8
  | .capacity => 8
  | .policy => 4
  | .maxConsumers => 4
  | .ringSizeof => 8
  | .ringAlignof => 8
  | .slotSizeof => 8
  | .state => 4
  | .reserved => 4

theorem end_le (f : Field) : f.offset + f.width ≤ SegmentHeader.sizeof := by cases f <;> decide

end Field

namespace Loc

def width : Loc → Nat
  | .nextPublish => 8
  | .cursorValue _ => 8
  | .cursorInUse _ => 1
  | .slotSeq _ => 8
  | .slotLen _ => 4
  | .payload _ _ => 1
  | .waiters => 4

def Inside (cfg : RingConfig) : Loc → Prop
  | .nextPublish => True
  | .cursorValue i => i < cfg.maxConsumers
  | .cursorInUse i => i < cfg.maxConsumers
  | .slotSeq i => i < cfg.capacity
  | .slotLen i => i < cfg.capacity
  | .payload i j => i < cfg.capacity ∧ j < cfg.blockSize
  | .waiters => True

end Loc

inductive Block where
  | header
  | producer
  | cursor (i : Nat)
  | slot (i : Nat)
  | waiters
  deriving DecidableEq, Repr

namespace Block

variable (cfg : RingConfig)

def Inside : Block → Prop
  | .cursor i => i < cfg.maxConsumers
  | .slot i => i < cfg.capacity
  | _ => True

def base : Block → Nat
  | .header => 0
  | .producer => ringOffset
  | .cursor i => ringOffset + (roundUp 8 cacheLineSize + i * cursorSizeof)
  | .slot i => ringOffset + (cfg.slotsOffset + i * slotSizeof cfg.blockSize)
  | .waiters => ringOffset + (cfg.slotsOffset + cfg.capacity * slotSizeof cfg.blockSize)

def size : Block → Nat
  | .header => ringOffset
  | .producer => roundUp 8 cacheLineSize
  | .cursor _ => cursorSizeof
  | .slot _ => slotSizeof cfg.blockSize
  | .waiters => roundUp 4 cacheLineSize

end Block

namespace Place

variable (cfg : RingConfig)

def offset : Place → Nat
  | .header f => f.offset
  | .ring a => ringOffset + cfg.offset a

def width : Place → Nat
  | .header f => f.width
  | .ring a => a.width

def Inside : Place → Prop
  | .header _ => True
  | .ring a => a.Inside cfg

def block : Place → Block
  | .header _ => .header
  | .ring .nextPublish => .producer
  | .ring (.cursorValue i) => .cursor i
  | .ring (.cursorInUse i) => .cursor i
  | .ring (.slotSeq i) => .slot i
  | .ring (.slotLen i) => .slot i
  | .ring (.payload i _) => .slot i
  | .ring .waiters => .waiters

def rest : Place → Nat
  | .header f => f.offset
  | .ring .nextPublish => 0
  | .ring (.cursorValue _) => 0
  | .ring (.cursorInUse _) => 8
  | .ring (.slotSeq _) => 0
  | .ring (.slotLen _) => 8
  | .ring (.payload _ j) => 12 + j
  | .ring .waiters => 0

end Place

@[simp] theorem ringOffset_eq : ringOffset = 128 := by decide

theorem line_eq {n : Nat} (h : n = 8 ∨ n = 4) : roundUp n cacheLineSize = 64 := by
  rcases h with rfl | rfl <;> decide

theorem dvd_roundUp (n align : Nat) : align ∣ roundUp n align := Dvd.intro_left _ rfl

theorem slotSizeof_ge (blockSize : Nat) : 12 + blockSize ≤ slotSizeof blockSize := by
  have := RingConfig.roundUp_ge (8 + 4 + blockSize) cacheLineSize (by decide)
  simp only [slotSizeof]
  omega

theorem dvd_slotSizeof (blockSize : Nat) : cacheLineSize ∣ slotSizeof blockSize :=
  dvd_roundUp _ _

theorem row_end_le {i j : Nat} (size : Nat) (h : i < j) : i * size + size ≤ j * size := by
  have := Nat.mul_le_mul_right size h
  rwa [Nat.succ_mul] at this

theorem rows_apart {i j : Nat} (size : Nat) (h : i ≠ j) :
    i * size + size ≤ j * size ∨ j * size + size ≤ i * size :=
  (Nat.lt_or_gt_of_ne h).imp (row_end_le size) (row_end_le size)

namespace RingConfig

variable {cfg : RingConfig}

theorem segmentBytes_eq : cfg.segmentBytes =
    128 + (cfg.slotsOffset + cfg.capacity * slotSizeof cfg.blockSize) + 64 := by
  rw [segmentBytes, sizeof, ringSizeof, ringOffset_eq, slotsOffset, line_eq (.inl rfl),
    line_eq (.inr rfl)]
  omega

end RingConfig

namespace Block

variable {cfg : RingConfig} {b c : Block}

theorem dvd_base : cacheLineSize ∣ b.base cfg := by
  have hslots : cacheLineSize ∣ cfg.slotsOffset :=
    Nat.dvd_add (dvd_roundUp _ _) ((dvd_roundUp _ _).mul_left _)
  have hring : cacheLineSize ∣ ringOffset := by decide
  cases b with
  | header => exact Nat.dvd_zero _
  | producer => exact hring
  | cursor i =>
    exact Nat.dvd_add hring (Nat.dvd_add (dvd_roundUp _ _) ((dvd_roundUp _ _).mul_left _))
  | slot i => exact Nat.dvd_add hring (Nat.dvd_add hslots ((dvd_slotSizeof _).mul_left _))
  | waiters => exact Nat.dvd_add hring (Nat.dvd_add hslots ((dvd_slotSizeof _).mul_left _))

theorem end_le (hb : b.Inside cfg) : b.base cfg + b.size cfg ≤ cfg.segmentBytes := by
  rw [RingConfig.segmentBytes_eq]
  cases b with
  | header =>
    simp only [base, size, ringOffset_eq]
    omega
  | producer =>
    simp only [base, size, ringOffset_eq, line_eq (.inl rfl)]
    omega
  | cursor i =>
    have hrow := row_end_le cursorSizeof hb
    simp only [base, size, ringOffset_eq, RingConfig.slotsOffset]
    omega
  | slot i =>
    have hrow := row_end_le (slotSizeof cfg.blockSize) hb
    simp only [base, size, ringOffset_eq]
    omega
  | waiters =>
    simp only [base, size, ringOffset_eq, line_eq (.inr rfl)]
    omega

def rank : Block → Nat
  | .header => 0
  | .producer => 1
  | .cursor _ => 2
  | .slot _ => 3
  | .waiters => 4

theorem end_le_of_rank (hb : b.Inside cfg) (h : b.rank < c.rank) :
    b.base cfg + b.size cfg ≤ c.base cfg := by
  have hcursors {i : Nat} (hi : i < cfg.maxConsumers) :=
    row_end_le cursorSizeof hi
  have hslots {i : Nat} (hi : i < cfg.capacity) :=
    row_end_le (slotSizeof cfg.blockSize) hi
  cases b with
  | header =>
    cases c <;> simp only [base, size, Nat.zero_add, Nat.le_add_right, le_refl, rank] at *
    omega
  | producer =>
    cases c <;> simp only [base, size, rank, RingConfig.slotsOffset] at * <;> omega
  | cursor i =>
    have := hcursors hb
    cases c <;> simp only [base, size, rank, RingConfig.slotsOffset] at * <;> omega
  | slot i =>
    have := hslots hb
    cases c <;> simp only [base, size, rank] at * <;> omega
  | waiters =>
    cases c <;> simp only [rank] at h <;> omega

theorem apart_of_rank_eq (hr : b.rank = c.rank) (h : b ≠ c) :
    b.base cfg + b.size cfg ≤ c.base cfg ∨ c.base cfg + c.size cfg ≤ b.base cfg := by
  cases b with
  | cursor i =>
    cases c with
    | cursor j =>
      have hij : i ≠ j := fun e => h (congrArg _ e)
      have := rows_apart cursorSizeof hij
      simp only [base, size]
      omega
    | _ => cases hr
  | slot i =>
    cases c with
    | slot j =>
      have hij : i ≠ j := fun e => h (congrArg _ e)
      have := rows_apart (slotSizeof cfg.blockSize) hij
      simp only [base, size]
      omega
    | _ => cases hr
  | _ => cases c <;> first | exact absurd rfl h | cases hr

theorem apart (hb : b.Inside cfg) (hc : c.Inside cfg) (h : b ≠ c) :
    b.base cfg + b.size cfg ≤ c.base cfg ∨ c.base cfg + c.size cfg ≤ b.base cfg := by
  rcases Nat.lt_trichotomy b.rank c.rank with hr | hr | hr
  · exact .inl (end_le_of_rank hb hr)
  · exact apart_of_rank_eq hr h
  · exact .inr (end_le_of_rank hc hr)

end Block

namespace Place

variable {cfg : RingConfig} {p q : Place}

theorem block_inside (hp : p.Inside cfg) : p.block.Inside cfg := by
  cases p with
  | header f => trivial
  | ring a =>
    cases a with
    | payload i j => exact hp.1
    | _ => exact hp

theorem offset_eq : p.offset cfg = p.block.base cfg + p.rest := by
  cases p with
  | header f => exact (Nat.zero_add _).symm
  | ring a => cases a <;> simp only [offset, block, rest, Block.base, RingConfig.offset] <;> omega

theorem rest_le (hp : p.Inside cfg) : p.rest + p.width ≤ p.block.size cfg := by
  cases p with
  | header f => exact f.end_le.trans (show SegmentHeader.sizeof ≤ ringOffset by decide)
  | ring a =>
    have hge := slotSizeof_ge cfg.blockSize
    cases a with
    | payload i j =>
      have hj : j < cfg.blockSize := hp.2
      simp only [rest, width, Loc.width, block, Block.size]
      omega
    | slotSeq i =>
      simp only [rest, width, Loc.width, block, Block.size]
      omega
    | slotLen i =>
      simp only [rest, width, Loc.width, block, Block.size]
      omega
    | nextPublish => exact show 0 + 8 ≤ roundUp 8 cacheLineSize by decide
    | cursorValue i => exact show 0 + 8 ≤ cursorSizeof by decide
    | cursorInUse i => exact show 8 + 1 ≤ cursorSizeof by decide
    | waiters => exact show 0 + 4 ≤ roundUp 4 cacheLineSize by decide

theorem rest_apart (hb : p.block = q.block) (h : p ≠ q) :
    p.rest + p.width ≤ q.rest ∨ q.rest + q.width ≤ p.rest := by
  cases p with
  | header f =>
    cases q with
    | header g =>
      have hfg : f ≠ g := fun e => h (congrArg _ e)
      clear h hb
      revert hfg
      cases f <;> cases g <;> decide
    | ring a => cases a <;> cases hb
  | ring a =>
    cases q with
    | header g => cases a <;> cases hb
    | ring c =>
      cases a <;> cases c <;> cases hb <;>
        first
          | exact absurd rfl h
          | (simp only [rest, width, Loc.width]; omega)
          | skip
      rename_i j i
      have hne : i ≠ j := fun e => h (by rw [e])
      simp only [rest, width, Loc.width]
      omega

theorem apart (hp : p.Inside cfg) (hq : q.Inside cfg) (h : p ≠ q) :
    p.offset cfg + p.width ≤ q.offset cfg ∨ q.offset cfg + q.width ≤ p.offset cfg := by
  have hpe := rest_le hp
  have hqe := rest_le hq
  rw [offset_eq, offset_eq]
  by_cases hb : p.block = q.block
  · have := rest_apart hb h
    rw [hb]
    omega
  · have := Block.apart (block_inside hp) (block_inside hq) hb
    omega

theorem end_le (hp : p.Inside cfg) : p.offset cfg + p.width ≤ cfg.segmentBytes := by
  have hrest := rest_le hp
  have hblock := Block.end_le (block_inside hp)
  rw [offset_eq]
  omega

theorem aligned (p : Place) : p.width ∣ p.offset cfg := by
  have hwidth : p.width ∣ cacheLineSize ∧ p.width ∣ p.rest := by
    cases p with
    | header f => cases f <;> decide
    | ring a =>
      cases a with
      | payload i j => exact ⟨Nat.one_dvd _, Nat.one_dvd _⟩
      | _ => simp only [width, Loc.width, rest]; decide
  rw [offset_eq]
  exact Nat.dvd_add (hwidth.1.trans Block.dvd_base) hwidth.2

theorem block_eq_of_line (hp : p.Inside cfg) (hq : q.Inside cfg) {x y : Nat}
    (hx : p.offset cfg ≤ x ∧ x < p.offset cfg + p.width)
    (hy : q.offset cfg ≤ y ∧ y < q.offset cfg + q.width)
    (hline : x / cacheLineSize = y / cacheLineSize) : p.block = q.block := by
  by_contra hb
  have hpe := rest_le hp
  have hqe := rest_le hq
  obtain ⟨k, hk⟩ : cacheLineSize ∣ p.block.base cfg := Block.dvd_base
  obtain ⟨l, hl⟩ : cacheLineSize ∣ q.block.base cfg := Block.dvd_base
  have hapart := Block.apart (block_inside hp) (block_inside hq) hb
  rw [offset_eq] at hx hy
  simp only [cacheLineSize] at hk hl hline
  rcases hapart with h | h
  · have : x < q.block.base cfg := by omega
    omega
  · have : y < p.block.base cfg := by omega
    omega

end Place

def RingConfig.segmentLayout (cfg : RingConfig) : Bytes.Layout Place where
  valid p := p.Inside cfg
  offset p := p.offset cfg
  width p := p.width
  apart _ _ hp hq h := Place.apart hp hq h

def RingConfig.ringLayout (cfg : RingConfig) : Bytes.Layout Loc :=
  cfg.segmentLayout.comap .ring fun _ _ h => Place.ring.inj h

theorem segment_layout (cfg : RingConfig) (p q : Place) (hp : p.Inside cfg) (hq : q.Inside cfg) :
    p.offset cfg + p.width ≤ cfg.segmentBytes ∧ p.width ∣ p.offset cfg ∧
      (p ≠ q → p.offset cfg + p.width ≤ q.offset cfg ∨ q.offset cfg + q.width ≤ p.offset cfg) ∧
      ∀ x y, p.offset cfg ≤ x → x < p.offset cfg + p.width → q.offset cfg ≤ y →
        y < q.offset cfg + q.width → x / cacheLineSize = y / cacheLineSize → p.block = q.block :=
  ⟨Place.end_le hp, Place.aligned p, Place.apart hp hq, fun _ _ hx hx' hy hy' =>
    Place.block_eq_of_line hp hq ⟨hx, hx'⟩ ⟨hy, hy'⟩⟩

theorem segment_layout_slots :
    Place.offset (.lone .overwrite .spin) (.ring (.payload 0 63)) + 1 ≤
        Place.offset (.lone .overwrite .spin) (.ring (.slotSeq 1)) ∧
      ∀ x y, Place.offset (.lone .overwrite .spin) (.ring (.payload 0 63)) ≤ x →
        x < Place.offset (.lone .overwrite .spin) (.ring (.payload 0 63)) + 1 →
        Place.offset (.lone .overwrite .spin) (.ring (.slotSeq 1)) ≤ y →
        y < Place.offset (.lone .overwrite .spin) (.ring (.slotSeq 1)) + 8 →
          x / cacheLineSize ≠ y / cacheLineSize := by
  obtain ⟨-, -, happart, hline⟩ := segment_layout (.lone .overwrite .spin) (.ring (.payload 0 63))
    (.ring (.slotSeq 1)) ⟨by decide, by decide⟩ Nat.one_lt_two
  refine ⟨(happart (by decide)).resolve_right (by decide), fun x y hx hx' hy hy' heq => ?_⟩
  exact absurd (hline x y hx hx' hy hy' heq) (by decide)

end Shimmy
