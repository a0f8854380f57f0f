import Shimmy.Segment.Layout

namespace Shimmy

open Function

def Store.entry (w : Store) : Place × Nat := (w.place, w.value)

def RingConfig.encode (cfg : RingConfig) (bytes : Nat → Nat) : Nat → Nat :=
  cfg.segmentLayout.putAll bytes (cfg.constructRingAndPublishHeader.map Store.entry)

namespace SharedObject

def decode (cfg : RingConfig) (size : Nat) (bytes : Nat → Nat) : SharedObject where
  size := size
  header f := cfg.segmentLayout.view bytes (.header f)
  cells a := cfg.segmentLayout.view bytes (.ring a)

theorem decode_read (cfg : RingConfig) (size : Nat) (bytes : Nat → Nat) (p : Place) :
    (decode cfg size bytes).read p = cfg.segmentLayout.view bytes p := by
  cases p <;> rfl

theorem read_foldl (o : SharedObject) (ws : List Store) :
    (ws.foldl apply o).read =
      (ws.map Store.entry).foldl (fun cells w => update cells w.1 w.2) o.read := by
  induction ws generalizing o with
  | nil => rfl
  | cons w ws ih =>
    have happly : (o.apply w).read = update o.read w.place w.value := by
      funext p
      rw [read_apply, update_apply]
    rw [List.foldl_cons, ih, happly]
    rfl

end SharedObject

namespace RingConfig

variable {cfg : RingConfig}

theorem blockSize_lt : cfg.blockSize < 2 ^ 63 := by
  have hslot := slotSizeof_ge cfg.blockSize
  have hmul := Nat.le_mul_of_pos_left (slotSizeof cfg.blockSize) cfg.capacity_pos
  have hsize := cfg.sizeof_lt
  simp only [Shimmy.ringSizeof] at hsize
  omega

theorem slotSizeof_lt : Shimmy.slotSizeof cfg.blockSize < 2 ^ 63 := by
  have hmul := Nat.le_mul_of_pos_left (slotSizeof cfg.blockSize) cfg.capacity_pos
  have hsize := cfg.sizeof_lt
  simp only [Shimmy.ringSizeof] at hsize
  omega

theorem recorded_lt (f : Field) : cfg.recorded f < 256 ^ f.width := by
  cases f with
  | blockSize => exact blockSize_lt.trans (by decide)
  | capacity => exact cfg.capacity_lt.trans (by decide)
  | ringSizeof => exact cfg.sizeof_lt.trans (by decide)
  | slotSizeof => exact slotSizeof_lt.trans (by decide)
  | maxConsumers => exact Nat.mod_lt _ (by decide)
  | policy => cases h : cfg.overflow <;> simp [recorded, h, Overflow.policyId, Field.width]
  | _ =>
    simp only [recorded, Field.width]
    decide

def Writes (cfg : RingConfig) (w : Store) : Prop :=
  w.place.Inside cfg ∧ w.value < 256 ^ w.place.width

theorem headerStores_writes {e : Field × Nat} (h : e ∈ cfg.headerStores) :
    cfg.Writes (.header e.1 e.2) := by
  have hvalue : e.2 = cfg.recorded e.1 ∨ e.2 = 0 := by
    rcases List.mem_append.mp h with h | h
    · obtain ⟨f, -, rfl⟩ := List.mem_map.mp h
      exact .inr rfl
    · simp only [fieldStores, List.mem_cons, List.not_mem_nil, or_false] at h
      rcases h with rfl | rfl | rfl | rfl | rfl | rfl | rfl | rfl | rfl | rfl | rfl <;>
        first | exact .inl rfl | exact .inr rfl
  refine ⟨trivial, ?_⟩
  rcases hvalue with hvalue | hvalue
  · exact hvalue ▸ recorded_lt e.1
  · exact hvalue ▸ Nat.pow_pos (by decide)

theorem ringStores_writes {e : Loc × Nat} (h : e ∈ cfg.memberInit ++ cfg.initStores) :
    cfg.Writes (.ring e.1 e.2) := by
  simp only [memberInit, initStores, List.mem_append, List.mem_cons, List.not_mem_nil, or_false,
    List.mem_flatMap, List.mem_map, List.mem_range] at h
  rcases h with (((rfl | ⟨i, hi, rfl | rfl⟩) | ⟨i, hi, rfl⟩) | rfl) |
    ((rfl | rfl) | ⟨i, hi, rfl | rfl⟩) | ⟨i, hi, rfl | rfl⟩
  all_goals first
    | exact ⟨trivial, by decide⟩
    | exact ⟨hi, by simp [Store.value, Store.place, Place.width, Loc.width, emptySeq]⟩

theorem stores_writes {w : Store} (h : w ∈ cfg.constructRingAndPublishHeader) : cfg.Writes w := by
  simp only [constructRingAndPublishHeader, List.mem_append, List.mem_map,
    List.mem_singleton] at h
  rcases h with (⟨e, he, rfl⟩ | ⟨e, he, rfl⟩) | rfl
  · exact headerStores_writes he
  · exact ringStores_writes (List.mem_append.mpr he)
  · exact ⟨trivial, by decide⟩

theorem entries_write : ∀ e ∈ cfg.constructRingAndPublishHeader.map Store.entry,
    cfg.segmentLayout.valid e.1 ∧ e.2 < 256 ^ cfg.segmentLayout.width e.1 := by
  intro e he
  obtain ⟨w, hw, rfl⟩ := List.mem_map.mp he
  exact stores_writes hw

theorem encode_outside {bytes : Nat → Nat} {x : Nat} (hx : cfg.segmentLayout.Outside x) :
    cfg.encode bytes x = bytes x :=
  Bytes.Layout.putAll_of_outside (fun e he => (entries_write e he).1) hx

theorem view_zero (p : Place) : cfg.segmentLayout.view (fun _ => 0) p = 0 := by
  have hload (addr n : Nat) : Bytes.load (fun _ => 0) addr n = 0 := by
    induction n generalizing addr with
    | zero => rfl
    | succ n ih => rw [Bytes.load, ih]
  exact hload _ _

theorem encode_view {p : Place} (hp : p.Inside cfg) :
    cfg.segmentLayout.view (cfg.encode fun _ => 0) p = (SharedObject.create cfg).read p := by
  have htruncated : (SharedObject.truncated cfg.segmentBytes).read = fun _ => 0 := by
    funext q
    cases q <;> rfl
  rw [SharedObject.create, SharedObject.read_foldl, htruncated]
  exact Bytes.Layout.view_putAll entries_write (fun q _ => view_zero q) hp

end RingConfig

namespace ShmSegment

variable {os : Os} {cfg : RingConfig} {o : SharedObject} {seg : ShmSegment}

theorem run_checks_iff {header : Field → Nat} :
    Check.run header cfg.checks = none ↔ ∀ f, f ≠ .reserved → header f = cfg.recorded f := by
  rw [Check.run_eq_none]
  constructor
  · intro h f hf
    have hcheck : ∃ k ∈ cfg.checks, k.field = f ∧ k.want = cfg.recorded f := by
      cases f <;> simp [RingConfig.checks, checkMagic, checkVersion, checkState, checkEq,
        RingConfig.recorded] at hf ⊢
    obtain ⟨k, hk, rfl, hwant⟩ := hcheck
    exact (h k hk).trans hwant
  · intro h k hk
    have hwant : k.want = cfg.recorded k.field := (cfg.checks_recorded k hk).symm
    refine (h k.field ?_).trans hwant.symm
    intro hr
    simp only [RingConfig.checks, List.mem_cons, List.not_mem_nil, or_false] at hk
    rcases hk with rfl | rfl | rfl | rfl | rfl | rfl | rfl | rfl | rfl | rfl | rfl <;> cases hr

theorem openSegment_ok : openSegment os cfg o = .ok seg ↔
    os.shmOpen = none ∧ os.fstat = none ∧ os.mmap cfg.segmentBytes = none ∧
      (∀ f, f ≠ .reserved → o.header f = cfg.recorded f) ∧ cfg.segmentBytes ≤ o.size ∧
      seg = ⟨some ringOffset, cfg.segmentBytes, false⟩ := by
  have hsmall : SegmentHeader.sizeof ≤ cfg.segmentBytes := by
    have hoff : SegmentHeader.sizeof ≤ ringOffset := by decide
    exact hoff.trans (Nat.le_add_right _ _)
  rw [← run_checks_iff]
  cases hopen : os.shmOpen with
  | some errno => simp [openSegment, hopen]
  | none =>
    cases hstat : os.fstat with
    | some errno => simp [openSegment, hopen, hstat]
    | none =>
      by_cases htiny : o.size < SegmentHeader.sizeof
      · have hsize : ¬ cfg.segmentBytes ≤ o.size := by omega
        simp [openSegment, hopen, hstat, htiny, hsize]
      · cases hmap : os.mmap cfg.segmentBytes with
        | some errno => simp [openSegment, hopen, hstat, htiny, hmap]
        | none =>
          simp only [openSegment, hopen, hstat, htiny, hmap, validateHeader, if_false, true_and]
          cases Check.run o.header cfg.checks with
          | some what => simp
          | none =>
            by_cases hfits : o.size < cfg.segmentBytes
            · simp [hfits, Nat.not_le.mpr hfits]
            · simp [hfits, Nat.not_lt.mp hfits, eq_comm]

def checkedBytes : Nat := Field.offset .reserved

theorem Field.exists_of_lt {x : Nat} (hx : x < checkedBytes) :
    ∃ f : Field, f ≠ .reserved ∧ f.offset ≤ x ∧ x < f.offset + f.width := by
  have hall : ∀ y < checkedBytes, ∃ f ∈ SegmentHeader.fields, f ≠ .reserved ∧ f.offset ≤ y ∧
      y < f.offset + f.width := by decide
  obtain ⟨f, -, hf⟩ := hall x hx
  exact ⟨f, hf⟩

theorem Field.end_le_checked {f : Field} (hf : f ≠ .reserved) :
    f.offset + f.width ≤ checkedBytes := by
  cases f <;> first | exact absurd rfl hf | decide

theorem header_eq_iff {bytes : Nat → Nat} {size : Nat} (hb : ∀ x, bytes x < 256) :
    (∀ f, f ≠ .reserved → (SharedObject.decode cfg size bytes).header f = cfg.recorded f) ↔
      ∀ x < checkedBytes, bytes x = cfg.encode (fun _ => 0) x := by
  have hencoded (f : Field) : cfg.recorded f =
      Bytes.load (cfg.encode fun _ => 0) f.offset f.width := by
    have hinside : (Place.header f).Inside cfg := trivial
    have hview := RingConfig.encode_view hinside
    rw [SharedObject.read, SharedObject.create_header] at hview
    exact hview.symm
  have hlt : ∀ x, cfg.encode (fun _ => 0) x < 256 :=
    Bytes.Layout.putAll_lt fun _ => by decide
  constructor
  · intro h x hx
    obtain ⟨f, hf, hlow, hhigh⟩ := Field.exists_of_lt hx
    exact Bytes.eq_of_load_eq hb hlt ((h f hf).trans (hencoded f)) hlow hhigh
  · intro h f hf
    rw [hencoded]
    exact Bytes.load_congr fun x _ hx => h x (hx.trans_le (Field.end_le_checked hf))

theorem open_accepts_bytes (os : Os) (cfg : RingConfig) (size : Nat) (bytes : Nat → Nat)
    (seg : ShmSegment) (hb : ∀ x, bytes x < 256) :
    openSegment os cfg (.decode cfg size bytes) = .ok seg ↔
      os.shmOpen = none ∧ os.fstat = none ∧ os.mmap cfg.segmentBytes = none ∧
        (∀ x < checkedBytes, bytes x = cfg.encode (fun _ => 0) x) ∧ cfg.segmentBytes ≤ size ∧
        seg = ⟨some ringOffset, cfg.segmentBytes, false⟩ := by
  rw [openSegment_ok, header_eq_iff hb]
  rfl

theorem open_accepts_bytes_pair :
    openSegment quietOs spinPair (.decode spinPair 4096 (spinPair.encode fun _ => 0)) =
      .ok ⟨some ringOffset, spinPair.segmentBytes, false⟩ :=
  (open_accepts_bytes quietOs spinPair 4096 (spinPair.encode fun _ => 0) _
    fun _ => Bytes.Layout.putAll_lt (fun _ => by decide) _).mpr
      ⟨rfl, rfl, rfl, fun _ _ => rfl, by decide, rfl⟩

theorem openSegment_congr {o' : SharedObject} (hs : o.size = o'.size) (hh : o.header = o'.header) :
    openSegment os cfg o = openSegment os cfg o' := by
  simp only [openSegment, validateHeader, hs, hh]

end ShmSegment

theorem create_round_trip (cfg : RingConfig) :
    (∀ p : Place, p.Inside cfg →
      (SharedObject.decode cfg cfg.segmentBytes (cfg.encode fun _ => 0)).read p =
        (SharedObject.create cfg).read p) ∧
      (∀ x, cfg.segmentLayout.Outside x → cfg.encode (fun _ => 0) x = 0) ∧
      ∀ os cfg', ShmSegment.openSegment os cfg'
        (.decode cfg' cfg.segmentBytes (cfg.encode fun _ => 0)) =
          ShmSegment.openSegment os cfg' (.create cfg) := by
  refine ⟨fun p hp => ?_, fun _ hx => RingConfig.encode_outside hx, fun os cfg' => ?_⟩
  · exact (SharedObject.decode_read _ _ _ _).trans (RingConfig.encode_view hp)
  · refine ShmSegment.openSegment_congr (SharedObject.create_size cfg).symm (funext fun f => ?_)
    exact RingConfig.encode_view (p := .header f) trivial

end Shimmy
