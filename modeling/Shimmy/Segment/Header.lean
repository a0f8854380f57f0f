import Shimmy.Ring.Config

namespace Shimmy

open Function

inductive Field where
  | magic
  | version
  | headerBytes
  | blockSize
  | capacity
  | policy
  | maxConsumers
  | ringSizeof
  | ringAlignof
  | slotSizeof
  | state
  | reserved
  deriving DecidableEq, Repr

namespace SegmentHeader

def kMagic : Nat := 0x5348494D4D597E01

def kVersion : Nat := 1

def kStateInitializing : Nat := 0

def kStateReady : Nat := 0x52454459

def sizeof : Nat := 8 + 4 + 4 + 8 + 8 + 4 + 4 + 8 + 8 + 8 + 4 + 4

def fields : List Field :=
  [.magic, .version, .headerBytes, .blockSize, .capacity, .policy, .maxConsumers, .ringSizeof,
    .ringAlignof, .slotSizeof, .state, .reserved]

end SegmentHeader

def Overflow.policyId : Overflow → Nat
  | .overwrite => 1
  | .backpressure => 2

def alignUp (v align : Nat) : Nat :=
  (v + (align - 1)) % 2 ^ 64 &&& (2 ^ 64 - 1 - (align - 1))

def ringAlignof : Nat := cacheLineSize

def ringOffset : Nat := alignUp SegmentHeader.sizeof ringAlignof

inductive Store where
  | header (f : Field) (v : Nat)
  | ring (a : Loc) (v : Nat)
  deriving DecidableEq, Repr

namespace RingConfig

variable (cfg : RingConfig)

def sizeof : Nat := ringSizeof cfg.blockSize cfg.capacity cfg.maxConsumers

def segmentBytes : Nat := ringOffset + cfg.sizeof

def recorded : Field → Nat
  | .magic => SegmentHeader.kMagic
  | .version => SegmentHeader.kVersion
  | .headerBytes => ringOffset % 2 ^ 32
  | .blockSize => cfg.blockSize
  | .capacity => cfg.capacity
  | .policy => cfg.overflow.policyId
  | .maxConsumers => cfg.maxConsumers % 2 ^ 32
  | .ringSizeof => cfg.sizeof
  | .ringAlignof => ringAlignof
  | .slotSizeof => Shimmy.slotSizeof cfg.blockSize
  | .state => SegmentHeader.kStateReady
  | .reserved => 0

def memberInit : List (Loc × Nat) :=
  [(.nextPublish, 0)] ++
    ((List.range cfg.maxConsumers).flatMap fun i => [(.cursorValue i, 0), (.cursorInUse i, 0)]) ++
    ((List.range cfg.capacity).map fun i => (.slotSeq i, 0)) ++ [(.waiters, 0)]

def initStores : List (Loc × Nat) :=
  [(.nextPublish, 0), (.waiters, 0)] ++
    ((List.range cfg.capacity).flatMap fun i => [(.slotSeq i, emptySeq), (.slotLen i, 0)]) ++
    ((List.range cfg.maxConsumers).flatMap fun i => [(.cursorValue i, 0), (.cursorInUse i, 0)])

def fieldStores : List (Field × Nat) :=
  [(.magic, SegmentHeader.kMagic), (.version, SegmentHeader.kVersion),
    (.headerBytes, ringOffset % 2 ^ 32), (.blockSize, cfg.blockSize),
    (.capacity, cfg.capacity), (.policy, cfg.overflow.policyId),
    (.maxConsumers, cfg.maxConsumers % 2 ^ 32), (.ringSizeof, cfg.sizeof),
    (.ringAlignof, ringAlignof), (.slotSizeof, Shimmy.slotSizeof cfg.blockSize),
    (.state, SegmentHeader.kStateInitializing)]

def headerStores : List (Field × Nat) :=
  (SegmentHeader.fields.map fun f => (f, 0)) ++ cfg.fieldStores

def constructRingAndPublishHeader : List Store :=
  (cfg.headerStores.map fun w => .header w.1 w.2) ++
    ((cfg.memberInit ++ cfg.initStores).map fun w => .ring w.1 w.2) ++
    [.header .state SegmentHeader.kStateReady]

end RingConfig

structure SharedObject where
  size : Nat
  header : Field → Nat
  cells : Loc → Nat

namespace SharedObject

def truncated (size : Nat) : SharedObject := ⟨size, fun _ => 0, fun _ => 0⟩

def apply (o : SharedObject) : Store → SharedObject
  | .header f v => { o with header := update o.header f v }
  | .ring a v => { o with cells := update o.cells a v }

def create (cfg : RingConfig) : SharedObject :=
  cfg.constructRingAndPublishHeader.foldl apply (truncated cfg.segmentBytes)

end SharedObject

structure Check where
  name : String
  field : Field
  want : Nat
  message : Nat → String

def toHex (v : Nat) : String :=
  let digits := (Nat.toDigits 16 v).map Char.toUpper
  String.ofList (List.replicate (16 - digits.length) '0' ++ digits)

def checkEq (name : String) (field : Field) (want : Nat) : Check where
  name := name
  field := field
  want := want
  message got := "incompatible " ++ name ++ ": segment=" ++ toString got ++ " this build=" ++
    toString want

def checkMagic : Check where
  name := "magic"
  field := .magic
  want := SegmentHeader.kMagic
  message got := "bad magic: not a shimmy segment (got 0x" ++ toHex got ++ ")"

def checkVersion : Check where
  name := "version"
  field := .version
  want := SegmentHeader.kVersion
  message got := "layout version mismatch: segment=" ++ toString got ++ " expected=" ++
    toString SegmentHeader.kVersion

def checkState : Check where
  name := "state"
  field := .state
  want := SegmentHeader.kStateReady
  message _ := "segment not ready (creator still initializing or crashed mid-init)"

def RingConfig.checks (cfg : RingConfig) : List Check :=
  [checkMagic, checkVersion, checkState,
    checkEq "block_size" .blockSize cfg.blockSize,
    checkEq "capacity" .capacity cfg.capacity,
    checkEq "policy" .policy cfg.overflow.policyId,
    checkEq "max_consumers" .maxConsumers (cfg.maxConsumers % 2 ^ 32),
    checkEq "ring_sizeof" .ringSizeof cfg.sizeof,
    checkEq "ring_alignof" .ringAlignof ringAlignof,
    checkEq "slot_sizeof" .slotSizeof (slotSizeof cfg.blockSize),
    checkEq "header_bytes" .headerBytes (ringOffset % 2 ^ 32)]

namespace Check

def Passes (header : Field → Nat) (k : Check) : Prop := header k.field = k.want

instance (header : Field → Nat) (k : Check) : Decidable (k.Passes header) :=
  inferInstanceAs (Decidable (_ = _))

def run (header : Field → Nat) : List Check → Option String
  | [] => none
  | k :: ks => if k.Passes header then run header ks else some (k.message (header k.field))

theorem run_eq_none {header : Field → Nat} {ks : List Check} :
    run header ks = none ↔ ∀ k ∈ ks, k.Passes header := by
  induction ks with
  | nil => simp [run]
  | cons k ks ih =>
    by_cases hk : k.Passes header <;> simp [run, hk, ih]

theorem run_eq_some {header : Field → Nat} {ks : List Check} {what : String}
    (h : run header ks = some what) :
    ∃ k ∈ ks, ¬ k.Passes header ∧ what = k.message (header k.field) := by
  induction ks with
  | nil => cases h
  | cons k ks ih =>
    by_cases hk : k.Passes header
    · obtain ⟨k', hmem, hfail, hwhat⟩ := ih (by simpa [run, hk] using h)
      exact ⟨k', List.mem_cons_of_mem k hmem, hfail, hwhat⟩
    · rw [run, if_neg hk, Option.some.injEq] at h
      exact ⟨k, List.mem_cons_self, hk, h.symm⟩

end Check

inductive Thrown where
  | layoutError (what : String)
  | osError (errno : Nat) (what : String)
  deriving DecidableEq, Repr

structure Os where
  shmOpen : Option Nat
  fstat : Option Nat
  mmap : Nat → Option Nat

structure ShmSegment where
  ring : Option Nat
  mapBytes : Nat
  ownsName : Bool
  deriving DecidableEq, Repr

namespace ShmSegment

def valid (seg : ShmSegment) : Bool := seg.ring.isSome

def validateHeader (cfg : RingConfig) (o : SharedObject) (seg : ShmSegment) :
    Except Thrown ShmSegment :=
  match Check.run o.header cfg.checks with
  | some what => .error (.layoutError what)
  | none =>
    if o.size < cfg.segmentBytes then
      .error (.layoutError ("segment file smaller than required (" ++ toString o.size ++ " < " ++
        toString cfg.segmentBytes ++ ")"))
    else .ok { seg with ring := some ringOffset }

def openSegment (os : Os) (cfg : RingConfig) (o : SharedObject) : Except Thrown ShmSegment :=
  match os.shmOpen with
  | some errno => .error (.osError errno "shm_open(open existing)")
  | none =>
    match os.fstat with
    | some errno => .error (.osError errno "fstat")
    | none =>
      if o.size < SegmentHeader.sizeof then
        .error (.layoutError ("segment too small to contain a shimmy header (size=" ++
          toString o.size ++ ")"))
      else
        match os.mmap cfg.segmentBytes with
        | some errno => .error (.osError errno "mmap(open existing)")
        | none => validateHeader cfg o ⟨none, cfg.segmentBytes, false⟩

end ShmSegment

namespace SharedObject

theorem header_foldl (o : SharedObject) (ws : List (Field × Nat)) :
    ((ws.map fun w => Store.header w.1 w.2).foldl apply o).header =
      ws.foldl (fun header w => update header w.1 w.2) o.header := by
  induction ws generalizing o with
  | nil => rfl
  | cons w ws ih => exact ih _

theorem header_foldl_ring (o : SharedObject) (ws : List (Loc × Nat)) :
    ((ws.map fun w => Store.ring w.1 w.2).foldl apply o).header = o.header := by
  induction ws generalizing o with
  | nil => rfl
  | cons w ws ih => exact ih _

theorem size_foldl (o : SharedObject) (ws : List Store) : (ws.foldl apply o).size = o.size := by
  induction ws generalizing o with
  | nil => rfl
  | cons w ws ih =>
    rw [List.foldl_cons, ih]
    cases w <;> rfl

theorem create_size (cfg : RingConfig) : (create cfg).size = cfg.segmentBytes :=
  size_foldl _ _

theorem create_header (cfg : RingConfig) : (create cfg).header = cfg.recorded := by
  have hheader : (create cfg).header = update (cfg.headerStores.foldl
      (fun header w => update header w.1 w.2) fun _ => 0) .state SegmentHeader.kStateReady := by
    simp only [create, RingConfig.constructRingAndPublishHeader, List.foldl_append,
      List.foldl_cons, List.foldl_nil, apply, header_foldl_ring, header_foldl]
    rfl
  rw [hheader]
  funext f
  cases f <;> rfl

theorem cells_foldl_header (o : SharedObject) (ws : List (Field × Nat)) :
    ((ws.map fun w => Store.header w.1 w.2).foldl apply o).cells = o.cells := by
  induction ws generalizing o with
  | nil => rfl
  | cons w ws ih => exact ih _

theorem cells_foldl (o : SharedObject) {ws : List (Loc × Nat)} {a : Loc} {v : Nat}
    (hv : ∀ w ∈ ws, w.1 = a → w.2 = v) (h : (∃ w ∈ ws, w.1 = a) ∨ o.cells a = v) :
    ((ws.map fun w => Store.ring w.1 w.2).foldl apply o).cells a = v := by
  induction ws generalizing o with
  | nil => simpa using h
  | cons w ws ih =>
    refine ih _ (fun w' hw' => hv w' (List.mem_cons_of_mem w hw')) ?_
    by_cases hw : w.1 = a
    · right
      have hwv : w.2 = v := hv w List.mem_cons_self hw
      simp [apply, ← hw, hwv]
    · rcases h with ⟨w', hmem, ha⟩ | ho
      · rcases List.mem_cons.mp hmem with rfl | hmem
        · exact absurd ha hw
        · exact .inl ⟨w', hmem, ha⟩
      · exact .inr ((update_of_ne (Ne.symm hw) _ _).trans ho)

end SharedObject

def Loc.Within (cfg : RingConfig) : Loc → Prop
  | .cursorValue i => i < cfg.maxConsumers
  | .cursorInUse i => i < cfg.maxConsumers
  | .slotSeq i => i < cfg.capacity
  | .slotLen i => i < cfg.capacity
  | _ => True

theorem RingConfig.initStores_value {cfg : RingConfig} {a : Loc} {v : Nat}
    (h : (a, v) ∈ cfg.initStores) : v = Ring.init (fun _ => 0) a := by
  simp only [initStores, List.mem_append, List.mem_cons, List.not_mem_nil, or_false,
    List.mem_flatMap, Prod.mk.injEq] at h
  rcases h with ((⟨rfl, rfl⟩ | ⟨rfl, rfl⟩) | ⟨i, -, ⟨rfl, rfl⟩ | ⟨rfl, rfl⟩⟩) |
    ⟨i, -, ⟨rfl, rfl⟩ | ⟨rfl, rfl⟩⟩ <;> rfl

theorem RingConfig.mem_initStores {cfg : RingConfig} {a : Loc} (ha : a.Within cfg)
    (hp : ∀ i j, a ≠ .payload i j) : (a, Ring.init (fun _ => 0) a) ∈ cfg.initStores := by
  cases a with
  | payload i j => exact absurd rfl (hp i j)
  | _ => simp_all [initStores, Ring.init, Loc.Within]

namespace SharedObject

theorem create_cells {cfg : RingConfig} {a : Loc} (ha : a.Within cfg) :
    (create cfg).cells a = Ring.init (fun _ => 0) a := by
  simp only [create, RingConfig.constructRingAndPublishHeader, List.foldl_append, List.map_append,
    List.foldl_cons, List.foldl_nil, apply]
  refine cells_foldl _ (fun w hw ha => ?_) ?_
  · exact ha ▸ RingConfig.initStores_value hw
  · by_cases hp : ∃ i j, a = .payload i j
    · right
      obtain ⟨i, j, rfl⟩ := hp
      refine cells_foldl _ (v := 0) (fun w hw ha => ?_) (.inr ?_)
      · simp only [RingConfig.memberInit, List.mem_append, List.mem_cons, List.not_mem_nil,
          or_false, List.mem_flatMap, List.mem_map] at hw
        rcases hw with ((rfl | ⟨k, -, rfl | rfl⟩) | ⟨k, -, rfl⟩) | rfl <;> cases ha
      · rw [cells_foldl_header]
        rfl
    · exact .inl ⟨_, RingConfig.mem_initStores ha fun i j h => hp ⟨i, j, h⟩, rfl⟩

end SharedObject

structure Compatible (cfg cfg' : RingConfig) : Prop where
  blockSize : cfg.blockSize = cfg'.blockSize
  capacity : cfg.capacity = cfg'.capacity
  overflow : cfg.overflow = cfg'.overflow
  maxConsumers : cfg.maxConsumers = cfg'.maxConsumers

namespace RingConfig

variable {cfg cfg' : RingConfig}

theorem checks_recorded (k : Check) (hk : k ∈ cfg.checks) : k.Passes cfg.recorded := by
  simp only [checks, List.mem_cons, List.not_mem_nil, or_false] at hk
  rcases hk with rfl | rfl | rfl | rfl | rfl | rfl | rfl | rfl | rfl | rfl | rfl <;> rfl

theorem maxConsumers_eq (hb : cfg.blockSize = cfg'.blockSize) (hc : cfg.capacity = cfg'.capacity)
    (h : cfg.sizeof = cfg'.sizeof) : cfg.maxConsumers = cfg'.maxConsumers := by
  have hcursor : cursorSizeof = 64 := by decide
  simp only [sizeof, ringSizeof, hb, hc, hcursor] at h
  omega

theorem policyId_injective {o o' : Overflow} (h : o.policyId = o'.policyId) : o = o' := by
  cases o <;> cases o' <;> first | rfl | cases h

theorem compatible_iff : Compatible cfg cfg' ↔ ∀ k ∈ cfg'.checks, k.Passes cfg.recorded := by
  constructor
  · rintro ⟨hb, hc, ho, hm⟩ k hk
    have hsame : cfg.recorded = cfg'.recorded := by
      funext f
      cases f <;> simp [recorded, sizeof, hb, hc, ho, hm]
    exact hsame ▸ checks_recorded k hk
  · intro h
    have hb : cfg.blockSize = cfg'.blockSize := h (checkEq "block_size" .blockSize cfg'.blockSize)
      (by simp [checks])
    have hc : cfg.capacity = cfg'.capacity := h (checkEq "capacity" .capacity cfg'.capacity)
      (by simp [checks])
    have ho : cfg.overflow.policyId = cfg'.overflow.policyId := h (checkEq "policy" .policy cfg'.overflow.policyId)
      (by simp [checks])
    have hs : cfg.sizeof = cfg'.sizeof := h (checkEq "ring_sizeof" .ringSizeof cfg'.sizeof)
      (by simp [checks])
    exact ⟨hb, hc, policyId_injective ho, maxConsumers_eq hb hc hs⟩

end RingConfig

namespace ShmSegment

theorem openSegment_create {os : Os} {cfg cfg' : RingConfig} (hopen : os.shmOpen = none)
    (hstat : os.fstat = none) (hmap : os.mmap cfg'.segmentBytes = none) :
    openSegment os cfg' (.create cfg) =
      match Check.run cfg.recorded cfg'.checks with
      | some what => .error (.layoutError what)
      | none => .ok ⟨some ringOffset, cfg'.segmentBytes, false⟩ := by
  have hlarge : ¬ (SharedObject.create cfg).size < SegmentHeader.sizeof := by
    have hoff : SegmentHeader.sizeof ≤ ringOffset := by decide
    rw [SharedObject.create_size]
    simp only [RingConfig.segmentBytes]
    omega
  simp only [openSegment, hopen, hstat, hmap, if_neg hlarge, validateHeader,
    SharedObject.create_header]
  cases hrun : Check.run cfg.recorded cfg'.checks with
  | some what => rfl
  | none =>
    obtain ⟨hb, hc, -, hm⟩ := RingConfig.compatible_iff.mpr (Check.run_eq_none.mp hrun)
    have hfits : ¬ (SharedObject.create cfg).size < cfg'.segmentBytes := by
      rw [SharedObject.create_size]
      simp [RingConfig.segmentBytes, RingConfig.sizeof, hb, hc, hm]
    simp only [if_neg hfits]

theorem open_accepts {os : Os} {cfg cfg' : RingConfig} (hopen : os.shmOpen = none)
    (hstat : os.fstat = none) (hmap : os.mmap cfg'.segmentBytes = none) :
    ((∃ seg, openSegment os cfg' (.create cfg) = .ok seg ∧ seg.valid = true) ↔
      Compatible cfg cfg') ∧
      (¬ Compatible cfg cfg' → ∃ k ∈ cfg'.checks, ¬ k.Passes cfg.recorded ∧
        openSegment os cfg' (.create cfg) =
          .error (.layoutError (k.message (cfg.recorded k.field)))) := by
  rw [openSegment_create hopen hstat hmap, RingConfig.compatible_iff, ← Check.run_eq_none]
  cases hrun : Check.run cfg.recorded cfg'.checks with
  | none => exact ⟨⟨fun _ => rfl, fun _ => ⟨_, rfl, rfl⟩⟩, fun h => absurd rfl h⟩
  | some what =>
    obtain ⟨k, hk, hfail, hwhat⟩ := Check.run_eq_some hrun
    refine ⟨⟨fun ⟨seg, h, _⟩ => (by cases h), fun h => (by cases h)⟩, fun _ => ⟨k, hk, hfail, ?_⟩⟩
    rw [hwhat]

def quietOs : Os := ⟨none, none, fun _ => none⟩

def spinPair : RingConfig := .lone .overwrite .spin

def futexPair : RingConfig := .lone .overwrite .futex

theorem open_accepts_pair : ∃ seg, openSegment quietOs spinPair (.create spinPair) = .ok seg ∧
    seg.valid = true :=
  (@open_accepts quietOs spinPair spinPair rfl rfl rfl).1.mpr
    ⟨rfl, rfl, rfl, rfl⟩

theorem open_ignores_wait : ¬ ∀ (os : Os) (cfg cfg' : RingConfig), os.shmOpen = none →
    os.fstat = none → os.mmap cfg'.segmentBytes = none →
      ((∃ seg, openSegment os cfg' (.create cfg) = .ok seg ∧ seg.valid = true) ↔
        Compatible cfg cfg' ∧ cfg.wait.blocks = cfg'.wait.blocks) := by
  intro h
  have hok : ∃ seg, openSegment quietOs futexPair (.create spinPair) = .ok seg ∧
      seg.valid = true := by
    refine ⟨⟨some ringOffset, futexPair.segmentBytes, false⟩, ?_, rfl⟩
    rw [openSegment_create rfl rfl rfl]
    rfl
  exact absurd ((h quietOs spinPair futexPair rfl rfl rfl).mp hok).2 (by decide)

end ShmSegment

end Shimmy
