import Shimmy.Segment.Books

namespace Shimmy

open Concurrency Function

structure Begun {P : Type} (p : P) (factory : Factory) (ans : Answers) (k : Kernel P)
    (f : Frame P) : Prop where
  name : f.seg.name = factory.name
  owns : f.seg.ownsName = (FactoryCall.mk factory f.seg.hugepagesActive).mayUnlink
  unlinkCalls : f.kernel.unlinkCalls = k.unlinkCalls
  linked : ∀ name object, k.names name = some object → f.kernel.names name = some object
  others : ∀ name, name ≠ factory.name → f.kernel.names name = k.names name
  opened : ∀ name, factory = .openSegment name → f.kernel.names = k.names
  untouched : (∀ fd, ans.shmOpen ≠ .ok fd) → f.seg.hugepagesActive = false →
    f.kernel.names = k.names ∧ f.kernel.objects = k.objects
  mappings : ∀ x m, k.maps x = some m → f.kernel.maps x = some m
  backed : ∀ fd, f.seg.fd = some fd → ∃ object, f.kernel.fds (p, fd) = some object ∧
    f.kernel.names f.seg.name = some object
  mapped : ∀ a, f.seg.map = some a → ∃ m, f.kernel.maps (p, a) = some m ∧
    (f.seg.hugepagesActive = false →
      f.kernel.names f.seg.name = some m.object ∧ ∃ fd, ans.shmOpen = .ok fd)

namespace Begun

variable {P : Type} {p : P} {factory : Factory} {ans : Answers} {k : Kernel P} {f : Frame P}
  {fd a bytes : Nat}

theorem start {name : String} {owns : Bool} (hname : factory.name = name)
    (howns : owns = (FactoryCall.mk factory false).mayUnlink) : Begun p factory ans k
      ⟨{ SegmentHandle.empty with name := name, ownsName := owns }, k⟩ where
  name := hname.symm
  owns := howns
  unlinkCalls := rfl
  linked _ _ hn := hn
  others _ _ := rfl
  opened _ _ := rfl
  untouched _ _ := ⟨rfl, rfl⟩
  mappings _ _ hx := hx
  backed _ hf := by cases hf
  mapped _ ha := by cases ha

theorem ftruncate (hb : Begun p factory ans k f) (hans : ans.shmOpen = .ok fd) :
    Begun p factory ans k (f.ftruncate p fd bytes) where
  name := hb.name
  owns := hb.owns
  unlinkCalls := (Kernel.unlinkCalls_ftruncate bytes).trans hb.unlinkCalls
  linked := by simpa only [Frame.ftruncate, Kernel.names_ftruncate] using hb.linked
  others := by simpa only [Frame.ftruncate, Kernel.names_ftruncate] using hb.others
  opened := by simpa only [Frame.ftruncate, Kernel.names_ftruncate] using hb.opened
  untouched hno := absurd hans (hno fd)
  mappings := by simpa only [Frame.ftruncate, Kernel.maps_ftruncate] using hb.mappings
  backed := by
    simpa only [Frame.ftruncate, Kernel.names_ftruncate, Kernel.fds_ftruncate] using hb.backed
  mapped := by
    simpa only [Frame.ftruncate, Kernel.names_ftruncate, Kernel.maps_ftruncate] using hb.mapped

theorem construct (hb : Begun p factory ans k f) (cfg : RingConfig)
    (hans : f.seg.hugepagesActive = true ∨ ∃ fd, ans.shmOpen = .ok fd) :
    Begun p factory ans k (f.constructRingAndPublishHeader p cfg) := by
  unfold Frame.constructRingAndPublishHeader
  refine ⟨hb.name, hb.owns, ?_, ?_, ?_, ?_, fun hno hhuge => ?_, ?_, ?_, ?_⟩
  · split <;> exact hb.unlinkCalls
  · split <;> exact hb.linked
  · split <;> exact hb.others
  · split <;> exact hb.opened
  · rcases hans with htrue | ⟨fd, hfd⟩
    · rw [show f.seg.hugepagesActive = false from hhuge] at htrue
      cases htrue
    · exact absurd hfd (hno fd)
  · split <;> exact hb.mappings
  · split <;> exact hb.backed
  · split <;> exact hb.mapped

variable [DecidableEq P]

theorem shmOpenCreate (hb : Begun p factory ans k f) (hans : ans.shmOpen = .ok fd)
    (hopen : ∀ name, factory ≠ .openSegment name) (hm : f.seg.map = none) (mode : Nat) :
    Begun p factory ans k (f.shmOpenCreate p fd mode) where
  name := hb.name
  owns := hb.owns
  unlinkCalls := (Kernel.unlinkCalls_shmOpenCreate mode).trans hb.unlinkCalls
  linked name object hn := by
    have hlinked := hb.linked name object hn
    simp only [Frame.shmOpenCreate, Kernel.names_shmOpenCreate]
    by_cases heq : name = f.seg.name
    · subst heq
      rw [update_self, hlinked, Option.getD_some]
    · rw [update_of_ne heq, hlinked]
  others name hn := by
    simp only [Frame.shmOpenCreate, Kernel.names_shmOpenCreate]
    rw [update_of_ne (by rwa [hb.name]), hb.others name hn]
  opened name hf := absurd hf (hopen name)
  untouched hno := absurd hans (hno fd)
  mappings x m hx := by
    simp only [Frame.shmOpenCreate, Kernel.maps_shmOpenCreate]
    exact hb.mappings x m hx
  backed fd' hf := by
    cases hf
    simp only [Frame.shmOpenCreate, Kernel.names_shmOpenCreate, Kernel.fds_shmOpenCreate,
      update_self]
    exact ⟨_, rfl, rfl⟩
  mapped a ha := by
    simp only [Frame.shmOpenCreate, hm] at ha
    cases ha

theorem shmOpenExisting {object : Nat} (hb : Begun p factory ans k f)
    (hans : ans.shmOpen = .ok fd) (hname : f.kernel.names f.seg.name = some object)
    (hm : f.seg.map = none) : Begun p factory ans k (f.shmOpenExisting p fd) where
  name := hb.name
  owns := hb.owns
  unlinkCalls := Kernel.unlinkCalls_shmOpenExisting.trans hb.unlinkCalls
  linked name object hn := by
    simp only [Frame.shmOpenExisting, Kernel.names_shmOpenExisting]
    exact hb.linked name object hn
  others name hn := by
    simp only [Frame.shmOpenExisting, Kernel.names_shmOpenExisting]
    exact hb.others name hn
  opened name hf := by
    simp only [Frame.shmOpenExisting, Kernel.names_shmOpenExisting]
    exact hb.opened name hf
  untouched hno := absurd hans (hno fd)
  mappings x m hx := by
    simp only [Frame.shmOpenExisting, Kernel.maps_shmOpenExisting]
    exact hb.mappings x m hx
  backed fd' hf := by
    cases hf
    simp only [Frame.shmOpenExisting, Kernel.names_shmOpenExisting,
      Kernel.fds_shmOpenExisting hname, update_self]
    exact ⟨object, rfl, hname⟩
  mapped a ha := by
    simp only [Frame.shmOpenExisting, hm] at ha
    cases ha

theorem mmapShared (hb : Begun p factory ans k f) (hans : ans.shmOpen = .ok fd)
    (hfree : f.kernel.maps (p, a) = none) (hfd : f.seg.fd = some fd) :
    Begun p factory ans k (f.mmapShared p fd a bytes) := by
  obtain ⟨object, hobject, hname⟩ := hb.backed fd hfd
  have hkernel := Kernel.mmapShared_eq (a := (p, a)) hobject bytes
  refine ⟨hb.name, hb.owns, ?_, ?_, ?_, ?_, fun hno => absurd hans (hno fd), fun x m hx => ?_, ?_,
    fun a' ha => ?_⟩
  · rw [Frame.mmapShared, hkernel]
    exact hb.unlinkCalls
  · rw [Frame.mmapShared, hkernel]
    exact hb.linked
  · rw [Frame.mmapShared, hkernel]
    exact hb.others
  · rw [Frame.mmapShared, hkernel]
    exact hb.opened
  · rw [Frame.mmapShared, hkernel]
    have hx' := hb.mappings x m hx
    simp only [Kernel.mmap]
    rwa [update_of_ne (by rintro rfl; rw [hfree] at hx'; cases hx')]
  · rw [Frame.mmapShared, hkernel]
    exact hb.backed
  · cases ha
    rw [Frame.mmapShared, hkernel]
    exact ⟨⟨bytes, object⟩, update_self .., fun _ => ⟨hname, fd, hans⟩⟩

theorem hugetlb {name : String} {opts : SegmentOptions} (rounded : Nat)
    (hb : Begun p (.create name opts) ans k f) (hnofd : f.seg.fd = none)
    (hfree : f.kernel.maps (p, a) = none) :
    Begun p (.create name opts) ans k ⟨{ f.seg with
      map := some a
      mapBytes := rounded
      hugepagesActive := true
      ownsName := false }, f.kernel.mmapAnonymous (p, a) rounded⟩ where
  name := hb.name
  owns := rfl
  unlinkCalls := hb.unlinkCalls
  linked := hb.linked
  others := hb.others
  opened := hb.opened
  untouched _ hhuge := by cases hhuge
  mappings x m hx := by
    have hx' := hb.mappings x m hx
    simp only [Kernel.mmapAnonymous, Kernel.mmap]
    rwa [update_of_ne (by rintro rfl; rw [hfree] at hx'; cases hx')]
  backed fd hf := by
    rw [hnofd] at hf
    cases hf
  mapped a' ha := by
    cases ha
    exact ⟨_, update_self .., fun hhuge => (by cases hhuge)⟩

end Begun

inductive Ended {P : Type} [DecidableEq P] (p : P) (ans : Answers) (f : Frame P) :
    Except Thrown SegmentHandle × Kernel P → Prop
  | returned (hm : f.seg.map.isSome = true) : Ended p ans f f.returned
  | unwound (thrown : Thrown) (hhuge : f.seg.hugepagesActive = false) :
      Ended p ans f (f.unwind ans p thrown)

namespace Begun

variable {P : Type} [DecidableEq P] {p : P} {ans : Answers} {k : Kernel P} {f : Frame P}

theorem createNamed_ended {name : String} {opts : SegmentOptions}
    (hb : Begun p (.create name opts) ans k f) (hm : f.seg.map = none)
    (hhuge : f.seg.hugepagesActive = false)
    (hmap : f.kernel.mapFree p ans.mmap = true) (cfg : RingConfig) (mode : Nat) :
    ∃ f', Begun p (.create name opts) ans k f' ∧
      Ended p ans f' (SegmentHandle.createNamed ans p cfg mode f) := by
  unfold SegmentHandle.createNamed
  cases hopen : ans.shmOpen with
  | error errno => exact ⟨f, hb, .unwound _ hhuge⟩
  | ok fd =>
    have hopened := hb.shmOpenCreate hopen (fun _ hf => by cases hf) hm mode
    cases ans.ftruncate with
    | some errno => exact ⟨_, hopened, .unwound _ hhuge⟩
    | none =>
      have hsized : Begun p (.create name opts) ans k
          ((f.shmOpenCreate p fd mode).ftruncate p fd cfg.segmentBytes) := hopened.ftruncate hopen
      cases hmm : ans.mmap with
      | error errno => exact ⟨_, hsized, .unwound _ hhuge⟩
      | ok a =>
        have hfree : ((f.shmOpenCreate p fd mode).ftruncate p fd cfg.segmentBytes).kernel.maps
            (p, a) = none := by
          rw [Frame.ftruncate, Kernel.maps_ftruncate, Frame.shmOpenCreate,
            Kernel.maps_shmOpenCreate]
          simpa [hmm, Kernel.mapFree] using hmap
        exact ⟨_, (hsized.mmapShared hopen hfree rfl).construct cfg (.inr ⟨fd, hopen⟩),
          .returned rfl⟩

theorem create_ended {name : String} {opts : SegmentOptions}
    (hmap : k.mapFree p ans.mmap = true) (hhuge : k.mapFree p ans.mmapHuge = true)
    (cfg : RingConfig) :
    ∃ f, Begun p (.create name opts) ans k f ∧
      Ended p ans f (SegmentHandle.create ans p cfg name opts k) := by
  have hstart : Begun p (.create name opts) ans k
      ⟨{ SegmentHandle.empty with name := name, ownsName := true }, k⟩ := .start rfl rfl
  have hnamed := hstart.createNamed_ended rfl rfl hmap cfg opts.mode
  unfold SegmentHandle.create Frame.tryCreateHugetlb
  cases opts.hugepages with
  | false => exact hnamed
  | true =>
    cases hans : ans.mmapHuge with
    | error errno => exact hnamed
    | ok a =>
      have hfree : k.maps (p, a) = none := by simpa [hans, Kernel.mapFree] using hhuge
      exact ⟨_, (hstart.hugetlb _ rfl hfree).construct cfg (.inl rfl), .returned rfl⟩

theorem validateHeader_ended {factory : Factory} (hb : Begun p factory ans k f)
    (hm : f.seg.map.isSome = true) (hhuge : f.seg.hugepagesActive = false) (cfg : RingConfig)
    (o : SharedObject) :
    ∃ f', Begun p factory ans k f' ∧
      Ended p ans f' (SegmentHandle.validateHeader ans p cfg o f) := by
  unfold SegmentHandle.validateHeader
  cases hr : ShmSegment.validateHeader cfg o f.seg.toShmSegment with
  | error thrown => exact ⟨f, hb, .unwound _ hhuge⟩
  | ok seg =>
    have howns : seg.ownsName = f.seg.ownsName := by
      unfold ShmSegment.validateHeader at hr
      split at hr
      · cases hr
      · split at hr
        · cases hr
        · cases hr
          rfl
    exact ⟨⟨{ f.seg with toShmSegment := seg }, f.kernel⟩,
      ⟨hb.name, howns.trans hb.owns, hb.unlinkCalls, hb.linked, hb.others, hb.opened,
        hb.untouched, hb.mappings, hb.backed, hb.mapped⟩, .returned hm⟩

theorem openDescriptor_ended {factory : Factory} {fd : Nat} (hb : Begun p factory ans k f)
    (hopen : ans.shmOpen = .ok fd) (hfd : f.seg.fd = some fd)
    (hhuge : f.seg.hugepagesActive = false) (hmap : f.kernel.mapFree p ans.mmap = true)
    (cfg : RingConfig) :
    ∃ f', Begun p factory ans k f' ∧
      Ended p ans f' (SegmentHandle.openDescriptor ans p cfg fd f) := by
  unfold SegmentHandle.openDescriptor
  cases ans.fstat with
  | some errno => exact ⟨f, hb, .unwound _ hhuge⟩
  | none =>
    dsimp only
    split
    · exact ⟨f, hb, .unwound _ hhuge⟩
    · cases hmm : ans.mmap with
      | error errno => exact ⟨f, hb, .unwound _ hhuge⟩
      | ok a =>
        have hfree : f.kernel.maps (p, a) = none := by simpa [hmm, Kernel.mapFree] using hmap
        exact (hb.mmapShared hopen hfree hfd).validateHeader_ended rfl hhuge cfg _

theorem openSegment_ended {name : String}
    (hname : ∀ fd, ans.shmOpen = .ok fd → (k.names name).isSome = true)
    (hmap : k.mapFree p ans.mmap = true) (cfg : RingConfig) :
    ∃ f, Begun p (.openSegment name) ans k f ∧
      Ended p ans f (SegmentHandle.openSegment ans p cfg name k) := by
  have hstart : Begun p (.openSegment name) ans k
      ⟨{ SegmentHandle.empty with name := name, ownsName := false }, k⟩ := .start rfl rfl
  unfold SegmentHandle.openSegment
  cases hopen : ans.shmOpen with
  | error errno => exact ⟨_, hstart, .unwound _ rfl⟩
  | ok fd =>
    obtain ⟨object, hobject⟩ := Option.isSome_iff_exists.mp (hname fd hopen)
    refine (hstart.shmOpenExisting hopen hobject rfl).openDescriptor_ended hopen rfl rfl ?_ cfg
    cases hmm : ans.mmap with
    | error errno => rfl
    | ok a => simpa [hmm, Kernel.mapFree, Frame.shmOpenExisting, Kernel.maps_shmOpenExisting]
        using hmap

theorem call_ended {factory : Factory} (hl : factory.lawful ans p k = true) (cfg : RingConfig) :
    ∃ f, Begun p factory ans k f ∧ Ended p ans f (factory.call ans p cfg k) := by
  simp only [Factory.lawful, Bool.and_eq_true] at hl
  obtain ⟨⟨⟨-, hmap⟩, hhuge⟩, hname⟩ := hl
  cases factory with
  | create name opts => exact create_ended hmap hhuge cfg
  | openSegment name =>
    refine openSegment_ended (fun fd hopen => ?_) hmap cfg
    rw [hopen] at hname
    exact hname

end Begun

end Shimmy
