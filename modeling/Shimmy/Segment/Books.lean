import Shimmy.Segment.Fleet

namespace Shimmy

open Concurrency Function

section Held

variable {H P : Type}

def Kernel.mapTable (k : Kernel P) (a : P × Nat) : Option Nat := (k.maps a).map Mapping.length

def Kernel.fdTable (k : Kernel P) (d : P × Nat) : Option Unit := (k.fds d).map fun _ => ()

def SegmentHandle.mapping (p : P) (seg : SegmentHandle) : Option ((P × Nat) × Nat) :=
  seg.map.map fun a => ((p, a), seg.mapBytes)

def SegmentHandle.descriptor (p : P) (seg : SegmentHandle) : Option ((P × Nat) × Unit) :=
  seg.fd.map fun fd => ((p, fd), ())

theorem SegmentHandle.mapping_some {seg : SegmentHandle} {a : Nat} (p : P)
    (hm : seg.map = some a) : seg.mapping p = some ((p, a), seg.mapBytes) := by
  rw [mapping, hm, Option.map_some]

theorem SegmentHandle.mapping_none {seg : SegmentHandle} (p : P) (hm : seg.map = none) :
    seg.mapping p = none := by
  rw [mapping, hm, Option.map_none]

theorem SegmentHandle.mapping_congr {seg seg' : SegmentHandle} (p : P) (hm : seg'.map = seg.map)
    (hl : seg'.mapBytes = seg.mapBytes) : seg'.mapping p = seg.mapping p := by
  rw [mapping, mapping, hm, hl]

theorem SegmentHandle.descriptor_none {seg : SegmentHandle} (p : P) (hf : seg.fd = none) :
    seg.descriptor p = none := by
  rw [descriptor, hf, Option.map_none]

theorem SegmentHandle.descriptor_congr {seg seg' : SegmentHandle} (p : P)
    (hf : seg'.fd = seg.fd) : seg'.descriptor p = seg.descriptor p := by
  rw [descriptor, descriptor, hf]

def Fleet.mapHeld (F : Fleet H P) (handle : H → Option SegmentHandle) (h : H) :
    Option ((P × Nat) × Nat) :=
  (handle h).bind (SegmentHandle.mapping (F.home h))

def Fleet.fdHeld (F : Fleet H P) (handle : H → Option SegmentHandle) (h : H) :
    Option ((P × Nat) × Unit) :=
  (handle h).bind (SegmentHandle.descriptor (F.home h))

namespace Kernel

variable [DecidableEq P] {k : Kernel P} {a d : P × Nat}

theorem fdTable_shmOpen (object : Nat) :
    (k.shmOpen d object).fdTable = update k.fdTable d (some ()) := by
  funext d'
  rcases eq_or_ne d' d with rfl | hd
  · simp [fdTable, shmOpen]
  · simp [fdTable, shmOpen, hd]

theorem fdTable_close : (k.close d).fdTable = update k.fdTable d none := by
  funext d'
  rcases eq_or_ne d' d with rfl | hd
  · simp [fdTable, close]
  · simp [fdTable, close, hd]

theorem mapTable_mmap (m : Mapping) :
    (k.mmap a m).mapTable = update k.mapTable a (some m.length) := by
  funext a'
  rcases eq_or_ne a' a with rfl | ha
  · simp [mapTable, mmap]
  · simp [mapTable, mmap, ha]

theorem maps_munmap {bytes : Nat} (h : k.mapTable a = some bytes) :
    (k.munmap a bytes).maps = update k.maps a none := if_pos h

theorem mapTable_munmap {bytes : Nat} (h : k.mapTable a = some bytes) :
    (k.munmap a bytes).mapTable = update k.mapTable a none := by
  funext a'
  rcases eq_or_ne a' a with rfl | ha
  · simp [mapTable, maps_munmap h]
  · simp [mapTable, maps_munmap h, ha]

end Kernel

variable [DecidableEq H] {F : Fleet H P} {handle : H → Option SegmentHandle} {h : H}

theorem Fleet.mapHeld_update (s : Option SegmentHandle) : F.mapHeld (update handle h s) =
    update (F.mapHeld handle) h (s.bind (SegmentHandle.mapping (F.home h))) := by
  funext h'
  rcases eq_or_ne h' h with rfl | heq
  · simp [mapHeld]
  · simp [mapHeld, heq]

theorem Fleet.fdHeld_update (s : Option SegmentHandle) : F.fdHeld (update handle h s) =
    update (F.fdHeld handle) h (s.bind (SegmentHandle.descriptor (F.home h))) := by
  funext h'
  rcases eq_or_ne h' h with rfl | heq
  · simp [fdHeld]
  · simp [fdHeld, heq]

end Held

structure Books {H P : Type} [DecidableEq P] (F : Fleet H P) (k : Kernel P)
    (handle : H → Option SegmentHandle) : Prop where
  maps : Account k.mapCalls k.mapTable (F.mapHeld handle)
  fds : Account k.fdCalls k.fdTable (F.fdHeld handle)

namespace Books

variable {H P : Type} [DecidableEq P] {F : Fleet H P} {k k' : Kernel P}
  {handle : H → Option SegmentHandle} {h t : H} {seg seg' other : SegmentHandle}

theorem keep (hb : Books F k handle) (hm : k'.maps = k.maps) (hmc : k'.mapCalls = k.mapCalls)
    (hf : k'.fds = k.fds) (hfc : k'.fdCalls = k.fdCalls) : Books F k' handle := by
  obtain ⟨hmaps, hfds⟩ := hb
  refine ⟨?_, ?_⟩
  · have htable : k'.mapTable = k.mapTable := by
      funext a
      simp [Kernel.mapTable, hm]
    rwa [hmc, htable]
  · have htable : k'.fdTable = k.fdTable := by
      funext d
      simp [Kernel.fdTable, hf]
    rwa [hfc, htable]

theorem shmUnlink (hb : Books F k handle) (refused : Option Nat) (name : String) :
    Books F (k.shmUnlink refused name) handle := hb.keep rfl rfl rfl rfl

theorem write (hb : Books F k handle) (object : Nat) (f : SharedObject → SharedObject) :
    Books F (k.write object f) handle := hb.keep rfl rfl rfl rfl

theorem ftruncate (hb : Books F k handle) (d : P × Nat) (bytes : Nat) :
    Books F (k.ftruncate d bytes) handle := by
  unfold Kernel.ftruncate
  split
  · exact hb.keep rfl rfl rfl rfl
  · exact hb

theorem boot (F : Fleet H P) (names : String → Option Nat) (objects : Nat → SharedObject)
    (modes : Nat → Nat) (created : Nat) :
    Books F (.boot names objects modes created) (fun _ => none) := by
  refine ⟨?_, ?_⟩
  · have htable : (Kernel.boot (P := P) names objects modes created).mapTable = fun _ => none := rfl
    have hheld : F.mapHeld (fun _ => none) = fun _ => none := rfl
    rw [htable, hheld]
    exact .empty
  · have htable : (Kernel.boot (P := P) names objects modes created).fdTable = fun _ => none := rfl
    have hheld : F.fdHeld (fun _ => none) = fun _ => none := rfl
    rw [htable, hheld]
    exact .empty

variable [DecidableEq H]

theorem hold (hb : Books F k handle)
    (hm : (handle h).bind (SegmentHandle.mapping (F.home h)) = seg.mapping (F.home h))
    (hf : (handle h).bind (SegmentHandle.descriptor (F.home h)) = seg.descriptor (F.home h)) :
    Books F k (update handle h (some seg)) := by
  obtain ⟨hmaps, hfds⟩ := hb
  refine ⟨?_, ?_⟩
  · rw [Fleet.mapHeld_update, Option.bind_some, ← hm]
    exact (update_eq_self h (F.mapHeld handle)).symm ▸ hmaps
  · rw [Fleet.fdHeld_update, Option.bind_some, ← hf]
    exact (update_eq_self h (F.fdHeld handle)).symm ▸ hfds

theorem drop (hb : Books F k (update handle h (some seg))) (hm : seg.map = none)
    (hf : seg.fd = none) : Books F k (update handle h none) := by
  obtain ⟨hmaps, hfds⟩ := hb
  rw [Fleet.mapHeld_update] at hmaps
  rw [Fleet.fdHeld_update] at hfds
  refine ⟨?_, ?_⟩
  · simpa [Fleet.mapHeld_update, SegmentHandle.mapping, hm] using hmaps
  · simpa [Fleet.fdHeld_update, SegmentHandle.descriptor, hf] using hfds

theorem recast (hb : Books F k (update handle h (some seg))) (hm : seg'.map = seg.map)
    (hl : seg'.mapBytes = seg.mapBytes) (hf : seg'.fd = seg.fd) :
    Books F k (update handle h (some seg')) := by
  have hheld : Books F k (update (update handle h (some seg)) h (some seg')) := by
    refine hb.hold ?_ ?_
    · rw [update_self, Option.bind_some, SegmentHandle.mapping_congr _ hm hl]
    · rw [update_self, Option.bind_some, SegmentHandle.descriptor_congr _ hf]
  rwa [update_idem] at hheld

theorem shmOpen {fd object : Nat} (hb : Books F k (update handle h (some seg)))
    (hnone : seg.fd = none) (hfree : k.fds (F.home h, fd) = none) :
    Books F (k.shmOpen (F.home h, fd) object)
      (update handle h (some { seg with fd := some fd })) := by
  obtain ⟨hmaps, hfds⟩ := hb
  rw [Fleet.mapHeld_update] at hmaps
  rw [Fleet.fdHeld_update] at hfds
  refine ⟨?_, ?_⟩
  · rw [Fleet.mapHeld_update]
    exact hmaps
  · have hheld : update (F.fdHeld handle) h (seg.descriptor (F.home h)) h = none := by
      simp [SegmentHandle.descriptor, hnone]
    have hopen := hfds.acquire hheld (k := (F.home h, fd)) (v := ())
      (by simp [Kernel.fdTable, hfree])
    rw [update_idem] at hopen
    rwa [Fleet.fdHeld_update, Kernel.fdTable_shmOpen]

theorem mmap {a : Nat} {m : Mapping} (hb : Books F k (update handle h (some seg)))
    (hnone : seg.map = none) (hfree : k.maps (F.home h, a) = none) (hm : seg'.map = some a)
    (hl : seg'.mapBytes = m.length) (hf : seg'.fd = seg.fd) :
    Books F (k.mmap (F.home h, a) m) (update handle h (some seg')) := by
  obtain ⟨hmaps, hfds⟩ := hb
  rw [Fleet.mapHeld_update] at hmaps
  rw [Fleet.fdHeld_update, Option.bind_some, ← SegmentHandle.descriptor_congr _ hf] at hfds
  refine ⟨?_, ?_⟩
  · have hheld : update (F.mapHeld handle) h (seg.mapping (F.home h)) h = none := by
      rw [update_self, SegmentHandle.mapping_none _ hnone]
    have hmap := hmaps.acquire hheld (k := (F.home h, a)) (v := m.length)
      (by simp [Kernel.mapTable, hfree])
    rw [update_idem, ← hl, ← SegmentHandle.mapping_some _ hm, hl] at hmap
    rwa [Fleet.mapHeld_update, Kernel.mapTable_mmap]
  · rw [Fleet.fdHeld_update]
    exact hfds

theorem munmap {a : Nat} (hb : Books F k (update handle h (some seg))) (hm : seg.map = some a)
    (hm' : seg'.map = none) (hf : seg'.fd = seg.fd) :
    Books F (k.munmap (F.home h, a) seg.mapBytes) (update handle h (some seg')) := by
  obtain ⟨hmaps, hfds⟩ := hb
  rw [Fleet.mapHeld_update] at hmaps
  rw [Fleet.fdHeld_update, Option.bind_some, ← SegmentHandle.descriptor_congr _ hf] at hfds
  refine ⟨?_, ?_⟩
  · have hheld : update (F.mapHeld handle) h (seg.mapping (F.home h)) h =
        some ((F.home h, a), seg.mapBytes) := by
      rw [update_self, SegmentHandle.mapping_some _ hm]
    have hrelease := hmaps.release hheld
    rw [← Kernel.mapTable_munmap (hmaps.live _ _ _ hheld), update_idem,
      ← SegmentHandle.mapping_none _ hm'] at hrelease
    rw [Fleet.mapHeld_update]
    exact hrelease
  · rw [Fleet.fdHeld_update]
    exact hfds

theorem close {fd : Nat} (hb : Books F k (update handle h (some seg))) (hf : seg.fd = some fd)
    (hf' : seg'.fd = none) (hm : seg'.map = seg.map) (hl : seg'.mapBytes = seg.mapBytes) :
    Books F (k.close (F.home h, fd)) (update handle h (some seg')) := by
  obtain ⟨hmaps, hfds⟩ := hb
  rw [Fleet.mapHeld_update, Option.bind_some, ← SegmentHandle.mapping_congr _ hm hl] at hmaps
  rw [Fleet.fdHeld_update] at hfds
  refine ⟨?_, ?_⟩
  · rw [Fleet.mapHeld_update]
    exact hmaps
  · have hheld : update (F.fdHeld handle) h (seg.descriptor (F.home h)) h =
        some ((F.home h, fd), ()) := by
      rw [update_self, SegmentHandle.descriptor, hf, Option.map_some]
    have hrelease := hfds.release hheld
    rw [← Kernel.fdTable_close, update_idem, ← SegmentHandle.descriptor_none _ hf'] at hrelease
    rw [Fleet.fdHeld_update]
    exact hrelease

theorem shmOpenCreate {fd : Nat} (hb : Books F k (update handle h (some seg)))
    (hnone : seg.fd = none) (hfree : k.fds (F.home h, fd) = none) (name : String) (mode : Nat) :
    Books F (k.shmOpenCreate (F.home h, fd) name mode)
      (update handle h (some { seg with fd := some fd })) := by
  unfold Kernel.shmOpenCreate
  split
  · exact shmOpen (hb.keep rfl rfl rfl rfl) hnone hfree
  · exact shmOpen (hb.keep rfl rfl rfl rfl) hnone hfree

theorem shmOpenExisting {fd object : Nat} {name : String}
    (hb : Books F k (update handle h (some seg))) (hnone : seg.fd = none)
    (hfree : k.fds (F.home h, fd) = none) (hname : k.names name = some object) :
    Books F (k.shmOpenExisting (F.home h, fd) name)
      (update handle h (some { seg with fd := some fd })) := by
  simp only [Kernel.shmOpenExisting, hname]
  exact hb.shmOpen hnone hfree

theorem reset {f : Frame P} (hb : Books F f.kernel (update handle h (some f.seg)))
    (ans : Answers) : Books F (f.reset ans (F.home h)).kernel
      (update handle h (some (f.reset ans (F.home h)).seg)) := by
  have hmap : Books F (f.munmap (F.home h)).kernel
      (update handle h (some (f.munmap (F.home h)).seg)) := by
    unfold Frame.munmap
    split
    · exact hb.munmap ‹_› rfl rfl
    · exact hb
  have hfd : Books F ((f.munmap (F.home h)).close (F.home h)).kernel
      (update handle h (some ((f.munmap (F.home h)).close (F.home h)).seg)) := by
    unfold Frame.close
    split
    · exact hmap.close ‹_› rfl rfl rfl
    · exact hmap
  unfold Frame.reset Frame.shmUnlink
  split
  · exact (hfd.shmUnlink _ _).recast rfl rfl rfl
  · exact hfd.recast rfl rfl rfl

theorem unwind {f : Frame P} (hb : Books F f.kernel (update handle h (some f.seg)))
    (ans : Answers) (thrown : Thrown) :
    Books F (f.unwind ans (F.home h) thrown).2
      (update handle h (f.unwind ans (F.home h) thrown).1.toOption) :=
  (hb.reset ans).drop (by rw [Frame.reset_seg]; rfl) (by rw [Frame.reset_seg]; rfl)

theorem construct {f : Frame P} (hb : Books F f.kernel (update handle h (some f.seg)))
    (cfg : RingConfig) :
    Books F (f.constructRingAndPublishHeader (F.home h) cfg).returned.2 (update handle h
      (f.constructRingAndPublishHeader (F.home h) cfg).returned.1.toOption) := by
  simp only [Frame.constructRingAndPublishHeader, Frame.returned, Except.toOption]
  split
  · exact (hb.write _ _).recast rfl rfl rfl
  · exact hb.recast rfl rfl rfl

theorem mmapAnonymous {a bytes : Nat} (hb : Books F k (update handle h (some seg)))
    (hnone : seg.map = none) (hfree : k.maps (F.home h, a) = none) (hm : seg'.map = some a)
    (hl : seg'.mapBytes = bytes) (hf : seg'.fd = seg.fd) :
    Books F (k.mmapAnonymous (F.home h, a) bytes) (update handle h (some seg')) :=
  mmap (hb.keep rfl rfl rfl rfl) hnone hfree hm hl hf

theorem hugetlb {a : Nat} (rounded : Nat) (hb : Books F k (update handle h (some seg)))
    (hnone : seg.map = none) (hfree : k.maps (F.home h, a) = none) :
    Books F (k.mmapAnonymous (F.home h, a) rounded) (update handle h (some { seg with
      map := some a
      mapBytes := rounded
      hugepagesActive := true
      ownsName := false })) := hb.mmapAnonymous hnone hfree rfl rfl rfl

theorem mmapShared {fd a object bytes : Nat} (hb : Books F k (update handle h (some seg)))
    (hnone : seg.map = none) (hfree : k.maps (F.home h, a) = none)
    (hfd : k.fds (F.home h, fd) = some object) :
    Books F (k.mmapShared (F.home h, a) (F.home h, fd) bytes)
      (update handle h (some { seg with map := some a, mapBytes := bytes })) := by
  simp only [Kernel.mmapShared, hfd]
  exact hb.mmap hnone hfree rfl rfl rfl

theorem createNamed {f : Frame P} {ans : Answers} {cfg : RingConfig} {mode : Nat}
    (hb : Books F f.kernel (update handle h (some f.seg))) (hm : f.seg.map = none)
    (hf : f.seg.fd = none) (hfd : f.kernel.fdFree (F.home h) ans.shmOpen = true)
    (hmap : f.kernel.mapFree (F.home h) ans.mmap = true) :
    Books F (SegmentHandle.createNamed ans (F.home h) cfg mode f).2
      (update handle h (SegmentHandle.createNamed ans (F.home h) cfg mode f).1.toOption) := by
  unfold SegmentHandle.createNamed
  cases hopen : ans.shmOpen with
  | error errno => exact hb.unwind ans _
  | ok fd =>
    rw [hopen] at hfd
    have hopened := hb.shmOpenCreate hf (Option.isNone_iff_eq_none.mp hfd) f.seg.name mode
    cases htrunc : ans.ftruncate with
    | some errno => exact hopened.unwind ans _ (f := f.shmOpenCreate (F.home h) fd mode)
    | none =>
      have hsized := hopened.ftruncate (F.home h, fd) cfg.segmentBytes
      cases hmm : ans.mmap with
      | error errno =>
        exact hsized.unwind ans _
          (f := (f.shmOpenCreate (F.home h) fd mode).ftruncate (F.home h) fd cfg.segmentBytes)
      | ok a =>
        rw [hmm] at hmap
        have hopenfd : ((f.kernel.shmOpenCreate (F.home h, fd) f.seg.name mode).ftruncate
            (F.home h, fd) cfg.segmentBytes).fds (F.home h, fd) =
              some ((f.kernel.names f.seg.name).getD f.kernel.created) := by
          rw [Kernel.fds_ftruncate, Kernel.fds_shmOpenCreate, update_self]
        refine construct (f := ((f.shmOpenCreate (F.home h) fd mode).ftruncate (F.home h) fd
          cfg.segmentBytes).mmapShared (F.home h) fd a cfg.segmentBytes) ?_ cfg
        refine hsized.mmapShared hm ?_ hopenfd
        rw [Kernel.maps_ftruncate, Kernel.maps_shmOpenCreate]
        exact Option.isNone_iff_eq_none.mp hmap

theorem tryCreateHugetlb {f : Frame P} {ans : Answers}
    (hb : Books F f.kernel (update handle h (some f.seg))) (hm : f.seg.map = none)
    (hhuge : f.kernel.mapFree (F.home h) ans.mmapHuge = true) (bytes : Nat) :
    Books F (f.tryCreateHugetlb ans (F.home h) bytes).2.kernel
      (update handle h (some (f.tryCreateHugetlb ans (F.home h) bytes).2.seg)) := by
  unfold Frame.tryCreateHugetlb
  cases hans : ans.mmapHuge with
  | error errno => exact hb
  | ok a =>
    rw [hans] at hhuge
    have hfree : f.kernel.maps (F.home h, a) = none := by simpa [Kernel.mapFree] using hhuge
    exact hb.hugetlb _ hm hfree

theorem create {ans : Answers} {cfg : RingConfig} {name : String} {opts : SegmentOptions}
    (hb : Books F k handle) (hnone : handle h = none)
    (hfd : k.fdFree (F.home h) ans.shmOpen = true) (hmap : k.mapFree (F.home h) ans.mmap = true)
    (hhuge : k.mapFree (F.home h) ans.mmapHuge = true) :
    Books F (SegmentHandle.create ans (F.home h) cfg name opts k).2
      (update handle h (SegmentHandle.create ans (F.home h) cfg name opts k).1.toOption) := by
  unfold SegmentHandle.create
  dsimp only
  generalize hf : Frame.mk { SegmentHandle.empty with name := name, ownsName := true } k = f
  have hstart : Books F f.kernel (update handle h (some f.seg)) := by
    subst hf
    exact hb.hold (by rw [hnone]; rfl) (by rw [hnone]; rfl)
  have hm : f.seg.map = none := by subst hf; rfl
  have hnofd : f.seg.fd = none := by subst hf; rfl
  have hk : f.kernel = k := by subst hf; rfl
  rw [← hk] at hfd hmap hhuge
  have hnamed : Books F (SegmentHandle.createNamed ans (F.home h) cfg opts.mode f).2
      (update handle h (SegmentHandle.createNamed ans (F.home h) cfg opts.mode f).1.toOption) :=
    hstart.createNamed hm hnofd hfd hmap
  have htried := hstart.tryCreateHugetlb hm hhuge cfg.segmentBytes
  have hfell : (f.tryCreateHugetlb ans (F.home h) cfg.segmentBytes).1 = false →
      (f.tryCreateHugetlb ans (F.home h) cfg.segmentBytes).2 = f := by
    unfold Frame.tryCreateHugetlb
    cases ans.mmapHuge with
    | error errno => exact fun _ => rfl
    | ok a => exact fun hfalse => (by cases hfalse)
  revert htried hfell
  generalize f.tryCreateHugetlb ans (F.home h) cfg.segmentBytes = tried
  obtain ⟨ok, f'⟩ := tried
  intro htried hfell
  cases opts.hugepages with
  | false => exact hnamed
  | true =>
    cases ok with
    | false =>
      cases hfell rfl
      exact hnamed
    | true => exact htried.construct cfg

theorem validateHeader {f : Frame P} {ans : Answers} {cfg : RingConfig} {o : SharedObject}
    (hb : Books F f.kernel (update handle h (some f.seg))) :
    Books F (SegmentHandle.validateHeader ans (F.home h) cfg o f).2
      (update handle h (SegmentHandle.validateHeader ans (F.home h) cfg o f).1.toOption) := by
  unfold SegmentHandle.validateHeader
  cases hr : ShmSegment.validateHeader cfg o f.seg.toShmSegment with
  | error thrown => exact hb.unwind ans thrown
  | ok seg =>
    have hbytes : seg.mapBytes = f.seg.mapBytes := by
      unfold ShmSegment.validateHeader at hr
      split at hr
      · cases hr
      · split at hr
        · cases hr
        · cases hr
          rfl
    exact hb.recast rfl hbytes rfl

theorem openDescriptor {f : Frame P} {ans : Answers} {cfg : RingConfig} {fd object : Nat}
    (hb : Books F f.kernel (update handle h (some f.seg))) (hm : f.seg.map = none)
    (hfd : f.kernel.fds (F.home h, fd) = some object)
    (hmap : f.kernel.mapFree (F.home h) ans.mmap = true) :
    Books F (SegmentHandle.openDescriptor ans (F.home h) cfg fd f).2
      (update handle h (SegmentHandle.openDescriptor ans (F.home h) cfg fd f).1.toOption) := by
  unfold SegmentHandle.openDescriptor
  cases ans.fstat with
  | some errno => exact hb.unwind ans _
  | none =>
    dsimp only
    split
    · exact hb.unwind ans _
    · cases hmm : ans.mmap with
      | error errno => exact hb.unwind ans _
      | ok a =>
        rw [hmm] at hmap
        exact validateHeader (hb.mmapShared hm (Option.isNone_iff_eq_none.mp hmap) hfd)

theorem openSegment {ans : Answers} {cfg : RingConfig} {name : String}
    (hb : Books F k handle) (hnone : handle h = none)
    (hname : ∀ fd, ans.shmOpen = .ok fd → (k.names name).isSome = true)
    (hfd : k.fdFree (F.home h) ans.shmOpen = true)
    (hmap : k.mapFree (F.home h) ans.mmap = true) :
    Books F (SegmentHandle.openSegment ans (F.home h) cfg name k).2
      (update handle h (SegmentHandle.openSegment ans (F.home h) cfg name k).1.toOption) := by
  unfold SegmentHandle.openSegment
  dsimp only
  generalize hf : Frame.mk { SegmentHandle.empty with name := name, ownsName := false } k = f
  have hstart : Books F f.kernel (update handle h (some f.seg)) := by
    subst hf
    exact hb.hold (by rw [hnone]; rfl) (by rw [hnone]; rfl)
  have hm : f.seg.map = none := by subst hf; rfl
  have hnofd : f.seg.fd = none := by subst hf; rfl
  have hk : f.kernel = k := by subst hf; rfl
  have hn : f.seg.name = name := by subst hf; rfl
  rw [← hk] at hfd hmap hname
  rw [← hn] at hname
  cases hopen : ans.shmOpen with
  | error errno => exact hstart.unwind ans _
  | ok fd =>
    obtain ⟨object, hobject⟩ := Option.isSome_iff_exists.mp (hname fd hopen)
    rw [hopen] at hfd
    have hopened := hstart.shmOpenExisting hnofd (Option.isNone_iff_eq_none.mp hfd) hobject
    have hopenfd : (f.shmOpenExisting (F.home h) fd).kernel.fds (F.home h, fd) = some object := by
      simp [Frame.shmOpenExisting, Kernel.fds_shmOpenExisting hobject]
    refine openDescriptor (f := f.shmOpenExisting (F.home h) fd) hopened hm hopenfd ?_
    · cases hmm : ans.mmap with
      | error errno => rfl
      | ok a =>
        rw [hmm] at hmap
        simpa [Kernel.mapFree, Frame.shmOpenExisting, Kernel.maps_shmOpenExisting] using hmap

theorem call {ans : Answers} {cfg : RingConfig} {factory : Factory} (hb : Books F k handle)
    (hnone : handle h = none) (hl : factory.lawful ans (F.home h) k = true) :
    Books F (factory.call ans (F.home h) cfg k).2
      (update handle h (factory.call ans (F.home h) cfg k).1.toOption) := by
  simp only [Factory.lawful, Bool.and_eq_true] at hl
  obtain ⟨⟨⟨hfd, hmap⟩, hhuge⟩, hname⟩ := hl
  cases factory with
  | create name opts => exact hb.create hnone hfd hmap hhuge
  | openSegment name =>
    refine hb.openSegment hnone (fun fd hopen => ?_) hfd hmap
    rw [hopen] at hname
    exact hname

theorem moved {w : World H P} (hb : Books F w.kernel (update w.handle h none)) (hne : h ≠ t)
    (ht : w.handle t = some other) (hkin : F.kin h t = true) (hm : seg.map = none)
    (hf : seg.fd = none) :
    Books F (Fleet.moved h t seg other w).kernel (Fleet.moved h t seg other w).handle := by
  obtain ⟨hmaps, hfds⟩ := hb
  have hhome : F.home h = F.home t := by
    simp only [Fleet.kin, Bool.and_eq_true, decide_eq_true_eq] at hkin
    exact hkin.1
  have ht' : update w.handle h none t = some other := by rw [update_of_ne hne.symm, ht]
  have hh : update w.handle h none h = none := update_self ..
  refine ⟨?_, ?_⟩
  · have hmove := hmaps.transfer hne (by simp [Fleet.mapHeld])
    have hheld : F.mapHeld (update w.handle h none) t = other.mapping (F.home h) := by
      simp [Fleet.mapHeld, ht', hhome]
    rw [hheld, Fleet.mapHeld_update, update_idem] at hmove
    simp only [Fleet.moved, SegmentHandle.swap]
    rw [Fleet.mapHeld_update, Fleet.mapHeld_update]
    simpa [SegmentHandle.mapping, hm] using hmove
  · have hmove := hfds.transfer hne (by simp [Fleet.fdHeld])
    have hheld : F.fdHeld (update w.handle h none) t = other.descriptor (F.home h) := by
      simp [Fleet.fdHeld, ht', hhome]
    rw [hheld, Fleet.fdHeld_update, update_idem] at hmove
    simp only [Fleet.moved, SegmentHandle.swap]
    rw [Fleet.fdHeld_update, Fleet.fdHeld_update]
    simpa [SegmentHandle.descriptor, hf] using hmove

theorem torn {w : World H P} (hb : Books F w.kernel w.handle) (hh : w.handle h = some seg)
    (ans : Answers) :
    Books F (F.torn h seg ans w).2.kernel (F.torn h seg ans w).2.handle := by
  have hheld : Books F w.kernel (update w.handle h (some seg)) := by
    rwa [← hh, update_eq_self]
  have hreset := reset (f := ⟨seg, w.kernel⟩) hheld ans
  exact hreset.drop (by rw [Frame.reset_seg]; rfl) (by rw [Frame.reset_seg]; rfl)

theorem step {w w' : World H P} {l : HandleLabel H} (hb : Books F w.kernel w.handle)
    (hs : F.Step w l w') : Books F w'.kernel w'.handle := by
  cases hs with
  | construct hh => exact hb.hold (by rw [hh]; rfl) (by rw [hh]; rfl)
  | make hh hl => exact hb.call hh hl
  | moveConstruct hh ht hne hkin =>
    refine moved ?_ hne ht hkin rfl rfl
    rwa [← hh, update_eq_self]
  | moveSelf hh => exact hb
  | @moveAssign h t seg other ans hh ht hne hkin =>
    refine moved ?_ hne ?_ hkin ?_ ?_
    · have htorn := hb.torn hh ans
      rwa [show (F.torn h seg ans w).2.handle = update (F.torn h seg ans w).2.handle h none from
        (update_idem ..).symm] at htorn
    · simp [Fleet.torn, hne.symm, ht]
    · rw [Fleet.torn, Frame.reset_seg]
      rfl
    · rw [Fleet.torn, Frame.reset_seg]
      rfl
  | releaseNameOwnership hh => exact hb.hold (by rw [hh]; rfl) (by rw [hh]; rfl)
  | destroy hh => exact hb.torn hh _
  | @write object contents => exact hb.write object fun _ => contents

end Books

end Shimmy
