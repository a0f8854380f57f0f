import Shimmy.Segment.Naming

namespace Shimmy

open Concurrency Function

def World.SoleOwner {H P : Type} (h : H) (w : World H P) : Prop :=
  ∀ seg, w.handle h = some seg → seg.isCreator = true →
    ∀ h' seg', h' ≠ h → w.handle h' = some seg' → seg'.isCreator = true → seg'.name ≠ seg.name

def World.Named {H P : Type} (w : World H P) : Prop :=
  ∀ h seg, w.handle h = some seg → seg.isCreator = true → seg.name ≠ ""

namespace Fleet

section definitions

variable {H P : Type} [DecidableEq P]

def Linked (F : Fleet H P) (w : World H P) : Prop :=
  ∀ h seg, w.handle h = some seg → seg.isCreator = true →
    ∃ a m, seg.map = some a ∧ w.kernel.maps (F.home h, a) = some m ∧
      w.kernel.names seg.name = some m.object

def succeeds (F : Fleet H P) : HandleLabel H → World H P → Bool
  | .make h factory ans, w =>
    (match factory with
      | .create _ opts => !opts.hugepages
      | .openSegment _ => true) &&
      (factory.call ans (F.home h) (F.ring h) w.kernel).1.isOk
  | .moveAssign _ _ ans, _ => ans.shmUnlink = none
  | .destroy _ ans, _ => ans.shmUnlink = none
  | _, _ => true

def Harmless : HandleLabel H → World H P → Prop
  | .moveAssign h t _, w => h ≠ t → w.SoleOwner h
  | .destroy h _, w => w.SoleOwner h
  | _, _ => True

end definitions

variable {H P : Type} [DecidableEq H] {F : Fleet H P} {w w' : World H P} {h t : H}
  {seg other : SegmentHandle} {ans : Answers}

theorem linked_seat (hlinked : F.Linked w) (howns : seg.isCreator = false) :
    F.Linked { w with handle := update w.handle h (some seg) } := by
  intro h' seg' hh' howns'
  rcases eq_or_ne h' h with rfl | heq
  · have hseg : seg = seg' := by simpa using hh'
    rw [← hseg, howns] at howns'
    cases howns'
  · exact hlinked h' seg' (by simpa [heq] using hh') howns'

variable [DecidableEq P]

theorem linked_torn (hb : Books F w.kernel w.handle) (hnamed : w.Named) (hlinked : F.Linked w)
    (hh : w.handle h = some seg) (hans : ans.shmUnlink = none) :
    F.Linked (F.torn h seg ans w).2 ↔ w.SoleOwner h := by
  have hnames : (F.torn h seg ans w).2.kernel.names =
      if (Frame.mk seg w.kernel).unlinks ∧ ans.shmUnlink = none then
        update w.kernel.names seg.name none
      else w.kernel.names := Frame.reset_names ..
  have hmaps (h' : H) (seg' : SegmentHandle) (a : Nat) (m : Mapping) (hne : h' ≠ h)
      (hh' : w.handle h' = some seg') (hm' : seg'.map = some a)
      (hm : w.kernel.maps (F.home h', a) = some m) :
      (F.torn h seg ans w).2.kernel.maps (F.home h', a) = some m := by
    have hreset : (F.torn h seg ans w).2.kernel.maps =
        ((Frame.mk seg w.kernel).munmap (F.home h)).kernel.maps := Frame.reset_maps ..
    rw [hreset]
    unfold Frame.munmap
    split
    · rename_i b hb'
      have hheld := hb.maps.live h _ _ (Books.mapHeld_some.mpr ⟨seg, hh, rfl, hb', rfl⟩)
      rw [Kernel.maps_munmap hheld, update_of_ne, hm]
      intro heq
      obtain ⟨hhome, rfl⟩ := Prod.mk.inj heq
      exact hne (hb.mapped_unique hh hb' hh' hhome hm')
    · exact hm
  constructor
  · intro hafter seg₀ hseg howns h' seg' hne hh' howns' hname
    cases hh.symm.trans hseg
    obtain ⟨a, m, -, -, hn⟩ := hafter h' seg' ((update_of_ne hne ..).trans hh') howns'
    have hu : (Frame.mk seg w.kernel).unlinks = true := by
      simpa [Frame.unlinks, hnamed h seg hh howns, SegmentHandle.isCreator] using howns
    rw [hnames, if_pos ⟨hu, hans⟩, hname, update_self] at hn
    cases hn
  · intro hsole h' seg' hh' howns'
    have hne : h' ≠ h := by
      rintro rfl
      rw [show (F.torn h' seg ans w).2.handle h' = none from update_self ..] at hh'
      cases hh'
    rw [show (F.torn h seg ans w).2.handle h' = w.handle h' from update_of_ne hne ..] at hh'
    obtain ⟨a, m, hm', hm, hn⟩ := hlinked h' seg' hh' howns'
    refine ⟨a, m, hm', hmaps h' seg' a m hne hh' hm' hm, ?_⟩
    rw [hnames]
    split
    · rename_i hu
      have howns := ((Bool.and_eq_true _ _).mp hu.1).1
      rw [update_of_ne (hsole seg hh howns h' seg' hne hh' howns'), hn]
    · exact hn

theorem linked_moved (hh : w.handle h = none) (ht : w.handle t = some other) (hne : h ≠ t)
    (hkin : F.kin h t = true) (howns : seg.isCreator = false) :
    F.Linked (moved h t seg other w) ↔ F.Linked w := by
  have hhome : F.home h = F.home t := by
    simp only [kin, Bool.and_eq_true, decide_eq_true_eq] at hkin
    exact hkin.1
  have hout (h' : H) (h₁ : h' ≠ h) (h₂ : h' ≠ t) :
      (moved h t seg other w).handle h' = w.handle h' := by
    simp [moved, SegmentHandle.swap, h₁, h₂]
  have hto : (moved h t seg other w).handle h = some other := by
    simp [moved, SegmentHandle.swap, hne]
  have hfrom : (moved h t seg other w).handle t = some seg := by
    simp [moved, SegmentHandle.swap]
  constructor
  · intro hafter h' seg' hh' howns'
    rcases eq_or_ne h' t with rfl | heqt
    · cases ht.symm.trans hh'
      have hlink := hafter h other hto howns'
      rwa [hhome] at hlink
    · refine hafter h' seg' ?_ howns'
      rwa [hout h' (by rintro rfl; rw [hh] at hh'; cases hh') heqt]
  · intro hlinked h' seg' hh' howns'
    rcases eq_or_ne h' t with rfl | heqt
    · cases hfrom.symm.trans hh'
      rw [howns] at howns'
      cases howns'
    · rcases eq_or_ne h' h with rfl | heqh
      · cases hto.symm.trans hh'
        rw [hhome]
        exact hlinked t other ht howns'
      · rw [hout h' heqh heqt] at hh'
        exact hlinked h' seg' hh' howns'

theorem made_handle {factory : Factory} {h' : H} {seg' : SegmentHandle}
    (hl : factory.lawful ans (F.home h) w.kernel = true)
    (hh' : (F.made h factory ans w).handle h' = some seg') :
    h' = h ∧ (∃ f, Begun (F.home h) factory ans w.kernel f ∧ f.seg = seg' ∧
      f.seg.map.isSome = true ∧ (F.made h factory ans w).kernel = f.kernel) ∨
      h' ≠ h ∧ w.handle h' = some seg' := by
  obtain ⟨f, hbegun, hended⟩ := Begun.call_ended hl (F.ring h)
  revert hh'
  unfold made
  revert hended
  generalize factory.call ans (F.home h) (F.ring h) w.kernel = result
  intro hended hh'
  rcases eq_or_ne h' h with rfl | heq
  · cases hended with
    | unwound _ _ => simp [Frame.unwind, Except.toOption] at hh'
    | returned hm =>
      have hseg : f.seg = seg' := by simpa [Frame.returned, Except.toOption] using hh'
      exact .inl ⟨rfl, f, hbegun, hseg, hm, rfl⟩
  · exact .inr ⟨heq, by simpa [heq] using hh'⟩

theorem begun_owner {P : Type} {p : P} {factory : Factory} {k : Kernel P} {f : Frame P}
    (hb : Begun p factory ans k f) (howns : f.seg.isCreator = true)
    (hm : f.seg.map.isSome = true) :
    (∃ name opts, factory = .create name opts) ∧ (∃ fd, ans.shmOpen = .ok fd) ∧
      ∃ a m, f.seg.map = some a ∧ f.kernel.maps (p, a) = some m ∧
        f.kernel.names f.seg.name = some m.object := by
  have hmay := hb.owns.symm.trans howns
  cases factory with
  | openSegment name => cases hmay
  | create name opts =>
    have hhuge : f.seg.hugepagesActive = false := by simpa [FactoryCall.mayUnlink] using hmay
    obtain ⟨a, ha⟩ := Option.isSome_iff_exists.mp hm
    obtain ⟨m, hmap, hname⟩ := hb.mapped a ha
    obtain ⟨hlinked, hfd⟩ := hname hhuge
    exact ⟨⟨name, opts, rfl⟩, hfd, a, m, ha, hmap, hlinked⟩

theorem linked_made {factory : Factory} (hlinked : F.Linked w)
    (hl : factory.lawful ans (F.home h) w.kernel = true)
    (hok : (factory.call ans (F.home h) (F.ring h) w.kernel).1.isOk = true) :
    F.Linked (F.made h factory ans w) := by
  obtain ⟨f, hbegun, hended⟩ := Begun.call_ended hl (F.ring h)
  have hkernel : (F.made h factory ans w).kernel = f.kernel := by
    unfold made
    revert hok hended
    generalize factory.call ans (F.home h) (F.ring h) w.kernel = result
    intro hok hended
    cases hended with
    | unwound _ _ => cases hok
    | returned _ => rfl
  intro h' seg' hh' howns'
  rcases made_handle hl hh' with ⟨rfl, f', hbegun', rfl, hm, hkernel'⟩ | ⟨-, hh'⟩
  · rw [hkernel']
    exact (begun_owner hbegun' howns' hm).2.2
  · obtain ⟨a, m, ha, hm, hname⟩ := hlinked h' seg' hh' howns'
    rw [hkernel]
    exact ⟨a, m, ha, hbegun.mappings _ _ hm, hbegun.linked _ _ hname⟩

theorem named_made {factory : Factory} (hnamed : w.Named)
    (hl : factory.lawful ans (F.home h) w.kernel = true) : (F.made h factory ans w).Named := by
  intro h' seg' hh' howns'
  rcases made_handle hl hh' with ⟨rfl, f, hbegun, rfl, hm, -⟩ | ⟨-, hh'⟩
  · obtain ⟨⟨name, opts, rfl⟩, ⟨fd, hfd⟩, -⟩ := begun_owner hbegun howns' hm
    rw [hbegun.name]
    exact of_decide_eq_true (Factory.lawful_name hl hfd)
  · exact hnamed h' seg' hh' howns'

theorem named_step {l : HandleLabel H} (hnamed : w.Named) (hs : F.Step w l w') : w'.Named := by
  have hseat (h : H) (seg : SegmentHandle) (howns : seg.isCreator = false) (v : World H P)
      (hv : v.Named) : World.Named { v with handle := update v.handle h (some seg) } := by
    intro h' seg' hh' howns'
    rcases eq_or_ne h' h with rfl | heq
    · have hseg : seg = seg' := by simpa using hh'
      rw [← hseg, howns] at howns'
      cases howns'
    · exact hv h' seg' (by simpa [heq] using hh') howns'
  have htorn (h : H) (seg : SegmentHandle) (ans : Answers) : (F.torn h seg ans w).2.Named := by
    intro h' seg' hh' howns'
    rcases eq_or_ne h' h with rfl | heq
    · simp [torn] at hh'
    · exact hnamed h' seg' (by simpa [torn, heq] using hh') howns'
  have hmoved (h t : H) (seg other : SegmentHandle) (howns : seg.isCreator = false)
      (v : World H P) (hv : v.Named) (ht : v.handle t = some other) :
      (moved h t seg other v).Named := by
    intro h' seg' hh' howns'
    rcases eq_or_ne h' t with rfl | heqt
    · have hseg : seg = seg' := by simpa [moved, SegmentHandle.swap] using hh'
      rw [← hseg, howns] at howns'
      cases howns'
    · rcases eq_or_ne h' h with rfl | heqh
      · have hseg : other = seg' := by simpa [moved, SegmentHandle.swap, heqt] using hh'
        exact hv t seg' (hseg ▸ ht) howns'
      · exact hv h' seg' (by simpa [moved, SegmentHandle.swap, heqt, heqh] using hh') howns'
  cases hs with
  | construct hh => exact hseat _ _ rfl w hnamed
  | make hh hl => exact named_made hnamed hl
  | moveConstruct hh ht hne hkin => exact hmoved _ _ _ _ rfl w hnamed ht
  | moveSelf hh => exact hnamed
  | @moveAssign h t seg other ans hh ht hne hkin =>
    refine hmoved _ _ _ _ ?_ _ (htorn h seg ans) ?_
    · rw [torn, Frame.reset_seg]
      rfl
    · simp [torn, hne.symm, ht]
  | releaseNameOwnership hh => exact hseat _ _ rfl w hnamed
  | destroy hh => exact htorn _ _ _
  | write => exact hnamed

theorem linked_step {l : HandleLabel H} (hb : Books F w.kernel w.handle) (hnamed : w.Named)
    (hlinked : F.Linked w) (hok : F.succeeds l w = true) (hs : F.Step w l w') :
    F.Linked w' ↔ Harmless l w := by
  cases hs with
  | construct hh => exact iff_of_true (linked_seat hlinked rfl) trivial
  | make hh hl =>
    exact iff_of_true (linked_made hlinked hl ((Bool.and_eq_true _ _).mp hok).2) trivial
  | moveConstruct hh ht hne hkin =>
    exact iff_of_true ((linked_moved hh ht hne hkin rfl).mpr hlinked) trivial
  | moveSelf hh => exact iff_of_true hlinked fun hne => absurd rfl hne
  | @moveAssign h t seg other ans hh ht hne hkin =>
    have hans := of_decide_eq_true hok
    rw [linked_moved (update_self ..) (by simp [torn, hne.symm, ht]) hne hkin
      (by rw [torn, Frame.reset_seg]; rfl), linked_torn hb hnamed hlinked hh hans]
    exact ⟨fun hsole _ => hsole, fun hsole => hsole hne⟩
  | releaseNameOwnership hh => exact iff_of_true (linked_seat hlinked rfl) trivial
  | destroy hh => exact linked_torn hb hnamed hlinked hh (of_decide_eq_true hok)
  | write => exact iff_of_true hlinked trivial

theorem name_ownership {names : String → Option Nat} {objects : Nat → SharedObject}
    {modes : Nat → Nat} {created : Nat} {ls : List (HandleLabel H)}
    (hr : F.lts.run ls (.start names objects modes created) = some w)
    (hok : F.lts.Steps (fun l v => F.succeeds l v = true) ls
      (.start names objects modes created)) :
    F.lts.States F.Linked ls (.start names objects modes created) ↔
      F.lts.Steps Harmless ls (.start names objects modes created) := by
  refine Lts.states_iff_steps (J := fun v => Books F v.kernel v.handle ∧ v.Named)
    (fun l v v' hv hs => ?_) (fun l v v' hv hlinked hok hs => ?_) ?_ ?_ hr hok
  · exact ⟨hv.1.step (step_cases hs), named_step hv.2 (step_cases hs)⟩
  · exact linked_step hv.1 hv.2 hlinked hok (step_cases hs)
  · exact ⟨.boot F names objects modes created, fun _ _ hh => by cases hh⟩
  · exact fun _ _ hh => by cases hh

def lendsBool : HandleLabel Nat → World Nat Unit → Bool
  | .moveAssign _ _ _, _ => false
  | .destroy h _, w => (w.handle h).all fun seg => !seg.isCreator
  | _, _ => true

theorem harmless_of_lendsBool (l : HandleLabel Nat) (w : World Nat Unit)
    (hl : lendsBool l w = true) : Harmless l w := by
  cases l with
  | moveAssign h t ans => cases hl
  | destroy h ans =>
    intro seg hh howns
    simp [lendsBool, hh, howns] at hl
  | _ => trivial

def vacantWorld : World Nat Unit := .start (fun _ => none) (fun _ => .truncated 0) (fun _ => 0) 0

def handOff : List (HandleLabel Nat) :=
  [.make 0 (.create "/ring" {}) (calm 3 4096), .make 1 (.openSegment "/ring") (calm 4 8192),
    .destroy 1 (calm 0 0), .moveConstruct 2 0]

theorem name_ownership_handOff : solo.lts.States solo.Linked handOff vacantWorld := by
  have hrun : (solo.lts.run handOff vacantWorld).isSome = true := by decide
  obtain ⟨w, hr⟩ := Option.isSome_iff_exists.mp hrun
  refine (name_ownership hr (by decide)).mpr ?_
  exact Lts.Steps.mono harmless_of_lendsBool (by decide)

def recreate : List (HandleLabel Nat) :=
  [.make 0 (.create "/ring" {}) (calm 3 4096), .make 1 (.create "/ring" {}) (calm 4 8192),
    .moveAssign 0 1 (calm 0 0), .destroy 1 (calm 0 0)]

theorem recreate_unlinks : ¬ ∀ (ls : List (HandleLabel Nat)) (w : World Nat Unit),
    solo.lts.run ls vacantWorld = some w →
      solo.lts.Steps (fun l v => solo.succeeds l v = true) ls vacantWorld →
        solo.lts.States solo.Linked ls vacantWorld := by
  intro h
  have hrun : ((solo.lts.run recreate vacantWorld).any fun w => (w.handle 0).any fun seg =>
      seg.isCreator && (w.kernel.names seg.name).isNone) = true := by decide
  obtain ⟨w, hr, hw⟩ := (Option.any_eq_true _ _).mp hrun
  obtain ⟨seg, hh, hseg⟩ := (Option.any_eq_true _ _).mp hw
  obtain ⟨howns, hgone⟩ := (Bool.and_eq_true _ _).mp hseg
  obtain ⟨-, m, -, -, hname⟩ := (h recreate w hr (by decide)).last hr 0 seg hh howns
  rw [hname] at hgone
  cases hgone

end Fleet

end Shimmy
