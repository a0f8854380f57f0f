import Shimmy.Segment.Account

namespace Shimmy

open Concurrency Function

def Factory.Spares {P : Type} (k : Kernel P) : Factory → Prop
  | .create name _ => name = "" ∨ k.names name = none
  | .openSegment _ => True

structure Kernel.Restored {P : Type} (ans : Answers) (k k' : Kernel P) : Prop where
  kept : ∀ name object, k.names name = some object → k'.names name = some object
  clean : ∀ name, k.names name = none → k'.names name = none
  contents : (∀ fd, ans.shmOpen ≠ .ok fd) → k'.objects = k.objects

namespace Factory

variable {P : Type} {p : P} {factory : Factory} {ans : Answers} {k : Kernel P}

theorem lawful_name (hl : factory.lawful ans p k = true) {fd : Nat}
    (hans : ans.shmOpen = .ok fd) : factory.nameReady k = true := by
  simp only [lawful, Bool.and_eq_true] at hl
  have hready := hl.2
  rwa [hans] at hready

theorem shmOpen_refused (hl : factory.lawful ans p k = true) {opts : SegmentOptions}
    (hf : factory = .create "" opts) (fd : Nat) : ans.shmOpen ≠ .ok fd := by
  intro hans
  have hready := lawful_name hl hans
  rw [hf] at hready
  cases hready

variable [DecidableEq P]

theorem failed_call {cfg : RingConfig} {thrown : Thrown}
    (hl : factory.lawful ans p k = true) (hfail : (factory.call ans p cfg k).1 = .error thrown) :
    ∃ f, Begun p factory ans k f ∧ f.seg.hugepagesActive = false ∧
      (factory.call ans p cfg k).2 = (f.reset ans p).kernel := by
  obtain ⟨f, hb, hended⟩ := Begun.call_ended hl cfg
  revert hfail hended
  generalize factory.call ans p cfg k = result
  intro hfail hended
  cases hended with
  | returned _ => cases hfail
  | unwound _ hhuge => exact ⟨f, hb, hhuge, rfl⟩

theorem failing_restores {cfg : RingConfig} {thrown : Thrown}
    (hl : factory.lawful ans p k = true) (hunlink : ans.shmUnlink = none)
    (hfail : (factory.call ans p cfg k).1 = .error thrown) :
    k.Restored ans (factory.call ans p cfg k).2 ↔ factory.Spares k := by
  obtain ⟨f, hb, hhuge, hkernel⟩ := failed_call hl hfail
  have hnames := Frame.reset_names ans p f
  have hobjects := Frame.reset_objects ans p f
  rw [← hkernel] at hnames hobjects
  generalize (factory.call ans p cfg k).2 = k' at hnames hobjects
  have hcontents : (∀ fd, ans.shmOpen ≠ .ok fd) → k'.objects = k.objects := fun hno =>
    hobjects.trans (hb.untouched hno hhuge).2
  have howns := hb.owns
  rw [hhuge] at howns
  cases factory with
  | openSegment name =>
    have hkeep : k'.names = k.names := by
      rw [hnames, if_neg, hb.opened name rfl]
      rintro ⟨hu, -⟩
      rw [Frame.unlinks, howns] at hu
      cases hu
    exact ⟨fun _ => trivial, fun _ => ⟨fun _ _ h => (congrFun hkeep _).trans h,
      fun _ h => (congrFun hkeep _).trans h, hcontents⟩⟩
  | create name opts =>
    have hname : f.seg.name = name := hb.name
    by_cases hempty : name = ""
    · have hno := shmOpen_refused hl (by rw [hempty])
      have hkeep : k'.names = k.names := by
        rw [hnames, if_neg, (hb.untouched hno hhuge).1]
        rintro ⟨hu, -⟩
        simp [Frame.unlinks, hname, hempty] at hu
      exact ⟨fun _ => .inl hempty, fun _ => ⟨fun _ _ h => (congrFun hkeep _).trans h,
        fun _ h => (congrFun hkeep _).trans h, hcontents⟩⟩
    · have hu : f.unlinks = true := by
        simp [Frame.unlinks, howns, FactoryCall.mayUnlink, hname, hempty]
      rw [if_pos ⟨hu, hunlink⟩, hname] at hnames
      have hgone : k'.names name = none := by rw [hnames, update_self]
      have hother (n : String) (hn : n ≠ name) : k'.names n = k.names n := by
        rw [hnames, update_of_ne hn, hb.others n hn]
      constructor
      · intro h
        refine .inr ?_
        cases hlinked : k.names name with
        | none => rfl
        | some object =>
          have hstill := h.kept name object hlinked
          rw [hgone] at hstill
          cases hstill
      · rintro (hempty' | hfree)
        · exact absurd hempty' hempty
        · refine ⟨fun n object hn => ?_, fun n hn => ?_, hcontents⟩
          · rw [hother n (by rintro rfl; rw [hfree] at hn; cases hn), hn]
          · by_cases heq : n = name
            · rw [heq, hgone]
            · rw [hother n heq, hn]

end Factory

def claimed : Kernel Unit :=
  .boot (fun name => if name = "/ring" then some 0 else none) (fun _ => .truncated 0) (fun _ => 0) 1

def exhausted : Answers where
  shmOpen := .error 24
  ftruncate := none
  fstat := none
  mmapHuge := .error 12
  mmap := .ok 4096
  shmUnlink := none

theorem failing_restores_vacant :
    (Factory.create "/spare" {}).Spares claimed ∧ claimed.Restored exhausted
      ((Factory.create "/spare" {}).call exhausted () ShmSegment.spinPair claimed).2 :=
  have hspares : (Factory.create "/spare" {}).Spares claimed := .inr (by decide)
  have hthrown : ((Factory.create "/spare" {}).call exhausted () ShmSegment.spinPair claimed).1 =
      .error (.osError 24 "shm_open(O_CREAT)") := rfl
  ⟨hspares, (Factory.failing_restores (by decide) rfl hthrown).mpr hspares⟩

theorem failing_create_unlinks :
    ¬ ∀ (factory : Factory) (ans : Answers) (k : Kernel Unit) (thrown : Thrown),
      factory.lawful ans () k = true → ans.shmUnlink = none →
      (factory.call ans () ShmSegment.spinPair k).1 = .error thrown →
        k.Restored ans (factory.call ans () ShmSegment.spinPair k).2 := by
  intro h
  have hkept := (h (.create "/ring" {}) exhausted claimed (.osError 24 "shm_open(O_CREAT)")
    (by decide) rfl rfl).kept "/ring" 0 (by decide)
  exact absurd hkept (by decide)

end Shimmy
