import Mathlib.Tactic.IntervalCases
import Shimmy.Segment.System

namespace Shimmy

open Concurrency Function

variable {ι : Type}

def History.Raised {blockSize : Nat} (cfg : RingConfig) (h : History ι blockSize) : Prop :=
  ∀ i < cfg.capacity, (h.fate i).isZeroed = false

def Handle.confirmed : Handle → Bool
  | .closed => false
  | .checking passed => 2 < passed
  | .ready => true

namespace RingConfig

variable {cfg : RingConfig}

theorem state_of_checks {passed : Nat} {k : Check} (hk : cfg.checks[passed]? = some k)
    (hfield : k.field = .state) : passed = 2 := by
  have hlt : passed < 11 := (List.getElem?_eq_some_iff.mp hk).1
  interval_cases passed <;> cases hk <;> first | rfl | cases hfield

theorem ready_not_mem {w : Store} (h : w ∈ (cfg.headerStores.map fun w => .header w.1 w.2) ++
    ((cfg.memberInit ++ cfg.initStores).map fun w => Store.ring w.1 w.2)) :
    w ≠ .header .state SegmentHeader.kStateReady := by
  rintro rfl
  simp only [List.mem_append, List.mem_map, reduceCtorEq, and_false, exists_false, or_false,
    Store.header.injEq] at h
  obtain ⟨e, he, hf, hv⟩ := h
  simp only [headerStores, SegmentHeader.fields, fieldStores, List.mem_append, List.mem_map,
    List.mem_cons, List.not_mem_nil, or_false] at he
  rcases he with ⟨f, -, rfl⟩ | he
  · cases hv
  · rcases he with rfl | rfl | rfl | rfl | rfl | rfl | rfl | rfl | rfl | rfl | rfl <;>
      simp [SegmentHeader.kStateInitializing, SegmentHeader.kStateReady] at hf hv

theorem eq_nil_of_ready {ws : List Store}
    (h : .header .state SegmentHeader.kStateReady :: ws <:+ cfg.constructRingAndPublishHeader) :
    ws = [] := by
  obtain ⟨done, hdone⟩ := h
  rcases List.eq_nil_or_concat ws with rfl | ⟨vs, v, rfl⟩
  · rfl
  · rw [List.concat_eq_append, ← List.cons_append, ← List.append_assoc,
      constructRingAndPublishHeader] at hdone
    have hinit := List.append_inj_left' hdone rfl
    exact absurd rfl (ready_not_mem (hinit ▸ List.mem_append_right done List.mem_cons_self))

end RingConfig

namespace History

variable {blockSize : Nat} {h h' : History ι blockSize} {i : Nat}

theorem zeroed_rebuilt (hz : ∀ i, (h'.fate i).isZeroed = true → (h.fate i).isZeroed = true)
    (w : Store) (hzeroed : ((h'.rebuilt w).fate i).isZeroed = true) :
    ((h.rebuilt w).fate i).isZeroed = true := by
  cases w with
  | header f v => exact hz i hzeroed
  | ring a v =>
    cases a with
    | slotSeq k =>
      rcases eq_or_ne i k with rfl | hik
      · simpa [rebuilt] using hzeroed
      · simp only [rebuilt, update_of_ne hik] at hzeroed ⊢
        exact hz i hzeroed
    | _ => exact hz i hzeroed

theorem zeroed_foldl {ws : List Store}
    (hz : ∀ i, (h'.fate i).isZeroed = true → (h.fate i).isZeroed = true)
    (hzeroed : ((ws.foldl rebuilt h').fate i).isZeroed = true) :
    ((ws.foldl rebuilt h).fate i).isZeroed = true := by
  induction ws generalizing h h' with
  | nil => exact hz i hzeroed
  | cons w ws ih => exact ih (fun i => zeroed_rebuilt hz w) hzeroed

theorem blank_foldl {ws : List Store}
    (hv : ∀ v, .ring (.slotSeq i) v ∈ ws → v = emptySeq)
    (hi : .ring (.slotSeq i) emptySeq ∈ ws ∨ (h.fate i).isZeroed = false) :
    ((ws.foldl rebuilt h).fate i).isZeroed = false := by
  induction ws generalizing h with
  | nil => exact hi.resolve_left List.not_mem_nil
  | cons w ws ih =>
    refine ih (fun v hmem => hv v (List.mem_cons_of_mem w hmem)) ?_
    by_cases hw : ∃ v, w = .ring (.slotSeq i) v
    · obtain ⟨v, rfl⟩ := hw
      obtain rfl := hv v List.mem_cons_self
      exact .inr (by simp [rebuilt, Fate.isZeroed])
    · rcases hi with hmem | hi
      · exact .inl ((List.mem_cons.mp hmem).resolve_left fun hw' => hw ⟨_, hw'.symm⟩)
      · right
        cases w with
        | header f v => exact hi
        | ring a v =>
          cases a with
          | slotSeq k =>
            have hik : i ≠ k := fun hik => hw ⟨v, by rw [hik]⟩
            simpa [rebuilt, hik] using hi
          | _ => exact hi

theorem raised_construct (cfg : RingConfig) (h : History ι blockSize) :
    (cfg.constructRingAndPublishHeader.foldl rebuilt h).Raised cfg := by
  intro i hi
  have hinit (e : Loc × Nat) (he : e ∈ cfg.initStores) (ha : e.1 = .slotSeq i) : e.2 = emptySeq :=
    (RingConfig.initStores_value (a := e.1) he).trans (by rw [ha]; rfl)
  rw [RingConfig.constructRingAndPublishHeader, List.map_append, ← List.append_assoc,
    List.append_assoc, List.foldl_append]
  refine blank_foldl (fun v hmem => ?_) (.inl ?_)
  · simp only [List.mem_append, List.mem_map, Store.ring.injEq, List.mem_singleton, reduceCtorEq,
      or_false] at hmem
    obtain ⟨e, he, ha, rfl⟩ := hmem
    exact hinit e he ha
  · have hmem : (Loc.slotSeq i, emptySeq) ∈ cfg.initStores :=
      RingConfig.mem_initStores (a := .slotSeq i) hi (by simp)
    exact List.mem_append_left _ (List.mem_map.mpr ⟨_, hmem, rfl⟩)

end History

-- What READY promises: the constructor's last stamp stores have landed in every slot.
structure Readied (S : Setup ι) (ρ : Lifetime ι S.cfg.blockSize) : Prop where
  suffix : ∀ ws, ρ.segment.creator = some ws → ws <:+ S.cfg.constructRingAndPublishHeader
  unready : ρ.segment.building = true → ρ.segment.header .state ≠ SegmentHeader.kStateReady
  raised : ∀ ws, ρ.segment.creator = some ws →
    (ws.foldl History.rebuilt ρ.history).Raised S.cfg
  ready : ρ.segment.header .state = SegmentHeader.kStateReady → ρ.history.Raised S.cfg
  confirmed : ∀ t, (ρ.segment.handle t).confirmed = true → ρ.history.recreated t = false →
    ρ.segment.building = false ∧ ρ.history.Raised S.cfg

theorem Handle.confirmed_afterCheck {cfg : RingConfig} {header : Field → Nat} {passed : Nat}
    {k : Check} (hk : cfg.checks[passed]? = some k)
    (h : (Handle.afterCheck cfg header passed k).confirmed = true) :
    (Handle.checking passed).confirmed = true ∨ passed = 2 ∧
      (Handle.checking passed).checksState cfg = true ∧
        header .state = SegmentHeader.kStateReady := by
  unfold afterCheck at h
  split at h
  · rename_i hpass
    rcases eq_or_ne passed 2 with rfl | h2
    · cases hk
      exact .inr ⟨rfl, rfl, hpass⟩
    · refine .inl (decide_eq_true ?_)
      split at h
      · have hle : 2 < passed + 1 := of_decide_eq_true h
        omega
      · rename_i hlast
        have hlen : cfg.checks.length = 11 := rfl
        omega
  · cases h

section Ring

variable [DecidableEq ι] (S : Setup ι) {σ : System ι} {h : History ι S.cfg.blockSize}

theorem Setup.zeroed_noteRing (l : Label ι) {i : Nat}
    (hz : ((S.noteRing σ h l).fate i).isZeroed = true) : (h.fate i).isZeroed = true := by
  unfold Setup.noteRing at hz
  split at hz
  · split at hz
    · exact hz
    · exact hz
    · simp only [History.stamp] at hz
      by_cases hi : i = S.cfg.slot ‹Nat›
      · subst hi
        simp [Fate.isZeroed] at hz
      · simpa [hi] using hz
    · exact hz
  · split at hz <;> exact hz
  · exact hz

theorem Setup.recreated_noteRing (l : Label ι) : (S.noteRing σ h l).recreated = h.recreated := by
  unfold Setup.noteRing
  split
  · split <;> rfl
  · split <;> rfl
  · rfl

end Ring

namespace Readied

variable {S : Setup ι} {σ : Segment ι} {h h' : History ι S.cfg.blockSize}

theorem unborn (S : Setup ι) (fresh : Loc → Nat) : Readied S (S.unborn fresh) where
  suffix ws hws := by cases hws
  unready hb := by cases hb
  raised ws hws := by cases hws
  ready hready := by cases hready
  confirmed t ht := by cases ht

theorem mono (hr : Readied S ⟨σ, h⟩) (ring : System ι)
    (hz : ∀ i, (h'.fate i).isZeroed = true → (h.fate i).isZeroed = true)
    (hrec : h'.recreated = h.recreated) : Readied S ⟨{ σ with ring := ring }, h'⟩ := by
  have hraised {g g' : History ι S.cfg.blockSize}
      (hz : ∀ i, (g'.fate i).isZeroed = true → (g.fate i).isZeroed = true)
      (hg : g.Raised S.cfg) : g'.Raised S.cfg := fun i hi =>
    Bool.eq_false_iff.mpr fun hzeroed => absurd (hz i hzeroed) (by simp [hg i hi])
  refine ⟨hr.suffix, hr.unready, fun ws hws => ?_, fun hready => ?_, fun t ht hfalse => ?_⟩
  · exact hraised (fun i => History.zeroed_foldl hz) (hr.raised ws hws)
  · exact hraised hz (hr.ready hready)
  · obtain ⟨hb, hrr⟩ := hr.confirmed t ht (by rwa [← hrec])
    exact ⟨hb, hraised hz hrr⟩

theorem create_step (S : Setup ι) (σ : Segment ι) (h : History ι S.cfg.blockSize) :
    Readied S ⟨{ σ.withCells (fun _ => 0) with
      present := true
      header := fun _ => 0
      creator := some S.cfg.constructRingAndPublishHeader }, h.truncated⟩ where
  suffix ws hws := by
    cases hws
    exact List.suffix_rfl
  unready _ := fun hready => (by cases hready)
  raised ws hws := by
    cases hws
    exact History.raised_construct S.cfg _
  ready hready := by cases hready
  confirmed t _ hrec := by cases hrec

theorem build_step (hr : Readied S ⟨σ, h⟩) {w : Store} {ws : List Store}
    (hc : σ.creator = some (w :: ws)) :
    Readied S ⟨{ σ.stored w with creator := some ws }, h.rebuilt w⟩ := by
  have hbuilding : σ.building = true := by simp [Segment.building, hc]
  have hsuffix := hr.suffix _ hc
  have hunready : (σ.stored w).header .state = SegmentHeader.kStateReady → ws = [] := by
    intro hready
    cases w with
    | ring a v => exact absurd hready (hr.unready hbuilding)
    | header f v =>
      by_cases hf : f = .state
      · subst hf
        have hself : (σ.stored (.header .state v)).header .state = v := by
          simp [Segment.stored]
        rw [hself] at hready
        subst hready
        exact RingConfig.eq_nil_of_ready hsuffix
      · have hsame : (σ.stored (.header f v)).header .state = σ.header .state :=
          update_of_ne (Ne.symm hf) _ _
        exact absurd (hsame.symm.trans hready) (hr.unready hbuilding)
  refine ⟨fun vs hvs => ?_, fun hb hready => ?_, fun vs hvs => ?_, fun hready => ?_,
    fun t ht hrec => ?_⟩
  · cases hvs
    exact (List.suffix_cons w ws).trans hsuffix
  · obtain rfl := hunready hready
    cases hb
  · cases hvs
    exact hr.raised _ hc
  · obtain rfl := hunready hready
    exact hr.raised _ hc
  · have hhandle : (σ.stored w).handle = σ.handle := by cases w <;> rfl
    have hrec' : (h.rebuilt w).recreated = h.recreated := by
      cases w with
      | header f v => rfl
      | ring a v => cases a <;> rfl
    have hidle := (hr.confirmed t (by rwa [← hhandle]) (by rwa [← hrec'])).1
    exact absurd (hidle.symm.trans hbuilding) (by simp)

variable [DecidableEq ι]

theorem handle_step (hr : Readied S ⟨σ, h⟩) {t : Thread ι} {x : Handle}
    (hfate : h'.fate = h.fate) (hrec : ∀ u, u ≠ t → h'.recreated u = h.recreated u)
    (hx : x.confirmed = true → h'.recreated t = false → σ.building = false ∧ h.Raised S.cfg) :
    Readied S ⟨{ σ with handle := update σ.handle t x }, h'⟩ := by
  have hz (i : Nat) : (h'.fate i).isZeroed = true → (h.fate i).isZeroed = true := by
    rw [hfate]
    exact id
  have hraised (hg : h.Raised S.cfg) : h'.Raised S.cfg := fun i hi => by
    rw [hfate]
    exact hg i hi
  refine ⟨hr.suffix, hr.unready, fun ws hws i hi => ?_, fun hready => hraised (hr.ready hready),
    fun u hu hfalse => ?_⟩
  · exact Bool.eq_false_iff.mpr fun hzeroed =>
      absurd (History.zeroed_foldl hz hzeroed) (by simp [hr.raised ws hws i hi])
  · rcases eq_or_ne u t with rfl | hut
    · exact (hx (by simpa using hu) hfalse).imp_right hraised
    · have hold : (σ.handle u).confirmed = true := by simpa [hut] using hu
      exact (hr.confirmed u hold ((hrec u hut).symm.trans hfalse)).imp_right hraised

theorem check_step (hr : Readied S ⟨σ, h⟩) {t : Thread ι} {passed : Nat} {k : Check}
    (ht : σ.handle t = .checking passed) (hk : S.cfg.checks[passed]? = some k) :
    Readied S ⟨{ σ with
        handle := update σ.handle t (Handle.afterCheck S.cfg σ.header passed k) },
      if (σ.handle t).checksState S.cfg then h.looked t else h⟩ := by
  rw [ht]
  cases hlook : (Handle.checking passed).checksState S.cfg with
  | false =>
    refine hr.handle_step rfl (fun _ _ => rfl) fun hx hrec => ?_
    rcases Handle.confirmed_afterCheck hk hx with hold | ⟨-, hstate, -⟩
    · exact hr.confirmed t (by rw [ht]; exact hold) hrec
    · exact absurd (hlook.symm.trans hstate) (by simp)
  | true =>
    refine hr.handle_step rfl (fun u hu => update_of_ne hu _ _) fun hx _ => ?_
    rcases Handle.confirmed_afterCheck hk hx with hold | ⟨-, -, hready⟩
    · simp only [Handle.checksState, hk, Option.any_some, decide_eq_true_eq] at hlook
      obtain rfl := RingConfig.state_of_checks hk hlook
      cases hold
    · exact ⟨Bool.eq_false_iff.mpr fun hb => hr.unready hb hready, hr.ready hready⟩

theorem step {l : SegmentLabel ι} {ρ ρ' : Lifetime ι S.cfg.blockSize} (hr : Readied S ρ)
    (hstep : S.lifetimeStep l ρ = some ρ') : Readied S ρ' := by
  obtain ⟨σ, h⟩ := ρ
  obtain ⟨σ', hσ, rfl⟩ := Option.map_eq_some_iff.mp hstep
  cases l with
  | create =>
    simp only [Setup.segmentStep] at hσ
    split at hσ <;> cases hσ
    exact create_step S σ h
  | build =>
    simp only [Setup.segmentStep] at hσ
    split at hσ
    · rename_i w ws hc
      cases hσ
      simp only [Setup.note, hc]
      exact hr.build_step hc
    · cases hσ
  | creatorCrash =>
    simp only [Setup.segmentStep] at hσ
    split at hσ <;> cases hσ
    exact ⟨fun _ hws => (by cases hws), fun hb => (by cases hb), fun _ hws => (by cases hws),
      hr.ready, fun t ht hrec => ⟨rfl, (hr.confirmed t ht hrec).2⟩⟩
  | adopt =>
    simp only [Setup.segmentStep] at hσ
    split at hσ
    · rename_i hdone
      cases hσ
      exact hr.handle_step rfl (fun _ _ => rfl) fun _ _ =>
        ⟨by simp [Segment.building, hdone.1], hr.raised [] hdone.1⟩
    · cases hσ
  | openSegment t =>
    simp only [Setup.segmentStep] at hσ
    split at hσ <;> cases hσ
    exact hr.handle_step rfl (fun _ _ => rfl) fun hx => by cases hx
  | check t =>
    simp only [Setup.segmentStep] at hσ
    split at hσ
    · rename_i passed ht
      obtain ⟨k, hk, rfl⟩ := Option.map_eq_some_iff.mp hσ
      exact hr.check_step ht hk
    · cases hσ
  | ring l =>
    simp only [Setup.segmentStep] at hσ
    split at hσ
    · obtain ⟨ring, hring, rfl⟩ := Option.map_eq_some_iff.mp hσ
      exact hr.mono ring (fun i => S.zeroed_noteRing l) (S.recreated_noteRing l)
    · cases hσ
  | publisherCrash =>
    simp only [Setup.segmentStep] at hσ
    split at hσ <;> cases hσ
    exact (hr.handle_step rfl (fun _ _ => rfl) fun hx => (by cases hx)).mono _ (fun _ => id) rfl

end Readied

end Shimmy
