import Shimmy.Concurrency.Runs
import Shimmy.Overwrite.Seqlock
import Shimmy.Segment.Footprint

namespace Shimmy

open Bytes Concurrency Function

structure RawSystem (ι : Type) where
  memory : ByteMemory (Thread ι) (Nat × Nat)
  producer : Producer
  consumer : ι → Session

namespace RingConfig

variable {cfg : RingConfig} {raw padding : Nat → Nat}

def InCursors (cfg : RingConfig) (x : Nat) : Prop :=
  Block.base cfg (.cursor 0) ≤ x ∧ x < Block.base cfg (.cursor cfg.maxConsumers)

instance (x : Nat) : Decidable (cfg.InCursors x) := inferInstanceAs (Decidable (_ ∧ _))

-- Constructing a `Cursor` may write its padding too; what it leaves there is unspecified.
def laid (cfg : RingConfig) (raw padding : Nat → Nat) (x : Nat) : Nat :=
  if cfg.InCursors x then padding x else raw x

theorem laid_lt (hraw : ∀ x, raw x < 256) (hpadding : ∀ x, padding x < 256) (x : Nat) :
    cfg.laid raw padding x < 256 := by
  unfold laid
  split
  · exact hpadding x
  · exact hraw x

theorem initStores_fit : ∀ w ∈ cfg.initStores,
    cfg.ringLayout.valid w.1 ∧ w.2 < 256 ^ cfg.ringLayout.width w.1 :=
  fun _ hw => ringStores_writes (List.mem_append_right _ hw)

theorem initStores_ne_payload {a : Loc} {v i j : Nat} (h : (a, v) ∈ cfg.initStores) :
    a ≠ .payload i j := by
  simp only [initStores, List.mem_append, List.mem_cons, List.not_mem_nil, or_false,
    List.mem_flatMap, Prod.mk.injEq] at h
  rcases h with ((⟨rfl, -⟩ | ⟨rfl, -⟩) | ⟨i, -, ⟨rfl, -⟩ | ⟨rfl, -⟩⟩) |
    ⟨i, -, ⟨rfl, -⟩ | ⟨rfl, -⟩⟩ <;> exact Loc.noConfusion

theorem init_eq {cells : Loc → Nat} {a : Loc} (h : ∀ i j, a ≠ .payload i j) :
    Ring.init (fun _ => 0) a = Ring.init cells a := by
  cases a with
  | payload i j => exact absurd rfl (h i j)
  | _ => rfl

theorem foldl_ring (o : SharedObject) (ws : List (Loc × Nat)) :
    ((ws.map fun w => Store.ring w.1 w.2).foldl SharedObject.apply o).cells =
      ws.foldl (fun cells w => update cells w.1 w.2) o.cells := by
  induction ws generalizing o with
  | nil => rfl
  | cons w ws ih => exact ih _

theorem foldl_initStores (cells : Loc → Nat) {a : Loc} (ha : a.Inside cfg) :
    cfg.initStores.foldl (fun cells w => update cells w.1 w.2) cells a = Ring.init cells a := by
  rw [← foldl_ring ⟨0, fun _ => 0, cells⟩ cfg.initStores]
  refine SharedObject.cells_foldl _ (fun w hw hwa => ?_) ?_
  · subst hwa
    exact (initStores_value hw).trans (init_eq fun i j => initStores_ne_payload hw)
  · by_cases hp : ∃ i j, a = .payload i j
    · obtain ⟨i, j, rfl⟩ := hp
      exact .inr rfl
    · have hne : ∀ i j, a ≠ .payload i j := fun i j h => hp ⟨i, j, h⟩
      have hwithin : a.Within cfg := by
        cases a with
        | payload i j => trivial
        | _ => exact ha
      refine .inl ⟨_, mem_initStores hwithin hne, rfl⟩

theorem view_init {a : Loc} (ha : a.Inside cfg) :
    cfg.ringLayout.view (cfg.ringLayout.putAll raw cfg.initStores) a =
      Ring.init (cfg.ringLayout.view raw) a :=
  (Layout.view_putAll initStores_fit (fun _ _ => rfl) ha).trans (foldl_initStores _ ha)

end RingConfig

namespace Setup

variable {ι : Type} (S : Setup ι)

def rawInitial (raw padding : Nat → Nat) : RawSystem ι where
  memory :=
    ⟨S.cfg.ringLayout.putAll (S.cfg.laid raw padding) S.cfg.initStores, fun _ => none⟩
  producer := Producer.initial
  consumer _ := Session.initial S.cfg

section

variable [DecidableEq ι]

def rawStep : Label ι → RawSystem ι → Option (RawSystem ι)
  | .producer, ρ =>
      (ρ.memory.exec S.cfg.ringLayout (S.key .producer) .producer
        (ρ.producer.code S.cfg S.stream)).map fun r => { ρ with producer := r.1, memory := r.2 }
  | .call c k, ρ =>
      if S.client c (ρ.consumer c) k then
        ((ρ.consumer c).call S.cfg k).map fun s =>
          { ρ with consumer := update ρ.consumer c s }
      else none
  | .consumer c, ρ =>
      ((ρ.consumer c).code S.cfg).bind fun i =>
        (ρ.memory.exec S.cfg.ringLayout (S.key (.consumer c)) (.consumer c) i).map fun r =>
          { ρ with consumer := update ρ.consumer c r.1, memory := r.2 }
  | .drain _, _ => none

def rawLts : Lts (Label ι) (RawSystem ι) := ⟨S.rawStep⟩

end

variable {S} {σ : System ι} {ρ : RawSystem ι} {raw padding : Nat → Nat}

structure Rendered (S : Setup ι) (raw padding : Nat → Nat) (σ : System ι) (ρ : RawSystem ι) :
    Prop where
  contained : Contained S σ
  memory : Renders S.cfg.ringLayout σ.memory ρ.memory
  producer : ρ.producer = σ.producer
  consumer : ρ.consumer = σ.consumer
  outside : ∀ x, S.cfg.ringLayout.Outside x → ρ.memory.bytes x = S.cfg.laid raw padding x

namespace Rendered

theorem initial (hraw : ∀ x, raw x < 256) (hpadding : ∀ x, padding x < 256) :
    Rendered S raw padding (S.initial (S.cfg.ringLayout.view (S.cfg.laid raw padding)))
      (S.rawInitial raw padding) where
  contained := .initial fun _ _ => load_lt (RingConfig.laid_lt hraw hpadding)
  memory := ⟨fun _ => rfl, fun _ ha => RingConfig.view_init ha,
    Layout.putAll_lt (RingConfig.laid_lt hraw hpadding), rfl⟩
  producer := rfl
  consumer := rfl
  outside _ hx := Layout.putAll_of_outside (fun w hw => (RingConfig.initStores_fit w hw).1) hx

theorem step [DecidableEq ι] (hm : S.model = .sc) (h : Rendered S raw padding σ ρ)
    (l : Label ι) : Option.Rel (Rendered S raw padding) (S.step l σ) (S.rawStep l ρ) := by
  have hstep : ∀ σ', S.step l σ = some σ' → Contained S σ' := fun _ => h.contained.step
  cases l with
  | producer =>
    have hx := h.memory.exec h.contained.memory RingConfig.limit_le
      (Producer.obeys h.contained.producer) (S.key .producer) .producer
    simp only [Setup.step, rawStep, hm, h.producer] at hstep ⊢
    generalize σ.memory.exec _ _ _ _ = r at hx hstep
    generalize ρ.memory.exec _ _ _ _ = r' at hx
    cases hx with
    | none => exact .none
    | some hr =>
      obtain ⟨hstate, hmem, hout⟩ := hr
      exact .some ⟨hstep _ rfl, hmem, hstate.symm, h.consumer, fun x hx =>
        (hout x hx).trans (h.outside x hx)⟩
  | call c k =>
    simp only [Setup.step, rawStep, h.consumer] at hstep ⊢
    split
    · rename_i hclient
      simp only [hclient, if_true] at hstep
      generalize (σ.consumer c).call S.cfg k = r at hstep
      cases r with
      | none => exact .none
      | some s => exact .some ⟨hstep _ rfl, h.memory, h.producer, rfl, h.outside⟩
    · exact .none
  | consumer c =>
    simp only [Setup.step, rawStep, hm, h.consumer] at hstep ⊢
    have hobeys := fun i => (h.contained.consumer c).obeys (i := i)
    generalize (σ.consumer c).code S.cfg = code at hobeys hstep
    cases code with
    | none => exact .none
    | some i =>
      have hx := h.memory.exec h.contained.memory RingConfig.limit_le (hobeys i rfl)
        (S.key (.consumer c)) (.consumer c)
      simp only [Option.bind_some] at hstep ⊢
      generalize σ.memory.exec _ _ _ _ = r at hx hstep
      generalize ρ.memory.exec _ _ _ _ = r' at hx
      cases hx with
      | none => exact .none
      | some hr =>
        obtain ⟨hstate, hmem, hout⟩ := hr
        exact .some ⟨hstep _ rfl, hmem, h.producer, congrArg (update _ c) hstate.symm, fun x hx =>
          (hout x hx).trans (h.outside x hx)⟩
  | drain t =>
    have hnone : S.step (.drain t) σ = none := by
      simp [Setup.step, Memory.drain, h.memory.buffer t]
    rw [hnone]
    exact .none

end Rendered

theorem raw_lockstep [DecidableEq ι] (S : Setup ι) (hm : S.model = .sc)
    (raw padding : Nat → Nat) (hraw : ∀ x, raw x < 256) (hpadding : ∀ x, padding x < 256)
    (ls : List (Label ι)) :
    Option.Rel (Rendered S raw padding)
      (S.lts.run ls (S.initial (S.cfg.ringLayout.view (S.cfg.laid raw padding))))
      (S.rawLts.run ls (S.rawInitial raw padding)) :=
  Lts.run_rel (fun l _ _ h => h.step hm l) ls (Rendered.initial hraw hpadding)

theorem raw_lockstep_validated : ∃ σ ρ, Overwrite.pairSetup.lts.run Overwrite.validatedRun
      (Overwrite.pairSetup.initial (Overwrite.pairSetup.cfg.ringLayout.view
        (Overwrite.pairSetup.cfg.laid (fun _ => 255) fun _ => 0))) = some σ ∧
    Overwrite.pairSetup.rawLts.run Overwrite.validatedRun
      (Overwrite.pairSetup.rawInitial (fun _ => 255) fun _ => 0) = some ρ ∧
    Rendered Overwrite.pairSetup (fun _ => 255) (fun _ => 0) σ ρ := by
  have hrun : (Overwrite.pairSetup.lts.run Overwrite.validatedRun (Overwrite.pairSetup.initial
      (Overwrite.pairSetup.cfg.ringLayout.view
        (Overwrite.pairSetup.cfg.laid (fun _ => 255) fun _ => 0)))).isSome = true := by
    decide +kernel
  have hrel := raw_lockstep Overwrite.pairSetup rfl (fun _ => 255) (fun _ => 0)
    (fun _ => by decide) (fun _ => by decide) Overwrite.validatedRun
  obtain ⟨σ, hσ⟩ := Option.isSome_iff_exists.mp hrun
  rw [hσ] at hrel
  generalize hraw : Overwrite.pairSetup.rawLts.run Overwrite.validatedRun
    (Overwrite.pairSetup.rawInitial (fun _ => 255) fun _ => 0) = r at hrel
  cases hrel with
  | some h => exact ⟨σ, _, hσ, rfl, h⟩

theorem rendered_of_run [DecidableEq ι] (hm : S.model = .sc) (hraw : ∀ x, raw x < 256)
    (hpadding : ∀ x, padding x < 256) {ls : List (Label ι)}
    (h : S.rawLts.run ls (S.rawInitial raw padding) = some ρ) :
    ∃ σ, S.Reachable σ ∧ Rendered S raw padding σ ρ := by
  have hrel := Lts.run_rel (M := S.lts) (N := S.rawLts) (fun l _ _ h => Rendered.step hm h l) ls
    (Rendered.initial hraw hpadding)
  rw [h] at hrel
  generalize hrun : S.lts.run ls
    (S.initial (S.cfg.ringLayout.view (S.cfg.laid raw padding))) = r at hrel
  cases hrel with
  | some hr => exact ⟨_, ⟨_, Lts.reach_of_run hrun⟩, hr⟩

end Setup

theorem Overwrite.raw_seqlock_sound {ι : Type} [DecidableEq ι] (S : Setup ι)
    (hover : S.cfg.overflow = .overwrite) (hm : S.model = .sc) (hseek : RealSeeks S)
    (raw padding : Nat → Nat) (hraw : ∀ x, raw x < 256) (hpadding : ∀ x, padding x < 256)
    (ls : List (Label ι)) (ρ : RawSystem ι)
    (h : S.rawLts.run ls (S.rawInitial raw padding) = some ρ) (hcount : ρ.producer.begun < 2 ^ 64 - 2)
    (c : ι) (hval : (ρ.consumer c).validated = true) (v : View)
    (hv : (ρ.consumer c).view = some v) :
    (ρ.consumer c).obj.readSeq < ρ.producer.begun ∧
      v.Matches (S.stream (ρ.consumer c).obj.readSeq) := by
  obtain ⟨σ, hr, hrendered⟩ := Setup.rendered_of_run hm hraw hpadding h
  rw [hrendered.producer] at hcount ⊢
  rw [hrendered.consumer] at hval hv ⊢
  obtain ⟨d, hd, hsess⟩ := invariant_of_reachable hover hm hseek hr hcount
  have hview := (hsess c).view
  have hstamped := hview.stamped (.inr (by simp [hv]))
  exact ⟨hstamped.trans_le hd.stampedCount_le_begun, hview.valid hval v hv⟩

theorem Overwrite.raw_seqlock_sound_validated : ∃ ρ, Overwrite.pairSetup.rawLts.run
      Overwrite.validatedRun (Overwrite.pairSetup.rawInitial (fun _ => 255) fun _ => 0) = some ρ ∧
    (ρ.consumer 0).validated = true ∧ (ρ.consumer 0).view = some ⟨1, [(0, 0)]⟩ ∧
    View.Matches ⟨1, [(0, 0)]⟩ (Overwrite.pairSetup.stream (ρ.consumer 0).obj.readSeq) := by
  have hrun : ((Overwrite.pairSetup.rawLts.run Overwrite.validatedRun
      (Overwrite.pairSetup.rawInitial (fun _ => 255) fun _ => 0)).any fun ρ =>
        (ρ.consumer 0).validated && (ρ.consumer 0).view = some ⟨1, [(0, 0)]⟩ &&
          ρ.producer.begun = 1) = true := by
    decide +kernel
  obtain ⟨ρ, hρ, hp⟩ := (Option.any_eq_true _ _).mp hrun
  simp only [Bool.and_eq_true, decide_eq_true_eq] at hp
  obtain ⟨⟨hval, hview⟩, hbegun⟩ := hp
  have hsound := Overwrite.raw_seqlock_sound Overwrite.pairSetup rfl rfl
    (fun c s seq h => by cases h) (fun _ => 255) (fun _ => 0) (fun _ => by decide)
    (fun _ => by decide) Overwrite.validatedRun ρ hρ (by omega) 0 hval _ hview
  exact ⟨ρ, hρ, hval, hview, hsound.2⟩

end Shimmy
