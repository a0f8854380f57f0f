import Shimmy.Concurrency.Weaker
import Shimmy.Weak.Seqlock

namespace Shimmy

open Concurrency Function

def Orders.strongest : Orders where
  mark := .seqCst
  markFence := true
  stamp := .seqCst
  doRead := .seqCst
  validateFence := true

structure Orders.Weaker (o o' : Orders) : Prop where
  mark : o.mark.Weaker o'.mark
  markFence : o.markFence = true → o'.markFence = true
  stamp : o.stamp.Weaker o'.stamp
  doRead : o.doRead.Weaker o'.doRead
  validateFence : o.validateFence = true → o'.validateFence = true

namespace Orders.Weaker

variable {o o' : Orders}

theorem producer (h : o.Weaker o') (pc : ProducerPc) : (pc.access o).Weaker (pc.access o') := by
  cases pc with
  | mark seq => exact ⟨h.mark, id, h.markFence⟩
  | stamp seq => exact ⟨h.stamp, id, id⟩
  | _ => exact .refl _

theorem consumer (h : o.Weaker o') (pc : SessionPc) : (pc.access o).Weaker (pc.access o') := by
  cases pc with
  | doRead call => exact ⟨h.doRead, id, id⟩
  | copyValidate n => exact ⟨.refl _, h.validateFence, id⟩
  | validate => exact ⟨.refl _, h.validateFence, id⟩
  | _ => exact .refl _

end Orders.Weaker

namespace Setup

variable {ι : Type} {S : Setup ι} {o o' : Orders} {l : WeakLabel ι} {σ σ' τ' : WeakSystem ι}

structure Below (σ σ' : WeakSystem ι) : Prop where
  memory : σ.memory.Below σ'.memory
  producer : σ.producer = σ'.producer
  consumer : σ.consumer = σ'.consumer

variable [DecidableEq ι]

theorem Below.step (h : Below σ σ') (ho : o.Weaker o') (hs : S.weakStep o' l σ' = some τ') :
    ∃ τ, S.weakStep o l σ = some τ ∧ Below τ τ' := by
  obtain ⟨m, p, c⟩ := σ
  obtain ⟨m', p', c'⟩ := σ'
  obtain ⟨hm, rfl, rfl⟩ := h
  cases l with
  | producer time =>
    obtain ⟨⟨p', n'⟩, hx, rfl⟩ := Option.map_eq_some_iff.mp hs
    obtain ⟨n, hn, hbelow⟩ := hm.exec (ho.producer p.pc) hx
    exact ⟨⟨n, p', c⟩, by simp only [weakStep, hn, Option.map_some], hbelow, rfl, rfl⟩
  | call b k =>
    simp only [weakStep] at hs ⊢
    split at hs
    · obtain ⟨s, hx, rfl⟩ := Option.map_eq_some_iff.mp hs
      rw [if_pos ‹_›]
      exact ⟨⟨m, p, update c b s⟩, by rw [hx]; rfl, hm, rfl, rfl⟩
    · cases hs
  | consumer b time =>
    obtain ⟨i, hi, hs⟩ := Option.bind_eq_some_iff.mp hs
    obtain ⟨⟨s, n'⟩, hx, rfl⟩ := Option.map_eq_some_iff.mp hs
    obtain ⟨n, hn, hbelow⟩ := hm.exec (ho.consumer (c b).pc) hx
    dsimp only at hi hn
    refine ⟨⟨n, p, update c b s⟩, ?_, hbelow, rfl, rfl⟩
    simp only [weakStep, hi, Option.bind_some, hn, Option.map_some]

theorem weaker_reachable (ho : o.Weaker o') (h : S.WeakReachable o' σ') :
    ∃ σ, S.WeakReachable o σ ∧ σ.producer = σ'.producer ∧ σ.consumer = σ'.consumer := by
  obtain ⟨fresh, hr⟩ := h
  have hstart : Below (S.weakInitial fresh) (S.weakInitial fresh) := ⟨.refl fun _ => le_rfl, rfl, rfl⟩
  obtain ⟨σ, hreach, hbelow⟩ := hr.invariant (I := fun τ' =>
    ∃ τ, (S.weakLts o).Reaches (S.weakInitial fresh) τ ∧ Below τ τ') ⟨_, .refl, hstart⟩ (by
      rintro l u v ⟨τ, hτ, hbelow⟩ - hu
      obtain ⟨τ₁, hstep, hbelow₁⟩ := hbelow.step ho hu
      exact ⟨τ₁, hτ.step trivial hstep, hbelow₁⟩)
  exact ⟨σ, ⟨fresh, hreach⟩, hbelow.producer, hbelow.consumer⟩

end Setup

instance View.decidableMatches {blockSize : Nat} (v : View) (msg : Message blockSize) :
    Decidable (v.Matches msg) :=
  inferInstanceAs (Decidable (_ ∧ _))

namespace Overwrite

def OrdersSound (o : Orders) : Prop :=
  ∀ (ι : Type) [DecidableEq ι] (S : Setup ι), S.cfg.overflow = .overwrite → RealSeeks S →
    ∀ σ, S.WeakReachable o σ → σ.producer.begun < writingSeq →
      ∀ c, SeqlockSound S.cfg S.stream σ.producer.begun (σ.consumer c)

theorem OrdersSound.of_weaker {o o' : Orders} (h : OrdersSound o) (ho : o.Weaker o') :
    OrdersSound o' := by
  intro ι _ S hover hseek σ' hr hcount c
  obtain ⟨σ, hreach, hp, hc⟩ := Setup.weaker_reachable ho hr
  rw [← hp] at hcount ⊢
  rw [← hc]
  exact h ι S hover hseek σ hreach hcount c

def weakPublish (n : Nat) : List (WeakLabel (Fin 1)) :=
  [.producer n, .producer (2 * (n / 2) + 1), .producer (n / 2 + 1), .producer (n / 2 + 1),
    .producer (2 * (n / 2) + 2), .producer (n + 1)]

def staleRun : List (WeakLabel (Fin 1)) :=
  weakPublish 0 ++ [.call 0 .construct, .call 0 .read, .consumer 0 2, .consumer 0 0,
    .call 0 .validate, .consumer 0 2]

def tornRun : List (WeakLabel (Fin 1)) :=
  weakPublish 0 ++ weakPublish 1 ++ (weakPublish 2).take 4 ++
    [.call 0 .construct, .call 0 .read, .consumer 0 2, .consumer 0 1, .call 0 (.viewByte 0),
      .consumer 0 2, .call 0 .validate, .consumer 0 2]

def misled (S : Setup (Fin 1)) (σ : WeakSystem (Fin 1)) : Bool :=
  (σ.consumer 0).validated && σ.producer.begun < 4 && (σ.consumer 0).view.any fun v =>
    ¬ v.Matches (S.stream (σ.consumer 0).obj.readSeq)

theorem not_ordersSound {o : Orders} (ls : List (WeakLabel (Fin 1)))
    (h : ((pairSetup.weakLts o).run ls (pairSetup.weakInitial fun _ => 0)).any
      (misled pairSetup) = true) : ¬ OrdersSound o := by
  intro hsound
  obtain ⟨σ, hr, hp⟩ := Lts.exists_of_run (M := pairSetup.weakLts o) _ ls _ h
  simp only [misled, Bool.and_eq_true, decide_eq_true_eq, Option.any_eq_true] at hp
  obtain ⟨⟨hval, hbegun⟩, v, hv, hne⟩ := hp
  have hcount : σ.producer.begun < writingSeq := by unfold writingSeq; omega
  have hs := hsound (Fin 1) pairSetup rfl (fun c s seq h => by cases h) σ ⟨_, hr⟩ hcount 0
  exact hne (hs.valid hval v hv).2

theorem ordersSound_iff (o : Orders) : OrdersSound o ↔
    o.markFence = true ∧ o.stamp.releases = true ∧ o.doRead.acquires = true ∧
      o.validateFence = true := by
  constructor
  · intro h
    refine ⟨?_, ?_, ?_, ?_⟩ <;> by_contra hne
    · refine not_ordersSound (o := { Orders.strongest with markFence := false }) tornRun
        (by decide +kernel) (h.of_weaker ?_)
      exact ⟨.seqCst _, fun h => absurd h hne, .seqCst _, .seqCst _, fun _ => rfl⟩
    · refine not_ordersSound (o := { Orders.strongest with stamp := .acquire }) staleRun
        (by decide +kernel) (h.of_weaker ?_)
      exact ⟨.seqCst _, fun _ => rfl, ⟨fun _ => rfl, fun h => absurd h hne⟩, .seqCst _,
        fun _ => rfl⟩
    · refine not_ordersSound (o := { Orders.strongest with doRead := .release }) staleRun
        (by decide +kernel) (h.of_weaker ?_)
      exact ⟨.seqCst _, fun _ => rfl, .seqCst _, ⟨fun h => absurd h hne, fun _ => rfl⟩,
        fun _ => rfl⟩
    · refine not_ordersSound (o := { Orders.strongest with validateFence := false }) tornRun
        (by decide +kernel) (h.of_weaker ?_)
      exact ⟨.seqCst _, fun _ => rfl, .seqCst _, .seqCst _, fun h => absurd h hne⟩
  · rintro ⟨hmark, hstamp, hread, hfence⟩ ι _ S hover hseek σ hr hcount c
    exact weak_sound hover hmark hstamp hread hfence hseek hr hcount c

theorem weak_seqlock_sound {ι : Type} [DecidableEq ι] {S : Setup ι} {σ : WeakSystem ι}
    (hover : S.cfg.overflow = .overwrite) (hseek : RealSeeks S) (h : S.WeakReachable .source σ)
    (hcount : σ.producer.begun < 2 ^ 64 - 2) (c : ι) :
    SeqlockSound S.cfg S.stream σ.producer.begun (σ.consumer c) :=
  weak_sound hover rfl rfl rfl rfl hseek h hcount c

def laggingRun : List (WeakLabel (Fin 1)) :=
  weakPublish 0 ++ weakPublish 1 ++ (weakPublish 2).take 2 ++
    [.call 0 .construct, .call 0 .read, .consumer 0 2, .consumer 0 1, .call 0 (.viewByte 0),
      .consumer 0 1, .call 0 .validate, .consumer 0 2]

theorem weak_seqlock_sound_lagging : ∃ σ, pairSetup.WeakReachable .source σ ∧
    σ.producer.pc = .storeLen 2 ∧ (σ.consumer 0).view = some ⟨1, [(0, 0)]⟩ ∧
    (σ.consumer 0).validated = true ∧
    View.Matches ⟨1, [(0, 0)]⟩ (pairSetup.stream (σ.consumer 0).obj.readSeq) := by
  obtain ⟨σ, hr, hp⟩ := Lts.exists_of_run (M := pairSetup.weakLts .source)
    (fun σ : WeakSystem (Fin 1) => (σ.consumer 0).validated &&
      (σ.consumer 0).view = some ⟨1, [(0, 0)]⟩ && σ.producer = ⟨.storeLen 2, 2⟩) laggingRun
    (pairSetup.weakInitial fun _ => 0) (by decide +kernel)
  simp only [Bool.and_eq_true, decide_eq_true_eq] at hp
  obtain ⟨⟨hval, hview⟩, hprod⟩ := hp
  have hsound := weak_seqlock_sound (S := pairSetup) rfl (fun c s seq h => by cases h) ⟨_, hr⟩
    (by rw [hprod]; decide) 0
  exact ⟨σ, ⟨_, hr⟩, by rw [hprod], hview, hval, (hsound.valid hval _ hview).2⟩

end Overwrite

end Shimmy
