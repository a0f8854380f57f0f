import Shimmy.Ring.Publish
import Shimmy.Ring.System

namespace Shimmy

open Concurrency Function

variable {ι : Type}

theorem Producer.code_writes {cfg : RingConfig} {stream : Nat → Message cfg.blockSize}
    {p : Producer} {a : Loc} (h : (p.code cfg stream).writes = some a) : a.ofProducer = true := by
  unfold Producer.code at h
  split at h <;> cases h <;> rfl

theorem Session.code_writes {cfg : RingConfig} {s : Session} {i : Instr Loc Nat Session} {a : Loc}
    (h : s.code cfg = some i) (hw : i.writes = some a) : a.ofProducer = false := by
  unfold Session.code at h
  split at h <;> cases h <;> cases hw <;> rfl

theorem Producer.exec_tso [DecidableEq ι] {cfg : RingConfig} {stream : Nat → Message cfg.blockSize}
    {key : Loc → Nat × Nat} {p p' : Producer} {m m' : RingMemory ι}
    (h : m.exec .tso key .producer (p.code cfg stream) = some (p', m')) : m'.cells = m.cells := by
  unfold Producer.code at h
  split at h <;> cases h <;> rfl

namespace Setup

variable {S : Setup ι} {l : Label ι} {σ σ' : System ι}

structure Sound (S : Setup ι) (σ : System ι) (d : Pos) : Prop where
  wf : σ.producer.Wf S.cfg S.stream
  image : Image S.cfg S.stream σ.memory.cells d
  pending : Pending S.cfg S.stream d (σ.memory.buffer .producer)
    (σ.producer.pos S.cfg S.stream)
  consumers : ∀ c, ∀ e ∈ σ.memory.buffer (.consumer c), e.1.ofProducer = false

namespace Sound

variable {d : Pos}

theorem initial (S : Setup ι) (fresh : Loc → Nat) : Sound S (S.initial fresh) ⟨0, .fresh⟩ where
  wf := trivial
  image := Image.init fresh
  pending := rfl
  consumers c e he := by cases he

theorem read_eq (h : Sound S σ d) (c : ι) {a : Loc} (ha : a.ofProducer = true) :
    σ.memory.read (.consumer c) a = σ.memory.cells a :=
  Memory.read_eq_cells fun e he heq => by
    have := h.consumers c e he
    rw [heq, ha] at this
    cases this

theorem read_foreign (h : Sound S σ d) {a : Loc} (ha : a.ofProducer = false) :
    σ.memory.read .producer a = σ.memory.cells a :=
  Memory.read_eq_cells fun e he heq => by
    have hp := h.pending.ofProducer he
    rw [heq, ha] at hp
    cases hp

theorem read_nextPublish (h : Sound S σ d) :
    σ.memory.read .producer .nextPublish = (σ.producer.pos S.cfg S.stream).count :=
  (h.pending.image h.image).nextPublish

theorem code_move (h : Sound S σ d) (hb : σ.producer.begun < 2 ^ 64) :
    Producer.Move S.cfg S.stream σ.producer (σ.producer.code S.cfg S.stream) :=
  Producer.code_move _ h.wf hb

end Sound

def tso (S : Setup ι) : Setup ι := { S with model := .tso }

theorem Sound.of_tso {d : Pos} (h : Sound S.tso σ d) : Sound S σ d :=
  ⟨h.wf, h.image, h.pending, h.consumers⟩

variable [DecidableEq ι]

inductive Step (S : Setup ι) : Label ι → System ι → System ι → Prop
  | producer {σ : System ι} {p : Producer} {m : RingMemory ι}
      (h : σ.memory.exec S.model (S.key .producer) .producer
        (σ.producer.code S.cfg S.stream) = some (p, m)) :
      Step S .producer σ { σ with producer := p, memory := m }
  | call {σ : System ι} {c : ι} {k : Call} {s : Session}
      (hc : S.client c (σ.consumer c) k = true) (h : (σ.consumer c).call S.cfg k = some s) :
      Step S (.call c k) σ { σ with consumer := update σ.consumer c s }
  | consumer {σ : System ι} {c : ι} {i : Instr Loc Nat Session} {s : Session}
      {m : RingMemory ι} (hi : (σ.consumer c).code S.cfg = some i)
      (h : σ.memory.exec S.model (S.key (.consumer c)) (.consumer c) i = some (s, m)) :
      Step S (.consumer c) σ { σ with consumer := update σ.consumer c s, memory := m }
  | drain {σ : System ι} {t : Thread ι} {e : Loc × Nat} {es : List (Loc × Nat)}
      (h : σ.memory.buffer t = e :: es) :
      Step S (.drain t) σ { σ with memory := σ.memory.land t e es }

theorem step_iff : S.step l σ = some σ' ↔ Step S l σ σ' := by
  constructor
  · intro h
    cases l with
    | producer =>
      obtain ⟨⟨p, m⟩, hx, rfl⟩ := Option.map_eq_some_iff.mp h
      exact .producer hx
    | call c k =>
      simp only [step] at h
      split at h
      · obtain ⟨s, hx, rfl⟩ := Option.map_eq_some_iff.mp h
        exact .call ‹_› hx
      · cases h
    | consumer c =>
      obtain ⟨i, hi, h⟩ := Option.bind_eq_some_iff.mp h
      obtain ⟨⟨s, m⟩, hx, rfl⟩ := Option.map_eq_some_iff.mp h
      exact .consumer hi hx
    | drain t =>
      obtain ⟨m, hx, rfl⟩ := Option.map_eq_some_iff.mp h
      obtain ⟨e, es, hb, rfl⟩ := Memory.drain_eq_some.mp hx
      exact .drain hb
  · intro h
    cases h with
    | producer h => simp [step, h]
    | call hc h => simp [step, hc, h]
    | consumer hi h => simp [step, hi, h]
    | drain h => simp [step, Memory.drain, h]

def BuffersEmpty (σ : System ι) : Prop := ∀ t, σ.memory.buffer t = []

theorem step_tso (hm : S.model = .sc) (hb : BuffersEmpty σ) (h : S.step l σ = some σ') :
    BuffersEmpty σ' ∧ (S.tso.step l σ = some σ' ∨
      ∃ σ₁ t, S.tso.step l σ = some σ₁ ∧ S.tso.step (.drain t) σ₁ = some σ') := by
  cases step_iff.mp h with
  | producer hx =>
    rw [hm] at hx
    obtain ⟨he, htso | ⟨m₁, hx₁, hd⟩⟩ := Memory.exec_sc_tso hb hx
    · exact ⟨he, .inl (step_iff.mpr (.producer htso))⟩
    · refine ⟨he, .inr ⟨_, .producer, step_iff.mpr (.producer hx₁), ?_⟩⟩
      simp [step, hd]
  | call hc hx => exact ⟨hb, .inl (step_iff.mpr (.call hc hx))⟩
  | @consumer _ c _ _ _ hi hx =>
    rw [hm] at hx
    obtain ⟨he, htso | ⟨m₁, hx₁, hd⟩⟩ := Memory.exec_sc_tso hb hx
    · exact ⟨he, .inl (step_iff.mpr (.consumer hi htso))⟩
    · refine ⟨he, .inr ⟨_, .consumer c, step_iff.mpr (.consumer hi hx₁), ?_⟩⟩
      simp [step, hd]
  | drain hx => rw [hb] at hx; cases hx

theorem reach_tso {allowed allowed' : Label ι → System ι → Prop} (hm : S.model = .sc)
    (hsome : ∀ l σ, BuffersEmpty σ → allowed l σ → allowed' l σ)
    (hdrain : ∀ t σ, allowed' (.drain t) σ) (hb : BuffersEmpty σ)
    (h : S.lts.Reach allowed σ σ') : S.tso.lts.Reach allowed' σ σ' ∧ BuffersEmpty σ' := by
  refine h.simulate hb fun l u v hu ha hv => ?_
  obtain ⟨he, hs | ⟨w, t, hw, hd⟩⟩ := step_tso hm hu hv
  · exact ⟨.single (hsome l u hu ha) hs, he⟩
  · exact ⟨(Lts.Reach.single (hsome l u hu ha) hw).step (hdrain _ _) hd, he⟩

namespace Sound

variable {d : Pos}

theorem producer_step (hm : S.model = .tso) (h : Sound S σ d)
    (hb : σ.producer.begun < 2 ^ 64) {p : Producer} {m : RingMemory ι}
    (hx : σ.memory.exec S.model (S.key .producer) .producer
      (σ.producer.code S.cfg S.stream) = some (p, m)) :
    Sound S { σ with producer := p, memory := m } d := by
  generalize hi : σ.producer.code S.cfg S.stream = i at hx
  have hmove := hi ▸ h.code_move hb
  cases hmove with
  | load a next hnext =>
    cases hx
    have hidle : a = .nextPublish → σ.producer.pc = .idle := by
      rintro rfl
      unfold Producer.code at hi
      split at hi <;> first | assumption | cases hi
    obtain ⟨hpos, hwf⟩ := hnext (σ.memory.read .producer a) fun ha => by
      rw [ha, h.read_nextPublish, Producer.pos, hidle ha]
    exact ⟨hwf, h.image, by rw [hpos]; exact h.pending, h.consumers⟩
  | store next hpos hwf =>
    rw [hm] at hx
    cases hx
    refine ⟨hwf, h.image, ?_, fun c => ?_⟩
    · rw [hpos]
      simpa [Memory.push] using h.pending.snoc
    · simpa [Memory.push] using h.consumers c
  | wake a next hpos hwf =>
    cases hx
    exact ⟨hwf, h.image, by rw [hpos]; exact h.pending, h.consumers⟩

theorem consumer_step (h : Sound S σ d) {c : ι} {i : Instr Loc Nat Session} {s : Session}
    {m : RingMemory ι} (hi : (σ.consumer c).code S.cfg = some i)
    (hx : σ.memory.exec S.model (S.key (.consumer c)) (.consumer c) i = some (s, m)) :
    Sound S { σ with consumer := update σ.consumer c s, memory := m } d where
  wf := h.wf
  image := h.image.congr fun a ha => Memory.exec_cells hx fun hw => by
    have := Session.code_writes hi hw
    rw [ha] at this
    cases this
  pending := by
    rw [Memory.exec_buffer_of_ne hx (by simp)]
    exact h.pending
  consumers b e he := by
    rcases Memory.exec_buffer_mem hx he with he | ⟨-, hw⟩
    · exact h.consumers b e he
    · exact Session.code_writes hi hw

theorem drain_step (h : Sound S σ d) {t : Thread ι} {e : Loc × Nat} {es : List (Loc × Nat)}
    (hb : σ.memory.buffer t = e :: es) :
    Sound S { σ with memory := σ.memory.land t e es }
      (if t = .producer then d.succ S.cfg S.stream else d) := by
  cases t with
  | producer =>
    have hp := h.pending
    rw [hb] at hp
    obtain ⟨rfl, hp⟩ := hp
    exact ⟨h.wf, h.image.store, by simpa [Memory.land] using hp,
      fun c => by simpa [Memory.land] using h.consumers c⟩
  | consumer c =>
    have he := h.consumers c e (hb ▸ List.mem_cons_self)
    refine ⟨h.wf, ?_, by simpa [Memory.land] using h.pending, fun b f hf => ?_⟩
    · refine h.image.congr fun a ha => update_of_ne ?_ _ _
      rintro rfl
      rw [he] at ha
      cases ha
    · simp only [Memory.land] at hf
      rcases eq_or_ne b c with rfl | hbc
      · rw [update_self] at hf
        exact h.consumers b f (hb ▸ List.mem_cons_of_mem _ hf)
      · rw [update_of_ne (by simpa using hbc)] at hf
        exact h.consumers b f hf

end Sound

theorem begun_le (h : S.step l σ = some σ') : σ.producer.begun ≤ σ'.producer.begun := by
  cases step_iff.mp h with
  | producer hx => exact Producer.begun_le_of_leads (Memory.exec_leads hx)
  | call => exact le_rfl
  | consumer => exact le_rfl
  | drain => exact le_rfl

def advance (S : Setup ι) (l : Label ι) (d : Pos) : Pos :=
  if l = .drain .producer then d.succ S.cfg S.stream else d

theorem Sound.step {d : Pos} (hm : S.model = .tso) (h : Sound S σ d)
    (hb : σ'.producer.begun < 2 ^ 64) (hs : S.step l σ = some σ') :
    Sound S σ' (S.advance l d) := by
  have hb' := (begun_le hs).trans_lt hb
  cases step_iff.mp hs with
  | producer hx => exact h.producer_step hm hb' hx
  | call => exact ⟨h.wf, h.image, h.pending, h.consumers⟩
  | consumer hi hx => exact h.consumer_step hi hx
  | @drain _ t _ _ hx =>
    have := h.drain_step hx
    by_cases ht : t = .producer <;> simpa [advance, ht] using this

end Setup

end Shimmy
