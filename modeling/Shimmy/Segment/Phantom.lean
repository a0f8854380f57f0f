import Shimmy.Segment.Sighting

namespace Shimmy

open Concurrency Function

variable {ι : Type}

def Writing (cfg : RingConfig) (stream : Nat → Message cfg.blockSize) (cells : Loc → Nat)
    (h : History ι cfg.blockSize) (p : Producer) : Prop :=
  match p.pc with
  | .storeLen seq => cfg.overflow = .overwrite → h.torn (cfg.slot seq) = true
  | .copy seq j => h.torn (cfg.slot seq) = true ∧ j < (stream p.sent).len ∧
      cells (.slotLen (cfg.slot seq)) = (stream p.sent).len ∧
      ∀ k < j, cells (.payload (cfg.slot seq) k) = (stream p.sent).bytes.getD k 0
  | .stamp seq => h.torn (cfg.slot seq) = true ∧
      Holds cfg cells (stream p.sent) (cfg.slot seq)
  | _ => True

namespace Writing

variable {cfg : RingConfig} {stream : Nat → Message cfg.blockSize} {cells cells' : Loc → Nat}
  {h : History ι cfg.blockSize} {p : Producer} {seq : Nat}

theorem idle (hpc : p.pc = .idle) : Writing cfg stream cells h p := by
  simp [Writing, hpc]

theorem congr (hw : Writing cfg stream cells h p)
    (hc : ∀ a i, a.ofSlot = some i → cells' a = cells a) : Writing cfg stream cells' h p := by
  unfold Writing at hw ⊢
  split at hw
  · exact hw
  · obtain ⟨ht, hj, hlen, hbytes⟩ := hw
    exact ⟨ht, hj, (hc _ _ rfl).trans hlen, fun k hk => (hc _ _ rfl).trans (hbytes k hk)⟩
  · exact ⟨hw.1, hw.2.congr fun a => hc a _⟩
  · exact trivial

theorem torn (hw : Writing cfg stream cells h p) {h' : History ι cfg.blockSize}
    (ht : h'.torn = h.torn) : Writing cfg stream cells h' p := by
  unfold Writing
  rw [ht]
  exact hw

theorem beginWrite : Writing cfg stream cells h { p with pc := cfg.beginWrite seq } := by
  unfold RingConfig.beginWrite
  split
  · exact trivial
  · exact fun ho => absurd ho ‹_›

theorem awaitFrom (i : Nat) : Writing cfg stream cells h { p with pc := cfg.awaitFrom seq i } := by
  unfold RingConfig.awaitFrom
  split
  · exact trivial
  · exact beginWrite

theorem publishFrom : Writing cfg stream cells h { p with pc := cfg.publishFrom seq } := by
  unfold RingConfig.publishFrom
  split
  · exact awaitFrom 0
  · exact beginWrite

theorem copyFrom {j : Nat} (ht : h.torn (cfg.slot seq) = true)
    (hlen : cells (.slotLen (cfg.slot seq)) = (stream p.sent).len)
    (hbytes : ∀ k < j, k < (stream p.sent).len →
      cells (.payload (cfg.slot seq) k) = (stream p.sent).bytes.getD k 0) :
    Writing cfg stream cells h { p with pc := Shimmy.copyFrom (stream p.sent) seq j } := by
  unfold Shimmy.copyFrom
  split
  · rename_i hj
    exact ⟨ht, hj, hlen, fun k hk => hbytes k hk (hk.trans hj)⟩
  · rename_i hj
    exact ⟨ht, hlen, fun k hk => hbytes k (hk.trans_le (Nat.not_lt.mp hj)) hk⟩

end Writing

section History

variable {cfg : RingConfig} {cells : Loc → Nat} {h : History ι cfg.blockSize} {c : ι} {s : Session}
  {j v : Nat} {a : Loc}

theorem ofSlot_ne {i : Nat} {b : Loc} (ha : a.ofSlot = some j) (hb : b.ofSlot = some i)
    (hne : i ≠ j) : b ≠ a := by
  rintro rfl
  rw [ha, Option.some.injEq] at hb
  exact hne hb.symm

theorem History.tear_eq_self (ht : h.torn j = true) : h.tear j = h := by
  unfold History.tear
  rw [← ht, update_eq_self]

theorem History.noted [DecidableEq ι] (h : History ι cfg.blockSize) (c : ι) (b : Bool) :
    (if b then h.sighted c else h).fate = h.fate ∧ (if b then h.sighted c else h).torn = h.torn ∧
      (if b then h.sighted c else h).published = h.published ∧
        ∀ d, d ≠ c → (if b then h.sighted c else h).disturbed d = h.disturbed d := by
  cases b with
  | false => exact ⟨rfl, rfl, rfl, fun _ _ => rfl⟩
  | true => exact ⟨rfl, rfl, rfl, fun d hd => update_of_ne hd _ _⟩

theorem SlotTrue.tear (hs : ∀ i, SlotTrue cfg cells h i) (ha : a.ofSlot = some j)
    (hmark : cfg.overflow = .overwrite → update cells a v (.slotSeq j) = writingSeq) (i : Nat) :
    SlotTrue cfg (update cells a v) (h.tear j) i := by
  rcases eq_or_ne i j with rfl | hij
  · have ht : (h.tear i).torn i = true := update_self _ _ _
    exact ⟨fun ho _ => hmark ho, fun _ hf => (by rw [ht] at hf; cases hf),
      (hs i).recorded, fun _ _ _ hf => (by rw [ht] at hf; cases hf)⟩
  · exact (hs i).congr rfl (update_of_ne hij _ _) (fun e he => he)
      fun b hb => update_of_ne (ofSlot_ne ha hb hij) _ _

theorem SlotTrue.stamp (hs : ∀ i, SlotTrue cfg cells h i) {seq : Nat}
    {msg : Message cfg.blockSize} (hholds : Holds cfg cells msg j) (slot : ι → Nat) (i : Nat) :
    SlotTrue cfg (update cells (.slotSeq j) seq) (h.stamp j seq msg slot) i := by
  rcases eq_or_ne i j with rfl | hij
  · have ht : (h.stamp i seq msg slot).torn i = false := update_self _ _ _
    have hf : (h.stamp i seq msg slot).fate i = .stamped seq msg := update_self _ _ _
    refine ⟨fun _ hm => (by rw [ht] at hm; cases hm), fun hb => (by rw [hf] at hb; cases hb),
      fun seq' msg' hf' => ?_, fun seq' msg' hf' _ => ?_⟩
    · rw [hf] at hf'
      cases hf'
      exact List.mem_cons_self
    · rw [hf] at hf'
      cases hf'
      exact ⟨update_self _ _ _, hholds.update (by simp) (by simp)⟩
  · exact (hs i).congr (update_of_ne hij _ _) (update_of_ne hij _ _)
      (fun e he => List.mem_cons_of_mem _ he) fun b hb => update_of_ne (ofSlot_ne rfl hb hij) _ _

theorem Sighting.tear (hs : Sighting cfg h c s) : Sighting cfg (h.tear j) c s := by
  refine hs.mono (fun e he => he) fun hd ht seq msg hf => ⟨hd, ?_, hf⟩
  by_cases hj : cfg.slot s.obj.readSeq = j
  · subst hj
    simp [History.tear] at ht
  · simpa [History.tear, hj] using ht

theorem Sighting.stamp (hs : Sighting cfg h c s) {seq : Nat} {msg : Message cfg.blockSize}
    {slot : ι → Nat} (hslot : slot c = cfg.slot s.obj.readSeq) :
    Sighting cfg (h.stamp j seq msg slot) c s := by
  refine hs.mono (fun e he => List.mem_cons_of_mem _ he) fun hd ht seq' msg' hf => ?_
  simp only [History.stamp, Bool.or_eq_false_iff, decide_eq_false_iff_not, hslot] at hd
  exact ⟨hd.1, by simpa [History.stamp, hd.2] using ht, by simpa [History.stamp, hd.2] using hf⟩

theorem History.rebuilt_clear (hclear : ∀ i, h.torn i = false ∧ (h.fate i).isStamped = false)
    (w : Store) (i : Nat) :
    (h.rebuilt w).torn i = false ∧ ((h.rebuilt w).fate i).isStamped = false := by
  cases w with
  | header f v => exact hclear i
  | ring a v =>
    cases a with
    | slotSeq k =>
      refine ⟨(hclear i).1, ?_⟩
      rcases eq_or_ne i k with rfl | hik
      · simp only [History.rebuilt, update_self]
        split <;> rfl
      · simpa [History.rebuilt, hik] using (hclear i).2
    | _ => exact hclear i

theorem History.rebuilt_published (w : Store) : (h.rebuilt w).published = h.published := by
  cases w with
  | header f v => rfl
  | ring a v => cases a <;> rfl

theorem SlotTrue.rebuilt (hs : SlotTrue cfg cells h j)
    (hclear : ∀ i, h.torn i = false ∧ (h.fate i).isStamped = false) :
    SlotTrue cfg (update cells a v) (h.rebuilt (.ring a v)) j := by
  obtain ⟨htorn, hstamped⟩ := History.rebuilt_clear hclear (.ring a v) j
  refine ⟨fun _ ht => (by rw [htorn] at ht; cases ht), fun hf _ => ?_,
    fun _ _ hf => (by rw [hf] at hstamped; cases hstamped),
    fun _ _ hf => (by rw [hf] at hstamped; cases hstamped)⟩
  cases a with
  | slotSeq k =>
    rcases eq_or_ne j k with rfl | hjk
    · simp only [History.rebuilt, update_self] at hf ⊢
      split at hf
      · assumption
      · cases hf
    · have hf' : h.fate j = .blank := by simpa [History.rebuilt, hjk] using hf
      exact (update_of_ne (by simpa using hjk) _ _).trans (hs.blank hf' (hclear j).1)
  | _ => exact (update_of_ne (by simp) _ _).trans (hs.blank hf (hclear j).1)

theorem Sighting.truncated (hs : Sighting cfg h c s) : Sighting cfg h.truncated c s :=
  hs.mono (fun e he => he) fun hd => by cases hd

theorem Sighting.unstamped (hs : Sighting cfg h c s) {h' : History ι cfg.blockSize}
    (hpub : ∀ e ∈ h.published, e ∈ h'.published) (hf : ∀ i, (h'.fate i).isStamped = false) :
    Sighting cfg h' c s :=
  hs.mono hpub fun _ _ seq msg hfate => by
    have hfalse := hf (cfg.slot s.obj.readSeq)
    rw [hfate] at hfalse
    cases hfalse

end History

structure Sane (S : Setup ι) (ρ : Lifetime ι S.cfg.blockSize) : Prop where
  buffers : Setup.BuffersEmpty ρ.segment.ring
  building : ρ.segment.building = true → ρ.segment.ring.producer.pc = .idle ∧
    ∀ i, ρ.history.torn i = false ∧ (ρ.history.fate i).isStamped = false
  slots : ∀ i, SlotTrue S.cfg ρ.segment.cells ρ.history i
  writing : Writing S.cfg S.stream ρ.segment.cells ρ.history ρ.segment.ring.producer
  sights : ∀ c, Sighting S.cfg ρ.history c (ρ.segment.ring.consumer c)

structure SinglePublisher (S : Setup ι) (l : SegmentLabel ι) (ρ : Lifetime ι S.cfg.blockSize) :
    Prop where
  create : l = .create → ρ.segment.ring.producer.pc = .idle
  publish : l = .ring .producer → ρ.segment.ring.producer.pc = .idle →
    ρ.segment.building = false

def Unharmed (S : Setup ι) (l : SegmentLabel ι) (ρ : Lifetime ι S.cfg.blockSize) : Prop :=
  ∀ c, l = .ring (.consumer c) → (ρ.segment.ring.consumer c).pc.validating = true →
    ρ.segment.cells (.slotSeq (S.cfg.slot (ρ.segment.ring.consumer c).obj.readSeq)) =
        (ρ.segment.ring.consumer c).obj.readSeq →
      Untroubled S.cfg ρ.history c (ρ.segment.ring.consumer c).obj.readSeq

namespace Sane

variable {S : Setup ι} {ρ : Lifetime ι S.cfg.blockSize} {σ : Segment ι}
  {h : History ι S.cfg.blockSize}

theorem unborn (S : Setup ι) (fresh : Loc → Nat) : Sane S (S.unborn fresh) where
  buffers _ := rfl
  building hb := by cases hb
  slots i := ⟨fun _ ht => (by cases ht), fun hf => (by cases hf), fun _ _ hf => (by cases hf),
    fun _ _ hf => (by cases hf)⟩
  writing := .idle rfl
  sights c := .initial

theorem congr (hs : Sane S ⟨σ, h⟩) {σ' : Segment ι} (hring : σ'.ring = σ.ring)
    (hbuilding : σ'.building = true → σ.building = true) : Sane S ⟨σ', h⟩ where
  buffers := by
    rw [hring]
    exact hs.buffers
  building hb := by
    rw [hring]
    exact hs.building (hbuilding hb)
  slots i := by
    rw [Segment.cells, hring]
    exact hs.slots i
  writing := by
    rw [Segment.cells, hring]
    exact hs.writing
  sights c := by
    rw [hring]
    exact hs.sights c

theorem looked [DecidableEq ι] (hs : Sane S ⟨σ, h⟩) {t : Thread ι} :
    Sane S ⟨σ, h.looked t⟩ where
  buffers := hs.buffers
  building := hs.building
  slots i := (hs.slots i).congr rfl rfl (fun _ he => he) fun _ _ => rfl
  writing := hs.writing.torn rfl
  sights c := (hs.sights c).mono (fun _ he => he) fun hd ht _ _ hf => ⟨hd, ht, hf⟩

theorem published (hs : Sane S ⟨σ, h⟩) (hb : σ.building = false) {p : Producer}
    {m : RingMemory ι} {h' : History ι S.cfg.blockSize} (hbuf : m.buffer = σ.ring.memory.buffer)
    (hslots : ∀ i, SlotTrue S.cfg m.cells h' i) (hw : Writing S.cfg S.stream m.cells h' p)
    (hsights : ∀ c, Sighting S.cfg h' c (σ.ring.consumer c)) :
    Sane S ⟨{ σ with ring := { σ.ring with producer := p, memory := m } }, h'⟩ where
  buffers t := (congrFun hbuf t).trans (hs.buffers t)
  building hb' := absurd (hb.symm.trans hb') (by simp)
  slots := hslots
  writing := hw
  sights := hsights

theorem create_step (hs : Sane S ⟨σ, h⟩) (hidle : σ.ring.producer.pc = .idle) :
    Sane S ⟨{ σ.withCells (fun _ => 0) with
      present := true
      header := fun _ => 0
      creator := some S.cfg.constructRingAndPublishHeader }, h.truncated⟩ where
  buffers := hs.buffers
  building _ := ⟨hidle, fun _ => ⟨rfl, rfl⟩⟩
  slots i := ⟨fun _ ht => (by cases ht), fun hf => (by cases hf), fun _ _ hf => (by cases hf),
    fun _ _ hf => (by cases hf)⟩
  writing := .idle hidle
  sights c := (hs.sights c).truncated

theorem build_step (hs : Sane S ⟨σ, h⟩) {w : Store} {ws : List Store}
    (hc : σ.creator = some (w :: ws)) :
    Sane S ⟨{ σ.stored w with creator := some ws }, h.rebuilt w⟩ := by
  obtain ⟨hidle, hclear⟩ := hs.building (by simp [Segment.building, hc])
  cases w with
  | header f v =>
    exact hs.congr rfl fun _ => by simp [Segment.building, hc]
  | ring a v =>
    have hclear' := History.rebuilt_clear hclear (.ring a v)
    refine ⟨hs.buffers, fun _ => ⟨hidle, hclear'⟩, fun i => (hs.slots i).rebuilt hclear,
      .idle hidle, fun c => ?_⟩
    refine (hs.sights c).unstamped (fun e he => ?_) fun i => (hclear' i).2
    rw [History.rebuilt_published]
    exact he

variable [DecidableEq ι]

theorem publish_step (hm : S.model = .sc) (hs : Sane S ⟨σ, h⟩) (hb : σ.building = false)
    {p : Producer} {m : RingMemory ι}
    (hx : σ.ring.memory.exec S.model (S.key .producer) .producer
      (σ.ring.producer.code S.cfg S.stream) = some (p, m)) :
    Sane S ⟨{ σ with ring := { σ.ring with producer := p, memory := m } },
      S.noteRing σ.ring h .producer⟩ := by
  have hw := hs.writing
  unfold Writing at hw
  rw [hm] at hx
  cases hpc : σ.ring.producer.pc with
  | idle =>
    simp only [Producer.code, hpc] at hx
    cases hx
    simp only [Setup.noteRing, hpc]
    exact hs.published hb rfl hs.slots .publishFrom hs.sights
  | awaitInUse seq i =>
    simp only [Producer.code, hpc] at hx
    cases hx
    simp only [Setup.noteRing, hpc]
    refine hs.published hb rfl hs.slots ?_ hs.sights
    split
    · exact .awaitFrom _
    · exact trivial
  | awaitValue seq i =>
    simp only [Producer.code, hpc] at hx
    cases hx
    simp only [Setup.noteRing, hpc]
    refine hs.published hb rfl hs.slots ?_ hs.sights
    split
    · exact .awaitFrom _
    · exact .awaitFrom _
  | mark seq =>
    simp only [Producer.code, hpc] at hx
    cases hx
    simp only [Setup.noteRing, hpc]
    exact hs.published hb rfl (SlotTrue.tear hs.slots rfl fun _ => update_self _ _ _)
      (fun _ => update_self _ _ _) fun c => (hs.sights c).tear
  | storeLen seq =>
    rw [hpc] at hw
    simp only [Producer.code, hpc] at hx
    cases hx
    simp only [Setup.noteRing, hpc]
    refine hs.published hb rfl (SlotTrue.tear hs.slots rfl fun ho => ?_)
      (.copyFrom (update_self _ _ _) (update_self _ _ _) (by simp)) fun c => (hs.sights c).tear
    exact (update_of_ne (by simp) _ _).trans ((hs.slots _).marked ho (hw ho))
  | copy seq j =>
    rw [hpc] at hw
    obtain ⟨ht, hj, hlen, hbytes⟩ := hw
    simp only [Producer.code, hpc] at hx
    cases hx
    simp only [Setup.noteRing, hpc]
    have hslots := SlotTrue.tear (a := .payload (S.cfg.slot seq) j)
      (v := (S.stream σ.ring.producer.sent).bytes.getD j 0) hs.slots rfl fun ho =>
        (update_of_ne (by simp) _ _).trans ((hs.slots _).marked ho ht)
    rw [History.tear_eq_self ht] at hslots
    refine hs.published hb rfl hslots (.copyFrom ht ?_ fun k hk _ => ?_) hs.sights
    · simpa [Memory.write, Segment.cells] using hlen
    · rcases eq_or_ne k j with rfl | hkj
      · exact update_self _ _ _
      · simpa [Memory.write, Segment.cells, hkj] using hbytes k (by omega)
  | stamp seq =>
    rw [hpc] at hw
    simp only [Producer.code, hpc] at hx
    cases hx
    simp only [Setup.noteRing, hpc]
    exact hs.published hb rfl (SlotTrue.stamp hs.slots hw.2 _) trivial
      fun c => (hs.sights c).stamp rfl
  | advance seq =>
    simp only [Producer.code, hpc] at hx
    cases hx
    simp only [Setup.noteRing, hpc]
    refine hs.published hb rfl (fun i => (hs.slots i).congr rfl rfl (fun e he => he) ?_) ?_ hs.sights
    · intro a ha
      exact update_of_ne (by rintro rfl; cases ha) _ _
    · split
      · exact trivial
      · exact trivial
  | notify seq =>
    simp only [Producer.code, hpc] at hx
    cases hx
    simp only [Setup.noteRing, hpc]
    refine hs.published hb rfl hs.slots ?_ hs.sights
    split
    · exact trivial
    · exact trivial
  | wake seq =>
    simp only [Producer.code, hpc] at hx
    cases hx
    simp only [Setup.noteRing, hpc]
    exact hs.published hb rfl hs.slots trivial hs.sights

theorem call_step (hs : Sane S ⟨σ, h⟩) {c : ι} {k : Call} {s : Session}
    (hc : (σ.ring.consumer c).call S.cfg k = some s) :
    Sane S ⟨{ σ with ring := { σ.ring with consumer := update σ.ring.consumer c s } }, h⟩ where
  buffers := hs.buffers
  building := hs.building
  slots := hs.slots
  writing := hs.writing
  sights b := by
    rcases eq_or_ne b c with rfl | hbc
    · simpa using (hs.sights b).call hc
    · simpa [hbc] using hs.sights b

theorem consumer_step (hm : S.model = .sc) (hs : Sane S ⟨σ, h⟩) {c : ι}
    (hraised : h.recreated (.consumer c) = false → h.Raised S.cfg)
    (hconf : (σ.ring.consumer c).pc.validating = true →
      σ.cells (.slotSeq (S.cfg.slot (σ.ring.consumer c).obj.readSeq)) =
          (σ.ring.consumer c).obj.readSeq →
        Untroubled S.cfg h c (σ.ring.consumer c).obj.readSeq)
    {i : Instr Loc Nat Session} {s : Session} {m : RingMemory ι}
    (hi : (σ.ring.consumer c).code S.cfg = some i)
    (hx : σ.ring.memory.exec S.model (S.key (.consumer c)) (.consumer c) i = some (s, m)) :
    Sane S ⟨{ σ with ring := { σ.ring with
        consumer := update σ.ring.consumer c s, memory := m } },
      S.noteRing σ.ring h (.consumer c)⟩ := by
  have hempty := hs.buffers
  have hcells (a : Loc) (j : Nat) (ha : a.ofSlot = some j) : m.cells a = σ.cells a :=
    Memory.exec_cells hx fun hw => by
      have hforeign := Session.code_writes hi hw
      cases a <;> simp_all [Loc.ofSlot, Loc.ofProducer]
  have hmoves : (σ.ring.consumer c).Moves S.cfg σ.cells s :=
    Session.moves_of_exec (fun a _ => Memory.read_eq_cells fun e he => by
      rw [hempty] at he
      cases he) hi hx
  have hseen := (hs.sights c).moves hs.slots hconf hraised hmoves
  obtain ⟨hfate, htorn, hpub, hother⟩ := h.noted c
    ((σ.ring.consumer c).sights S.cfg σ.ring.memory.cells)
  simp only [Setup.noteRing]
  change Sighting S.cfg (if (σ.ring.consumer c).sights S.cfg σ.ring.memory.cells then
    h.sighted c else h) c s at hseen
  generalize (if (σ.ring.consumer c).sights S.cfg σ.ring.memory.cells then
    h.sighted c else h) = h' at *
  refine ⟨fun t => ?_, fun hb => ?_, fun j => ?_, ?_, fun b => ?_⟩
  · rw [hm] at hx
    exact (Memory.exec_sc_tso hempty hx).1 t
  · rw [hfate, htorn]
    exact hs.building hb
  · exact (hs.slots j).congr (congrFun hfate j) (congrFun htorn j) (fun e he => hpub ▸ he)
      fun a ha => hcells a j ha
  · exact (hs.writing.congr hcells).torn htorn
  · rcases eq_or_ne b c with rfl | hbc
    · simpa using hseen
    · have hkeep : Sighting S.cfg h' b (σ.ring.consumer b) :=
        (hs.sights b).mono (fun e he => hpub ▸ he) fun hd ht seq msg hf =>
          ⟨(hother b hbc).symm.trans hd, htorn ▸ ht, hfate ▸ hf⟩
      simpa [hbc] using hkeep

theorem ring_step (hm : S.model = .sc) (hs : Sane S ⟨σ, h⟩) {l : Label ι}
    (hone : SinglePublisher S (.ring l) ⟨σ, h⟩) (hu : Unharmed S (.ring l) ⟨σ, h⟩)
    (hraised : h.recreated l.thread = false → h.Raised S.cfg) {ring : System ι}
    (hstep : S.step l σ.ring = some ring) :
    Sane S ⟨{ σ with ring := ring }, S.noteRing σ.ring h l⟩ := by
  cases Setup.step_iff.mp hstep with
  | producer hx =>
    refine hs.publish_step hm (Bool.eq_false_iff.mpr fun hb => ?_) hx
    exact absurd ((hone.publish rfl (hs.building hb).1).symm.trans hb) (by simp)
  | call hc hx => exact hs.call_step hx
  | consumer hi hx => exact hs.consumer_step hm hraised (hu _ rfl) hi hx
  | drain hx =>
    have hempty := hs.buffers
    rw [hempty] at hx
    cases hx

theorem step (hm : S.model = .sc) {l : SegmentLabel ι} {ρ ρ' : Lifetime ι S.cfg.blockSize}
    (hs : Sane S ρ) (hr : Readied S ρ) (hone : SinglePublisher S l ρ) (hu : Unharmed S l ρ)
    (hstep : S.lifetimeStep l ρ = some ρ') : Sane S ρ' := by
  obtain ⟨σ, h⟩ := ρ
  obtain ⟨σ', hσ, rfl⟩ := Option.map_eq_some_iff.mp hstep
  cases l with
  | create =>
    simp only [Setup.segmentStep] at hσ
    split at hσ <;> cases hσ
    exact hs.create_step (hone.create rfl)
  | build =>
    simp only [Setup.segmentStep] at hσ
    split at hσ
    · rename_i w ws hc
      cases hσ
      simp only [Setup.note, hc]
      exact hs.build_step hc
    · cases hσ
  | creatorCrash =>
    simp only [Setup.segmentStep] at hσ
    split at hσ <;> cases hσ
    exact hs.congr rfl fun hb => by cases hb
  | adopt =>
    simp only [Setup.segmentStep] at hσ
    split at hσ <;> cases hσ
    exact hs.congr rfl id
  | openSegment t =>
    simp only [Setup.segmentStep] at hσ
    split at hσ <;> cases hσ
    exact hs.congr rfl id
  | check t =>
    simp only [Setup.segmentStep] at hσ
    split at hσ
    · obtain ⟨k, -, rfl⟩ := Option.map_eq_some_iff.mp hσ
      simp only [Setup.note]
      split
      · exact hs.looked.congr rfl id
      · exact hs.congr rfl id
    · cases hσ
  | ring l =>
    simp only [Setup.segmentStep] at hσ
    split at hσ
    · rename_i hready
      obtain ⟨ring, hring, rfl⟩ := Option.map_eq_some_iff.mp hσ
      exact hs.ring_step hm hone hu
        (fun hrec => (hr.confirmed l.thread (by rw [hready]; rfl) hrec).2) hring
    · cases hσ
  | publisherCrash =>
    simp only [Setup.segmentStep] at hσ
    split at hσ <;> cases hσ
    exact ⟨hs.buffers, fun hb => ⟨rfl, (hs.building hb).2⟩, hs.slots, .idle rfl, hs.sights⟩

end Sane

end Shimmy
