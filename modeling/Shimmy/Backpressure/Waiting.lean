import Shimmy.Backpressure.Lossless
import Shimmy.Backpressure.Table

namespace Shimmy

open Concurrency Function

def Producer.Awaiting (p : Producer) (seq : Nat) : Prop :=
  ∃ j, p.pc = .awaitInUse seq j ∨ p.pc = .awaitValue seq j

theorem Producer.Awaiting.pos {cfg : RingConfig} {stream : Nat → Message cfg.blockSize}
    {p : Producer} {seq : Nat} (h : p.Awaiting seq) (hwf : p.Wf cfg stream) :
    p.pos cfg stream = ⟨seq, .fresh⟩ ∧ cfg.capacity ≤ seq ∧ seq < p.begun := by
  obtain ⟨j, hpc | hpc⟩ := h
  · simp only [Wf, hpc] at hwf
    obtain ⟨rfl, -, hcap, -⟩ := hwf
    exact ⟨by simp [Producer.pos, hpc], hcap, by simp [begun, hpc]⟩
  · simp only [Wf, hpc] at hwf
    obtain ⟨rfl, -, hcap, -⟩ := hwf
    exact ⟨by simp [Producer.pos, hpc], hcap, by simp [begun, hpc]⟩

theorem Session.arriving_cursor {cfg : RingConfig} {s : Session} {i : Nat}
    (ha : s.pc.arriving = true) (hcur : s.cursor cfg = some i) :
    (∃ attach, s.pc = .initCursor i attach) ∨ s.pc = .attachProduced := by
  unfold cursor at hcur
  cases hpc : s.pc with
  | unborn => rw [hpc] at hcur; cases hcur
  | claimCursor j attach => rw [hpc] at hcur; cases hcur
  | initCursor j attach =>
    rw [hpc] at hcur
    cases hcur
    exact .inl ⟨attach, rfl⟩
  | attachProduced => exact .inr rfl
  | _ => rw [hpc] at ha; cases ha

namespace Backpressure

variable {ι : Type} {S : Setup ι} {σ σ' : System ι} {d : Pos} {c : ι} {l : Label ι}

def Joins (S : Setup ι) (l : Label ι) (σ : System ι) : Prop :=
  ∀ c i attach, l = .consumer c → (σ.consumer c).pc = .claimCursor i attach →
    σ.memory.cells (.cursorInUse i) = 0 → σ.producer.begun ≤ S.cfg.capacity

def Heeds (S : Setup ι) (l : Label ι) (σ : System ι) : Prop :=
  l = .producer → ∀ seq i, σ.producer.pc = .awaitValue seq i →
    ∀ c attach, (σ.consumer c).pc = .initCursor i attach →
      σ.memory.cells (.cursorValue i) ≤ seq - S.cfg.capacity

def Mindful (S : Setup ι) (l : Label ι) (σ : System ι) : Prop :=
  (∃ t, l = .drain t) ∨ Setup.BuffersEmpty σ ∧ Joins S l σ ∧ Heeds S l σ

def Engaged (S : Setup ι) (c : ι) (σ : System ι) : Prop :=
  (σ.consumer c).pc.arriving = true ∨ ∃ i, (σ.consumer c).cursor S.cfg = some i

structure Tended (S : Setup ι) (c : ι) (σ : System ι) (d : Pos) : Prop where
  guarded : Guarded S c 0 σ d
  joining : (σ.consumer c).pc.arriving = true →
    ∀ i, (σ.consumer c).cursor S.cfg = some i → σ.producer.passed i ≤ S.cfg.capacity

theorem Tended.initial (fresh : Loc → Nat) : Tended S c (S.initial fresh) ⟨0, .fresh⟩ where
  guarded := .initial fresh
  joining _ i h := by cases h

theorem Tended.passed_le (h : Tended S c σ d) {i : Nat}
    (hcur : (σ.consumer c).cursor S.cfg = some i) (hstay : (σ.consumer c).pc.departing = false) :
    σ.producer.passed i ≤ (σ.consumer c).obj.next + S.cfg.capacity := by
  cases ha : (σ.consumer c).pc.arriving with
  | true => exact (h.joining ha i hcur).trans (Nat.le_add_left _ _)
  | false =>
    obtain ⟨j, hj, hle⟩ := (h.guarded.guard ha hstay).resolve_left (Nat.not_lt_zero _)
    obtain rfl : i = j := Option.some.inj (hcur.symm.trans hj)
    exact hle

theorem Tended.resident (h : Tended S c σ d) (hempty : Setup.BuffersEmpty σ) {q i : Nat}
    (hcur : (σ.consumer c).cursor S.cfg = some i) (hstay : (σ.consumer c).pc.departing = false)
    (hwait : σ.producer.Awaiting q) (hle : (σ.consumer c).obj.next ≤ q - S.cfg.capacity) :
    σ.memory.cells (.slotSeq (S.cfg.slot (σ.consumer c).obj.next)) = (σ.consumer c).obj.next := by
  have hsound := h.guarded.sound
  have hpos : d = σ.producer.pos S.cfg S.stream := by
    have hp := hsound.pending
    rwa [hempty] at hp
  obtain ⟨hq, hle', -⟩ := hwait.pos hsound.wf
  have hcap := S.cfg.capacity_pos
  have htouched := (Producer.touched_le_passed (i := i) hsound.wf).trans (h.passed_le hcur hstay)
  rw [hsound.image.stamps _ (S.cfg.slot_lt _), hpos]
  refine Pos.stampAt_slot_eq ⟨?_, htouched⟩
  rw [hq]
  have : (σ.consumer c).obj.next < q := by omega
  simpa [Pos.stampedCount] using this

def joinsEarly (S : Setup ι) (l : Label ι) (σ : System ι) : Bool :=
  σ.producer.begun ≤ S.cfg.capacity || match l with
    | .consumer c => (σ.consumer c).pc.arriving = false || (σ.consumer c).pc = .initCursor 0 false
    | _ => true

theorem joins_of_joinsEarly (h : joinsEarly S l σ = true) : Joins S l σ := by
  rintro c i attach rfl hpc -
  simpa [joinsEarly, hpc, SessionPc.arriving] using h

variable [DecidableEq ι]

theorem Engaged.back (hbp : S.cfg.overflow = .backpressure) (hm : S.model = .tso)
    (hd : S.Sound σ d) (howned : Owned S σ) (hs : S.step l σ = some σ') (h : Engaged S c σ') :
    Engaged S c σ := by
  cases ha : (σ.consumer c).pc.arriving with
  | true => exact .inl ha
  | false =>
    right
    rcases h with h | ⟨i, hi⟩
    · rw [hd.arriving_step hs ha] at h
      cases h
    · rcases howned.cursor_step hbp hm hs ha with hcur | hcur
      · exact ⟨i, hcur.symm.trans hi⟩
      · rw [hcur] at hi
        cases hi

theorem Tended.scan (hbp : S.cfg.overflow = .backpressure) (h : Tended S c σ d)
    (hempty : Setup.BuffersEmpty σ) (hheeds : Heeds S .producer σ) {p : Producer}
    {m : RingMemory ι} (hx : σ.memory.exec .tso (S.key .producer) .producer
      (σ.producer.code S.cfg S.stream) = some (p, m))
    (ha : (σ.consumer c).pc.arriving = true) {i : Nat}
    (hcur : (σ.consumer c).cursor S.cfg = some i) : p.passed i ≤ S.cfg.capacity := by
  have hpassed := h.joining ha i hcur
  have hsound := h.guarded.sound
  have hidle : σ.producer.pc = .idle →
      σ.memory.read .producer .nextPublish = σ.producer.sent := by
    intro hpc
    rw [hsound.read_nextPublish, Producer.pos, hpc]
  have hi := (h.guarded.owned.registered c).cursor_lt hcur
  cases Producer.pass_of_exec hbp hi hsound.wf hidle hx with
  | behind hp => exact hp.trans hpassed
  | firstLap hp => exact hp
  | unused seq hpc hfree =>
    rw [hsound.read_foreign rfl] at hfree
    exact absurd hfree (h.guarded.owned.claimed c i (.inl hcur))
  | ahead seq hpc hv hp =>
    rw [hsound.read_foreign rfl] at hv
    exfalso
    rcases Session.arriving_cursor ha hcur with ⟨attach, hinit⟩ | hattach
    · have := hheeds rfl seq i hpc c attach hinit
      omega
    · have hvisible := (h.guarded.buffers.trails i hcur (by simp [hattach])
        (by rw [hattach]; rfl)).visible.resolve_right (by simp [hempty _])
      rw [(h.guarded.paced.arriving ha).1] at hvisible
      omega

theorem Tended.step {attach : Bool} (hbp : S.cfg.overflow = .backpressure) (hm : S.model = .tso)
    (hclient : Loyal attach S c) (h : Tended S c σ d) (hb : σ'.producer.begun < 2 ^ 64)
    (hmindful : Mindful S l σ) (hengaged : Engaged S c σ') (hs : S.step l σ = some σ') :
    Tended S c σ' (S.advance l d) := by
  have howned := h.guarded.owned
  have hcalm (hl : l = .producer) : Setup.BuffersEmpty σ ∧ Heeds S l σ := by
    rcases hmindful with ⟨t, rfl⟩ | ⟨hempty, -, hheeds⟩
    · cases hl
    · exact ⟨hempty, hheeds⟩
  have harrive (ha : (σ.consumer c).pc.arriving = true)
      (ha' : (σ'.consumer c).pc.arriving = false) : Clear S c σ' := by
    obtain ⟨i, hi⟩ := hengaged.resolve_left (by simp [ha'])
    refine ⟨i, hi, ?_⟩
    cases Setup.step_iff.mp hs with
    | producer hx =>
      rw [ha] at ha'
      cases ha'
    | @call _ b k s hc hx =>
      rcases eq_or_ne c b with rfl | hcb
      · obtain ⟨hk, rfl⟩ := Session.call_eq_some.mp hx
        simp only [update_self] at ha' hi ⊢
        rw [Session.cursor_enter hbp (howned.registered c) hk] at hi
        exact (h.joining ha i hi).trans (Nat.le_add_left _ _)
      · simp only [update_of_ne hcb] at ha'
        rw [ha] at ha'
        cases ha'
    | @consumer _ b j s m hj hx =>
      rcases eq_or_ne c b with rfl | hcb
      · rw [hm] at hx
        obtain ⟨hstep, -⟩ := Session.cursorStep_of_exec (howned.registered c) hj hx
        simp only [update_self] at ha' hi ⊢
        have hcur : (σ.consumer c).cursor S.cfg = some i := by
          cases hstep with
          | quiet hcells hbuf hcur => exact hcur.symm.trans hi
          | claim k attach hpc hfree hempty hcells hbuf hs =>
            rw [hs] at ha'
            cases ha'
          | store k v hcur hcur' =>
            obtain rfl : k = i := Option.some.inj (hcur'.symm.trans hi)
            exact hcur
          | release k hcur hpc hs =>
            rw [hs] at hi
            cases hi
        exact (h.joining ha i hcur).trans (Nat.le_add_left _ _)
      · simp only [update_of_ne hcb] at ha'
        rw [ha] at ha'
        cases ha'
    | drain hb =>
      rw [ha] at ha'
      cases ha'
  obtain ⟨hguarded, -⟩ := h.guarded.step hbp hm hclient (Nat.zero_le _) hb
    (fun h0 => absurd h0 (Nat.not_lt_zero _)) (fun hl _ i seq hstale => by
      have hhead := hstale.buffered
      rw [(hcalm hl).1] at hhead
      cases hhead) (fun ha ha' => .inr (harrive ha ha')) hs
  refine ⟨hguarded, fun ha' i hi => ?_⟩
  have ha : (σ.consumer c).pc.arriving = true := by
    by_contra hne
    rw [h.guarded.sound.arriving_step hs (by simpa using hne)] at ha'
    cases ha'
  cases Setup.step_iff.mp hs with
  | producer hx =>
    rw [hm] at hx
    obtain ⟨hempty, hheeds⟩ := hcalm rfl
    exact h.scan hbp hempty hheeds hx ha hi
  | @call _ b k s hc hx =>
    rcases eq_or_ne c b with rfl | hcb
    · obtain ⟨hk, rfl⟩ := Session.call_eq_some.mp hx
      simp only [update_self] at hi
      rw [Session.cursor_enter hbp (howned.registered c) hk] at hi
      exact h.joining ha i hi
    · exact h.joining ha i (by simpa [hcb] using hi)
  | @consumer _ b j s m hj hx =>
    rcases eq_or_ne c b with rfl | hcb
    · rw [hm] at hx
      obtain ⟨hstep, -⟩ := Session.cursorStep_of_exec (howned.registered c) hj hx
      simp only [update_self] at hi
      cases hstep with
      | quiet hcells hbuf hcur => exact h.joining ha i (hcur.symm.trans hi)
      | claim k attach hpc hfree hempty hcells hbuf hs =>
        rw [hs] at hi
        cases hi
        obtain ⟨-, hjoins, -⟩ := hmindful.resolve_left (by simp)
        exact (Producer.passed_le_begun h.guarded.sound.wf).trans
          (hjoins c _ attach rfl hpc hfree)
      | store k v hcur hcur' =>
        obtain rfl : k = i := Option.some.inj (hcur'.symm.trans hi)
        exact h.joining ha k hcur
      | release k hcur hpc hs =>
        rw [hs] at hi
        cases hi
    · exact h.joining ha i (by simpa [hcb] using hi)
  | drain hb => exact h.joining ha i hi

def Attended (S : Setup ι) (c : ι) (σ : System ι) : Prop :=
  σ.producer.begun < 2 ^ 64 →
    ∃ d, S.Sound σ d ∧ Owned S σ ∧ (Engaged S c σ → Tended S c σ d)

theorem Attended.step {attach : Bool} (hbp : S.cfg.overflow = .backpressure)
    (hm : S.model = .tso) (hclient : Loyal attach S c) (h : Attended S c σ)
    (hmindful : Mindful S l σ) (hs : S.step l σ = some σ') : Attended S c σ' := by
  intro hb
  obtain ⟨d, hd, howned, htended⟩ := h ((Setup.begun_le hs).trans_lt hb)
  refine ⟨S.advance l d, hd.step hm hb hs, howned.step hbp hm hd hs, fun hengaged => ?_⟩
  have hbefore := hengaged.back hbp hm hd howned hs
  exact (htended hbefore).step hbp hm hclient hb hmindful hengaged hs

theorem attended_of_reach {attach : Bool} {fresh : Loc → Nat} (hbp : S.cfg.overflow = .backpressure)
    (hm : S.model = .sc) (hclient : Loyal attach S c)
    (hr : S.lts.Reach (fun l σ => Joins S l σ ∧ Heeds S l σ) (S.initial fresh) σ) :
    Attended S.tso c σ := by
  have htso : S.tso.lts.Reach (Mindful S.tso) (S.initial fresh) σ :=
    (Setup.reach_tso hm (fun l σ hempty h => .inr ⟨hempty, h.1, h.2⟩) (fun t σ => .inl ⟨t, rfl⟩)
      (fun _ => rfl) hr).1
  refine htso.invariant (I := Attended S.tso c) (fun _ => ?_) fun l u v hu hmindful hs =>
    hu.step hbp rfl hclient hmindful hs
  exact ⟨_, .initial _ fresh, .initial fresh, fun _ => .initial fresh⟩

theorem producer_waits_for_live {q i : Nat} {fresh : Loc → Nat}
    (hbp : S.cfg.overflow = .backpressure) (hm : S.model = .sc)
    (hclient : ∀ c, ∃ attach, Loyal attach S c)
    (hr : S.lts.Reach (fun l σ => Joins S l σ ∧ Heeds S l σ) (S.initial fresh) σ)
    (hcount : σ.producer.begun < 2 ^ 64) (hwait : σ.producer.Awaiting q)
    (huse : σ.memory.cells (.cursorInUse i) ≠ 0)
    (hbehind : σ.memory.cells (.cursorValue i) ≤ q - S.cfg.capacity) :
    ∃ c, (σ.consumer c).cursor S.cfg = some i ∧
      (q - S.cfg.capacity < (σ.consumer c).obj.next ∧ (σ.consumer c).pc = .publishCursor ∨
        σ.memory.cells (.slotSeq (S.cfg.slot (σ.consumer c).obj.next)) =
          (σ.consumer c).obj.next) := by
  obtain ⟨hempty, htable⟩ := Table.of_reachable hbp hm ⟨fresh, hr.reaches⟩
  obtain ⟨c, hcur⟩ : ∃ c, (σ.consumer c).cursor S.cfg = some i := by
    by_contra hnone
    exact huse (htable.free i fun c hc => hnone ⟨c, hc⟩)
  refine ⟨c, hcur, ?_⟩
  obtain ⟨attach, hloyal⟩ := hclient c
  obtain ⟨d, hsound, -, htended⟩ := attended_of_reach hbp hm hloyal hr hcount
  have htended : Tended S.tso c σ d := htended (.inr ⟨i, hcur⟩)
  obtain ⟨-, -, hq⟩ := hwait.pos hsound.wf
  have hresident (hstay : (σ.consumer c).pc.departing = false)
      (hle : (σ.consumer c).obj.next ≤ q - S.cfg.capacity) :
      σ.memory.cells (.slotSeq (S.cfg.slot (σ.consumer c).obj.next)) =
        (σ.consumer c).obj.next :=
    htended.resident hempty hcur hstay hwait hle
  have hsettled (hset : (σ.consumer c).pc.settled = true)
      (hstay : (σ.consumer c).pc.departing = false) :
      σ.memory.cells (.slotSeq (S.cfg.slot (σ.consumer c).obj.next)) =
        (σ.consumer c).obj.next :=
    hresident hstay ((htable.value c i hcur hset).symm.trans_le hbehind)
  cases hpc : (σ.consumer c).pc with
  | initCursor j attach =>
    right
    refine hresident (by rw [hpc]; rfl) ?_
    rw [htable.fresh c (by rw [hpc]; rfl)]
    exact Nat.zero_le _
  | publishCursor =>
    rcases Nat.lt_or_ge (q - S.cfg.capacity) (σ.consumer c).obj.next with hlt | hge
    · exact .inl ⟨hlt, rfl⟩
    · exact .inr (hresident (by rw [hpc]; rfl) hge)
  | retireInUse j last =>
    exfalso
    have hij := (htable.registered c).cursor_retiring hpc
    obtain rfl : i = j := Option.some.inj (hcur.symm.trans hij)
    have := htable.parting c i last hpc
    have := S.cfg.capacity_pos
    omega
  | dead =>
    rw [Session.cursor, hpc] at hcur
    cases hcur
  | _ => exact .inr (hsettled (by rw [hpc]; rfl) (by rw [hpc]; rfl))

def reuseSetup : Setup (Fin 2) where
  cfg := .lone .backpressure .spin
  stream n := .ofByte n
  client _ := follows false
  model := .sc
  process _ := ⟨0, 0⟩

-- 1 claims the cursor that 0 left, and stores its value before the scan loads it.
def reclaimedRun : List (Label (Fin 2)) :=
  [.call 0 .construct, .consumer 0, .consumer 0, .call 0 .destroy, .consumer 0, .consumer 0,
    .call 1 .construct] ++ List.replicate 10 .producer ++
    [.consumer 1, .producer, .producer, .consumer 1, .producer]

def heeds (l : Label (Fin 2)) (σ : System (Fin 2)) : Bool :=
  l ≠ .producer || match σ.producer.pc with
    | .awaitValue _ _ => decide (∀ c, (σ.consumer c).pc.arriving = false)
    | _ => true

theorem heeds_iff (l : Label (Fin 2)) (σ : System (Fin 2)) (h : heeds l σ = true) :
    Heeds reuseSetup l σ := by
  intro hl seq i hpc c attach hinit
  simp only [heeds, hl, ne_eq, not_true, decide_false, Bool.false_or, hpc,
    decide_eq_true_eq] at h
  have harriving := h c
  rw [hinit] at harriving
  cases harriving

theorem producer_waits_for_live_idle : ∃ σ, reuseSetup.Reachable σ ∧ σ.producer.Awaiting 2 ∧
    (σ.consumer 0).pc = .dead ∧ σ.memory.cells (.cursorValue 0) ≤ 2 - reuseSetup.cfg.capacity ∧
    ∃ c, (σ.consumer c).cursor reuseSetup.cfg = some 0 ∧
      (2 - reuseSetup.cfg.capacity < (σ.consumer c).obj.next ∧
          (σ.consumer c).pc = .publishCursor ∨
        σ.memory.cells (.slotSeq (reuseSetup.cfg.slot (σ.consumer c).obj.next)) =
          (σ.consumer c).obj.next) := by
  obtain ⟨σ, hr, hp⟩ := Lts.exists_of_runIf (M := reuseSetup.lts)
    (fun l σ => joinsEarly reuseSetup l σ && heeds l σ)
    (fun σ : System (Fin 2) => σ.producer.begun = 3 && σ.producer.pc = .awaitInUse 2 0 &&
      (σ.consumer 0).pc = .dead && σ.memory.cells (.cursorInUse 0) = 1 &&
      σ.memory.cells (.cursorValue 0) = 0)
    reclaimedRun (reuseSetup.initial fun _ => 0) (by decide +kernel)
  simp only [Bool.and_eq_true, decide_eq_true_eq] at hp
  obtain ⟨⟨⟨⟨hbegun, hpc⟩, hdead⟩, huse⟩, hvalue⟩ := hp
  have hwait : σ.producer.Awaiting 2 := ⟨0, .inl hpc⟩
  have hbehind : σ.memory.cells (.cursorValue 0) ≤ 2 - reuseSetup.cfg.capacity := by
    rw [hvalue]
    exact Nat.zero_le _
  have hallowed : reuseSetup.lts.Reach (fun l σ => Joins reuseSetup l σ ∧ Heeds reuseSetup l σ)
      (reuseSetup.initial fun _ => 0) σ := by
    refine hr.mono fun l σ h => ?_
    obtain ⟨hjoins, hheeds⟩ := (Bool.and_eq_true _ _).mp h
    exact ⟨joins_of_joinsEarly hjoins, heeds_iff l σ hheeds⟩
  refine ⟨σ, ⟨_, hr.reaches⟩, hwait, hdead, hbehind, ?_⟩
  exact producer_waits_for_live (S := reuseSetup) rfl rfl (fun _ => ⟨false, fun _ _ h => h⟩)
    hallowed (by rw [hbegun]; decide) hwait (by rw [huse]; decide) hbehind

def overtakenRun : List (Label (Fin 2)) :=
  [.call 0 .construct, .consumer 0, .consumer 0, .call 0 .destroy, .consumer 0, .consumer 0,
    .call 1 .construct, .consumer 1] ++ List.replicate 17 .producer ++
    [.consumer 1, .producer, .producer]

theorem producer_waits_forever : ∃ σ,
    reuseSetup.lts.Reach (fun l σ => Joins reuseSetup l σ) (reuseSetup.initial fun _ => 0) σ ∧
    σ.producer.Awaiting 3 ∧ σ.memory.cells (.cursorInUse 0) = 1 ∧
    σ.memory.cells (.cursorValue 0) ≤ 3 - reuseSetup.cfg.capacity ∧
    ¬ ∃ c, (σ.consumer c).cursor reuseSetup.cfg = some 0 ∧
      (3 - reuseSetup.cfg.capacity < (σ.consumer c).obj.next ∧
          (σ.consumer c).pc = .publishCursor ∨
        σ.memory.cells (.slotSeq (reuseSetup.cfg.slot (σ.consumer c).obj.next)) =
          (σ.consumer c).obj.next) := by
  obtain ⟨σ, hr, hp⟩ := Lts.exists_of_runIf (M := reuseSetup.lts) (joinsEarly reuseSetup)
    (fun σ : System (Fin 2) => σ.producer.pc = .awaitValue 3 0 &&
      σ.memory.cells (.cursorInUse 0) = 1 && σ.memory.cells (.cursorValue 0) = 0 &&
      (σ.consumer 0).pc = .dead && (σ.consumer 1).pc = .idle && (σ.consumer 1).obj.next = 0 &&
      σ.memory.cells (.slotSeq (reuseSetup.cfg.slot 0)) = 2)
    overtakenRun (reuseSetup.initial fun _ => 0) (by decide +kernel)
  simp only [Bool.and_eq_true, decide_eq_true_eq] at hp
  obtain ⟨⟨⟨⟨⟨⟨hpc, huse⟩, hvalue⟩, hdead⟩, hidle⟩, hnext⟩, hstamp⟩ := hp
  refine ⟨σ, hr.mono fun l σ h => joins_of_joinsEarly h, ⟨0, .inr hpc⟩, huse, ?_, ?_⟩
  · rw [hvalue]
    exact Nat.zero_le _
  · rintro ⟨c, hcur, hdone⟩
    match c with
    | 0 =>
      rw [Session.cursor, hdead] at hcur
      cases hcur
    | 1 =>
      rw [hidle, hnext, hstamp] at hdone
      rcases hdone with ⟨-, hbusy⟩ | hread
      · cases hbusy
      · cases hread

end Backpressure

end Shimmy
