import Shimmy.Backpressure.Lossless
import Shimmy.Wait.Census

namespace Shimmy

open Concurrency Function

theorem Producer.sent_of_exec {ι : Type} [DecidableEq ι] {cfg : RingConfig}
    {stream : Nat → Message cfg.blockSize} {key : Loc → Nat × Nat} {p p' : Producer}
    {m m' : RingMemory ι} (hblocks : cfg.wait.blocks = true) (hwf : p.Wf cfg stream)
    (h : m.exec .tso key .producer (p.code cfg stream) = some (p', m')) :
    p'.sent = p.sent ∨ p'.sent = p.sent + 1 ∧ (p.pc = .notify p.sent ∧
      m.read .producer .waiters = 0 ∨ p.pc = .wake p.sent) := by
  obtain ⟨pc, n⟩ := p
  cases pc with
  | notify seq =>
    obtain rfl : seq = n := hwf
    cases h
    dsimp only
    split
    · exact .inr ⟨rfl, .inl ⟨rfl, ‹_›⟩⟩
    · exact .inl rfl
  | wake seq =>
    obtain rfl : seq = n := hwf
    cases h
    exact .inr ⟨rfl, .inr rfl⟩
  | advance seq =>
    cases h
    simp [hblocks]
  | _ => cases h; exact .inl rfl

theorem Pos.add_capacity_of_behind {cfg : RingConfig} {d : Pos} {q w : Nat}
    (hbp : cfg.overflow = .backpressure) (hlt : d.stampedCount < 2 ^ 64)
    (hw : w ≤ d.stampedCount) (h : d.stampAt cfg (cfg.slot w) = q) (hq : q < w) :
    q + cfg.capacity = w := by
  obtain ⟨-, hle, hslot⟩ :=
    le_of_stampAt h (by simp [hbp]) (by unfold emptySeq; omega) (cfg.slot_lt w)
  rw [cfg.slot_eq_mod, cfg.slot_eq_mod w] at hslot
  have := add_le_of_mod_eq_of_lt hslot hq
  omega

namespace Wait

open Backpressure

variable {ι : Type} {S : Setup ι} {σ σ₀ σ' : System ι} {d : Pos} {c : ι}

structure FutexTso (S : Setup ι) : Prop where
  overflow : S.cfg.overflow = .backpressure
  wait : S.cfg.wait = .futex
  capacity : S.cfg.capacity < 2 ^ 32
  process : ∀ t, S.process t = S.process .producer
  model : S.model = .tso

theorem FutexTso.blocks (h : FutexTso S) : S.cfg.wait.blocks = true := by
  rw [h.wait]
  rfl

structure Handshake (S : Setup ι) (l : Label ι) (σ : System ι) : Prop where
  drained : ∀ seq, l = .producer →
    σ.producer.pc = .notify seq ∧ σ.memory.cells .waiters = 0 ∨ σ.producer.pc = .wake seq →
    (.slotSeq (S.cfg.slot seq), seq) ∉ σ.memory.buffer .producer
  crowd : ∀ ws : List ι, ws.Nodup → (∀ c ∈ ws, (σ.consumer c).pc.waiting = true) →
    ws.length < 2 ^ 32

def Compares (cfg : RingConfig) (s : Session) : Prop :=
  ∀ iter cmp, s.pc = .waitSyscall iter cmp →
    ∃ q, q + cfg.capacity = s.obj.next ∧ cmp = q % 2 ^ 32

structure Vigil (S : Setup ι) (c : ι) (early : Nat) (σ : System ι) (d : Pos) : Prop where
  guarded : Guarded S c early σ d
  bedded : Setup.Bedded σ c
  sent : σ.producer.sent ≤ d.stampedCount
  census : ∃ ws, Census σ ws
  compares : Compares S.cfg (σ.consumer c)
  asleep : ∀ k, σ.memory.parked (.consumer c) = some k →
    k = S.stampKey (.consumer c) (σ.consumer c).obj.next ∧
      σ.producer.sent ≤ (σ.consumer c).obj.next

theorem stampKey_producer (hone : ∀ t, S.process t = S.process .producer) (t : Thread ι)
    (seq : Nat) : S.stampKey t seq = S.stampKey .producer seq := by
  simp only [Setup.stampKey, Setup.key, hone t]

def Grounded (S : Setup ι) (c : ι) (σ : System ι) : Prop :=
  (σ.consumer c).pc.departing = false → ∀ i, (σ.consumer c).cursor S.cfg = some i →
    σ.memory.cells (.cursorValue i) ≤ (σ.consumer c).obj.next

theorem Grounded.not_stale (h : Grounded S c σ) {i seq : Nat} : ¬ StaleScan S c σ i seq := by
  intro hstale
  have hvalue := h hstale.staying i hstale.cursor
  have hpasses := hstale.passes
  have hahead := hstale.ahead
  omega

theorem Grounded.of_empty {early : Nat} (h : Guarded S c early σ d) (ha : (σ.consumer c).pc.arriving = false)
    (hempty : σ.memory.buffer (.consumer c) = []) : Grounded S c σ := by
  intro hstay i hcur
  have hinit (j : Nat) (attach : Bool) : (σ.consumer c).pc ≠ .initCursor j attach := by
    intro hpc
    rw [hpc] at ha
    cases ha
  refine (h.buffers.trails i hcur hinit hstay).visible.resolve_right fun hhead => ?_
  rw [hempty] at hhead
  cases hhead

def Dawn (S : Setup ι) (c : ι) (σ : System ι) : Prop :=
  σ.producer.begun ≤ S.cfg.capacity → ∃ d, Vigil S c (S.cfg.capacity + 1) σ d

def Watch (S : Setup ι) (c : ι) (σ : System ι) : Prop :=
  σ.producer.begun < 2 ^ 64 →
    (σ.consumer c).pc.arriving = false ∧ Grounded S c σ ∧ ∃ d, Vigil S c 0 σ d

theorem Dawn.initial (fresh : Loc → Nat) : Dawn S c (S.initial fresh) := fun _ =>
  ⟨_, .initial fresh, fun h => absurd rfl h, Nat.zero_le _, ⟨[], .initial fresh⟩,
    fun _ _ h => (by cases h), fun _ h => (by cases h)⟩

theorem Dawn.watch (h : Dawn S c σ) (hb : σ.producer.begun ≤ S.cfg.capacity)
    (hc : Obtained S.cfg (σ.consumer c)) (hempty : σ.memory.buffer (.consumer c) = []) :
    Watch S c σ := by
  obtain ⟨d, hd⟩ := h hb
  obtain ⟨hsound, howned, hpaced, hbuffers, -⟩ := hd.guarded
  exact fun _ => ⟨hc.constructed, .of_empty hd.guarded hc.constructed hempty, d,
    ⟨hsound, howned, hpaced, hbuffers, fun _ _ => .inr (hc.clear hsound hb)⟩, hd.bedded, hd.sent,
    hd.census, hd.compares, hd.asleep⟩

variable [DecidableEq ι] {l : Label ι} {early : Nat}

theorem sent_step (hm : S.model = .tso) (hblocks : S.cfg.wait.blocks = true) (hd : S.Sound σ d)
    (hsent : σ.producer.sent ≤ d.stampedCount) (hhand : Handshake S l σ)
    (hs : S.step l σ = some σ') : σ'.producer.sent ≤ (S.advance l d).stampedCount := by
  cases Setup.step_iff.mp hs with
  | @producer _ p m hx =>
    rw [hm] at hx
    rcases Producer.sent_of_exec hblocks hd.wf hx with he | ⟨he, hpc⟩
    · exact he.trans_le hsent
    · rw [hd.read_foreign rfl] at hpc
      have hout := hhand.drained σ.producer.sent rfl hpc
      have hin : σ.producer.sent < (σ.producer.pos S.cfg S.stream).stampedCount := by
        rcases hpc with ⟨hpc, -⟩ | hpc <;> simp [Producer.pos, hpc, Pos.stampedCount]
      exact he.trans_le (hd.pending.eq_of_stamp_drained hin hout)
  | call => exact hsent
  | consumer => exact hsent
  | drain hb =>
    unfold Setup.advance
    split
    · exact hsent.trans d.stampedCount_le_succ
    · exact hsent

theorem compares_step (hbp : S.cfg.overflow = .backpressure) (hd : S.Sound σ d)
    (hlt : d.stampedCount < 2 ^ 64) (hnext : (σ.consumer c).obj.next ≤ d.stampedCount)
    (h : Compares S.cfg (σ.consumer c)) (hs : S.step l σ = some σ') :
    Compares S.cfg (σ'.consumer c) := by
  cases Setup.step_iff.mp hs with
  | producer hx => exact h
  | @call _ b k s hc hx =>
    rcases eq_or_ne c b with rfl | hcb
    · obtain ⟨hk, rfl⟩ := Session.call_eq_some.mp hx
      simp only [update_self]
      intro iter cmp hpc
      have hw := (Session.waiting_enter S.cfg hk).2
      rw [hpc] at hw
      cases hw
    · simpa [hcb] using h
  | @consumer _ b i s m hi hx =>
    rcases eq_or_ne c b with rfl | hcb
    · simp only [update_self]
      intro iter cmp hpc
      have hreload := (Session.moves_of_exec (fun a ha => hd.read_eq c ha) hi hx).of_syscall hpc
      simp only [Session.code, hreload, Option.some.injEq] at hi
      subst hi
      cases hx
      rw [hd.read_eq c rfl, hd.image.stamps _ (S.cfg.slot_lt _)] at hpc ⊢
      dsimp only at hpc ⊢
      split at hpc
      · cases hpc
      · cases hpc
        exact ⟨_, Pos.add_capacity_of_behind hbp hlt hnext rfl (by omega), rfl⟩
    · simpa [hcb] using h
  | drain hb => exact h

theorem asleep_step (hS : FutexTso S) (h : Vigil S c early σ d)
    (hearly : early ≤ S.cfg.capacity + 1) (hhand : Handshake S l σ) (hs : S.step l σ = some σ')
    {k : Nat × Nat} (hk : σ'.memory.parked (.consumer c) = some k) :
    k = S.stampKey (.consumer c) (σ'.consumer c).obj.next ∧
      σ'.producer.sent ≤ (σ'.consumer c).obj.next := by
  have hsound := h.guarded.sound
  cases h.bedded.dozes hs with
  | awake hn =>
    rw [hn] at hk
    cases hk
  | still hsame hsession hwake =>
    rw [hsame] at hk
    obtain ⟨hkey, hle⟩ := h.asleep k hk
    rw [hsession]
    refine ⟨hkey, ?_⟩
    cases Setup.step_iff.mp hs with
    | producer hx =>
      rw [hS.model] at hx
      rcases Producer.sent_of_exec hS.blocks hsound.wf hx with he | ⟨he, hpc⟩
      · exact he.trans_le hle
      · refine he.trans_le (lt_of_le_of_ne hle fun heq => ?_)
        rw [hsound.read_foreign rfl] at hpc
        rcases hpc with ⟨hpc, hzero⟩ | hpc
        · obtain ⟨ws, hws⟩ := h.census
          have hidle := hws.empty hzero
            (hhand.crowd ws hws.nodup fun b hb => (hws.mem b).mp hb) c
          obtain ⟨iter, hsleep⟩ := h.bedded fun hn => by rw [hn] at hk; cases hk
          rw [hsleep] at hidle
          cases hidle
        · refine hwake _ rfl hpc ?_
          rw [hk, hkey, stampKey_producer hS.process, heq]
    | call => exact hle
    | consumer => exact hle
    | drain => exact hle
  | @falls iter cmp hl hpc hcmp hsession hp hcells hpark =>
    rw [hpark, Option.some.injEq] at hk
    rw [hsession, hp]
    refine ⟨hk.symm, ?_⟩
    by_contra hover
    have hlt : (σ.consumer c).obj.next < σ.producer.sent := Nat.lt_of_not_le hover
    have hresident : d.Resident S.cfg (σ.consumer c).obj.next :=
      ⟨hlt.trans_le h.sent, h.guarded.touched_le hearly (.inl (by rw [hpc]; rfl))⟩
    rw [hsound.image.stamps _ (S.cfg.slot_lt _), Pos.stampAt_slot_eq hresident] at hcmp
    obtain ⟨q, hq, hqcmp⟩ := h.compares iter cmp hpc
    have hpos := S.cfg.capacity_pos
    have hcap := hS.capacity
    omega

theorem Vigil.step (hS : FutexTso S) (hclient : Loyal false S c)
    (h : Vigil S c early σ d) (hearly : early ≤ S.cfg.capacity + 1)
    (hb : σ'.producer.begun < 2 ^ 64)
    (hstill : σ.producer.begun < early → σ'.producer.begun < early)
    (hscan : l = .producer → early ≤ σ.producer.begun → ∀ i seq, ¬ StaleScan S c σ i seq)
    (harrive : (σ.consumer c).pc.arriving = true → (σ'.consumer c).pc.arriving = false →
      σ'.producer.begun < early ∨ Clear S c σ')
    (hhand : Handshake S l σ) (hs : S.step l σ = some σ') :
    Vigil S c early σ' (S.advance l d) ∧
      (σ.consumer c).obj.next ≤ (σ'.consumer c).obj.next := by
  have hsound := h.guarded.sound
  have hlt : d.stampedCount < 2 ^ 64 :=
    (hsound.stampedCount_le_begun.trans (Setup.begun_le hs)).trans_lt hb
  obtain ⟨ws, hws⟩ := h.census
  obtain ⟨hguarded, hchange⟩ :=
    h.guarded.step hS.overflow hS.model hclient hearly hb hstill hscan harrive hs
  exact ⟨⟨hguarded, (h.bedded.dozes hs).bedded h.bedded, sent_step hS.model hS.blocks hsound h.sent hhand hs,
    census_step hsound h.guarded.owned hws hs,
    compares_step hS.overflow hsound hlt h.guarded.paced.next h.compares hs,
    fun k hk => asleep_step hS h hearly hhand hs hk⟩, h.guarded.paced.next_le hchange hlt⟩

theorem Grounded.step (hbp : S.cfg.overflow = .backpressure) (hm : S.model = .tso)
    (hg : Grounded S c σ) (h : Guarded S c early σ d) (ha : (σ.consumer c).pc.arriving = false)
    (hle : (σ.consumer c).obj.next ≤ (σ'.consumer c).obj.next) (hs : S.step l σ = some σ') :
    Grounded S c σ' := by
  intro hstay' i hcur'
  have hstay := h.owned.departing_step hm hs hstay'
  have hcur : (σ.consumer c).cursor S.cfg = some i := by
    rcases h.owned.cursor_step hbp hm hs ha with he | he
    · exact he.symm.trans hcur'
    · rw [he] at hcur'
      cases hcur'
  have hinit (j : Nat) (attach : Bool) : (σ.consumer c).pc ≠ .initCursor j attach := by
    intro hpc
    rw [hpc] at ha
    cases ha
  rcases h.value_step hm hcur hs with hc | ⟨v, es, hbuf, hc, -⟩
  · rw [hc]
    exact (hg hstay i hcur).trans hle
  · rw [hc]
    have htrails := h.buffers.trails i hcur hinit hstay
    exact (htrails.pending (.cursorValue i, v) (hbuf ▸ List.mem_cons_self)).trans hle

theorem Dawn.step (hS : FutexTso S) (hclient : Loyal false S c) (h : Dawn S c σ)
    (hhand : Handshake S l σ) (hs : S.step l σ = some σ') : Dawn S c σ' := by
  intro hb
  have hle := Setup.begun_le hs
  have hcap := S.cfg.capacity_lt
  obtain ⟨d, hd⟩ := h (hle.trans hb)
  exact ⟨_, (hd.step hS hclient le_rfl (by omega) (fun _ => by omega) (fun _ _ => by omega)
    (fun _ _ => .inl (by omega)) hhand hs).1⟩

theorem Watch.step (hS : FutexTso S) (hclient : Loyal false S c) (h : Watch S c σ)
    (hhand : Handshake S l σ) (hs : S.step l σ = some σ') : Watch S c σ' := by
  intro hb
  obtain ⟨hlive, hg, d, hd⟩ := h ((Setup.begun_le hs).trans_lt hb)
  obtain ⟨hvigil, hle⟩ := hd.step hS hclient (Nat.zero_le _) hb (fun h0 => absurd h0 (Nat.not_lt_zero _))
    (fun _ _ _ _ => hg.not_stale) (fun ha => by rw [hlive] at ha; cases ha) hhand hs
  exact ⟨hd.guarded.sound.arriving_step hs hlive, hg.step hS.overflow hS.model hd.guarded hlive hle hs, _, hvigil⟩

theorem no_lost_wakeup {fresh : Loc → Nat} (hS : FutexTso S) (hclient : Loyal false S c)
    (hr₀ : S.lts.Reach (Handshake S) (S.initial fresh) σ₀)
    (hearly : σ₀.producer.begun ≤ S.cfg.capacity) (hc : Obtained S.cfg (σ₀.consumer c))
    (hempty : σ₀.memory.buffer (.consumer c) = []) (hr : S.lts.Reach (Handshake S) σ₀ σ)
    (hcount : σ.producer.begun < 2 ^ 64) {seq : Nat} (hreturned : seq < σ.producer.sent)
    (hnext : (σ.consumer c).obj.next = seq) : ¬ Setup.Asleep σ c := by
  have hdawn : Dawn S c σ₀ := hr₀.invariant (.initial fresh)
    fun l u v hu hhand hs => hu.step hS hclient hhand hs
  obtain ⟨-, -, d, hd⟩ := hr.invariant (hdawn.watch hearly hc hempty)
    (fun l u v hu hhand hs => hu.step hS hclient hhand hs) hcount
  intro hasleep
  obtain ⟨k, hk⟩ := Option.ne_none_iff_exists'.mp hasleep
  have := (hd.asleep k hk).2
  omega

def pairFutex : Setup (Fin 1) where
  cfg := .lone .backpressure .futex
  stream n := .ofByte n
  client _ := follows false
  model := .tso
  process _ := ⟨0, 0⟩

def landRun : List (Label (Fin 1)) := List.replicate 4 (.drain .producer)

def joinedRun : List (Label (Fin 1)) :=
  [.call 0 .construct, .consumer 0, .consumer 0, .drain (.consumer 0)]

def takeRun : List (Label (Fin 1)) :=
  .call 0 (.readCopy 64) :: List.replicate 5 (.consumer 0) ++ [.drain (.consumer 0)]

def spinRun : List (Label (Fin 1)) :=
  List.replicate 5 .producer ++ landRun ++ [.producer] ++ List.replicate 5 .producer ++ landRun ++
    [.producer] ++ takeRun ++ takeRun ++ [.call 0 .readBlocking] ++ List.replicate 65 (.consumer 0)

def dozeRun : List (Label (Fin 1)) := List.replicate 3 (.consumer 0)

def handshakes (l : Label (Fin 1)) (σ : System (Fin 1)) : Bool :=
  l ≠ .producer || (σ.memory.buffer .producer).isEmpty ||
    match σ.producer.pc with
    | .notify _ => false
    | .wake _ => false
    | _ => true

theorem handshakes_iff (l : Label (Fin 1)) (σ : System (Fin 1)) (h : handshakes l σ = true) :
    Handshake pairFutex l σ where
  drained seq hl hpc := by
    simp only [handshakes, Bool.or_eq_true, decide_eq_true_eq, List.isEmpty_iff] at h
    rcases h with (hne | hempty) | hother
    · exact absurd hl hne
    · rw [hempty]
      exact List.not_mem_nil
    · rcases hpc with ⟨hpc, -⟩ | hpc <;> rw [hpc] at hother <;> cases hother
  crowd ws hnodup _ := by
    match ws, hnodup with
    | [], _ => simp
    | [_], _ => simp
    | a :: b :: _, hnodup => simp [Subsingleton.elim a b] at hnodup

theorem no_lost_wakeup_woken : ∃ σ, pairFutex.Reachable σ ∧ (σ.consumer 0).obj.next = 2 ∧
    σ.producer.sent = 3 ∧ ¬ Setup.Asleep σ 0 := by
  obtain ⟨σ₀, hr₀, hp⟩ := Lts.exists_of_runIf (M := pairFutex.lts) handshakes
    (fun σ : System (Fin 1) => σ.producer.begun ≤ pairFutex.cfg.capacity &&
      (σ.consumer 0).pc.arriving = false && (σ.consumer 0).cursor pairFutex.cfg = some 0 &&
      (σ.memory.buffer (.consumer 0)).isEmpty &&
      (pairFutex.lts.runIf handshakes (spinRun ++ dozeRun ++ List.replicate 7 .producer ++
        landRun ++ List.replicate 2 .producer) σ).any fun σ =>
          (σ.consumer 0).obj.next = 2 && σ.producer = ⟨.idle, 3⟩)
    joinedRun (pairFutex.initial fun _ => 0) (by decide +kernel)
  obtain ⟨hp, hq⟩ := (Bool.and_eq_true _ _).mp hp
  obtain ⟨σ, hrun, hq⟩ := (Option.any_eq_true _ _).mp hq
  simp only [Bool.and_eq_true, decide_eq_true_eq, List.isEmpty_iff] at hp hq
  obtain ⟨⟨⟨hearly, hlive⟩, hcursor⟩, hempty⟩ := hp
  obtain ⟨hnext, hproducer⟩ := hq
  have hr := Lts.reach_of_runIf hrun
  have hS : FutexTso pairFutex := ⟨rfl, rfl, by decide, fun _ => rfl, rfl⟩
  refine ⟨σ, ⟨_, hr₀.reaches.trans hr.reaches⟩, hnext, by rw [hproducer],
    no_lost_wakeup hS (fun s k h => h) (hr₀.mono handshakes_iff) hearly ⟨hlive, 0, hcursor⟩ hempty
      (hr.mono handshakes_iff) (by rw [hproducer]; decide) (by rw [hproducer]; decide) hnext⟩

theorem wakeup_lost : ∃ σ, pairFutex.Reachable σ ∧ σ.producer = ⟨.idle, 3⟩ ∧
    σ.memory.buffer .producer = [] ∧ (σ.consumer 0).obj.next = 2 ∧
    (σ.consumer 0).pc = .waitAsleep 64 ∧ Setup.Asleep σ 0 := by
  obtain ⟨σ, hr, hp⟩ := Lts.exists_of_run (M := pairFutex.lts)
    (fun σ : System (Fin 1) => σ.producer = ⟨.idle, 3⟩ && (σ.memory.buffer .producer).isEmpty &&
      (σ.consumer 0).obj.next = 2 && (σ.consumer 0).pc = .waitAsleep 64 &&
      (σ.memory.parked (.consumer 0)).isSome)
    (joinedRun ++ spinRun ++ List.replicate 8 .producer ++ dozeRun ++ landRun)
    (pairFutex.initial fun _ => 0) (by decide +kernel)
  simp only [Bool.and_eq_true, decide_eq_true_eq, List.isEmpty_iff] at hp
  obtain ⟨⟨⟨⟨hproducer, hempty⟩, hnext⟩, hpc⟩, hasleep⟩ := hp
  exact ⟨σ, ⟨_, hr⟩, hproducer, hempty, hnext, hpc, Option.isSome_iff_ne_none.mp hasleep⟩

end Wait

end Shimmy
