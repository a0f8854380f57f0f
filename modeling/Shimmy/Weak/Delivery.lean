import Shimmy.Weak.Lossless
import Shimmy.Weak.Orders

namespace Shimmy

open Concurrency Function

namespace Producer

variable {ι : Type} [DecidableEq ι] {cfg : RingConfig} {stream : Nat → Message cfg.blockSize}
  {p p' : Producer} {m m' : WeakMemory (Thread ι) Loc Nat} {o : Orders} {i n : Nat}

theorem passed_le_of_effect (hbp : cfg.overflow = .backpressure) (hi : i < cfg.maxConsumers)
    (hwf : p.Wf cfg stream)
    (hsent : m.Sees (m.fronts .producer).current .nextPublish fun v => p.pc = .idle → v = p.sent)
    (hword : m.Sees (m.fronts .producer).current (.cursorInUse i) (· ≠ 0))
    (hvalue : m.Sees (m.fronts .producer).current (.cursorValue i) (· ≤ n))
    (hx : m.Effect (p.pc.access o) .producer (p.code cfg stream) p' m')
    (hp : p.passed i ≤ n + cfg.capacity) : p'.passed i ≤ n + cfg.capacity := by
  obtain ⟨value, hleads, hseen⟩ := hx.leadsFrom
  have hnext (hpc : p.pc = .idle) : value .nextPublish = p.sent := by
    obtain ⟨w, hw, ht, hval⟩ := hseen .nextPublish _ (by rw [code, hpc])
    exact hval ▸ hsent w hw ht hpc
  cases pass_of_leads hbp hi hwf hnext hleads with
  | behind h => exact h.trans hp
  | firstLap h => exact h.trans (Nat.le_add_left _ _)
  | unused seq hpc hfree =>
    obtain ⟨w, hw, ht, hval⟩ := hseen (.cursorInUse i) _ (by rw [code, hpc])
    exact absurd (hval.trans hfree) (hword w hw ht)
  | ahead seq hpc hahead hp' =>
    obtain ⟨w, hw, ht, hval⟩ := hseen (.cursorValue i) _ (by rw [code, hpc])
    have := hvalue w hw ht
    omega

end Producer

namespace Backpressure

variable {ι : Type} {S : Setup ι} {o : Orders} {l : WeakLabel ι} {σ σ₀ σ' : WeakSystem ι} {c : ι}
  {i : Nat}

structure Heard (S : Setup ι) (c : ι) (i : Nat) (σ : WeakSystem ι) : Prop where
  cursor : (σ.consumer c).cursor S.cfg = some i
  word : σ.memory.Sees (σ.memory.fronts .producer).current (.cursorInUse i) (· ≠ 0)
  value : σ.memory.Sees (σ.memory.fronts .producer).current (.cursorValue i)
    (· ≤ (σ.consumer c).obj.next)
  passed : σ.producer.passed i ≤ (σ.consumer c).obj.next + S.cfg.capacity

theorem WeakSound.sees_nextPublish (h : WeakSound S σ) :
    σ.memory.Sees (σ.memory.fronts .producer).current .nextPublish
      fun v => σ.producer.pc = .idle → v = σ.producer.sent := by
  obtain ⟨-, ⟨cells, ha⟩, -⟩ := h
  refine (ha.newest .nextPublish rfl).imp fun v hv hpc => hv.trans (ha.image.nextPublish.trans ?_)
  rw [Producer.pos, hpc]

variable [DecidableEq ι]

theorem arriving_step (hs : S.weakStep o l σ = some σ') (ha : (σ.consumer c).pc.arriving = false) :
    (σ'.consumer c).pc.arriving = false := by
  cases Setup.weak_own hs c with
  | still hs =>
    rw [hs]
    exact ha
  | call k hcl hk hs =>
    rw [hs]
    refine Session.arriving_enter hk ?_ ?_
    all_goals
      rintro rfl
      rw [of_decide_eq_true hk] at ha
      cases ha
  | own i hi hx =>
    obtain ⟨cells, hmoves⟩ := Session.moves_of_leads hi hx.leads
    by_contra hne
    rw [(hmoves.arriving (by simpa using hne)).1] at ha
    cases ha

theorem Tenure.stays {owner : Nat → Option (Thread ι)} (hbp : S.cfg.overflow = .backpressure)
    (h : Tenure S σ owner) (hlive : (σ.consumer c).pc.arriving = false)
    (hstay : (σ'.consumer c).pc.departing = false) (hs : S.weakStep o l σ = some σ') :
    (σ.consumer c).pc.departing = false ∧
      (σ'.consumer c).cursor S.cfg = (σ.consumer c).cursor S.cfg := by
  cases Setup.weak_own hs c with
  | still hs =>
    rw [hs] at hstay ⊢
    exact ⟨hstay, rfl⟩
  | call k hcl hk hs =>
    rw [hs]
    refine ⟨?_, Session.cursor_enter hbp (h.registered c) hk⟩
    rcases Session.pc_of_enabled hk with hpc | hpc <;> rw [hpc] <;> rfl
  | own i hi hx =>
    obtain ⟨hstep, -⟩ := Session.cursorEffect_of_effect (h.registered c) hi hx
    cases hstep with
    | quiet hhist hcur hold => exact ⟨hold, hcur⟩
    | claim k attach w front hpc =>
      rw [hpc] at hlive
      cases hlive
    | store k v at' front hcur hcur' hv =>
      refine ⟨?_, hcur'.trans hcur.symm⟩
      rcases hv with ⟨attach, hpc, -⟩ | ⟨hpc, -⟩ | ⟨last, hpc, -⟩ <;> rw [hpc] <;> rfl
    | release k at' hcur hpc hs =>
      rw [hs] at hstay
      cases hstay

theorem Heard.step (hbp : S.cfg.overflow = .backpressure) (hsound : WeakSound S σ)
    (hsound' : WeakSound S σ') (h : Heard S c i σ)
    (hle : (σ.consumer c).obj.next ≤ (σ'.consumer c).obj.next)
    (hlive : (σ.consumer c).pc.arriving = false) (hstay : (σ'.consumer c).pc.departing = false)
    (hs : S.weakStep o l σ = some σ') : Heard S c i σ' := by
  have hsent := hsound.sees_nextPublish
  obtain ⟨hwf, -, owner, ht⟩ := hsound
  obtain ⟨-, -, owner', ht'⟩ := hsound'
  have hgrow := (Setup.weak_grows hs .producer).current
  have hcur' : (σ'.consumer c).cursor S.cfg = some i :=
    (ht.stays hbp hlive hstay hs).2.trans h.cursor
  have hkeep (hword : σ'.memory.history (.cursorInUse i) = σ.memory.history (.cursorInUse i))
      (hvalue : ∀ w ∈ σ'.memory.history (.cursorValue i),
        w ∈ σ.memory.history (.cursorValue i) ∨ w.val ≤ (σ'.consumer c).obj.next)
      (hp : σ'.producer.passed i ≤ (σ'.consumer c).obj.next + S.cfg.capacity) : Heard S c i σ' :=
    ⟨hcur', h.word.congr hword (hgrow _), (h.value.imp fun _ hv => hv.trans hle).mono hvalue (hgrow _),
      hp⟩
  have hpassed := h.passed.trans (Nat.add_le_add_right hle _)
  cases Setup.weak_cases hs with
  | producer hx =>
    have hforeign {a : Loc} (ha : a.ofProducer = false) : _ = σ.memory.history a :=
      hx.history_of_ne fun hw => by rw [Producer.code_writes hw] at ha; cases ha
    have hsame := hforeign (show (Loc.cursorValue i).ofProducer = false from rfl)
    refine hkeep (hforeign rfl) (fun w hw => .inl (hsame ▸ hw)) ?_
    exact Producer.passed_le_of_effect hbp ((ht.registered c).cursor_lt h.cursor) hwf hsent h.word
      h.value hx h.passed
  | call => exact hkeep rfl (fun w hw => .inl hw) hpassed
  | @consumer _ b time j s m hi hx =>
    obtain ⟨hstep, -⟩ := Session.cursorEffect_of_effect (ht.registered b) hi hx
    rcases eq_or_ne c b with rfl | hcb
    · cases hstep with
      | quiet hhist =>
        have hsame := hhist (.cursorValue i) rfl
        exact hkeep (hhist _ rfl) (fun w hw => .inl (hsame ▸ hw)) hpassed
      | claim k attach w front hpc =>
        rw [hpc] at hlive
        cases hlive
      | store k v at' front hold hnew hv hf hm =>
        obtain rfl : k = i := Option.some.inj (hold.symm.trans h.cursor)
        subst hm
        refine hkeep (WeakMemory.history_add_of_ne (by simp)) (fun w hw => ?_) hpassed
        rw [WeakMemory.history_add_self] at hw
        rcases List.mem_cons.mp hw with rfl | hw
        · simp only [update_self] at hstay ⊢
          exact .inr (Session.stored_le hv hstay)
        · exact .inl hw
      | release k at' hold hpc hs =>
        simp only [update_self, hs] at hstay
        cases hstay
    · have hne : (σ.consumer b).cursor S.cfg ≠ some i := fun hb => hcb (ht.unique h.cursor hb)
      have hne' : s.cursor S.cfg ≠ some i := fun hb => by
        refine hcb (ht'.unique hcur' ?_)
        simpa using hb
      exact hkeep (hstep.word_history hne hne')
        (fun w hw => .inl (hstep.value_history hne ▸ hw)) hpassed

end Backpressure

-- a handover is an edge from outside the ring: a thread start, a join, a lock
inductive SyncLabel (ι : Type) where
  | ring (l : WeakLabel ι)
  | handover (t u : Thread ι)
  deriving DecidableEq, Repr

namespace Setup

variable {ι : Type} [DecidableEq ι] (S : Setup ι) (o : Orders)

def syncStep : SyncLabel ι → WeakSystem ι → Option (WeakSystem ι)
  | .ring l, σ => S.weakStep o l σ
  | .handover t u, σ => some { σ with memory := σ.memory.synchronize t u }

def syncLts : Lts (SyncLabel ι) (WeakSystem ι) := ⟨S.syncStep o⟩

def SyncReachable (σ : WeakSystem ι) : Prop :=
  ∃ fresh, (S.syncLts o).Reaches (S.weakInitial fresh) σ

variable {S o} {l : SyncLabel ι} {σ σ' : WeakSystem ι}

theorem sync_begun_le (h : S.syncStep o l σ = some σ') :
    σ.producer.begun ≤ σ'.producer.begun := by
  cases l with
  | ring l => exact weak_begun_le h
  | handover t u =>
    cases h
    exact le_rfl

theorem Below.syncStep {o' : Orders} {τ' : WeakSystem ι} (h : Below σ σ') (ho : o.Weaker o')
    (hs : S.syncStep o' l σ' = some τ') : ∃ τ, S.syncStep o l σ = some τ ∧ Below τ τ' := by
  cases l with
  | ring l => exact h.step ho hs
  | handover t u =>
    cases hs
    exact ⟨_, rfl, h.memory.synchronize t u, h.producer, h.consumer⟩

theorem Below.syncReaches {o' : Orders} {τ' : WeakSystem ι} (h : Below σ σ') (ho : o.Weaker o')
    (hr : (S.syncLts o').Reaches σ' τ') : ∃ τ, (S.syncLts o).Reaches σ τ ∧ Below τ τ' := by
  refine hr.invariant (I := fun τ' => ∃ τ, (S.syncLts o).Reaches σ τ ∧ Below τ τ')
    ⟨σ, .refl, h⟩ ?_
  rintro l u v ⟨τ, hτ, hbelow⟩ - hv
  obtain ⟨τ₁, hstep, hbelow₁⟩ := hbelow.syncStep ho hv
  exact ⟨τ₁, hτ.step trivial hstep, hbelow₁⟩

end Setup

namespace Backpressure

variable {ι : Type} {S : Setup ι} {o : Orders} {l : SyncLabel ι} {σ σ₀ σ' : WeakSystem ι} {c : ι}
  {i : Nat}

structure Announced (S : Setup ι) (c : ι) (i : Nat) (σ : WeakSystem ι) : Prop where
  constructed : (σ.consumer c).pc.arriving = false
  cursor : (σ.consumer c).cursor S.cfg = some i
  inUse : (σ.memory.fronts (.consumer c)).current (.cursorInUse i) ≤
    (σ.memory.fronts .producer).current (.cursorInUse i)
  value : (σ.memory.fronts (.consumer c)).current (.cursorValue i) ≤
    (σ.memory.fronts .producer).current (.cursorValue i)

structure ExactDelivery (S : Setup ι) (c : ι) (σ : WeakSystem ι) : Prop where
  status : (σ.consumer c).obj.lastStatus ≠ .lapped
  validated : (σ.consumer c).lastCall = some .validate → (σ.consumer c).pc = .idle →
    (σ.consumer c).validated = true
  next : (σ.consumer c).obj.next = (σ.consumer c).committed.length
  entries : ∀ k (e : Nat × Option View), (σ.consumer c).committed[k]? = some e →
    e.1 = k ∧ ∃ v, e.2 = some v ∧ v.Matches (S.stream k)
  room : (σ.consumer c).pc.departing = false →
    σ.producer.sent ≤ (σ.consumer c).obj.next + S.cfg.capacity

structure WeakLossless (S : Setup ι) (c : ι) (σ : WeakSystem ι) : Prop where
  sound : WeakSound S σ
  reader : Reader S c σ
  constructed : (σ.consumer c).pc.arriving = false
  heard : (σ.consumer c).pc.departing = false → ∃ i, Heard S c i σ

def WeakEarly (S : Setup ι) (c : ι) (σ : WeakSystem ι) : Prop :=
  σ.producer.begun ≤ S.cfg.capacity → WeakSound S σ ∧ Reader S c σ

theorem WeakEarly.initial (fresh : Loc → Nat) : WeakEarly S c (S.weakInitial fresh) :=
  fun _ => ⟨.initial fresh, .initial fresh⟩

theorem Announced.heard (ha : Announced S c i σ) (hsound : WeakSound S σ) (h : Reader S c σ)
    (hb : σ.producer.begun ≤ S.cfg.capacity) (hstay : (σ.consumer c).pc.departing = false) :
    Heard S c i σ := by
  obtain ⟨hwf, -, owner, ht⟩ := hsound
  have hinit (j : Nat) (attach : Bool) : (σ.consumer c).pc ≠ .initCursor j attach := fun hpc => by
    have hlive := ha.constructed
    rw [hpc] at hlive
    cases hlive
  refine ⟨ha.cursor, ?_, (h.trail i ha.cursor hinit hstay).congr rfl ha.value, ?_⟩
  · exact ((ht.lease i).word _ ((ht.holder c i).mp ha.cursor)).2.congr rfl ha.inUse
  · exact (Producer.passed_le_begun hwf).trans (hb.trans (Nat.le_add_left _ _))

theorem Announced.weakLossless (ha : Announced S c i σ) (h : WeakEarly S c σ)
    (hb : σ.producer.begun ≤ S.cfg.capacity) : WeakLossless S c σ := by
  obtain ⟨hsound, hreader⟩ := h hb
  exact ⟨hsound, hreader, ha.constructed, fun hstay => ⟨i, ha.heard hsound hreader hb hstay⟩⟩

theorem WeakLossless.touched_le (h : WeakLossless S c σ)
    (hstay : (σ.consumer c).pc.departing = false) :
    (σ.producer.pos S.cfg S.stream).touched ≤ (σ.consumer c).obj.next + S.cfg.capacity := by
  obtain ⟨i, hi⟩ := h.heard hstay
  exact (Producer.touched_le_passed h.sound.wf).trans hi.passed

theorem WeakLossless.delivered (h : WeakLossless S c σ) : ExactDelivery S c σ where
  status := h.reader.paced.status
  validated hl hpc := h.reader.paced.validated hl (by simp [hpc])
  next := by simpa using h.reader.sequence.next
  entries k e he := by
    have hentry := h.reader.sequence.entries k e he
    rwa [Nat.zero_add] at hentry
  room hstay := by
    obtain ⟨i, hi⟩ := h.heard hstay
    exact (Producer.sent_le_passed h.sound.wf i).trans hi.passed

variable [DecidableEq ι]

section Handover

variable (t u : Thread ι)

theorem WeakSound.handover (h : WeakSound S σ) :
    WeakSound S { σ with memory := σ.memory.synchronize t u } := by
  obtain ⟨hwf, ⟨cells, ha⟩, owner, ht⟩ := h
  refine ⟨hwf, ⟨cells, ha.congr (fun _ _ => rfl) ?_⟩, owner, ?_⟩
  · exact (WeakMemory.grows_synchronize _).current
  · exact ht.quiet ht.registered (fun _ => rfl) (fun _ _ => rfl) WeakMemory.grows_synchronize

theorem Reader.handover (h : Reader S c σ) :
    Reader S c { σ with memory := σ.memory.synchronize t u } := by
  have hgrow := (σ.memory.grows_synchronize (t := t) (u := u) (.consumer c)).current
  exact ⟨h.paced, h.sighted.mono (fun _ _ he => he) hgrow,
    fun i hi hinit hstay => (h.trail i hi hinit hstay).congr rfl (hgrow _), h.sequence, h.lastCall⟩

theorem Heard.handover (h : Heard S c i σ) :
    Heard S c i { σ with memory := σ.memory.synchronize t u } := by
  have hgrow := (σ.memory.grows_synchronize (t := t) (u := u) .producer).current
  exact ⟨h.cursor, h.word.congr rfl (hgrow _), h.value.congr rfl (hgrow _), h.passed⟩

end Handover

theorem WeakEarly.step (hbp : S.cfg.overflow = .backpressure) (hstamp : o.stamp.releases = true)
    (hread : o.doRead.acquires = true) (hclient : Loyal false S c) (h : WeakEarly S c σ)
    (hs : S.syncStep o l σ = some σ') : WeakEarly S c σ' := by
  intro hb
  have hle := (Setup.sync_begun_le hs).trans hb
  have hcap : S.cfg.capacity < emptySeq := S.cfg.capacity_lt.trans (by decide)
  obtain ⟨hsound, hreader⟩ := h hle
  cases l with
  | ring l =>
    obtain ⟨hsound', hpos⟩ := hsound.step hbp hstamp (hb.trans_lt hcap) hs
    have htouched : (σ.producer.pos S.cfg S.stream).touched ≤ σ.producer.begun :=
      σ.producer.pos_touched_le_begun
    exact ⟨hsound', (hreader.step hbp hread hclient hsound (hle.trans_lt hcap)
      (fun _ _ => htouched.trans (hle.trans (Nat.le_add_left _ _))) hpos hs).1⟩
  | handover t u =>
    cases hs
    exact ⟨hsound.handover t u, hreader.handover t u⟩

theorem WeakLossless.step (hbp : S.cfg.overflow = .backpressure) (hstamp : o.stamp.releases = true)
    (hread : o.doRead.acquires = true) (hclient : Loyal false S c) (h : WeakLossless S c σ)
    (hb : σ'.producer.begun < emptySeq) (hs : S.syncStep o l σ = some σ') :
    WeakLossless S c σ' := by
  cases l with
  | ring l =>
    obtain ⟨hsound', hpos⟩ := h.sound.step hbp hstamp hb hs
    obtain ⟨hreader, hle⟩ := h.reader.step hbp hread hclient h.sound
      ((Setup.weak_begun_le hs).trans_lt hb) (fun _ => h.touched_le) hpos hs
    obtain ⟨-, -, owner, ht⟩ := h.sound
    refine ⟨hsound', hreader, arriving_step hs h.constructed, fun hstay => ?_⟩
    obtain ⟨i, hi⟩ := h.heard (ht.stays hbp h.constructed hstay hs).1
    exact ⟨i, hi.step hbp h.sound hsound' hle h.constructed hstay hs⟩
  | handover t u =>
    cases hs
    exact ⟨h.sound.handover t u, h.reader.handover t u, h.constructed,
      fun hstay => (h.heard hstay).imp fun i hi => hi.handover t u⟩

def OrdersDeliver (o : Orders) : Prop :=
  ∀ (ι : Type) [DecidableEq ι] (S : Setup ι) (c : ι), S.cfg.overflow = .backpressure →
    Loyal false S c → ∀ (σ₀ : WeakSystem ι) (i : Nat), S.SyncReachable o σ₀ →
      σ₀.producer.begun ≤ S.cfg.capacity → Announced S c i σ₀ →
        ∀ σ, (S.syncLts o).Reaches σ₀ σ → σ.producer.begun < 2 ^ 64 - 1 → ExactDelivery S c σ

theorem ordersDeliver (hstamp : o.stamp.releases = true) (hread : o.doRead.acquires = true) :
    OrdersDeliver o := by
  rintro ι _ S c hbp hclient σ₀ i ⟨fresh, hr₀⟩ hearly hann σ hr hcount
  have hfirst : WeakEarly S c σ₀ := hr₀.invariant (.initial fresh) fun l u v hu _ hs =>
    hu.step hbp hstamp hread hclient hs
  have hinv : σ.producer.begun < emptySeq → WeakLossless S c σ :=
    hr.invariant (I := fun τ => τ.producer.begun < emptySeq → WeakLossless S c τ)
      (fun _ => hann.weakLossless hfirst hearly) fun l u v hu _ hs hb =>
        (hu ((Setup.sync_begun_le hs).trans_lt hb)).step hbp hstamp hread hclient hb hs
  exact (hinv hcount).delivered

def enlistRun : List (SyncLabel (Fin 1)) :=
  [.ring (.call 0 .construct), .ring (.consumer 0 0), .ring (.consumer 0 1),
    .handover (.consumer 0) .producer]

theorem exists_enlisted : ∃ σ₀ : WeakSystem (Fin 1),
    (∀ o, (pairSetup.syncLts o).run enlistRun (pairSetup.weakInitial fun _ => 0) = some σ₀) ∧
    σ₀.producer.begun ≤ pairSetup.cfg.capacity ∧ Announced pairSetup 0 0 σ₀ ∧
    Setup.Below σ₀ σ₀ := by
  refine ⟨((pairSetup.syncLts .source).run enlistRun (pairSetup.weakInitial fun _ => 0)).get rfl,
    fun o => rfl, by decide, ⟨rfl, rfl, by decide, by decide⟩, .refl fun t => ?_, rfl, rfl⟩
  cases t with
  | producer => exact fun _ => Nat.zero_le _
  | consumer c =>
    obtain rfl : c = 0 := Subsingleton.elim _ _
    exact fun _ => Nat.zero_le _

def unorderedRun : List (SyncLabel (Fin 1)) :=
  [.ring (.producer 0), .ring (.producer 1), .ring (.producer 1), .ring (.producer 1),
    .ring (.call 0 .read), .ring (.consumer 0 1), .ring (.consumer 0 0),
    .ring (.call 0 .validate), .ring (.consumer 0 1), .ring (.call 0 .commit)]

def misdelivered (σ : WeakSystem (Fin 1)) : Bool :=
  σ.producer.begun < 2 && (σ.consumer 0).committed = [(0, some ⟨0, []⟩)]

theorem not_ordersDeliver {o : Orders} (o' : Orders) (ho : o.Weaker o')
    (h : ((pairSetup.syncLts o').run (enlistRun ++ unorderedRun) (pairSetup.weakInitial fun _ => 0)).any
      misdelivered = true) : ¬ OrdersDeliver o := by
  intro hdeliver
  obtain ⟨σ₀, hjoin, hearly, hann, hbelow⟩ := exists_enlisted
  rw [Lts.run_append, hjoin o', Option.bind_some] at h
  obtain ⟨σ', hr, hp⟩ := Lts.exists_of_run misdelivered unorderedRun σ₀ h
  obtain ⟨σ, hrun, -, hprod, hcons⟩ := hbelow.syncReaches ho hr
  simp only [misdelivered, Bool.and_eq_true, decide_eq_true_eq, ← hprod, ← hcons] at hp
  obtain ⟨hbegun, hcommitted⟩ := hp
  have hall := hdeliver (Fin 1) pairSetup 0 rfl (fun s k h => h) σ₀ 0
    ⟨_, Lts.reach_of_run (hjoin o)⟩ hearly hann σ hrun (by omega)
  obtain ⟨-, v, hv, hmatch⟩ := hall.entries 0 _ (by rw [hcommitted]; rfl)
  cases hv
  cases hmatch.1

theorem ordersDeliver_iff (o : Orders) :
    OrdersDeliver o ↔ o.stamp.releases = true ∧ o.doRead.acquires = true := by
  constructor
  · intro h
    constructor <;> by_contra hne
    · refine not_ordersDeliver { Orders.strongest with stamp := .acquire } ?_
        (by decide +kernel) h
      exact ⟨.seqCst _, fun _ => rfl, ⟨fun _ => rfl, fun h => absurd h hne⟩, .seqCst _,
        fun _ => rfl⟩
    · refine not_ordersDeliver { Orders.strongest with doRead := .release } ?_
        (by decide +kernel) h
      exact ⟨.seqCst _, fun _ => rfl, .seqCst _, ⟨fun h => absurd h hne, fun _ => rfl⟩,
        fun _ => rfl⟩
  · rintro ⟨hstamp, hread⟩
    exact ordersDeliver hstamp hread

theorem weak_lossless (hbp : S.cfg.overflow = .backpressure)
    (hclient : Loyal false S c) (h₀ : S.SyncReachable .source σ₀)
    (hearly : σ₀.producer.begun ≤ S.cfg.capacity) (hann : Announced S c i σ₀)
    (hr : (S.syncLts .source).Reaches σ₀ σ) (hcount : σ.producer.begun < 2 ^ 64 - 1) :
    ExactDelivery S c σ :=
  ordersDeliver rfl rfl ι S c hbp hclient σ₀ i h₀ hearly hann σ hr hcount

def staleScanRun : List (SyncLabel (Fin 1)) :=
  [.ring (.producer 0), .ring (.producer 1), .ring (.producer 1), .ring (.producer 1),
    .ring (.producer 1), .ring (.call 0 .read), .ring (.consumer 0 1), .ring (.consumer 0 1),
    .ring (.call 0 (.viewByte 0)), .ring (.consumer 0 1), .ring (.call 0 .validate),
    .ring (.consumer 0 1), .ring (.call 0 .commit), .ring (.consumer 0 2), .ring (.producer 1),
    .ring (.producer 1), .ring (.producer 1), .ring (.producer 1), .ring (.producer 2),
    .ring (.producer 2), .ring (.producer 1), .ring (.producer 1)]

theorem weak_lossless_stale : ∃ σ₀ σ, pairSetup.SyncReachable .source σ₀ ∧
    (pairSetup.syncLts .source).Reaches σ₀ σ ∧ σ.producer.pc = .awaitInUse 2 0 ∧
    (σ.consumer 0).committed = [(0, some ⟨1, [(0, 0)]⟩)] ∧
    View.Matches ⟨1, [(0, 0)]⟩ (pairSetup.stream 0) := by
  obtain ⟨σ₀, hjoin, hearly, hann, -⟩ := exists_enlisted
  have h₀ : pairSetup.SyncReachable .source σ₀ := ⟨_, Lts.reach_of_run (hjoin _)⟩
  have hrun : ((pairSetup.syncLts .source).run (enlistRun ++ staleScanRun)
      (pairSetup.weakInitial fun _ => 0)).any (fun σ : WeakSystem (Fin 1) =>
        σ.producer = ⟨.awaitInUse 2 0, 2⟩ &&
          (σ.consumer 0).committed = [(0, some ⟨1, [(0, 0)]⟩)]) = true := by decide +kernel
  rw [Lts.run_append, hjoin, Option.bind_some] at hrun
  obtain ⟨σ, hr, hp⟩ := Lts.exists_of_run _ staleScanRun σ₀ hrun
  simp only [Bool.and_eq_true, decide_eq_true_eq] at hp
  obtain ⟨hprod, hcommitted⟩ := hp
  have hall := weak_lossless (S := pairSetup) (c := 0) rfl (fun s k h => h) h₀ hearly hann hr
    (by rw [hprod]; decide)
  obtain ⟨-, v, hv, hmatch⟩ := hall.entries 0 _ (by rw [hcommitted]; rfl)
  cases hv
  exact ⟨σ₀, σ, h₀, hr, by rw [hprod], hcommitted, hmatch⟩

end Backpressure

end Shimmy
