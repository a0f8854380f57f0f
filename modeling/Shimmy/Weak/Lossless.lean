import Shimmy.Backpressure.Lossless
import Shimmy.Weak.Reader
import Shimmy.Weak.Tenure

namespace Shimmy

open Concurrency Function

theorem Producer.stampedCount_le_begun {cfg : RingConfig}
    {stream : Nat → Message cfg.blockSize} (p : Producer) :
    (p.pos cfg stream).stampedCount ≤ p.begun :=
  (Pos.stampedCount_le_touched _).trans p.pos_touched_le_begun

namespace Backpressure

variable {ι : Type} {S : Setup ι} {o : Orders} {l : WeakLabel ι} {σ σ₀ σ' : WeakSystem ι} {c : ι}
  {i : Nat}

structure WeakSound (S : Setup ι) (σ : WeakSystem ι) : Prop where
  wf : σ.producer.Wf S.cfg S.stream
  annals : ∃ cells, Annals S.cfg S.stream cells σ.memory (σ.producer.pos S.cfg S.stream)
  tenure : ∃ owner, Tenure S σ owner

structure Reader (S : Setup ι) (c : ι) (σ : WeakSystem ι) : Prop where
  paced : Paced S.cfg S.stream (σ.producer.pos S.cfg S.stream) (σ.consumer c)
  sighted : Sighted S.cfg σ.memory (σ.memory.fronts (.consumer c)).current (σ.consumer c)
  trail : ∀ i, (σ.consumer c).cursor S.cfg = some i →
    (∀ j attach, (σ.consumer c).pc ≠ .initCursor j attach) →
    (σ.consumer c).pc.departing = false →
    σ.memory.Sees (σ.memory.fronts (.consumer c)).current (.cursorValue i)
      (· ≤ (σ.consumer c).obj.next)
  sequence : InSequence S.stream 0 (σ.consumer c)
  lastCall : (σ.consumer c).lastCall ≠ some .attachAtCurrent

theorem WeakSound.initial (fresh : Loc → Nat) : WeakSound S (S.weakInitial fresh) :=
  ⟨trivial, ⟨_, .start fresh⟩, _, .initial fresh⟩

theorem Reader.initial (fresh : Loc → Nat) : Reader S c (S.weakInitial fresh) where
  paced := .initial
  sighted h := by simp [Session.engaged, Setup.weakInitial, Session.initial, SessionPc.reading] at h
  trail i h := by cases h
  sequence := ⟨rfl, fun k e h => (by cases h)⟩
  lastCall h := by cases h

variable [DecidableEq ι]

theorem WeakSound.step (hbp : S.cfg.overflow = .backpressure) (hstamp : o.stamp.releases = true)
    (h : WeakSound S σ) (hb : σ'.producer.begun < emptySeq) (hs : S.weakStep o l σ = some σ') :
    WeakSound S σ' ∧
      (σ'.producer.pos S.cfg S.stream = σ.producer.pos S.cfg S.stream ∨
        σ'.producer.pos S.cfg S.stream = (σ.producer.pos S.cfg S.stream).succ S.cfg S.stream) := by
  obtain ⟨hwf, ⟨cells, ha⟩, owner, ht⟩ := h
  have htenure := ht.step hbp hs
  cases Setup.weak_cases hs with
  | producer hx =>
    obtain ⟨hwf', hpos, hannals⟩ := ha.producer hbp hstamp hwf hb hx
    exact ⟨⟨hwf', hannals, htenure⟩, hpos⟩
  | call => exact ⟨⟨hwf, ⟨cells, ha⟩, htenure⟩, .inl rfl⟩
  | consumer hi hx =>
    refine ⟨⟨hwf, ⟨cells, ha.congr (fun a hown => hx.history_of_ne fun hw => ?_) ?_⟩, htenure⟩,
      .inl rfl⟩
    · rw [Session.code_writes hi hw] at hown
      cases hown
    · exact (hx.grows_all _).current

theorem Reader.paced_step (hbp : S.cfg.overflow = .backpressure) (hclient : Loyal false S c)
    (hsound : WeakSound S σ) (h : Reader S c σ) (hb : σ.producer.begun < emptySeq)
    (hclear : (σ.consumer c).pc.arriving = false → (σ.consumer c).pc.departing = false →
      (σ.producer.pos S.cfg S.stream).touched ≤ (σ.consumer c).obj.next + S.cfg.capacity)
    (hs : S.weakStep o l σ = some σ') :
    Paced S.cfg S.stream (σ.producer.pos S.cfg S.stream) (σ'.consumer c) ∧
      ∃ cells, (σ.consumer c).Change S.cfg S.stream cells (σ.producer.pos S.cfg S.stream)
        (σ'.consumer c) := by
  obtain ⟨-, ⟨cells, ha⟩, -⟩ := hsound
  have hn : (σ.producer.pos S.cfg S.stream).stampedCount < emptySeq :=
    σ.producer.stampedCount_le_begun.trans_lt hb
  have hlt := hn.trans (show emptySeq < 2 ^ 64 by decide)
  cases Setup.weak_own hs c with
  | still hs =>
    rw [hs]
    exact ⟨h.paced, cells, .stay rfl rfl⟩
  | call k hcl hk hs =>
    rw [hs]
    have henter := h.paced.enter hlt ha.image hk (hclient _ _ hcl)
    exact ⟨henter.1, cells, henter.2⟩
  | own i hi hx =>
    by_cases hload : ∃ a next, i = .load a next
    · obtain ⟨a, next, rfl⟩ := hload
      obtain ⟨w, hw, ht, hnext, -⟩ := hx.load
      rw [hnext]
      have hle := ((Fronts.grows_fenceAcquire _).current a).trans ht
      have hload := h.paced.load hbp ha h.sighted hn h.lastCall hclear hi hw hle
      exact ⟨hload.1, cells, hload.2⟩
    · have hturns := Session.turns_of_leads hi hx.leads fun a next he => hload ⟨a, next, he⟩
      have hmoves := h.paced.moves hbp ha.image hlt (fun hpc => by
        obtain ⟨harr, hdep⟩ := SessionPc.live_of_active (hpc.imp_right .inl)
        exact hclear harr hdep) (hturns.moves cells)
      exact ⟨hmoves.1, cells, hmoves.2⟩

theorem Reader.sighted_step (hread : o.doRead.acquires = true) (h : Reader S c σ)
    (hs : S.weakStep o l σ = some σ') :
    Sighted S.cfg σ'.memory (σ'.memory.fronts (.consumer c)).current (σ'.consumer c) := by
  have hold : Sighted S.cfg σ'.memory (σ'.memory.fronts (.consumer c)).current (σ.consumer c) :=
    h.sighted.mono (fun _ _ => Setup.weak_mem_history hs) (Setup.weak_grows hs _).current
  cases Setup.weak_own hs c with
  | still hs =>
    rw [hs]
    exact hold
  | call k hcl hk hs =>
    rw [hs]
    exact hold.enter h.paced.rounds.view.inView hk
  | own i hi hx =>
    by_cases hload : ∃ a next, i = .load a next
    · obtain ⟨a, next, rfl⟩ := hload
      obtain ⟨w, hw, ht, hnext, hm⟩ := hx.load
      rw [hnext]
      refine hold.moves (Session.moves_of_value w.val hi) fun call hpc hok => ?_
      -- the load of the stamp is an acquire: what the stamp's writer had seen is now seen
      unfold Session.code at hi
      rw [hpc] at hi
      cases hi
      refine ⟨w, Setup.weak_mem_history hs hw, hok, ?_, ?_⟩
      · rw [hm, WeakMemory.fronts_look, Fronts.current_fenceRelease, hpc]
        exact Fronts.front_le_current hread w
      · rw [hm, WeakMemory.fronts_look, Fronts.current_fenceRelease]
        simp [Fronts.read]
    · have hturns := Session.turns_of_leads hi hx.leads fun a next he => hload ⟨a, next, he⟩
      refine hold.moves (hturns.moves fun _ => 0) fun call hpc _ => ?_
      unfold Session.code at hi
      rw [hpc] at hi
      cases hi
      exact absurd ⟨_, _, rfl⟩ hload

theorem Reader.trail_step (hbp : S.cfg.overflow = .backpressure) (hsound : WeakSound S σ)
    (h : Reader S c σ) (hle : (σ.consumer c).obj.next ≤ (σ'.consumer c).obj.next)
    (hs : S.weakStep o l σ = some σ') (hcur : (σ'.consumer c).cursor S.cfg = some i)
    (hinit : ∀ j attach, (σ'.consumer c).pc ≠ .initCursor j attach)
    (hstay : (σ'.consumer c).pc.departing = false) :
    σ'.memory.Sees (σ'.memory.fronts (.consumer c)).current (.cursorValue i)
      (· ≤ (σ'.consumer c).obj.next) := by
  obtain ⟨-, -, owner, ht⟩ := hsound
  have hgrow := Setup.weak_grows hs (.consumer c)
  have hkeep (hcur : (σ.consumer c).cursor S.cfg = some i)
      (hinit : ∀ j attach, (σ.consumer c).pc ≠ .initCursor j attach)
      (hlive : (σ.consumer c).pc.departing = false)
      (hhist : σ'.memory.history (.cursorValue i) = σ.memory.history (.cursorValue i)) :
      σ'.memory.Sees (σ'.memory.fronts (.consumer c)).current (.cursorValue i)
        (· ≤ (σ'.consumer c).obj.next) :=
    ((h.trail i hcur hinit hlive).congr hhist (hgrow.current _)).imp fun _ hx => hx.trans hle
  cases Setup.weak_cases hs with
  | producer hx =>
    exact hkeep hcur hinit hstay (hx.history_of_ne fun hw => by cases Producer.code_writes hw)
  | @call _ b k s hclient hcall =>
    rcases eq_or_ne c b with rfl | hcb
    · obtain ⟨hk, rfl⟩ := Session.call_eq_some.mp hcall
      simp only [update_self, Session.cursor_enter hbp (ht.registered c) hk] at hcur
      have hpc := Session.pc_of_enabled hk
      refine hkeep hcur (fun j attach hp => ?_) ?_ rfl
      · rcases hpc with hpc | hpc <;> rw [hpc] at hp <;> cases hp
      · rcases hpc with hpc | hpc <;> rw [hpc] <;> rfl
    · simp only [update_of_ne hcb] at hcur hinit hstay
      exact hkeep hcur hinit hstay rfl
  | @consumer _ b time j s m hi hx =>
    obtain ⟨hstep, -⟩ := Session.cursorEffect_of_effect (ht.registered b) hi hx
    rcases eq_or_ne c b with rfl | hcb
    · simp only [update_self] at hcur hinit hstay hle ⊢
      cases hstep with
      | quiet hhist hsame hlive hquiet =>
        have hpc := fun k a => (hquiet k a).1
        simpa using hkeep (hsame ▸ hcur) hpc hlive (hhist _ rfl)
      | claim k attach w front hpc hw hfree hf hm hs =>
        exact absurd (by rw [hs]) (hinit k attach)
      | store k v at' front hold hcur' hv hf hm =>
        obtain rfl : k = i := Option.some.inj (hcur'.symm.trans hcur)
        have hcover := (ht.lease k).guarded _ ((ht.holder c k).mp hold) _ rfl
        subst hm
        rw [WeakMemory.fronts_add]
        exact hcover.sees_add hf.1 (Fronts.current_write_self hf.1) (Session.stored_le hv hstay)
      | release k at' hold hpc hs =>
        rw [hs] at hcur
        cases hcur
    · simp only [update_of_ne hcb] at hcur hinit hstay
      exact hkeep hcur hinit hstay (hstep.value_history fun hb => hcb (ht.unique hcur hb))

theorem Reader.lastCall_step (hclient : Loyal false S c) (h : Reader S c σ)
    (hs : S.weakStep o l σ = some σ') :
    (σ'.consumer c).lastCall ≠ some .attachAtCurrent := by
  cases Setup.weak_own hs c with
  | still hs =>
    rw [hs]
    exact h.lastCall
  | call k hcl hk hs =>
    rw [hs, Session.lastCall_enter]
    rintro ⟨rfl⟩
    exact absurd (hclient _ _ hcl) (by simp [follows])
  | own i hi hx =>
    obtain ⟨cells, hmoves⟩ := Session.moves_of_leads hi hx.leads
    rw [hmoves.lastCall]
    exact h.lastCall

theorem Reader.step (hbp : S.cfg.overflow = .backpressure) (hread : o.doRead.acquires = true)
    (hclient : Loyal false S c) (hsound : WeakSound S σ) (h : Reader S c σ)
    (hb : σ.producer.begun < emptySeq)
    (hclear : (σ.consumer c).pc.arriving = false → (σ.consumer c).pc.departing = false →
      (σ.producer.pos S.cfg S.stream).touched ≤ (σ.consumer c).obj.next + S.cfg.capacity)
    (hpos : σ'.producer.pos S.cfg S.stream = σ.producer.pos S.cfg S.stream ∨
      σ'.producer.pos S.cfg S.stream = (σ.producer.pos S.cfg S.stream).succ S.cfg S.stream)
    (hs : S.weakStep o l σ = some σ') :
    Reader S c σ' ∧ (σ.consumer c).obj.next ≤ (σ'.consumer c).obj.next := by
  obtain ⟨hpaced, cells, hchange⟩ := h.paced_step hbp hclient hsound hb hclear hs
  have hlt : (σ.producer.pos S.cfg S.stream).stampedCount < 2 ^ 64 :=
    σ.producer.stampedCount_le_begun.trans_lt (hb.trans (by decide))
  have hle := h.paced.next_le hchange hlt
  have hpaced' : Paced S.cfg S.stream (σ'.producer.pos S.cfg S.stream) (σ'.consumer c) := by
    rcases hpos with hpos | hpos <;> rw [hpos]
    · exact hpaced
    · exact hpaced.succ
  refine ⟨⟨hpaced', h.sighted_step hread hs, fun i => h.trail_step hbp hsound hle hs,
    h.sequence.change hchange (fun hp => ?_) hlt, h.lastCall_step hclient hs⟩, hle⟩
  have hserves := h.paced.rounds.serves
  rw [hp] at hserves
  exact h.lastCall hserves

end Backpressure

end Shimmy
