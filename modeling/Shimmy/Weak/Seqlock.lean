import Shimmy.Weak.Glimpse

namespace Shimmy

open Concurrency Function

theorem Producer.stampedCount_le_of_leads {cfg : RingConfig}
    {stream : Nat → Message cfg.blockSize} {p p' : Producer} (h : (p.code cfg stream).Leads p') :
    (p.pos cfg stream).stampedCount ≤ (p'.pos cfg stream).stampedCount := by
  obtain ⟨pc, n⟩ := p
  cases pc with
  | idle =>
    obtain ⟨v, rfl⟩ := h
    exact (congrArg Pos.stampedCount (pos_publishFrom n v)).ge
  | awaitInUse seq i =>
    obtain ⟨v, rfl⟩ := h
    dsimp only
    split
    · exact (congrArg Pos.stampedCount (pos_awaitFrom n seq (i + 1))).ge
    · exact le_rfl
  | awaitValue seq i =>
    obtain ⟨v, rfl⟩ := h
    dsimp only
    split
    · exact (congrArg Pos.stampedCount (pos_awaitFrom n seq 0)).ge
    · exact (congrArg Pos.stampedCount (pos_awaitFrom n seq (i + 1))).ge
  | mark seq =>
    obtain rfl := h
    by_cases ho : cfg.overflow = .overwrite <;> simp [pos, Pos.stampedCount, ho]
  | storeLen seq =>
    obtain rfl := h
    rw [pos_copyFrom _ _ _ (Nat.zero_le _)]
    by_cases ho : cfg.overflow = .overwrite <;> simp [pos, Pos.stampedCount, ho]
  | copy seq j =>
    obtain rfl := h
    unfold copyFrom
    split <;> simp [pos, Pos.stampedCount]
  | stamp seq =>
    obtain rfl := h
    simp [pos, Pos.stampedCount]
  | advance seq =>
    obtain rfl := h
    split <;> simp [pos, Pos.stampedCount, returned]
  | notify seq =>
    obtain ⟨v, rfl⟩ := h
    dsimp only
    split <;> simp [pos, Pos.stampedCount, returned]
  | wake seq =>
    obtain rfl := h
    simp [pos, Pos.stampedCount, returned]

namespace Overwrite

section Consumer

variable {ι : Type} {cfg : RingConfig} {stream : Nat → Message cfg.blockSize} {cells : Loc → Nat}
  {m m' : WeakMemory (Thread ι) Loc Nat} {d : Pos} {s s' : Session} {v v' : Fronts Loc}
  {a : Loc} {x : Nat} {e w : Write Loc Nat}

theorem Anchor.bears (he : Anchor cfg stream m v s e) (hc : Chronicle cfg stream cells m d)
    (hb : (stream s.obj.readSeq).Bears (cfg.slot s.obj.readSeq) a x) (hw : w ∈ m.history a)
    (ht : v.current a ≤ w.time) (hfront : w.front ≤ v'.acquired)
    (hacq : v'.acquired (.slotSeq (cfg.slot s.obj.readSeq)) ≤ e.time) : w.val = x := by
  have hlt : e.val < writingSeq := he.val ▸ he.lt
  have hb' : (stream e.val).Bears (cfg.slot s.obj.readSeq) a x := by rwa [he.val]
  rcases hc.content _ e he.mem hlt a x hb' w hw ((he.front a).trans ht) with hval | hover
  · exact hval
  · exact absurd (hover.trans_le ((hfront _).trans hacq)) (lt_irrefl _)

theorem Anchor.byte {j : Nat} (he : Anchor cfg stream m v s e)
    (hc : Chronicle cfg stream cells m d) (hj : j < (stream s.obj.readSeq).len)
    (hw : w ∈ m.history (.payload (cfg.slot s.obj.readSeq) j))
    (ht : v.current (.payload (cfg.slot s.obj.readSeq) j) ≤ w.time) (hfront : w.front ≤ v'.acquired)
    (hacq : v'.acquired (.slotSeq (cfg.slot s.obj.readSeq)) ≤ e.time) :
    (stream s.obj.readSeq).bytes[j]? = some w.val := by
  have hlt : j < (stream s.obj.readSeq).bytes.length := hj
  rw [he.bears hc (.byte hj) hw ht hfront hacq, List.getD_eq_getElem?_getD,
    List.getElem?_eq_getElem hlt, Option.getD_some]

theorem Glimpse.matches (h : Glimpse cfg stream m v s) (hc : Chronicle cfg stream cells m d)
    (hw : w ∈ m.history (.slotSeq (cfg.slot s.obj.readSeq)))
    (ht : v.acquired (.slotSeq (cfg.slot s.obj.readSeq)) ≤ w.time) (hval : w.val = s.obj.readSeq)
    (view : View) (hv : s.view = some view) : view.Matches (stream s.obj.readSeq) := by
  obtain ⟨e, he⟩ := h.anchor (.inr (by simp [hv]))
  have htime := hc.once _ e he.mem w hw (he.val ▸ he.lt) (hval.trans he.val.symm)
  exact he.loaded view hv (htime ▸ ht)

structure Watch (cfg : RingConfig) (stream : Nat → Message cfg.blockSize)
    (m : WeakMemory (Thread ι) Loc Nat) (d : Pos) (v : Fronts Loc) (s : Session) : Prop where
  glimpse : Glimpse cfg stream m v s
  inRange : InRange d.stampedCount s.obj
  copy : CopySound s

theorem Watch.read {next : Nat → Session} (h : Watch cfg stream m d v s)
    (hc : Chronicle cfg stream cells m d) (hn : d.stampedCount < writingSeq)
    (hi : s.code cfg = some (.load a next)) (hw : w ∈ m.history a) (ht : v.current a ≤ w.time)
    (hgrows : v.Grows v') (hfront : w.front ≤ v'.acquired)
    (hread : ∀ call, s.pc = .doRead call → w.front ≤ v'.current)
    (hvalidate : s.pc.validating = true → v.acquired a ≤ w.time) :
    Glimpse cfg stream m v' (next w.val) ∧ InRange d.stampedCount (next w.val).obj := by
  have hview := h.glimpse.mono hgrows fun _ _ he => he
  have hrange := h.inRange
  have hin := h.glimpse.inView
  unfold Session.code at hi
  cases hp : s.pc with
  | attachProduced =>
    rw [hp] at hi
    cases hi
    have hcount := (hc.published w hw).trans d.count_le_stampedCount
    exact ⟨hview.congr rfl (fun _ => rfl) id (Session.reading_cursorPc _)
      (Session.cursorPc_ne_unborn _), hcount.trans_lt hn, hrange.readSeq⟩
  | doRead call =>
    rw [hp] at hi
    cases hi
    refine ⟨hview.afterDoRead hrange.next hw (hread call hp), ?_⟩
    by_cases hs : w.val = s.obj.next
    · rw [Session.afterDoRead_ok hs]
      have hlt := (hc.stamps _ w hw (hs ▸ hrange.next)).1
      exact ⟨hrange.next, .inr (hs ▸ hlt)⟩
    · rw [Session.afterDoRead_ne hs]
      dsimp only
      split <;> exact ⟨hrange.next, hrange.readSeq⟩
  | viewLen =>
    rw [hp] at hi
    cases hi
    refine ⟨h.glimpse.viewLen (by rw [hp]; rfl) (hc.lens _ w hw) hgrows ?_ trivial,
      hrange.next, hrange.readSeq⟩
    exact fun e he hacq => he.bears hc .len hw ht hfront hacq
  | copyLen outCap =>
    rw [hp] at hi
    cases hi
    refine ⟨h.glimpse.viewLen (by rw [hp]; rfl) (hc.lens _ w hw) hgrows ?_
      (SessionPc.inView_copyFromPc (min_le_left _ _)), hrange.next, hrange.readSeq⟩
    exact fun e he hacq => he.bears hc .len hw ht hfront hacq
  | viewByte j =>
    rw [hp] at hi hin
    cases hi
    obtain ⟨view, hv, hj⟩ := hin
    refine ⟨h.glimpse.viewed hv hgrows (fun e he hacq hlen => ?_) trivial,
      hrange.next, hrange.readSeq⟩
    exact he.byte hc (hlen ▸ hj) hw ht hfront hacq
  | copyByte n j =>
    rw [hp] at hi hin
    cases hi
    obtain ⟨view, hv, hle, hj⟩ := hin
    refine ⟨h.glimpse.viewed hv hgrows (fun e he hacq hlen => ?_)
      (SessionPc.inView_copyFromPc hle), hrange.next, hrange.readSeq⟩
    exact he.byte hc (hlen ▸ hj.trans_le hle) hw ht hfront hacq
  | copyValidate n =>
    rw [hp] at hi hvalidate
    cases hi
    refine ⟨hview.afterCopy fun hs => ?_, ?_⟩
    · exact h.glimpse.matches hc hw (hvalidate rfl) (of_decide_eq_true hs)
    · dsimp only [Session.afterCopy]
      split
      · exact hrange.commit hn
      · exact ⟨hrange.next, hrange.readSeq⟩
  | validate =>
    rw [hp] at hi hvalidate
    cases hi
    refine ⟨hview.validated (fun hs => ?_) rfl rfl id rfl (by simp), hrange.next, hrange.readSeq⟩
    exact h.glimpse.matches hc hw (hvalidate rfl) (of_decide_eq_true hs)
  | produced =>
    rw [hp] at hi
    cases hi
    exact ⟨hview.congr rfl (fun _ => rfl) id rfl (by simp), hrange.next, hrange.readSeq⟩
  | waitReload iter =>
    rw [hp] at hi
    cases hi
    refine ⟨hview.congr rfl (fun _ => rfl) id ?_ ?_, hrange.next, hrange.readSeq⟩
    · dsimp only
      split <;> rfl
    · dsimp only
      split <;> simp
  | _ =>
    rw [hp] at hi
    cases hi

variable [DecidableEq ι] {o : Orders} {t : Thread ι}

theorem Watch.load {next : Nat → Session} (h : Watch cfg stream m d (m.fronts t) s)
    (hc : Chronicle cfg stream cells m d) (hn : d.stampedCount < writingSeq)
    (hread : o.doRead.acquires = true) (hfence : o.validateFence = true)
    (hover : cfg.overflow = .overwrite) (hi : s.code cfg = some (.load a next))
    (hx : m.Effect (s.pc.access o) t (.load a next) s' m') :
    Watch cfg stream m' d (m'.fronts t) s' := by
  have hgrows := hx.grows
  obtain ⟨w, hw, ht, rfl, rfl⟩ := hx.load
  rw [WeakMemory.fronts_look] at hgrows ⊢
  have hentered := Fronts.grows_fenceAcquire (v := m.fronts t) (s.pc.access o).acquireFence
  have hread' (call : ReadCall) (hpc : s.pc = .doRead call) : w.front ≤
      (((m.entering (s.pc.access o) t).read (s.pc.access o).order a w).fenceRelease
        (s.pc.access o).releaseFence).current := by
    refine (Fronts.front_le_current ?_ w).trans (Fronts.grows_fenceRelease _).current
    rw [hpc]
    exact hread
  have hvalidate (hpc : s.pc.validating = true) : (m.fronts t).acquired a ≤ w.time := by
    have hacc : (s.pc.access o).acquireFence = true := by
      cases hp : s.pc <;> rw [hp] at hpc <;> first | exact hfence | cases hpc
    rw [WeakMemory.entering, hacc] at ht
    exact (Fronts.acquired_le_current a).trans ht
  obtain ⟨hview, hrange⟩ := h.read hc hn hi hw ((hentered.current a).trans ht) hgrows
    ((Fronts.front_le_acquired _ w).trans (Fronts.grows_fenceRelease _).acquired) hread' hvalidate
  exact ⟨hview.mono .refl fun _ _ he => he, hrange,
    h.copy.moves hover (Session.moves_of_value w.val hi)⟩

theorem Watch.step {i : Instr Loc Nat Session} (h : Watch cfg stream m d (m.fronts t) s)
    (hc : Chronicle cfg stream cells m d) (hn : d.stampedCount < writingSeq)
    (hread : o.doRead.acquires = true) (hfence : o.validateFence = true)
    (hover : cfg.overflow = .overwrite) (hi : s.code cfg = some i)
    (hx : m.Effect (s.pc.access o) t i s' m') : Watch cfg stream m' d (m'.fronts t) s' := by
  by_cases hload : ∃ a next, i = .load a next
  · obtain ⟨a, next, rfl⟩ := hload
    exact h.load hc hn hread hfence hover hi hx
  · have hturns := Session.turns_of_leads hi hx.leads fun a next he => hload ⟨a, next, he⟩
    refine ⟨(h.glimpse.turns hturns).mono hx.grows fun _ _ => hx.mem_history, ?_,
      h.copy.moves hover (hturns.moves fun _ => 0)⟩
    cases hturns <;> exact ⟨h.inRange.next, h.inRange.readSeq⟩

end Consumer

structure SeqlockSound (cfg : RingConfig) (stream : Nat → Message cfg.blockSize) (begun : Nat)
    (s : Session) : Prop where
  len : ∀ v, s.view = some v → v.len ≤ cfg.blockSize
  valid : s.validated = true → ∀ v, s.view = some v →
    s.obj.readSeq < begun ∧ v.Matches (stream s.obj.readSeq)
  copied : ∀ outCap, s.lastCall = some (.readCopy outCap) → s.pc = .idle →
    if s.obj.lastStatus = .ok then
      s.obj.readSeq = s.entry ∧ s.obj.next = s.entry + 1 ∧
        ((stream s.entry).len ≤ outCap →
          s.returned = (stream s.entry).len ∧
          s.view.map (fun v => v.bytes.map Prod.snd) = some (stream s.entry).bytes)
    else s.obj.next = s.entry

section Run

variable {ι : Type} {S : Setup ι} {o : Orders} {l : WeakLabel ι} {σ σ' : WeakSystem ι}

theorem Watch.mono {cfg : RingConfig} {stream : Nat → Message cfg.blockSize}
    {m m' : WeakMemory (Thread ι) Loc Nat} {d d' : Pos} {v : Fronts Loc} {s : Session}
    (h : Watch cfg stream m d v s) (hd : d.stampedCount ≤ d'.stampedCount)
    (hm : ∀ i, ∀ e ∈ m.history (.slotSeq i), e ∈ m'.history (.slotSeq i)) :
    Watch cfg stream m' d' v s :=
  ⟨h.glimpse.mono .refl hm, h.inRange.mono hd, h.copy⟩

theorem Watch.sound {cfg : RingConfig} {stream : Nat → Message cfg.blockSize}
    {m : WeakMemory (Thread ι) Loc Nat} {d : Pos} {cells : Loc → Nat} {v : Fronts Loc}
    {s : Session} {n : Nat} (h : Watch cfg stream m d v s) (hc : Chronicle cfg stream cells m d)
    (hd : d.stampedCount ≤ n) (hn : n < writingSeq) : SeqlockSound cfg stream n s := by
  have hstamped {view : View} (hv : s.view = some view) : s.obj.readSeq < n := by
    obtain ⟨e, he⟩ := h.glimpse.anchor (.inr (by simp [hv]))
    have hlt := (hc.stamps _ e he.mem (he.val ▸ he.lt)).1
    exact (he.val ▸ hlt).trans_le hd
  refine ⟨h.glimpse.len, fun hval view hv => ⟨hstamped hv, h.glimpse.valid hval view hv⟩,
    fun outCap hlast hpc => ?_⟩
  have hcopy := h.copy outCap hlast
  rw [hpc] at hcopy
  split
  · rename_i hok
    obtain ⟨hseq, hnext, hval, view, hv, hret, hfst⟩ := (if_pos hok).mp hcopy
    have hlt := hstamped hv
    have hmatch := h.glimpse.valid hval view hv
    rw [hseq] at hlt hmatch
    refine ⟨hseq, ?_, fun hlen => ?_⟩
    · rw [hnext, Nat.mod_eq_of_lt]
      unfold writingSeq at hn
      omega
    · rw [hmatch.1, min_eq_left hlen] at hret
      rw [hret] at hfst
      exact ⟨hret, by rw [hv, Option.map_some, hmatch.bytes_eq hfst]⟩
  · rename_i hok
    exact ((if_neg hok).mp hcopy).1

def WeakInvariant (S : Setup ι) (σ : WeakSystem ι) : Prop :=
  σ.producer.begun < writingSeq →
    σ.producer.Wf S.cfg S.stream ∧
    (∃ cells, Chronicle S.cfg S.stream cells σ.memory (σ.producer.pos S.cfg S.stream)) ∧
    ∀ c, Watch S.cfg S.stream σ.memory (σ.producer.pos S.cfg S.stream)
      (σ.memory.fronts (.consumer c)) (σ.consumer c)

theorem weakInvariant_initial (fresh : Loc → Nat) : WeakInvariant S (S.weakInitial fresh) :=
  fun _ => ⟨trivial, ⟨_, .start fresh⟩, fun _ => ⟨.initial, .construct, fun _ h => by cases h⟩⟩

variable [DecidableEq ι]

theorem weakInvariant_step (hover : S.cfg.overflow = .overwrite) (hmark : o.markFence = true)
    (hstamp : o.stamp.releases = true) (hread : o.doRead.acquires = true)
    (hfence : o.validateFence = true) (hseek : RealSeeks S) (h : WeakInvariant S σ)
    (hs : S.weakStep o l σ = some σ') : WeakInvariant S σ' := by
  intro hb
  have hbegun := (Setup.weak_begun_le hs).trans_lt hb
  obtain ⟨hwf, ⟨cells, hc⟩, hsess⟩ := h hbegun
  have hb' : σ.producer.begun < 2 ^ 64 := by unfold writingSeq at hbegun; omega
  have hn : (σ.producer.pos S.cfg S.stream).stampedCount < writingSeq :=
    ((Pos.stampedCount_le_touched _).trans σ.producer.pos_touched_le_begun).trans_lt hbegun
  cases Setup.weak_cases hs with
  | producer hx =>
    obtain ⟨hwf', hc'⟩ := hc.producer hover hmark hstamp hwf hb' hx
    refine ⟨hwf', hc', fun c => ?_⟩
    dsimp only
    rw [hx.fronts_of_ne (by simp)]
    exact (hsess c).mono (Producer.stampedCount_le_of_leads hx.leads) fun _ _ => hx.mem_history
  | @call _ c k s hclient hcall =>
    refine ⟨hwf, ⟨cells, hc⟩, fun b => ?_⟩
    rcases eq_or_ne b c with rfl | hbc
    · dsimp only
      rw [update_self]
      obtain ⟨hk, rfl⟩ := Session.call_eq_some.mp hcall
      refine ⟨(hsess b).glimpse.call hcall, ?_, .enter⟩
      have hin : InRange (σ.producer.pos S.cfg S.stream).stampedCount
          ((σ.consumer b).noteCall k).obj := (hsess b).inRange
      exact hin.enter hn hk fun seq hseq => hseek b _ seq (hseq ▸ hclient)
    · dsimp only
      rw [update_of_ne hbc]
      exact hsess b
  | @consumer _ c time i s m hi hx =>
    have hkeep : Chronicle S.cfg S.stream cells m (σ.producer.pos S.cfg S.stream) := by
      refine hc.congr (fun a ha => hx.history_of_ne fun hw => ?_) ?_ ?_
      · rw [Session.code_writes hi hw] at ha
        cases ha
      · rw [hx.fronts_of_ne (by simp)]
      · rw [hx.fronts_of_ne (by simp)]
    refine ⟨hwf, ⟨cells, hkeep⟩, fun b => ?_⟩
    rcases eq_or_ne b c with rfl | hbc
    · dsimp only
      rw [update_self]
      exact (hsess b).step hc hn hread hfence hover hi hx
    · dsimp only
      rw [update_of_ne hbc, hx.fronts_of_ne (by simpa using hbc)]
      exact (hsess b).mono le_rfl fun _ _ => hx.mem_history

theorem weakInvariant_of_reachable (hover : S.cfg.overflow = .overwrite)
    (hmark : o.markFence = true) (hstamp : o.stamp.releases = true)
    (hread : o.doRead.acquires = true) (hfence : o.validateFence = true) (hseek : RealSeeks S)
    (h : S.WeakReachable o σ) : WeakInvariant S σ := by
  obtain ⟨fresh, hr⟩ := h
  exact hr.invariant (weakInvariant_initial fresh) fun _ _ _ hu _ hs =>
    weakInvariant_step hover hmark hstamp hread hfence hseek hu hs

theorem weak_sound (hover : S.cfg.overflow = .overwrite) (hmark : o.markFence = true)
    (hstamp : o.stamp.releases = true) (hread : o.doRead.acquires = true)
    (hfence : o.validateFence = true) (hseek : RealSeeks S) (h : S.WeakReachable o σ)
    (hcount : σ.producer.begun < writingSeq) (c : ι) :
    SeqlockSound S.cfg S.stream σ.producer.begun (σ.consumer c) := by
  obtain ⟨-, ⟨cells, hc⟩, hsess⟩ :=
    weakInvariant_of_reachable hover hmark hstamp hread hfence hseek h hcount
  exact (hsess c).sound hc
    ((Pos.stampedCount_le_touched _).trans σ.producer.pos_touched_le_begun) hcount

end Run

end Overwrite

end Shimmy
