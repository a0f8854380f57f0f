import Shimmy.Ring.Round
import Shimmy.Ring.Whole

namespace Shimmy

open Concurrency Function

namespace Session

def lapReported (s : Session) : Bool :=
  s.obj.lastStatus = .lapped && s.lastCall.any Call.isRead

end Session

namespace Overwrite

def follows (cfg : RingConfig) (s : Session) : Call → Bool
  | .construct => true
  | .read => true
  | .readBlocking => true
  | .readCopy outCap => cfg.blockSize ≤ outCap
  | .viewByte _ => s.roundOpen
  | .validate => s.roundOpen
  | .commit => s.confirmed
  | .produced => s.lapReported
  | .resync p => s.lastCall = some .produced && s.produced = some p
  | _ => false

inductive Advance (cfg : RingConfig) (stream : Nat → Message cfg.blockSize) (counter : Nat)
    (s s' : Session) : Prop
  | stay (hnext : s'.obj.next = s.obj.next) (hc : s'.committed = s.committed)
  | commit (v : View) (hv : v.Matches (stream s.obj.next))
      (hnext : s'.obj.next = s.obj.next + 1)
      (hc : s'.committed = s.committed ++ [(s.obj.next, some v)])
  | skip (hlapped : s.obj.lastStatus = .lapped) (hnext : s.obj.next ≤ s'.obj.next)
      (hgone : ∀ q, s.obj.next ≤ q → q < s'.obj.next → q + cfg.capacity < counter)
      (hc : s'.committed = s.committed)

structure InOrder (cfg : RingConfig) (stream : Nat → Message cfg.blockSize) (s : Session) :
    Prop where
  ordered : (s.committed.map Prod.fst).Pairwise (· < ·)
  matching : ∀ e ∈ s.committed, e.1 < s.obj.next ∧ ∃ v, e.2 = some v ∧ v.Matches (stream e.1)

namespace Advance

variable {cfg : RingConfig} {stream : Nat → Message cfg.blockSize} {n : Nat} {s s' : Session}

theorem next_le (h : Advance cfg stream n s s') : s.obj.next ≤ s'.obj.next := by
  cases h with
  | stay hnext hc => exact hnext.ge
  | commit v hv hnext hc => omega
  | skip hlapped hnext hgone hc => exact hnext

theorem inOrder (h : Advance cfg stream n s s') (hs : InOrder cfg stream s) :
    InOrder cfg stream s' := by
  have hle := h.next_le
  have hkeep (hc : s'.committed = s.committed) : InOrder cfg stream s' :=
    ⟨hc ▸ hs.ordered, fun e he =>
      ⟨(hs.matching e (hc ▸ he)).1.trans_le hle, (hs.matching e (hc ▸ he)).2⟩⟩
  cases h with
  | stay hnext hc => exact hkeep hc
  | skip hlapped hnext hgone hc => exact hkeep hc
  | commit v hv hnext hc =>
    refine ⟨?_, fun e he => ?_⟩
    · rw [hc, List.map_append, List.pairwise_append]
      refine ⟨hs.ordered, List.pairwise_singleton _ _, fun a ha b hb => ?_⟩
      obtain ⟨e, he, rfl⟩ := List.mem_map.mp ha
      obtain rfl : b = s.obj.next := by simpa using hb
      exact (hs.matching e he).1
    · rw [hc, List.mem_append, List.mem_singleton] at he
      rcases he with he | rfl
      · exact ⟨(hs.matching e he).1.trans_le hle, (hs.matching e he).2⟩
      · exact ⟨by omega, v, rfl, hv⟩

end Advance

structure Reports (cfg : RingConfig) (d : Pos) (s : Session) : Prop where
  fresh : s.lastCall.any Call.isRead = true → s.produced = none
  lapped : s.pc.polling = false → s.lapReported = true → s.obj.next + cfg.capacity < d.touched
  asked : s.lastCall = some .produced →
    s.obj.lastStatus = .lapped ∧ s.obj.next + cfg.capacity < d.touched ∧
      ∀ p, s.produced = some p → s.obj.next + cfg.capacity ≤ p ∧ p ≤ d.count

namespace Reports

variable {cfg : RingConfig} {stream : Nat → Message cfg.blockSize} {cells : Loc → Nat} {d : Pos}
  {s s' : Session}

theorem succ (h : Reports cfg d s) : Reports cfg (d.succ cfg stream) s where
  fresh := h.fresh
  lapped hp hl := (h.lapped hp hl).trans_le d.touched_le_succ
  asked hl :=
    have ⟨hstatus, hlt, hp⟩ := h.asked hl
    ⟨hstatus, hlt.trans_le d.touched_le_succ, fun p hs =>
      ⟨(hp p hs).1, (hp p hs).2.trans d.count_le_succ⟩⟩

theorem keep (h : Reports cfg d s) (hlast : s'.lastCall = s.lastCall)
    (hnext : s'.obj.next = s.obj.next) (hstatus : s'.obj.lastStatus = s.obj.lastStatus)
    (hpolling : s'.pc.polling = false → s.pc.polling = false)
    (hprod : s'.produced = s.produced ∨
      s.lastCall = some .produced ∧ s'.produced = some d.count) : Reports cfg d s' := by
  have hlap : s'.lapReported = s.lapReported := by rw [Session.lapReported, hstatus, hlast]; rfl
  refine ⟨fun hr => ?_, fun hp hl => ?_, fun hl => ?_⟩
  · rcases hprod with hprod | ⟨hcall, -⟩
    · rw [hprod]
      exact h.fresh (hlast ▸ hr)
    · rw [hlast, hcall] at hr
      cases hr
  · rw [hnext]
    exact h.lapped (hpolling hp) (hlap ▸ hl)
  · obtain ⟨hst, hlt, hp⟩ := h.asked (hlast ▸ hl)
    refine ⟨hstatus.trans hst, hnext ▸ hlt, fun p hs => ?_⟩
    rw [hnext]
    rcases hprod with hprod | ⟨-, hcount⟩
    · exact hp p (hprod ▸ hs)
    · obtain rfl : d.count = p := by simpa [hcount] using hs
      have := d.touched_le
      omega

theorem read (h : s.lastCall.any Call.isRead = true → s.produced = none)
    (hread : s.lastCall.any Call.isRead = true)
    (hlap : s.pc.polling = false → s.obj.lastStatus = .lapped →
      s.obj.next + cfg.capacity < d.touched) : Reports cfg d s where
  fresh := h
  lapped hp hl := hlap hp (by simp [Session.lapReported] at hl; exact hl.1)
  asked hl := by
    rw [hl] at hread
    cases hread

theorem doRead {call : ReadCall} (h : Reports cfg d s) (hpc : s.pc = .doRead call)
    (hserves : s.pc.Serves s.lastCall) (himage : Image cfg stream cells d) :
    Reports cfg d (s.afterDoRead cfg call (cells (.slotSeq (cfg.slot s.obj.next)))) := by
  have hread : s.lastCall.any Call.isRead = true := by
    rw [hpc] at hserves
    rw [show s.lastCall = some call.call from hserves]
    cases call <;> rfl
  have hlap : Consumer.classify (cells (.slotSeq (cfg.slot s.obj.next))) s.obj.next = .lapped →
      s.obj.next + cfg.capacity < d.touched := by
    rw [himage.stamps _ (cfg.slot_lt _)]
    exact Pos.touched_of_lapped
  by_cases hs : cells (.slotSeq (cfg.slot s.obj.next)) = s.obj.next
  · rw [Session.afterDoRead_ok hs]
    exact .read h.fresh hread fun _ hl => by cases hl
  · rw [Session.afterDoRead_ne hs]
    dsimp only
    split
    · exact .read h.fresh hread fun hp => by simp at hp
    · exact .read h.fresh hread fun _ hl => hlap hl

theorem copyValidate {n : Nat} (h : Reports cfg d s) (hpc : s.pc = .copyValidate n)
    (hr : Rounds cfg stream d s) (himage : Image cfg stream cells d) :
    Reports cfg d (s.afterCopy cfg n
      (cells (.slotSeq (cfg.slot s.obj.readSeq)) = s.obj.readSeq)) := by
  obtain ⟨hok, hseq, -⟩ := hr.current (.inl (by rw [hpc]; rfl))
  have hlt := hr.view.stamped (.inl (by rw [hpc]; rfl))
  have hread : s.lastCall.any Call.isRead = true := by
    obtain ⟨outCap, hlast⟩ : ∃ outCap, s.lastCall = some (.readCopy outCap) := by
      have hserves := hr.serves
      rwa [hpc] at hserves
    rw [hlast]
    rfl
  by_cases hs : cells (.slotSeq (cfg.slot s.obj.readSeq)) = s.obj.readSeq
  · simp only [hs, decide_true, Session.afterCopy, if_true]
    exact .read h.fresh hread fun _ hl => by
      simp [Session.commit, Session.publishCursor, Consumer.commit, hok] at hl
  · simp only [hs, decide_false, Session.afterCopy]
    rw [himage.stamps _ (cfg.slot_lt _)] at hs
    exact .read h.fresh hread fun _ _ => hseq ▸ Pos.touched_of_moved hlt hs

theorem moves (h : Reports cfg d s) (hr : Rounds cfg stream d s)
    (himage : Image cfg stream cells d) (hattach : s.pc ≠ .attachProduced)
    (hm : s.Moves cfg cells s') : Reports cfg d s' := by
  have hlast := hm.lastCall
  cases hm with
  | control hn => exact h.keep hlast rfl rfl (fun hp => hn.polling.symm.trans hp) (.inl rfl)
  | registrationFailed hpc => exact h.keep hlast rfl rfl (fun _ => by rw [hpc]; rfl) (.inl rfl)
  | registered hpc => exact h.keep hlast rfl rfl (fun _ => by rw [hpc]; rfl) (.inl rfl)
  | attached hpc => exact absurd hpc hattach
  | doRead hpc => exact h.doRead hpc hr.serves himage
  | viewLen hpc =>
    refine h.keep hlast rfl rfl (fun _ => ?_) (.inl rfl)
    rcases hpc with ⟨hpc, -⟩ | ⟨outCap, hpc, -⟩ <;> rw [hpc] <;> rfl
  | viewByte hpc =>
    refine h.keep hlast rfl rfl (fun _ => ?_) (.inl rfl)
    rcases hpc with ⟨hpc, -⟩ | ⟨n, hpc, -⟩ <;> rw [hpc] <;> rfl
  | copyValidate hpc => exact h.copyValidate hpc hr himage
  | validate hpc => exact h.keep hlast rfl rfl (fun _ => by rw [hpc]; rfl) (.inl rfl)
  | produced hpc =>
    have hserves := hr.serves
    rw [hpc] at hserves
    exact h.keep hlast rfl rfl (fun _ => by rw [hpc]; rfl)
      (.inr ⟨hserves, by rw [himage.nextPublish]⟩)

theorem enter {k : Call} (h : Reports cfg d s) (hk : s.enabled k = true)
    (hf : follows cfg s k = true) : Reports cfg d ((s.noteCall k).enter cfg k) := by
  have hlast : ((s.noteCall k).enter cfg k).lastCall = some k := by cases k <;> rfl
  cases hread : k.isRead with
  | true =>
    refine .read (fun _ => ?_) (by rw [hlast]; exact hread) fun hp => ?_
    · cases k <;> first | rfl | cases hread
    · cases k <;> first | (cases hread; done) | cases hp
  | false =>
    refine ⟨fun hr => ?_, fun _ hl => ?_, fun hl => ?_⟩
    · rw [hlast] at hr
      exact absurd (hread.symm.trans hr) (by simp)
    · rw [Session.lapReported, hlast] at hl
      simp [hread] at hl
    · obtain rfl : k = .produced := by simpa [hlast] using hl
      have hpc : s.pc = .idle := of_decide_eq_true hk
      obtain ⟨hlapped, hr⟩ : s.obj.lastStatus = .lapped ∧ s.lastCall.any Call.isRead = true := by
        simpa [follows, Session.lapReported] using hf
      refine ⟨hlapped, h.lapped (by rw [hpc]; rfl) hf, fun p hp => ?_⟩
      have hp' : s.produced = some p := hp
      rw [h.fresh hr] at hp'
      cases hp'

end Reports

structure Progress (cfg : RingConfig) (stream : Nat → Message cfg.blockSize) (d : Pos)
    (s : Session) : Prop where
  rounds : Rounds cfg stream d s
  reports : Reports cfg d s
  started : s.lastCall ≠ some .attachAtCurrent
  next : s.obj.next ≤ d.stampedCount
  inOrder : InOrder cfg stream s

namespace Progress

variable {cfg : RingConfig} {stream : Nat → Message cfg.blockSize} {cells : Loc → Nat} {d : Pos}
  {s s' : Session}

theorem initial : Progress cfg stream d (Session.initial cfg) where
  rounds := .initial
  reports := ⟨fun _ => rfl, fun _ h => by simp [Session.initial, Session.lapReported] at h,
    fun h => by simp [Session.initial] at h⟩
  started := by simp [Session.initial]
  next := Nat.zero_le _
  inOrder := ⟨List.Pairwise.nil, fun e he => by cases he⟩

theorem succ (h : Progress cfg stream d s) : Progress cfg stream (d.succ cfg stream) s where
  rounds := h.rounds.succ
  reports := h.reports.succ
  started := h.started
  next := h.next.trans d.stampedCount_le_succ
  inOrder := h.inOrder

theorem advance (h : Progress cfg stream d s) (ht : d.touched ≤ writingSeq)
    (hc : Session.Change cfg stream cells d s s') (hpc : s.pc ≠ .attachProduced) :
    Advance cfg stream (cells .nextPublish) s s' ∧ s'.obj.next ≤ d.stampedCount := by
  cases hc with
  | stay hnext hc => exact ⟨.stay hnext hc, hnext.trans_le h.next⟩
  | commit v hv hlt hnext hc =>
    have hst := d.stampedCount_le_touched
    rw [Nat.mod_eq_of_lt (by unfold writingSeq at ht; omega)] at hnext
    exact ⟨.commit v hv hnext hc, by omega⟩
  | attach hp => exact absurd hp hpc

theorem attachProduced_ne (h : Progress cfg stream d s) : s.pc ≠ .attachProduced := by
  have hserves := h.rounds.serves
  intro hpc
  rw [hpc] at hserves
  exact h.started hserves

theorem moves (h : Progress cfg stream d s) (hover : cfg.overflow = .overwrite)
    (himage : Image cfg stream cells d) (ht : d.touched ≤ writingSeq)
    (hm : s.Moves cfg cells s') :
    Progress cfg stream d s' ∧ Advance cfg stream (cells .nextPublish) s s' := by
  have hstamp {w : Nat} (hw : w ≤ d.stampedCount) (hc : cells (.slotSeq (cfg.slot w)) = w) :
      d.Resident cfg w :=
    Pos.resident_of_stampAt_le hover ((himage.stamps _ (cfg.slot_lt w)).symm.trans hc) hw ht
  obtain ⟨hrounds, hchange⟩ := h.rounds.moves himage (fun hc => (hstamp h.next hc).1)
    (fun _ hlt hc => hstamp hlt.le hc) hm
  obtain ⟨hadv, hnext⟩ := h.advance ht hchange h.attachProduced_ne
  exact ⟨⟨hrounds, h.reports.moves h.rounds himage h.attachProduced_ne hm,
    hm.lastCall ▸ h.started, hnext, hadv.inOrder h.inOrder⟩, hadv⟩

theorem resync {p : Nat} (h : Progress cfg stream d s) (himage : Image cfg stream cells d)
    (hlast : s.lastCall = some .produced) (hp : s.produced = some p) :
    Advance cfg stream (cells .nextPublish) s ((s.noteCall (.resync p)).resync cfg p) ∧
      ((s.noteCall (.resync p)).resync cfg p).obj.next ≤ d.stampedCount := by
  obtain ⟨hlapped, -, hbounds⟩ := h.reports.asked hlast
  obtain ⟨hlow, hhigh⟩ := hbounds p hp
  have hst := d.count_le_stampedCount
  have hnext : ((s.noteCall (.resync p)).resync cfg p).obj.next = p - cfg.capacity := by
    simp only [Session.resync, Session.publishCursor, Consumer.resync]
    split <;> omega
  refine ⟨.skip hlapped (by omega) (fun q hq hlt => ?_) rfl, by omega⟩
  rw [himage.nextPublish]
  omega

theorem enter {k : Call} (h : Progress cfg stream d s) (himage : Image cfg stream cells d)
    (ht : d.touched ≤ writingSeq) (hk : s.enabled k = true) (hf : follows cfg s k = true) :
    Progress cfg stream d ((s.noteCall k).enter cfg k) ∧
      Advance cfg stream (cells .nextPublish) s ((s.noteCall k).enter cfg k) := by
  have hlast : ((s.noteCall k).enter cfg k).lastCall = some k := by cases k <;> rfl
  have hrounds := h.rounds.enter hk fun hi => by
    cases k <;> first | exact hf | cases hi
  have hstarted : ((s.noteCall k).enter cfg k).lastCall ≠ some .attachAtCurrent := by
    rw [hlast]
    rintro hk
    cases hk
    cases hf
  have hadv : Advance cfg stream (cells .nextPublish) s ((s.noteCall k).enter cfg k) ∧
      ((s.noteCall k).enter cfg k).obj.next ≤ d.stampedCount := by
    by_cases hresync : ∃ p, k = .resync p
    · obtain ⟨p, rfl⟩ := hresync
      obtain ⟨hcall, hp⟩ : s.lastCall = some .produced ∧ s.produced = some p := by
        simpa [follows] using hf
      exact h.resync himage hcall hp
    · refine h.advance ht (h.rounds.enter_change hk ?_ ?_ ?_) h.attachProduced_ne
      · rintro rfl
        exact hf
      · rintro seq rfl
        cases hf
      · exact fun p hp => hresync ⟨p, hp⟩
  exact ⟨⟨hrounds, h.reports.enter hk hf, hstarted, hadv.2, hadv.1.inOrder h.inOrder⟩, hadv.1⟩

end Progress

section Run

variable {ι : Type} {S : Setup ι} {σ σ' : System ι} {d : Pos} {c : ι}

def Tracking (S : Setup ι) (c : ι) (σ : System ι) : Prop :=
  σ.producer.begun ≤ writingSeq →
    ∃ d, S.Sound σ d ∧ Progress S.cfg S.stream d (σ.consumer c)

def Outrun (S : Setup ι) (w : Nat) (σ : System ι) : Prop :=
  σ.producer.begun ≤ writingSeq → ∃ d, S.Sound σ d ∧ w + S.cfg.capacity < d.touched

theorem Outrun.unreadable {w : Nat} (hover : S.cfg.overflow = .overwrite) (h : Outrun S w σ)
    (hb : σ.producer.begun ≤ writingSeq) :
    Consumer.classify (σ.memory.cells (.slotSeq (S.cfg.slot w))) w ≠ .ok := by
  obtain ⟨d, hd, hp⟩ := h hb
  refine Consumer.classify_ne_ok fun hw => ?_
  have hst : d.touched ≤ d.stampedCount + 1 := by
    have := d.touched_le
    have := d.count_le_stampedCount
    omega
  have hcap := S.cfg.capacity_pos
  have hr := Pos.resident_of_stampAt_le hover
    ((hd.image.stamps _ (S.cfg.slot_lt w)).symm.trans hw) (by omega) (hd.touched_le_begun.trans hb)
  have := hr.2
  omega

variable [DecidableEq ι]

theorem progress_step {l : Label ι} (hover : S.cfg.overflow = .overwrite)
    (hclient : ∀ s k, S.client c s k = true → follows S.cfg s k = true) (hd : S.Sound σ d)
    (hb : σ.producer.begun ≤ writingSeq) (h : Progress S.cfg S.stream d (σ.consumer c))
    (hs : S.step l σ = some σ') :
    Progress S.cfg S.stream (S.advance l d) (σ'.consumer c) ∧
      Advance S.cfg S.stream (σ.memory.cells .nextPublish) (σ.consumer c) (σ'.consumer c) := by
  have ht : d.touched ≤ writingSeq := hd.touched_le_begun.trans hb
  refine hd.sessions_step (P := fun d b s => b = c → Progress S.cfg S.stream d s ∧
    Advance S.cfg S.stream (σ.memory.cells .nextPublish) (σ.consumer c) s) hs ?_ ?_ ?_ ?_ c rfl
  · rintro b rfl
    exact ⟨h, .stay rfl rfl⟩
  · intro b s hbs hbc
    exact ⟨(hbs hbc).1.succ, (hbs hbc).2⟩
  · rintro b k s hcl hcall rfl
    obtain ⟨hk, rfl⟩ := Session.call_eq_some.mp hcall
    exact h.enter hd.image ht hk (hclient _ _ hcl)
  · rintro b s - hmoves rfl
    exact h.moves hover hd.image ht hmoves

theorem tracking_step {l : Label ι} (hover : S.cfg.overflow = .overwrite) (hm : S.model = .tso)
    (hclient : ∀ s k, S.client c s k = true → follows S.cfg s k = true) (h : Tracking S c σ)
    (hs : S.step l σ = some σ') : Tracking S c σ' := by
  intro hb
  have hb' : σ'.producer.begun < 2 ^ 64 := by unfold writingSeq at hb; omega
  obtain ⟨d, hd, hp⟩ := h ((Setup.begun_le hs).trans hb)
  exact ⟨_, hd.step hm hb' hs,
    (progress_step hover hclient hd ((Setup.begun_le hs).trans hb) hp hs).1⟩

theorem outrun_step {l : Label ι} {w : Nat} (hm : S.model = .tso) (h : Outrun S w σ)
    (hs : S.step l σ = some σ') : Outrun S w σ' := by
  intro hb
  have hb' : σ'.producer.begun < 2 ^ 64 := by unfold writingSeq at hb; omega
  obtain ⟨d, hd, hp⟩ := h ((Setup.begun_le hs).trans hb)
  refine ⟨_, hd.step hm hb' hs, hp.trans_le ?_⟩
  unfold Setup.advance
  split
  · exact d.touched_le_succ
  · exact le_rfl

theorem tracking_of_reachable (hover : S.cfg.overflow = .overwrite) (hm : S.model = .sc)
    (hclient : ∀ s k, S.client c s k = true → follows S.cfg s k = true) (h : S.Reachable σ) :
    Tracking S c σ ∧ Setup.BuffersEmpty σ := by
  obtain ⟨fresh, hr⟩ := h
  obtain ⟨htso, hempty⟩ :=
    Setup.reach_tso hm (fun _ _ _ h => h) (fun _ _ => trivial) (fun _ => rfl) hr
  have hinv : Tracking S.tso c σ :=
    htso.invariant (fun _ => ⟨_, .initial S.tso fresh, .initial⟩) fun l u v hu _ hs =>
      tracking_step hover rfl hclient hu hs
  refine ⟨fun hb => ?_, hempty⟩
  obtain ⟨d, hd, hp⟩ := hinv hb
  exact ⟨d, hd.of_tso, hp⟩

theorem next_le_of_reaches (hover : S.cfg.overflow = .overwrite) (hm : S.model = .sc)
    (hclient : ∀ s k, S.client c s k = true → follows S.cfg s k = true) (h : S.Reachable σ)
    (hr : S.lts.Reaches σ σ') (hb : σ'.producer.begun ≤ writingSeq) :
    (σ.consumer c).obj.next ≤ (σ'.consumer c).obj.next := by
  revert hb
  refine hr.induct (I := fun τ => τ.producer.begun ≤ writingSeq →
    (σ.consumer c).obj.next ≤ (τ.consumer c).obj.next) (fun _ => le_rfl) ?_
  intro l u v hru hle _ hs hb
  have hb' := (Setup.begun_le hs).trans hb
  obtain ⟨fresh, h0⟩ := h
  obtain ⟨d, hd, hp⟩ := (tracking_of_reachable hover hm hclient ⟨fresh, h0.trans hru⟩).1 hb'
  exact (hle hb').trans (progress_step hover hclient hd hb' hp hs).2.next_le

theorem unreadable_of_reaches {w : Nat} (hover : S.cfg.overflow = .overwrite)
    (hm : S.model = .sc) (hempty : Setup.BuffersEmpty σ) (hd : S.Sound σ d)
    (hw : w + S.cfg.capacity < d.touched) (hr : S.lts.Reaches σ σ')
    (hb : σ'.producer.begun ≤ writingSeq) :
    Consumer.classify (σ'.memory.cells (.slotSeq (S.cfg.slot w))) w ≠ .ok := by
  obtain ⟨htso, -⟩ := Setup.reach_tso hm (fun _ _ _ h => h) (fun _ _ => trivial) hempty hr
  have hout : Outrun S.tso w σ' :=
    htso.invariant (fun _ => ⟨d, ⟨hd.wf, hd.image, hd.pending, hd.consumers⟩, hw⟩)
      fun l u v hu _ hs => outrun_step rfl hu hs
  exact Outrun.unreadable (S := S.tso) hover hout hb

theorem resync_progress (hover : S.cfg.overflow = .overwrite) (hm : S.model = .sc)
    (hclient : ∀ s k, S.client c s k = true → follows S.cfg s k = true) (h : S.Reachable σ)
    (hcount : σ.producer.begun ≤ 2 ^ 64 - 2) :
    (InOrder S.cfg S.stream (σ.consumer c) ∧ (σ.consumer c).obj.next ≤ σ.producer.begun) ∧
    (∀ l σ', S.step l σ = some σ' →
      Advance S.cfg S.stream (σ.memory.cells .nextPublish) (σ.consumer c) (σ'.consumer c)) ∧
    (∀ σ', S.lts.Reaches σ σ' → σ'.producer.begun ≤ 2 ^ 64 - 2 →
      (σ.consumer c).obj.next ≤ (σ'.consumer c).obj.next) ∧
    ((σ.consumer c).pc = .idle → (σ.consumer c).lapReported = true →
      (σ.consumer c).obj.next + S.cfg.capacity < (σ.producer.pos S.cfg S.stream).touched ∧
      ∀ σ', S.lts.Reaches σ σ' → σ'.producer.begun ≤ 2 ^ 64 - 2 →
        Consumer.classify
          (σ'.memory.cells (.slotSeq (S.cfg.slot (σ.consumer c).obj.next)))
          (σ.consumer c).obj.next ≠ .ok) := by
  obtain ⟨htrack, hempty⟩ := tracking_of_reachable hover hm hclient h
  obtain ⟨d, hd, hp⟩ := htrack hcount
  have hpos : d = σ.producer.pos S.cfg S.stream := by
    have := hd.pending
    rwa [hempty .producer] at this
  refine ⟨⟨hp.inOrder, hp.next.trans hd.stampedCount_le_begun⟩, fun l σ' hs => ?_,
    fun σ' hr hb => next_le_of_reaches hover hm hclient h hr hb, fun hpc hl => ?_⟩
  · exact (progress_step hover hclient hd hcount hp hs).2
  · have hlt := hp.reports.lapped (by rw [hpc]; rfl) hl
    exact ⟨hpos ▸ hlt, fun σ' hr hb => unreadable_of_reaches hover hm hempty hd hlt hr hb⟩

def lapSetup : Setup (Fin 1) where
  cfg := .lone .overwrite .spin
  stream _ := .empty 64
  client _ s k := follows (.lone .overwrite .spin) s k
  model := .sc
  process _ := ⟨0, 0⟩

def lapRun : List (Label (Fin 1)) :=
  .call 0 .construct :: List.replicate 5 .producer ++
    [.call 0 .read, .consumer 0, .consumer 0, .call 0 .validate, .consumer 0, .call 0 .commit] ++
    List.replicate 15 .producer ++ [.call 0 .read, .consumer 0]

def lappedAt (w n : Nat) (σ : System (Fin 1)) : Bool :=
  (σ.consumer 0).obj.next = w && (σ.consumer 0).pc = .idle && (σ.consumer 0).lapReported &&
    σ.producer = ⟨.idle, n⟩ && σ.memory.cells .nextPublish = n

theorem resync_progress_lapped :
    ∃ σ, lapSetup.Reachable σ ∧ lappedAt 1 4 σ = true ∧
      ∀ σ', lapSetup.lts.Reaches σ σ' → σ'.producer.begun ≤ 2 ^ 64 - 2 →
        Consumer.classify (σ'.memory.cells (.slotSeq 1)) 1 ≠ .ok := by
  obtain ⟨σ, hr, hp⟩ := Lts.exists_of_run (M := lapSetup.lts) (lappedAt 1 4) lapRun
    (lapSetup.initial fun _ => 0) (by decide +kernel)
  refine ⟨σ, ⟨_, hr⟩, hp, ?_⟩
  simp only [lappedAt, Bool.and_eq_true, decide_eq_true_eq] at hp
  obtain ⟨⟨⟨⟨hnext, hpc⟩, hlap⟩, hprod⟩, -⟩ := hp
  have hlaw := resync_progress (S := lapSetup) (c := 0) rfl rfl (fun _ _ hk => hk) ⟨_, hr⟩
    (by rw [hprod]; decide)
  have hlater := (hlaw.2.2.2 hpc hlap).2
  rw [hnext] at hlater
  exact hlater

def told (s : Session) (n : Nat) : Session :=
  { s.noteCall .produced with pc := .idle, produced := some n }

theorem reach_produced (hpc : (σ.consumer c).pc = .idle)
    (hclient : S.client c (σ.consumer c) .produced = true)
    (hb : σ.memory.buffer (.consumer c) = []) :
    S.lts.Reaches σ { σ with
      consumer := update σ.consumer c (told (σ.consumer c) (σ.memory.cells .nextPublish)) } := by
  have hcall : S.lts.step (.call c .produced) σ = some { σ with
      consumer := update σ.consumer c (((σ.consumer c).noteCall .produced).enter S.cfg .produced) } :=
    Setup.step_iff.mpr (.call hclient (Session.call_eq_some.mpr ⟨decide_eq_true hpc, rfl⟩))
  refine (Lts.Reach.single trivial hcall).trans (.single (l := .consumer c) trivial ?_)
  simp [Setup.lts, Setup.step, Session.code, Session.enter, Memory.exec, Memory.read, hb,
    applyStores, told]

theorem resync_wraps : ∃ (S : Setup (Fin 1)) (l : Label (Fin 1)) (σ σ' : System (Fin 1)),
    S.cfg.overflow = .overwrite ∧ S.model = .sc ∧
    (∀ s k, S.client 0 s k = true → follows S.cfg s k = true) ∧ S.Reachable σ ∧
    S.step l σ = some σ' ∧ (σ'.consumer 0).obj.next < (σ.consumer 0).obj.next := by
  obtain ⟨σ, hr, hp⟩ := Lts.exists_of_run (M := lapSetup.lts)
    (fun σ => lappedAt 1 4 σ && σ.memory.parked .producer = none &&
      σ.memory.parked (.consumer 0) = none) lapRun (lapSetup.initial fun _ => 0) (by decide +kernel)
  simp only [lappedAt, Bool.and_eq_true, decide_eq_true_eq] at hp
  obtain ⟨⟨⟨⟨⟨⟨hnext, hpc⟩, hlap⟩, hprod⟩, hcount⟩, hparked⟩, hparked'⟩ := hp
  obtain ⟨-, hempty⟩ := Setup.reach_tso rfl (fun _ _ _ h => h) (fun _ _ => trivial) (fun _ => rfl) hr
  have hquiet : Setup.Quiet σ := by
    refine ⟨hempty _, fun t => ?_⟩
    cases t with
    | producer => exact hparked
    | consumer b => exact (Subsingleton.elim b 0) ▸ hparked'
  obtain ⟨cells, hpub, hcells⟩ := Setup.reach_publishes (S := lapSetup) rfl rfl (2 ^ 64 - 4) hquiet
    (by rw [hprod]) (by rw [hcount]; decide)
  have hzero : cells .nextPublish = 0 := by rw [hcells, hcount]; decide
  set τ := Setup.written σ ⟨.idle, σ.producer.sent + (2 ^ 64 - 4)⟩ cells
  have hask := reach_produced (S := lapSetup) (σ := τ) (c := 0) hpc hlap (hempty _)
  have hresync := Setup.step_iff.mpr (Setup.Step.call (S := lapSetup) (c := 0) (k := .resync 0)
    (σ := { τ with
      consumer := update τ.consumer 0 (told (τ.consumer 0) (τ.memory.cells .nextPublish)) })
    (by simp [lapSetup, follows, told, Session.noteCall]; exact hzero)
    (Session.call_eq_some.mpr ⟨by simp [Session.enabled, told], rfl⟩))
  refine ⟨lapSetup, .call 0 (.resync 0), _, _, rfl, rfl, fun _ _ hk => hk,
    ⟨_, hr.trans (hpub.reaches.trans hask)⟩, hresync, ?_⟩
  dsimp only
  rw [update_self, update_self]
  change 0 < (σ.consumer 0).obj.next
  omega

end Run

end Overwrite

end Shimmy
