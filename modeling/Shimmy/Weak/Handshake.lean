import Shimmy.Concurrency.Weak
import Shimmy.Ring.System
import Shimmy.Segment.Layout

namespace Shimmy

open Concurrency Function

inductive Party (κ : Type) where
  | creator
  | opener (k : κ)
  deriving DecidableEq, Repr

structure Fences where
  init : Bool
  release : Bool
  acquire : Bool
  deriving DecidableEq, Repr

def Fences.source : Fences where
  init := true
  release := true
  acquire := true

inductive Opening where
  | checking (passed : Nat)
  | thrown (what : String)
  | accepted
  deriving DecidableEq, Repr

def Opening.checked (cfg : RingConfig) (size passed : Nat) : Opening :=
  if passed < cfg.checks.length then .checking passed
  else if size < cfg.segmentBytes then
    .thrown ("segment file smaller than required (" ++ toString size ++ " < " ++
      toString cfg.segmentBytes ++ ")")
  else .accepted

def Opening.code (cfg : RingConfig) (size : Nat) : Opening → Option (Instr Place Nat Opening)
  | .checking passed => cfg.checks[passed]?.map fun k => .load (.header k.field) fun got =>
      if got = k.want then checked cfg size (passed + 1) else .thrown (k.message got)
  | _ => none

def Opening.access (f : Fences) : Opening → Access
  | .checking 3 => { order := .plain, acquireFence := f.acquire }
  | _ => { order := .plain }

structure Rendezvous (κ : Type) where
  memory : WeakMemory (Party κ) Place Nat
  creator : List Store
  opener : κ → Opening

inductive RendezvousLabel (κ : Type) where
  | creator (time : Nat)
  | opener (k : κ) (time : Nat)
  deriving DecidableEq, Repr

structure Meeting (κ : Type) where
  cfg : RingConfig
  build : κ → RingConfig

namespace Meeting

variable {κ : Type} (M : Meeting κ) (f : Fences)

def initial : Rendezvous κ where
  memory := .start fun _ => 0
  creator := M.cfg.constructRingAndPublishHeader
  opener _ := .checking 0

-- `Ring::init` ends in a release fence of its own; the one before READY follows it directly.
def creatorAccess (rest : List Store) : Access where
  order := .plain
  releaseFence := (f.init || f.release) && rest.length = 1

variable [DecidableEq κ]

def step : RendezvousLabel κ → Rendezvous κ → Option (Rendezvous κ)
  | .creator time, σ =>
      match σ.creator with
      | [] => none
      | w :: ws =>
          (σ.memory.exec (creatorAccess f ws) .creator time (.store w.place w.value ws)).map
            fun r => { σ with creator := r.1, memory := r.2 }
  | .opener k time, σ =>
      ((σ.opener k).code (M.build k) M.cfg.segmentBytes).bind fun i =>
        (σ.memory.exec ((σ.opener k).access f) (.opener k) time i).map fun r =>
          { σ with opener := update σ.opener k r.1, memory := r.2 }

def lts : Lts (RendezvousLabel κ) (Rendezvous κ) := ⟨M.step f⟩

end Meeting

def ready : Store := .header .state SegmentHeader.kStateReady

theorem ready_early {cfg : RingConfig} : ready ∉ (cfg.headerStores.map fun w => Store.header w.1 w.2) ++
    ((cfg.memberInit ++ cfg.initStores).map fun w => Store.ring w.1 w.2) := by
  simp [ready, RingConfig.headerStores, RingConfig.fieldStores, SegmentHeader.fields,
    SegmentHeader.kStateReady, SegmentHeader.kStateInitializing]

theorem ready_last {cfg : RingConfig} {written ws : List Store} {w : Store}
    (h : written ++ w :: ws = cfg.constructRingAndPublishHeader) :
    w = ready ∧ ws = [] ∨ ws ≠ [] ∧ w ≠ ready := by
  rcases List.eq_nil_or_concat ws with rfl | ⟨vs, last, rfl⟩
  · left
    have hlast := congrArg List.getLast? h
    simp only [RingConfig.constructRingAndPublishHeader, List.getLast?_append,
      List.getLast?_singleton, Option.some_or, Option.some.injEq] at hlast
    exact ⟨hlast, rfl⟩
  · right
    refine ⟨by simp, ?_⟩
    rintro rfl
    have hinit := congrArg List.dropLast h
    rw [List.concat_eq_append, ← List.cons_append, ← List.append_assoc, List.dropLast_concat,
      RingConfig.constructRingAndPublishHeader, List.dropLast_concat] at hinit
    refine absurd (hinit ▸ ?_) (@ready_early cfg)
    simp

section Creator

variable {κ : Type} {cfg : RingConfig} {m m' : WeakMemory (Party κ) Place Nat}
  {rest ws written : List Store} {w : Store} {f : Fences}

structure Drawn (cfg : RingConfig) (m : WeakMemory (Party κ) Place Nat) (rest : List Store)
    (written : List Store) : Prop where
  split : written ++ rest = cfg.constructRingAndPublishHeader
  newest : ∀ p, ∀ w ∈ m.history p, w.time ≤ (m.fronts .creator).current p ∧
    ((m.fronts .creator).current p ≤ w.time →
      w.val = (written.foldl SharedObject.apply (.truncated cfg.segmentBytes)).read p)
  values : ∀ p, ∀ w ∈ m.history p, w.val = 0 ∨ ∃ s ∈ written, s.place = p ∧ s.value = w.val
  fenced : rest.length = 1 → (m.fronts .creator).released = (m.fronts .creator).current
  ready : ∀ w ∈ m.history (.header .state), w.val = SegmentHeader.kStateReady →
    rest = [] ∧ ∀ p, p ≠ .header .state → (m.fronts .creator).current p ≤ w.front p

namespace Drawn

theorem start : Drawn cfg (.start (fun _ => 0) : WeakMemory (Party κ) Place Nat)
    cfg.constructRingAndPublishHeader [] where
  split := rfl
  newest p w hw := by
    obtain rfl := List.mem_singleton.mp hw
    exact ⟨le_rfl, fun _ => by cases p <;> rfl⟩
  values p w hw := by
    obtain rfl := List.mem_singleton.mp hw
    exact .inl rfl
  fenced _ := rfl
  ready w hw hval := by
    obtain rfl := List.mem_singleton.mp hw
    cases hval

theorem congr (h : Drawn cfg m rest written) (hh : m'.history = m.history)
    (hf : m'.fronts .creator = m.fronts .creator) : Drawn cfg m' rest written where
  split := h.split
  newest := by
    rw [hh, hf]
    exact h.newest
  values := by
    rw [hh]
    exact h.values
  fenced := by
    rw [hf]
    exact h.fenced
  ready := by
    rw [hh, hf]
    exact h.ready

variable [DecidableEq κ]

theorem build (h : Drawn cfg m (w :: ws) written) (hrelease : (f.init || f.release) = true)
    (hx : m.Effect (Meeting.creatorAccess f ws) .creator (.store w.place w.value ws) rest m') :
    Drawn cfg m' rest (written ++ [w]) := by
  obtain ⟨hrest, time, hfresh, hm⟩ := hx.store rfl
  subst hrest
  have hmem (p : Place) (e : Write Place Nat) : e ∈ m'.history p ↔ p = w.place ∧
      e = ⟨time, w.value, (m.fronts .creator).front .plain w.place time⟩ ∨ e ∈ m.history p := by
    rw [hm]
    exact WeakMemory.mem_history_add
  have hcur : (m'.fronts .creator).current =
      ((m.fronts .creator).write w.place time).current := by
    rw [hm, WeakMemory.fronts_add, Fronts.current_fenceRelease]
  refine ⟨by simpa using h.split, fun p e he => ?_, fun p e he => ?_, fun hlen => ?_,
    fun e he hval => ?_⟩
  · rw [List.foldl_append, List.foldl_cons, List.foldl_nil, SharedObject.read_apply, hcur]
    by_cases hp : p = w.place
    · subst hp
      rw [Fronts.current_write_self hfresh.1, if_pos rfl]
      rcases (hmem _ e).mp he with ⟨-, rfl⟩ | he
      · exact ⟨le_rfl, fun _ => rfl⟩
      · have hle := (h.newest _ e he).1
        have hlt := hfresh.1
        exact ⟨by omega, fun hge => absurd hge (by omega)⟩
    · rw [Fronts.current_write_of_ne _ hp, if_neg hp]
      exact h.newest p e (((hmem p e).mp he).resolve_left fun hw => hp hw.1)
  · rcases (hmem p e).mp he with ⟨rfl, rfl⟩ | he
    · exact .inr ⟨w, by simp, rfl, rfl⟩
    · refine (h.values p e he).imp_right ?_
      rintro ⟨s, hs, hplace⟩
      exact ⟨s, List.mem_append_left _ hs, hplace⟩
  · rw [hm, WeakMemory.fronts_add]
    simp [Meeting.creatorAccess, hrelease, hlen, Fronts.fenceRelease]
  · rcases (hmem _ e).mp he with ⟨hplace, rfl⟩ | he
    · rcases ready_last h.split with ⟨rfl, rfl⟩ | ⟨hmore, hne⟩
      · refine ⟨rfl, fun p hp => ?_⟩
        have hp' : p ≠ Shimmy.ready.place := hp
        rw [hcur, Fronts.current_write_of_ne _ hp', ← h.fenced rfl]
        exact le_sup_left (a := (m.fronts .creator).released) p
      · refine absurd ?_ hne
        cases w with
        | header g v =>
          cases hplace
          cases hval
          rfl
        | ring a v => cases hplace
    · cases (h.ready e he hval).1

end Drawn

end Creator

inductive Blamed (cfg cfg' : RingConfig) (what : String) : Prop
  | unfinished (k : Check) (hk : k ∈ cfg'.checks.take 3) (h : what = k.message 0)
  | mismatch (k : Check) (hk : k ∈ cfg'.checks) (hfail : ¬ k.Passes cfg.recorded)
      (h : what = k.message (cfg.recorded k.field))

theorem RingConfig.store_values {cfg : RingConfig} {s : Store} {f : Field}
    (h : s ∈ cfg.constructRingAndPublishHeader) (hp : s.place = .header f) :
    s.value = 0 ∨ s.value = cfg.recorded f := by
  simp only [constructRingAndPublishHeader, List.mem_append, List.mem_map, List.mem_singleton,
    Prod.exists] at h
  rcases h with (⟨g, v, hg, rfl⟩ | ⟨a, v, -, rfl⟩) | rfl
  · cases hp
    rcases List.mem_append.mp hg with hg | hg
    · obtain ⟨g, -, hg⟩ := List.mem_map.mp hg
      cases hg
      exact .inl rfl
    · simp only [fieldStores, List.mem_cons, Prod.mk.injEq, List.not_mem_nil, or_false] at hg
      rcases hg with ⟨rfl, rfl⟩ | ⟨rfl, rfl⟩ | ⟨rfl, rfl⟩ | ⟨rfl, rfl⟩ | ⟨rfl, rfl⟩ | ⟨rfl, rfl⟩ |
        ⟨rfl, rfl⟩ | ⟨rfl, rfl⟩ | ⟨rfl, rfl⟩ | ⟨rfl, rfl⟩ | ⟨rfl, rfl⟩ <;>
          first | exact .inr rfl | exact .inl rfl
  · cases hp
  · cases hp
    exact .inr rfl

theorem RingConfig.checks_early {cfg cfg' : RingConfig} {passed : Nat} {k : Check}
    (h : cfg'.checks[passed]? = some k) (hp : passed < 3) :
    k ∈ cfg'.checks.take 3 ∧ k.want = cfg.recorded k.field := by
  have hmem : k ∈ cfg'.checks.take 3 := by
    rw [List.mem_iff_getElem?]
    exact ⟨passed, by rw [List.getElem?_take_of_lt hp]; exact h⟩
  refine ⟨hmem, ?_⟩
  simp only [checks, List.take_succ_cons, List.take_zero, List.mem_cons, List.not_mem_nil,
    or_false] at hmem
  rcases hmem with rfl | rfl | rfl <;> rfl

theorem RingConfig.checks_late {cfg' : RingConfig} {passed : Nat} {k : Check}
    (h : cfg'.checks[passed]? = some k) (hp : 3 ≤ passed) : k.field ≠ .state := by
  obtain ⟨i, rfl⟩ := Nat.exists_eq_add_of_le hp
  have hmem : k ∈ cfg'.checks.drop 3 := by
    rw [List.mem_iff_getElem?]
    exact ⟨i, by rw [List.getElem?_drop]; exact h⟩
  simp only [RingConfig.checks, List.drop_succ_cons, List.drop_zero, List.mem_cons,
    List.not_mem_nil, or_false] at hmem
  rcases hmem with rfl | rfl | rfl | rfl | rfl | rfl | rfl | rfl <;> simp [checkEq]

section Opener

variable {κ : Type} {cfg cfg' : RingConfig} {m m' : WeakMemory (Party κ) Place Nat}
  {rest written : List Store} {v v' : Fronts Place} {f : Fences} {passed : Nat} {c : Check}
  {w : Write Place Nat}

structure Caught (m : WeakMemory (Party κ) Place Nat) (rest : List Store)
    (front : Frontier Place) : Prop where
  finished : rest = []
  front : ∀ p, p ≠ .header .state → (m.fronts .creator).current p ≤ front p

theorem Caught.mono {front front' : Frontier Place} (h : Caught m rest front)
    (hle : front ≤ front') (hm : m'.fronts .creator = m.fronts .creator) :
    Caught m' rest front' :=
  ⟨h.finished, fun p hp => by
    rw [hm]
    exact (h.front p hp).trans (hle p)⟩

theorem Caught.header (h : Caught m rest v.current) (hd : Drawn cfg m rest written) {g : Field}
    (hw : w ∈ m.history (.header g)) (hg : g ≠ .state) (ht : v.current (.header g) ≤ w.time) :
    w.val = cfg.recorded g := by
  have hdone : written = cfg.constructRingAndPublishHeader := by
    have := hd.split
    rwa [h.finished, List.append_nil] at this
  rw [(hd.newest _ w hw).2 ((h.front _ (by simpa using hg)).trans ht), hdone]
  exact congrFun (SharedObject.create_header cfg) g

theorem Caught.ring (h : Caught m rest v.current) (hd : Drawn cfg m rest written) {a : Loc}
    (ha : a.Within cfg) (hw : w ∈ m.history (.ring a)) (ht : v.current (.ring a) ≤ w.time) :
    w.val = Ring.init (fun _ => 0) a := by
  have hdone : written = cfg.constructRingAndPublishHeader := by
    have := hd.split
    rwa [h.finished, List.append_nil] at this
  rw [(hd.newest _ w hw).2 ((h.front _ (by simp)).trans ht), hdone]
  exact SharedObject.create_cells ha

def Opening.Sees (cfg cfg' : RingConfig) (m : WeakMemory (Party κ) Place Nat)
    (rest : List Store) (v : Fronts Place) : Opening → Prop
  | .checking passed => (∀ i < passed, ∀ c, cfg'.checks[i]? = some c → c.Passes cfg.recorded) ∧
      (3 ≤ passed → Caught m rest v.acquired) ∧ (4 ≤ passed → Caught m rest v.current)
  | .thrown what => Blamed cfg cfg' what
  | .accepted => Compatible cfg cfg' ∧ Caught m rest v.current

theorem Opening.Sees.mono {s : Opening} (h : s.Sees cfg cfg' m rest v) (hg : v.Grows v')
    (hm : m'.fronts .creator = m.fronts .creator) : s.Sees cfg cfg' m' rest v' := by
  cases s with
  | checking passed =>
    exact ⟨h.1, fun hp => (h.2.1 hp).mono hg.acquired hm, fun hp => (h.2.2 hp).mono hg.current hm⟩
  | thrown what => exact h
  | accepted => exact ⟨h.1, h.2.mono hg.current hm⟩

theorem Opening.Sees.checked (hc : cfg'.checks[passed]? = some c) (hpass : c.Passes cfg.recorded)
    (h : (Opening.checking passed).Sees cfg cfg' m rest v)
    (hacq : 3 ≤ passed + 1 → Caught m rest v.acquired)
    (hcur : 4 ≤ passed + 1 → Caught m rest v.current) :
    (Opening.checked cfg' cfg.segmentBytes (passed + 1)).Sees cfg cfg' m rest v := by
  have hall (i : Nat) (hi : i < passed + 1) (c' : Check) (hc' : cfg'.checks[i]? = some c') :
      c'.Passes cfg.recorded := by
    rcases Nat.lt_succ_iff_lt_or_eq.mp hi with hi | rfl
    · exact h.1 i hi c' hc'
    · obtain rfl : c = c' := by simpa [hc] using hc'
      exact hpass
  unfold Opening.checked
  split
  · exact ⟨hall, hacq, hcur⟩
  · rename_i hlen
    have hlong : 4 ≤ passed + 1 := by
      have : cfg'.checks.length = 11 := rfl
      omega
    have hcompat : Compatible cfg cfg' := by
      refine RingConfig.compatible_iff.mpr fun c' hc' => ?_
      obtain ⟨i, hi⟩ := List.mem_iff_getElem?.mp hc'
      have hlt := (List.getElem?_eq_some_iff.mp hi).1
      exact hall i (by omega) c' hi
    have hfits : ¬ cfg.segmentBytes < cfg'.segmentBytes := by
      obtain ⟨hb, hcap, -, hmax⟩ := hcompat
      simp [RingConfig.segmentBytes, RingConfig.sizeof, hb, hcap, hmax]
    rw [if_neg hfits]
    exact ⟨hcompat, hcur hlong⟩

variable [DecidableEq κ]

theorem Opening.Sees.check {t : Party κ} {s : Opening} {next : Nat → Opening}
    (h : (Opening.checking passed).Sees cfg cfg' m rest (m.fronts t)) (ht : t ≠ .creator)
    (hd : Drawn cfg m rest written) (hacquire : f.acquire = true)
    (hc : cfg'.checks[passed]? = some c)
    (hnext : next = fun got => if got = c.want then
      Opening.checked cfg' cfg.segmentBytes (passed + 1) else .thrown (c.message got))
    (hx : m.Effect ((Opening.checking passed).access f) t (.load (.header c.field) next) s m') :
    s.Sees cfg cfg' m' rest (m'.fronts t) := by
  have hcreator := hx.fronts_of_ne ht.symm
  have hmono := h.mono hx.grows hcreator
  obtain ⟨w, hw, hseen, rfl, hm⟩ := hx.load
  subst hnext
  dsimp only
  by_cases hp : passed < 3
  · obtain ⟨htake, hwant⟩ := RingConfig.checks_early hc hp
    split
    · rename_i hgot
      refine hmono.checked hc hwant.symm (fun hlen => ?_) (by omega)
      obtain rfl : passed = 2 := by omega
      obtain rfl : checkState = c := Option.some.inj hc
      obtain ⟨hdone, hfront⟩ := hd.ready w hw hgot
      refine ⟨hdone, fun p hne => ?_⟩
      rw [hcreator, hm, WeakMemory.fronts_look, Fronts.acquired_fenceRelease]
      exact (hfront p hne).trans (Fronts.front_le_acquired _ w p)
    · rename_i hgot
      refine .unfinished c htake ?_
      have hzero : w.val = 0 := by
        rcases hd.values _ w hw with hval | ⟨s, hs, hplace, hval⟩
        · exact hval
        · have hmem := hd.split ▸ List.mem_append_left rest hs
          rcases RingConfig.store_values hmem hplace with hs | hs
          · exact hval.symm.trans hs
          · exact absurd (hval.symm.trans (hs.trans hwant.symm)) hgot
      rw [hzero]
  · have hentered : Caught m rest
        (m.entering ((Opening.checking passed).access f) t).current := by
      rcases eq_or_ne passed 3 with rfl | hthree
      · refine (h.2.1 le_rfl).mono ?_ rfl
        rw [WeakMemory.entering, Opening.access, hacquire]
        exact Fronts.acquired_le_current
      · exact (h.2.2 (by omega)).mono (Fronts.grows_fenceAcquire _).current rfl
    have hval := hentered.header hd hw (RingConfig.checks_late hc (by omega)) hseen
    have hlater : (m.entering ((Opening.checking passed).access f) t).current ≤
        (m'.fronts t).current := by
      rw [hm, WeakMemory.fronts_look, Fronts.current_fenceRelease]
      exact (Fronts.grows_read _ w).current
    rw [hval]
    split
    · rename_i hgot
      exact hmono.checked hc hgot (fun _ => hmono.2.1 (by omega))
        fun _ => hentered.mono hlater hcreator
    · rename_i hgot
      exact .mismatch c (List.mem_of_getElem? hc) hgot rfl

end Opener

theorem Opening.Sees.build {κ : Type} {cfg cfg' : RingConfig}
    {m m' : WeakMemory (Party κ) Place Nat} {ws rest : List Store} {w : Store} {v : Fronts Place}
    {s : Opening} (h : s.Sees cfg cfg' m (w :: ws) v) : s.Sees cfg cfg' m' rest v := by
  cases s with
  | checking passed =>
    exact ⟨h.1, fun hp => absurd (h.2.1 hp).finished (by simp),
      fun hp => absurd (h.2.2 hp).finished (by simp)⟩
  | thrown what => exact h
  | accepted => cases h.2.finished

structure Received (cfg cfg' : RingConfig) (front : Frontier Place)
    (history : Place → List (Write Place Nat)) (s : Opening) : Prop where
  accepted : s = .accepted → Compatible cfg cfg' ∧ ∀ a, a.Within cfg →
    ∀ w ∈ history (.ring a), front (.ring a) ≤ w.time → w.val = Ring.init (fun _ => 0) a
  thrown : ∀ what, s = .thrown what → Blamed cfg cfg' what

namespace Meeting

variable {κ : Type} {M : Meeting κ} {f : Fences} {l : RendezvousLabel κ} {σ σ' : Rendezvous κ}

def Invariant (M : Meeting κ) (σ : Rendezvous κ) : Prop :=
  (∃ written, Drawn M.cfg σ.memory σ.creator written) ∧
    ∀ k, (σ.opener k).Sees M.cfg (M.build k) σ.memory σ.creator (σ.memory.fronts (.opener k))

theorem Invariant.received (h : M.Invariant σ) (k : κ) : Received M.cfg (M.build k)
    (σ.memory.fronts (.opener k)).current σ.memory.history (σ.opener k) := by
  obtain ⟨⟨written, hd⟩, hsees⟩ := h
  have hk := hsees k
  refine ⟨fun hs => ?_, fun what hs => ?_⟩
  · rw [hs] at hk
    exact ⟨hk.1, fun a ha w hw ht => hk.2.ring hd ha hw ht⟩
  · rw [hs] at hk
    exact hk

theorem invariant_initial : M.Invariant M.initial :=
  ⟨⟨[], .start⟩, fun _ => ⟨fun i hi => absurd hi i.not_lt_zero, fun hp => absurd hp (by decide),
    fun hp => absurd hp (by decide)⟩⟩

variable [DecidableEq κ]

theorem invariant_step (hrelease : (f.init || f.release) = true) (hacquire : f.acquire = true)
    (h : M.Invariant σ) (hs : M.step f l σ = some σ') : M.Invariant σ' := by
  obtain ⟨m, creator, opener⟩ := σ
  obtain ⟨⟨written, hd⟩, hsees⟩ := h
  dsimp only at hd hsees
  cases l with
  | creator time =>
    cases creator with
    | nil => cases hs
    | cons w ws =>
      obtain ⟨⟨rest, m'⟩, hx, rfl⟩ := Option.map_eq_some_iff.mp hs
      have heffect := WeakMemory.exec_effect hx
      refine ⟨⟨_, hd.build hrelease heffect⟩, fun k => ?_⟩
      dsimp only
      rw [heffect.fronts_of_ne (by simp)]
      exact (hsees k).build
  | opener k time =>
    obtain ⟨i, hi, hs⟩ := Option.bind_eq_some_iff.mp hs
    obtain ⟨⟨s, m'⟩, hx, rfl⟩ := Option.map_eq_some_iff.mp hs
    have heffect := WeakMemory.exec_effect hx
    dsimp only at hi hx heffect
    have hk := hsees k
    cases hopener : opener k with
    | thrown what => rw [hopener] at hi; cases hi
    | accepted => rw [hopener] at hi; cases hi
    | checking passed =>
      rw [hopener] at hi hk heffect
      obtain ⟨c, hc, rfl⟩ := Option.map_eq_some_iff.mp hi
      have hhistory : m'.history = m.history := by
        funext p
        exact heffect.history_of_ne (by simp [Instr.writes])
      refine ⟨⟨written, hd.congr hhistory (heffect.fronts_of_ne (by simp))⟩, fun b => ?_⟩
      rcases eq_or_ne b k with rfl | hb
      · dsimp only
        rw [update_self]
        exact hk.check (by simp) hd hacquire hc rfl heffect
      · dsimp only
        rw [update_of_ne hb, heffect.fronts_of_ne (by simpa using hb)]
        exact (hsees b).mono .refl (heffect.fronts_of_ne (by simp))

def pair : Meeting (Fin 1) where
  cfg := .lone .overwrite .spin
  build _ := .lone .overwrite .spin

def hastyRun : List (RendezvousLabel (Fin 1)) :=
  ((List.range 38).map fun i => .creator (i + 1)) ++
    [13, 14, 38, 16, 17, 18, 19, 20, 21, 22, 15].map fun time => .opener 0 time

def acceptedAt (time : Nat) (σ : Rendezvous (Fin 1)) : Bool :=
  σ.opener 0 = .accepted &&
    (σ.memory.fronts (.opener 0)).current (.ring (.slotSeq 0)) = time &&
    ((σ.memory.history (.ring (.slotSeq 0))).any fun w => w.time = 0 && w.val = 0)

end Meeting

def HandshakeSound (f : Fences) : Prop :=
  ∀ (κ : Type) [DecidableEq κ] (M : Meeting κ) (σ : Rendezvous κ),
    (M.lts f).Reaches M.initial σ → ∀ k, Received M.cfg (M.build k)
      (σ.memory.fronts (.opener k)).current σ.memory.history (σ.opener k)

theorem not_handshakeSound {f : Fences}
    (h : ((Meeting.pair.lts f).run Meeting.hastyRun Meeting.pair.initial).any
      (Meeting.acceptedAt 0) = true) : ¬ HandshakeSound f := by
  intro hsound
  obtain ⟨σ, hr, hp⟩ := Lts.exists_of_run (M := Meeting.pair.lts f) _ Meeting.hastyRun _ h
  simp only [Meeting.acceptedAt, Bool.and_eq_true, decide_eq_true_eq, List.any_eq_true] at hp
  obtain ⟨⟨haccepted, hfront⟩, w, hw, htime, hval⟩ := hp
  have hring := ((hsound (Fin 1) Meeting.pair σ hr 0).accepted haccepted).2 (.slotSeq 0)
    (show 0 < 2 by decide) w hw (by rw [hfront]; exact Nat.zero_le _)
  rw [hval] at hring
  cases hring

theorem handshakeSound_of_fences {f : Fences} (hrelease : (f.init || f.release) = true)
    (hacquire : f.acquire = true) : HandshakeSound f := by
  intro κ _ M σ hr k
  have hinv : M.Invariant σ := hr.invariant Meeting.invariant_initial fun _ _ _ hu _ hs =>
    Meeting.invariant_step hrelease hacquire hu hs
  exact hinv.received k

example : HandshakeSound .source := handshakeSound_of_fences rfl rfl

theorem handshakeSound_iff (f : Fences) :
    HandshakeSound f ↔ (f.init = true ∨ f.release = true) ∧ f.acquire = true := by
  constructor
  · intro h
    obtain ⟨init, release, acquire⟩ := f
    cases acquire with
    | false =>
      refine absurd h (not_handshakeSound ?_)
      cases init <;> cases release <;> decide +kernel
    | true =>
      refine ⟨?_, rfl⟩
      cases init with
      | true => exact .inl rfl
      | false =>
        cases release with
        | true => exact .inr rfl
        | false => exact absurd h (not_handshakeSound (by decide +kernel))
  · rintro ⟨hfence, hacquire⟩
    exact handshakeSound_of_fences (Bool.or_eq_true_iff.mpr hfence) hacquire

end Shimmy
