import Shimmy.Segment.Begun

namespace Shimmy

open Concurrency Function

def World.Entitles {H P : Type} (w : World H P) (n : Nat) : Prop :=
  ∃ c, w.calls[n]? = some c ∧ c.mayUnlink = true

structure Entitled {H P : Type} (w : World H P) : Prop where
  owner : ∀ h seg, w.handle h = some seg → seg.ownsName = true →
    w.origin h ∉ w.charged ∧ w.Entitles (w.origin h)
  sole : ∀ h h' seg seg', w.handle h = some seg → seg.ownsName = true →
    w.handle h' = some seg' → seg'.ownsName = true → w.origin h = w.origin h' → h = h'
  once : w.charged.Nodup
  entitled : ∀ n ∈ w.charged, w.Entitles n
  counted : w.charged.length = w.kernel.unlinkCalls.length
  rigged : ∀ h seg, w.handle h = some seg → seg.valid = true → seg.map.isSome = true

namespace Kernel

variable {P : Type} {k k' : Kernel P} {names : List String}

theorem charge_append (h : k'.unlinkCalls = k.unlinkCalls ++ names) (call : Nat) :
    k.charge call k' = List.replicate names.length call := by
  rw [charge, h, List.length_append, Nat.add_sub_cancel_left]

end Kernel

namespace Entitled

variable {H P : Type} {w : World H P} {h t : H} {seg other : SegmentHandle}

theorem lt_length {n : Nat} (hn : w.Entitles n) : n < w.calls.length := by
  obtain ⟨c, hc, -⟩ := hn
  exact (List.getElem?_eq_some_iff.mp hc).1

theorem start (names : String → Option Nat) (objects : Nat → SharedObject) (modes : Nat → Nat)
    (created : Nat) : Entitled (.start names objects modes created : World H P) where
  owner _ _ hh := by cases hh
  sole _ _ _ _ hh := by cases hh
  once := .nil
  entitled _ hn := by cases hn
  counted := rfl
  rigged _ _ hh := by cases hh

variable [DecidableEq H]

theorem seat (he : Entitled w) (howns : seg.ownsName = false)
    (hvalid : seg.valid = true → seg.map.isSome = true) :
    Entitled { w with handle := update w.handle h (some seg) } := by
  have hold (h' : H) (seg' : SegmentHandle) (hh : update w.handle h (some seg) h' = some seg')
      (ho : seg'.ownsName = true) : w.handle h' = some seg' := by
    rcases eq_or_ne h' h with rfl | heq
    · rw [update_self] at hh
      cases hh
      rw [howns] at ho
      cases ho
    · rwa [update_of_ne heq] at hh
  refine ⟨fun h' seg' hh ho => he.owner h' seg' (hold h' seg' hh ho) ho,
    fun h₁ h₂ seg₁ seg₂ hh₁ ho₁ hh₂ ho₂ => he.sole h₁ h₂ seg₁ seg₂ (hold h₁ seg₁ hh₁ ho₁) ho₁
      (hold h₂ seg₂ hh₂ ho₂) ho₂, he.once, he.entitled, he.counted, fun h' seg' hh hv => ?_⟩
  rcases eq_or_ne h' h with rfl | heq
  · have hseg : seg = seg' := by simpa using hh
    subst hseg
    exact hvalid hv
  · exact he.rigged h' seg' (by simpa [heq] using hh) hv

theorem charge_reset [DecidableEq P] (seg : SegmentHandle) (k : Kernel P) (ans : Answers) (p : P)
    (call : Nat) : k.charge call ((Frame.mk seg k).reset ans p).kernel =
      if (Frame.mk seg k).unlinks then [call] else [] := by
  rw [Kernel.charge_append (Frame.reset_unlinkCalls ans p ⟨seg, k⟩)]
  split <;> rfl

theorem torn [DecidableEq P] {F : Fleet H P} (he : Entitled w) (hh : w.handle h = some seg)
    (ans : Answers) : Entitled (F.torn h seg ans w).2 := by
  have hcharge := charge_reset seg w.kernel ans (F.home h) (w.origin h)
  have hcalls := Frame.reset_unlinkCalls ans (F.home h) ⟨seg, w.kernel⟩
  have howner : (Frame.mk seg w.kernel).unlinks = true → seg.ownsName = true := fun hu =>
    ((Bool.and_eq_true _ _).mp hu).1
  simp only [Fleet.torn, hcharge]
  have hold (h' : H) (seg' : SegmentHandle) (hh' : update w.handle h none h' = some seg') :
      h' ≠ h ∧ w.handle h' = some seg' := by
    rcases eq_or_ne h' h with rfl | heq
    · rw [update_self] at hh'
      cases hh'
    · exact ⟨heq, by rwa [update_of_ne heq] at hh'⟩
  refine ⟨fun h' seg' hh' ho => ?_, fun h₁ h₂ seg₁ seg₂ hh₁ ho₁ hh₂ ho₂ => ?_, ?_, fun n hn => ?_,
    ?_, fun h' seg' hh' => he.rigged h' seg' (hold h' seg' hh').2⟩
  · obtain ⟨hne, hh'⟩ := hold h' seg' hh'
    obtain ⟨hfresh, hcall⟩ := he.owner h' seg' hh' ho
    refine ⟨?_, hcall⟩
    split
    · rw [List.mem_append, List.mem_singleton, not_or]
      exact ⟨hfresh, fun heq => hne (he.sole h' h seg' seg hh' ho hh (howner ‹_›) heq)⟩
    · rwa [List.append_nil]
  · exact he.sole h₁ h₂ seg₁ seg₂ (hold h₁ seg₁ hh₁).2 ho₁ (hold h₂ seg₂ hh₂).2 ho₂
  · split
    · exact List.nodup_append.mpr ⟨he.once, by simp, fun a ha b hb heq =>
        (he.owner h seg hh (howner ‹_›)).1 (List.mem_singleton.mp hb ▸ heq ▸ ha)⟩
    · rw [List.append_nil]
      exact he.once
  · split at hn
    · rcases List.mem_append.mp hn with hn | hn
      · exact he.entitled n hn
      · rw [List.mem_singleton.mp hn]
        exact (he.owner h seg hh (howner ‹_›)).2
    · rw [List.append_nil] at hn
      exact he.entitled n hn
  · rw [hcalls, List.length_append, List.length_append, he.counted]
    split <;> rfl

theorem moved (he : Entitled w) (hh : w.handle h = none) (ht : w.handle t = some other)
    (hne : h ≠ t) (howns : seg.ownsName = false)
    (hvalid : seg.valid = true → seg.map.isSome = true) :
    Entitled (Fleet.moved h t seg other w) := by
  have hsource (h' : H) (seg' : SegmentHandle)
      (hh' : update (update w.handle h (some other)) t (some seg) h' = some seg') :
      h' = t ∧ seg' = seg ∨ ∃ h'', w.handle h'' = some seg' ∧
        update w.origin h (w.origin t) h' = w.origin h'' ∧
        (h' = h ∧ h'' = t ∨ h' ≠ t ∧ h'' = h') := by
    rcases eq_or_ne h' t with rfl | heqt
    · rw [update_self] at hh'
      exact .inl ⟨rfl, by simpa using hh'.symm⟩
    · rw [update_of_ne heqt] at hh'
      rcases eq_or_ne h' h with rfl | heqh
      · rw [update_self] at hh'
        exact .inr ⟨t, ht.trans hh', update_self .., .inl ⟨rfl, rfl⟩⟩
      · rw [update_of_ne heqh] at hh'
        exact .inr ⟨h', hh', update_of_ne heqh .., .inr ⟨heqt, rfl⟩⟩
  have howner (h' : H) (seg' : SegmentHandle)
      (hh' : update (update w.handle h (some other)) t (some seg) h' = some seg')
      (ho : seg'.ownsName = true) : ∃ h'', w.handle h'' = some seg' ∧
        update w.origin h (w.origin t) h' = w.origin h'' ∧
        (h' = h ∧ h'' = t ∨ h' ≠ t ∧ h'' = h') := by
    rcases hsource h' seg' hh' with ⟨-, rfl⟩ | hsource
    · rw [howns] at ho
      cases ho
    · exact hsource
  refine ⟨fun h' seg' hh' ho => ?_, fun h₁ h₂ seg₁ seg₂ hh₁ ho₁ hh₂ ho₂ heq => ?_, he.once,
    he.entitled, he.counted, fun h' seg' hh' hv => ?_⟩
  · obtain ⟨h'', hh'', horigin, -⟩ := howner h' seg' hh' ho
    simp only [Fleet.moved, horigin]
    exact he.owner h'' seg' hh'' ho
  · obtain ⟨h₁', hh₁', horigin₁, hcase₁⟩ := howner h₁ seg₁ hh₁ ho₁
    obtain ⟨h₂', hh₂', horigin₂, hcase₂⟩ := howner h₂ seg₂ hh₂ ho₂
    simp only [Fleet.moved, horigin₁, horigin₂] at heq
    have hsame := he.sole h₁' h₂' seg₁ seg₂ hh₁' ho₁ hh₂' ho₂ heq
    rcases hcase₁ with ⟨rfl, rfl⟩ | ⟨hne₁, rfl⟩
    · rcases hcase₂ with ⟨rfl, -⟩ | ⟨hne₂, rfl⟩
      · rfl
      · exact absurd hsame.symm hne₂
    · rcases hcase₂ with ⟨rfl, rfl⟩ | ⟨-, rfl⟩
      · exact absurd hsame hne₁
      · exact hsame
  · rcases hsource h' seg' hh' with ⟨-, rfl⟩ | ⟨h'', hh'', -⟩
    · exact hvalid hv
    · exact he.rigged h'' seg' hh'' hv

theorem issue (he : Entitled w) (hh : w.handle h = none) (names : List String)
    {s : Option SegmentHandle} {k : Kernel P} {c : FactoryCall}
    (hcalls : k.unlinkCalls = w.kernel.unlinkCalls ++ names) (hlen : names.length ≤ 1)
    (hnames : names ≠ [] → s = none ∧ c.mayUnlink = true)
    (howns : ∀ seg, s = some seg → seg.ownsName = true → c.mayUnlink = true)
    (hvalid : ∀ seg, s = some seg → seg.valid = true → seg.map.isSome = true) :
    Entitled { w with
      kernel := k
      handle := update w.handle h s
      origin := update w.origin h w.calls.length
      calls := w.calls ++ [c]
      charged := w.charged ++ w.kernel.charge w.calls.length k } := by
  have hnew : c.mayUnlink = true → (World.mk k (update w.handle h s)
      (update w.origin h w.calls.length) (w.calls ++ [c])
      (w.charged ++ w.kernel.charge w.calls.length k)).Entitles w.calls.length := fun hc =>
    ⟨c, by simp, hc⟩
  have hkept (n : Nat) (hn : w.Entitles n) : (World.mk k (update w.handle h s)
      (update w.origin h w.calls.length) (w.calls ++ [c])
      (w.charged ++ w.kernel.charge w.calls.length k)).Entitles n := by
    obtain ⟨c', hc, hmay⟩ := hn
    exact ⟨c', List.getElem?_append_left (lt_length ⟨c', hc, hmay⟩) ▸ hc, hmay⟩
  have hfresh : w.calls.length ∉ w.charged := fun hn =>
    (lt_length (he.entitled _ hn)).false
  have hcharge : w.kernel.charge w.calls.length k = [] ∨
      w.kernel.charge w.calls.length k = [w.calls.length] ∧ s = none ∧ c.mayUnlink = true := by
    rw [Kernel.charge_append hcalls]
    match names, hlen, hnames with
    | [], _, _ => exact .inl rfl
    | [name], _, hnames => exact .inr ⟨rfl, hnames (by simp)⟩
    | _ :: _ :: _, hlen, _ => simp at hlen
  have hcount : (w.charged ++ w.kernel.charge w.calls.length k).length =
      k.unlinkCalls.length := by
    rw [List.length_append, Kernel.charge_append hcalls, List.length_replicate, he.counted, hcalls,
      List.length_append]
  refine ⟨fun h' seg' hh' ho => ?_, fun h₁ h₂ seg₁ seg₂ hh₁ ho₁ hh₂ ho₂ heq => ?_, ?_,
    fun n hn => ?_, hcount, fun h' seg' hh' hv => ?_⟩
  · rcases eq_or_ne h' h with rfl | heq
    · simp only [update_self] at hh' ⊢
      refine ⟨?_, hnew (howns seg' hh' ho)⟩
      rcases hcharge with hnone | ⟨-, hs, -⟩
      · rwa [hnone, List.append_nil]
      · rw [hs] at hh'
        cases hh'
    · simp only [update_of_ne heq] at hh' ⊢
      obtain ⟨hout, hcall⟩ := he.owner h' seg' hh' ho
      refine ⟨?_, hkept _ hcall⟩
      rcases hcharge with hnone | ⟨hone, -⟩
      · rwa [hnone, List.append_nil]
      · rw [hone, List.mem_append, List.mem_singleton, not_or]
        exact ⟨hout, (lt_length hcall).ne⟩
  · by_cases heq₁ : h₁ = h
    · by_cases heq₂ : h₂ = h
      · rw [heq₁, heq₂]
      · subst heq₁
        simp only [update_self, update_of_ne heq₂] at hh₂ heq
        exact absurd heq.symm (lt_length (he.owner h₂ seg₂ hh₂ ho₂).2).ne
    · rcases eq_or_ne h₂ h with rfl | heq₂
      · simp only [update_self, update_of_ne heq₁] at hh₁ heq
        exact absurd heq (lt_length (he.owner h₁ seg₁ hh₁ ho₁).2).ne
      · simp only [update_of_ne heq₁, update_of_ne heq₂] at hh₁ hh₂ heq
        exact he.sole h₁ h₂ seg₁ seg₂ hh₁ ho₁ hh₂ ho₂ heq
  · rcases hcharge with hnone | ⟨hone, -⟩
    · simpa [hnone] using he.once
    · simp only [hone]
      exact List.nodup_append.mpr ⟨he.once, by simp, fun a ha b hb heq =>
        hfresh (List.mem_singleton.mp hb ▸ heq ▸ ha)⟩
  · rcases List.mem_append.mp hn with hn | hn
    · exact hkept n (he.entitled n hn)
    · rcases hcharge with hnone | ⟨hone, -, hc⟩
      · rw [hnone] at hn
        cases hn
      · rw [hone, List.mem_singleton] at hn
        exact hn ▸ hnew hc
  · rcases eq_or_ne h' h with rfl | heq
    · exact hvalid seg' (by simpa using hh') hv
    · exact he.rigged h' seg' (by simpa [heq] using hh') hv

theorem made [DecidableEq P] {F : Fleet H P} {factory : Factory} {ans : Answers}
    (he : Entitled w) (hh : w.handle h = none)
    (hl : factory.lawful ans (F.home h) w.kernel = true) :
    Entitled (F.made h factory ans w) := by
  obtain ⟨f, hb, hended⟩ := Begun.call_ended hl (F.ring h)
  unfold Fleet.made
  revert hended
  generalize factory.call ans (F.home h) (F.ring h) w.kernel = result
  intro hended
  cases hended with
  | returned hm =>
    refine he.issue hh [] (by simp [hb.unlinkCalls]) (by simp)
      (fun hne => absurd rfl hne) (fun seg hs ho => ?_) (fun seg hs _ => ?_)
    · cases hs
      exact hb.owns.symm.trans ho
    · cases hs
      exact hm
  | unwound thrown hhuge =>
    refine he.issue hh (if f.unlinks then [f.seg.name] else []) ?_ ?_ (fun hne => ?_)
      (fun seg hs => by cases hs) (fun seg hs => by cases hs)
    · simp [Frame.reset_unlinkCalls, hb.unlinkCalls]
    · split <;> simp
    · by_cases hu : f.unlinks = true
      · have howns := ((Bool.and_eq_true _ _).mp hu).1
        rw [hb.owns, hhuge] at howns
        exact ⟨rfl, howns⟩
      · rw [if_neg hu] at hne
        exact absurd rfl hne

theorem step [DecidableEq P] {F : Fleet H P} {w' : World H P} {l : HandleLabel H}
    (he : Entitled w) (hs : F.Step w l w') : Entitled w' := by
  cases hs with
  | construct hh => exact he.seat rfl (fun hv => by cases hv)
  | make hh hl => exact he.made hh hl
  | moveConstruct hh ht hne hkin => exact he.moved hh ht hne rfl (fun hv => by cases hv)
  | moveSelf hh => exact he
  | @moveAssign h t seg other ans hh ht hne hkin =>
    have hreset := Frame.reset_seg ans (F.home h) ⟨seg, w.kernel⟩
    refine (he.torn hh ans).moved (update_self ..) ?_ hne ?_ ?_
    · simp only [Fleet.torn]
      rwa [update_of_ne hne.symm]
    · rw [Fleet.torn, hreset]
      rfl
    · rw [Fleet.torn, hreset]
      exact fun hv => by cases hv
  | @releaseNameOwnership h seg hh =>
    exact he.seat rfl (fun hv => he.rigged h seg hh hv)
  | destroy hh => exact he.torn hh _
  | write => exact ⟨he.owner, he.sole, he.once, he.entitled, he.counted, he.rigged⟩

end Entitled

structure Exact {H P : Type} [DecidableEq P] (F : Fleet H P) (w : World H P) : Prop where
  mappings : ∀ p a m, w.kernel.maps (p, a) = some m →
    ∃ h seg, w.handle h = some seg ∧ F.home h = p ∧ seg.map = some a ∧ seg.mapBytes = m.length ∧
      ∀ h' seg', w.handle h' = some seg' → F.home h' = p → seg'.map = some a → h' = h
  descriptors : ∀ p fd object, w.kernel.fds (p, fd) = some object →
    ∃ h seg, w.handle h = some seg ∧ F.home h = p ∧ seg.fd = some fd ∧
      ∀ h' seg', w.handle h' = some seg' → F.home h' = p → seg'.fd = some fd → h' = h
  mapCalls : Ledger.replay w.kernel.mapCalls (fun _ => none) = some w.kernel.mapTable
  fdCalls : Ledger.replay w.kernel.fdCalls (fun _ => none) = some w.kernel.fdTable
  unmapped : ∀ a bytes, w.kernel.mapCalls.count (.acquire a bytes) =
    w.kernel.mapCalls.count (.release a bytes) + if w.kernel.mapTable a = some bytes then 1 else 0
  closed : ∀ d, w.kernel.fdCalls.count (.acquire d ()) =
    w.kernel.fdCalls.count (.release d ()) + if w.kernel.fdTable d = some () then 1 else 0
  drained : (∀ h, w.handle h = none) →
    (∀ a, w.kernel.maps a = none) ∧ ∀ d, w.kernel.fds d = none
  charged : w.charged.length = w.kernel.unlinkCalls.length
  unlinkedOnce : w.charged.Nodup
  unlinkedBy : ∀ n ∈ w.charged, w.Entitles n
  valid : ∀ h seg, w.handle h = some seg → seg.valid = true →
    ∃ a m, seg.map = some a ∧ w.kernel.maps (F.home h, a) = some m ∧ seg.mapBytes = m.length

namespace Books

variable {H P : Type} {F : Fleet H P} {k : Kernel P} {handle : H → Option SegmentHandle} {h : H}
  {seg : SegmentHandle}

theorem mapHeld_some {p : P} {a bytes : Nat} : F.mapHeld handle h = some ((p, a), bytes) ↔
    ∃ seg, handle h = some seg ∧ F.home h = p ∧ seg.map = some a ∧ seg.mapBytes = bytes := by
  simp only [Fleet.mapHeld, SegmentHandle.mapping, Option.bind_eq_some_iff, Option.map_eq_some_iff,
    Prod.mk.injEq]
  constructor
  · rintro ⟨seg, hh, a', hm, ⟨hp, rfl⟩, hl⟩
    exact ⟨seg, hh, hp, hm, hl⟩
  · rintro ⟨seg, hh, hp, hm, hl⟩
    exact ⟨seg, hh, a, hm, ⟨hp, rfl⟩, hl⟩

theorem fdHeld_some {p : P} {fd : Nat} : F.fdHeld handle h = some ((p, fd), ()) ↔
    ∃ seg, handle h = some seg ∧ F.home h = p ∧ seg.fd = some fd := by
  simp only [Fleet.fdHeld, SegmentHandle.descriptor, Option.bind_eq_some_iff,
    Option.map_eq_some_iff, Prod.mk.injEq, and_true]
  constructor
  · rintro ⟨seg, hh, fd', hf, hp, rfl⟩
    exact ⟨seg, hh, hp, hf⟩
  · rintro ⟨seg, hh, hp, hf⟩
    exact ⟨seg, hh, fd, hf, hp, rfl⟩

variable [DecidableEq P]

theorem mapped (hb : Books F k handle) (hh : handle h = some seg) {a : Nat}
    (hm : seg.map = some a) :
    ∃ m, k.maps (F.home h, a) = some m ∧ seg.mapBytes = m.length := by
  have hlive := hb.maps.live h _ _ (mapHeld_some.mpr ⟨seg, hh, rfl, hm, rfl⟩)
  obtain ⟨m, hm', hl⟩ := Option.map_eq_some_iff.mp hlive
  exact ⟨m, hm', hl.symm⟩

theorem mapped_unique (hb : Books F k handle) {h' : H} {seg' : SegmentHandle} {a : Nat}
    (hh : handle h = some seg) (hm : seg.map = some a) (hh' : handle h' = some seg')
    (hhome : F.home h' = F.home h) (hm' : seg'.map = some a) : h' = h :=
  hb.maps.unique h' h _ _ _ (mapHeld_some.mpr ⟨seg', hh', hhome, hm', rfl⟩)
    (mapHeld_some.mpr ⟨seg, hh, rfl, hm, rfl⟩)

theorem exact {w : World H P} (hb : Books F w.kernel w.handle) (he : Entitled w) : Exact F w where
  mappings p a m hm := by
    obtain ⟨h, hheld⟩ := hb.maps.recorded (p, a) m.length (by simp [Kernel.mapTable, hm])
    obtain ⟨seg, hh, rfl, hmap, hl⟩ := mapHeld_some.mp hheld
    exact ⟨h, seg, hh, rfl, hmap, hl, fun h' seg' hh' hp hm' =>
      hb.mapped_unique hh hmap hh' hp hm'⟩
  descriptors p fd object hf := by
    obtain ⟨h, hheld⟩ := hb.fds.recorded (p, fd) () (by simp [Kernel.fdTable, hf])
    obtain ⟨seg, hh, hp, hfd⟩ := fdHeld_some.mp hheld
    exact ⟨h, seg, hh, hp, hfd, fun h' seg' hh' hp' hf' =>
      hb.fds.unique h' h _ _ _ (fdHeld_some.mpr ⟨seg', hh', hp', hf'⟩) hheld⟩
  mapCalls := hb.maps.ledger
  fdCalls := hb.fds.ledger
  unmapped _ _ := hb.maps.count
  closed _ := hb.fds.count
  drained hnone := by
    refine ⟨fun a => ?_, fun d => ?_⟩
    · exact Option.map_eq_none_iff.mp (hb.maps.toCustody.closed fun h => by
        simp [Fleet.mapHeld, hnone h])
    · exact Option.map_eq_none_iff.mp (hb.fds.toCustody.closed fun h => by
        simp [Fleet.fdHeld, hnone h])
  charged := he.counted
  unlinkedOnce := he.once
  unlinkedBy := he.entitled
  valid h seg hh hv := by
    obtain ⟨a, hm⟩ := Option.isSome_iff_exists.mp (he.rigged h seg hh hv)
    obtain ⟨m, hmap, hl⟩ := hb.mapped hh hm
    exact ⟨a, m, hm, hmap, hl⟩

end Books

variable {H P : Type} [DecidableEq H] [DecidableEq P] {F : Fleet H P}

theorem Fleet.kept {w₀ w : World H P} {allowed : HandleLabel H → World H P → Prop}
    (hr : F.lts.Reach allowed w₀ w) (h₀ : Books F w₀.kernel w₀.handle ∧ Entitled w₀) :
    Books F w.kernel w.handle ∧ Entitled w :=
  hr.invariant (I := fun w => Books F w.kernel w.handle ∧ Entitled w) h₀ fun _ _ _ hi _ hs =>
    ⟨hi.1.step (Fleet.step_cases hs), hi.2.step (Fleet.step_cases hs)⟩

def solo : Fleet Nat Unit := ⟨fun _ => (), fun _ => ShmSegment.spinPair⟩

end Shimmy
