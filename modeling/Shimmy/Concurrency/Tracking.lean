import Shimmy.Concurrency.Weak

namespace Concurrency

open Function

variable {Tid Loc Val Key State : Type}

def Frontier.raise [DecidableEq Loc] (top : Frontier Loc) (a : Loc) : Frontier Loc :=
  update top a (top a + 1)

theorem Frontier.raise_self [DecidableEq Loc] (top : Frontier Loc) (a : Loc) :
    top.raise a a = top a + 1 := by
  simp [Frontier.raise]

theorem Frontier.raise_of_ne [DecidableEq Loc] (top : Frontier Loc) {a b : Loc} (h : b ≠ a) :
    top.raise a b = top b := by
  simp [Frontier.raise, h]

theorem Frontier.le_raise [DecidableEq Loc] (top : Frontier Loc) (a : Loc) : top ≤ top.raise a :=
  le_update_iff.mpr ⟨Nat.le_succ _, fun _ _ => le_rfl⟩

structure Fronts.Within (v : Fronts Loc) (top : Frontier Loc) : Prop where
  current : v.current ≤ top
  acquired : v.acquired ≤ top
  released : v.released ≤ top

structure Memory.Tracked (μ : Memory Tid Loc Val Key) (m : WeakMemory Tid Loc Val)
    (top : Frontier Loc) : Prop where
  buffer : ∀ t, μ.buffer t = []
  newest : ∀ a, ∃ w rest, m.history a = w :: rest ∧ w.val = μ.cells a ∧ w.time = top a ∧
    ∀ e ∈ rest, e.time < top a
  sent : ∀ a, ∀ w ∈ m.history a, w.front ≤ top
  seen : ∀ t, (m.fronts t).Within top

namespace Fronts.Within

variable {v : Fronts Loc} {top top' : Frontier Loc} {a : Loc} {w : Write Loc Val}

theorem mono (h : v.Within top) (ht : top ≤ top') : v.Within top' :=
  ⟨h.current.trans ht, h.acquired.trans ht, h.released.trans ht⟩

theorem fenceAcquire (h : v.Within top) (fence : Bool) : (v.fenceAcquire fence).Within top := by
  cases fence with
  | true => exact ⟨sup_le h.current h.acquired, h.acquired, h.released⟩
  | false => exact h

theorem fenceRelease (h : v.Within top) (fence : Bool) : (v.fenceRelease fence).Within top := by
  cases fence with
  | true => exact ⟨h.current, h.acquired, h.current⟩
  | false => exact h

variable [DecidableEq Loc]

theorem single_le {n : Nat} (h : n ≤ top a) : (Pi.single a n : Frontier Loc) ≤ top := by
  intro b
  rcases eq_or_ne b a with rfl | hb
  · simpa using h
  · simp [hb]

theorem read (h : v.Within top) (order : MemoryOrder) (hw : w.front ≤ top) (ht : w.time ≤ top a) :
    (v.read order a w).Within top := by
  refine ⟨sup_le (sup_le h.current (single_le ht)) ?_,
    sup_le (sup_le h.acquired (single_le ht)) hw, h.released⟩
  unfold Fronts.joins
  split
  · exact hw
  · exact fun _ => Nat.zero_le _

theorem write {time : Nat} (h : v.Within top) (ht : time ≤ top a) : (v.write a time).Within top :=
  ⟨sup_le h.current (single_le ht), sup_le h.acquired (single_le ht), h.released⟩

theorem front {time : Nat} (h : v.Within top) (order : MemoryOrder) (ht : time ≤ top a) :
    v.front order a time ≤ top := by
  refine sup_le ?_ (single_le ht)
  split
  · exact h.current
  · exact h.released

end Fronts.Within

namespace Memory.Tracked

variable {μ μ' : Memory Tid Loc Val Key} {m : WeakMemory Tid Loc Val} {top : Frontier Loc}
  {t : Tid} {a : Loc} {v : Fronts Loc} {w : Write Loc Val} {x : Val} {order : MemoryOrder}

theorem start [DecidableEq Loc] (cells : Loc → Val) (buffer : Tid → List (Loc × Val))
    (parked : Tid → Option Key) (hb : ∀ t, buffer t = []) :
    Tracked ⟨cells, buffer, parked⟩ (.start cells) fun _ => 0 where
  buffer := hb
  newest a := ⟨_, [], rfl, rfl, rfl, by simp⟩
  sent a w hw := by
    obtain rfl := List.mem_singleton.mp hw
    exact le_rfl
  seen _ := ⟨le_rfl, le_rfl, le_rfl⟩

theorem congr (h : Tracked μ m top) (hc : μ'.cells = μ.cells) (hb : μ'.buffer = μ.buffer) :
    Tracked μ' m top := by
  refine ⟨fun t => ?_, fun a => ?_, h.sent, h.seen⟩
  · rw [hb]
    exact h.buffer t
  · rw [hc]
    exact h.newest a

theorem visible (h : Tracked μ m top) (hv : v.Within top) (a : Loc) :
    ∃ w ∈ m.history a, m.visible v a (top a) = some w ∧ w.val = μ.cells a ∧ w.time = top a ∧
      w.front ≤ top := by
  obtain ⟨w, rest, heq, hval, htime, -⟩ := h.newest a
  have hmem : w ∈ m.history a := heq ▸ List.mem_cons_self
  refine ⟨w, hmem, ?_, hval, htime, h.sent a w hmem⟩
  have hle := hv.current a
  rw [WeakMemory.visible, heq, List.find?_cons_of_pos (by simp [htime]; exact hle)]

theorem fresh (h : Tracked μ m top) (hv : v.Within top) (a : Loc) : m.Fresh v a (top a + 1) := by
  obtain ⟨w, rest, heq, -, htime, hrest⟩ := h.newest a
  refine ⟨Nat.lt_succ_of_le (hv.current a), fun e he => ?_⟩
  rw [heq] at he
  rcases List.mem_cons.mp he with rfl | he
  · omega
  · have := hrest e he
    omega

variable [DecidableEq Tid]

theorem look (h : Tracked μ m top) (hv : v.Within top) (t : Tid) : Tracked μ (m.look t v) top where
  buffer := h.buffer
  newest := h.newest
  sent := h.sent
  seen u := by
    rcases eq_or_ne u t with rfl | hu
    · rw [WeakMemory.fronts_look]
      exact hv
    · simpa [WeakMemory.look, hu] using h.seen u

variable [DecidableEq Loc]

theorem add (h : Tracked μ m top) {front : Frontier Loc} (hv : v.Within (top.raise a))
    (hf : front ≤ top.raise a) (t : Tid) :
    Tracked (μ.write a x) (m.add t v a ⟨top a + 1, x, front⟩) (top.raise a) := by
  refine ⟨h.buffer, fun b => ?_, fun b w hw => ?_, fun u => ?_⟩
  · rcases eq_or_ne b a with rfl | hb
    · obtain ⟨w, rest, heq, -, htime, hrest⟩ := h.newest b
      refine ⟨⟨top b + 1, x, front⟩, m.history b, by simp [WeakMemory.add],
        by simp [Memory.write], (top.raise_self b).symm, fun e he => ?_⟩
      rw [top.raise_self]
      rw [heq] at he
      rcases List.mem_cons.mp he with rfl | he
      · omega
      · have := hrest e he
        omega
    · simpa [WeakMemory.add, Memory.write, hb, top.raise_of_ne hb] using h.newest b
  · rcases WeakMemory.mem_history_add.mp hw with ⟨-, rfl⟩ | hw
    · exact hf
    · exact (h.sent b w hw).trans (top.le_raise a)
  · rcases eq_or_ne u t with rfl | hu
    · rw [WeakMemory.fronts_add]
      exact hv
    · simpa [WeakMemory.add, hu] using (h.seen u).mono (top.le_raise a)

variable [DecidableEq Val] [DecidableEq Key]

theorem exec {key : Loc → Key} {i : Instr Loc Val State} {s : State} (h : Tracked μ m top)
    (acc : Access) (hx : μ.exec .sc key t i = some (s, μ')) :
    ∃ time m' top', m.exec acc t time i = some (s, m') ∧ Tracked μ' m' top' := by
  have hin : (m.entering acc t).Within top := (h.seen t).fenceAcquire _
  cases i with
  | load a next =>
    cases hx
    obtain ⟨w, -, hw, hval, htime, hfront⟩ := h.visible hin a
    have hread : μ.read t a = w.val := by
      rw [Memory.read, h.buffer]
      exact hval.symm
    refine ⟨top a, _, top, ?_, h.look ((hin.read acc.order hfront htime.le).fenceRelease
      acc.releaseFence) t⟩
    simp only [WeakMemory.exec, hw, Option.map_some, hread]
  | store a x next =>
    cases hx
    have hself := (top.raise_self a).ge
    have hwide := hin.mono (top.le_raise a)
    exact ⟨top a + 1, _, _, if_pos (h.fresh hin a),
      h.add ((hwide.write hself).fenceRelease _) (hwide.front _ hself) t⟩
  | rmw a f next =>
    obtain ⟨-, rfl, rfl⟩ := Memory.exec_rmw hx
    obtain ⟨w, -, hw, hval, htime, hfront⟩ := h.visible hin a
    rw [← hval]
    by_cases hf : f w.val = w.val
    · refine ⟨top a, _, top, ?_, (h.look (hin.read .relaxed hfront htime.le) t).congr ?_ rfl⟩
      · simp only [WeakMemory.exec, hw, Option.bind_some, if_pos hf]
      · rw [hf, hval]
        exact update_eq_self a μ.cells
    · have hread := hin.read acc.order hfront htime.le
      have hself := (top.raise_self a).ge
      have hwide := hread.mono (top.le_raise a)
      have hsent := sup_le (hwide.front acc.order hself) (hfront.trans (top.le_raise a))
      refine ⟨top a, _, _, ?_, h.add (hwide.write hself) hsent t⟩
      simp only [WeakMemory.exec, hw, Option.bind_some, if_neg hf]
      exact if_pos (h.fresh hread a)
  | futexWait a same parked skipped =>
    obtain ⟨w, -, hw, hval, -⟩ := h.visible hin a
    have hlook := h.look hin t
    simp only [Memory.exec] at hx
    split at hx
    · rename_i hsame
      cases hx
      refine ⟨top a, _, top, ?_, hlook.congr rfl rfl⟩
      simp only [WeakMemory.exec, hw, Option.map_some, hval, hsame, if_true]
    · rename_i hsame
      cases hx
      refine ⟨top a, _, top, ?_, hlook⟩
      simp only [WeakMemory.exec, hw, Option.map_some, hval, if_neg hsame]
  | futexWake a next =>
    cases hx
    exact ⟨0, _, top, rfl, (h.look hin t).congr rfl rfl⟩
  | blocked next =>
    simp only [Memory.exec] at hx
    split at hx <;> cases hx
    exact ⟨0, _, top, rfl, h.look hin t⟩

end Memory.Tracked

end Concurrency
