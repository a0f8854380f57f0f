import Mathlib.Data.List.Forall2
import Shimmy.Concurrency.Weak

namespace Concurrency

open Function

structure MemoryOrder.Weaker (o o' : MemoryOrder) : Prop where
  acquires : o.acquires = true → o'.acquires = true
  releases : o.releases = true → o'.releases = true

structure Access.Weaker (acc acc' : Access) : Prop where
  order : acc.order.Weaker acc'.order
  acquireFence : acc.acquireFence = true → acc'.acquireFence = true
  releaseFence : acc.releaseFence = true → acc'.releaseFence = true

theorem MemoryOrder.Weaker.refl (o : MemoryOrder) : o.Weaker o := ⟨id, id⟩

theorem MemoryOrder.Weaker.seqCst (o : MemoryOrder) : o.Weaker .seqCst :=
  ⟨fun _ => rfl, fun _ => rfl⟩

theorem Access.Weaker.refl (acc : Access) : acc.Weaker acc := ⟨.refl _, id, id⟩

variable {Tid Loc Val State : Type}

structure Write.Below (w w' : Write Loc Val) : Prop where
  time : w.time = w'.time
  val : w.val = w'.val
  front : w.front ≤ w'.front

structure Fronts.Below (v v' : Fronts Loc) : Prop where
  current : v.current ≤ v'.current
  acquired : v.acquired ≤ v'.acquired
  released : v.released ≤ v'.released
  ordered : v'.released ≤ v'.current

structure WeakMemory.Below (m m' : WeakMemory Tid Loc Val) : Prop where
  history : ∀ a, List.Forall₂ Write.Below (m.history a) (m'.history a)
  fronts : ∀ t, (m.fronts t).Below (m'.fronts t)

theorem Write.Below.of_front {time : Nat} {x : Val} {f f' : Frontier Loc} (h : f ≤ f') :
    Write.Below ⟨time, x, f⟩ ⟨time, x, f'⟩ :=
  ⟨rfl, rfl, h⟩

theorem Write.Below.refl (w : Write Loc Val) : w.Below w := ⟨rfl, rfl, le_rfl⟩

namespace Fronts.Below

variable {v v' : Fronts Loc} {o o' : MemoryOrder} {a : Loc} {w w' : Write Loc Val}

theorem fenceAcquire (h : v.Below v') {fence fence' : Bool} (hf : fence = true → fence' = true) :
    (v.fenceAcquire fence).Below (v'.fenceAcquire fence') := by
  cases fence' with
  | true =>
    cases fence with
    | true =>
      exact ⟨sup_le_sup h.current h.acquired, h.acquired, h.released, h.ordered.trans le_sup_left⟩
    | false => exact ⟨h.current.trans le_sup_left, h.acquired, h.released, h.ordered.trans le_sup_left⟩
  | false =>
    cases fence with
    | true => cases hf rfl
    | false => exact h

theorem fenceRelease (h : v.Below v') {fence fence' : Bool} (hf : fence = true → fence' = true) :
    (v.fenceRelease fence).Below (v'.fenceRelease fence') := by
  cases fence' with
  | true =>
    cases fence with
    | true => exact ⟨h.current, h.acquired, h.current, le_rfl⟩
    | false => exact ⟨h.current, h.acquired, h.released.trans h.ordered, le_rfl⟩
  | false =>
    cases fence with
    | true => cases hf rfl
    | false => exact h

theorem join {u u' : Fronts Loc} (h : v.Below v') (hu : u.Below u') :
    (v.join u).Below (v'.join u') where
  current := sup_le_sup h.current hu.current
  acquired := sup_le_sup h.acquired hu.acquired
  released := h.released
  ordered := h.ordered.trans le_sup_left

theorem joins (hf : w.front ≤ w'.front) (ho : o.Weaker o') :
    Fronts.joins o w.front ≤ Fronts.joins o' w'.front := by
  unfold Fronts.joins
  by_cases h : o.acquires = true
  · rw [if_pos h, if_pos (ho.acquires h)]
    exact hf
  · rw [if_neg h]
    exact fun _ => Nat.zero_le _

variable [DecidableEq Loc]

theorem read (h : v.Below v') (hw : w.Below w') (ho : o.Weaker o') :
    (v.read o a w).Below (v'.read o' a w') where
  current := by
    simp only [Fronts.read, hw.time]
    exact sup_le_sup (sup_le_sup h.current le_rfl) (joins hw.front ho)
  acquired := by
    simp only [Fronts.read, hw.time]
    exact sup_le_sup (sup_le_sup h.acquired le_rfl) hw.front
  released := h.released
  ordered := h.ordered.trans (le_sup_left.trans le_sup_left)

theorem write (h : v.Below v') (time : Nat) : (v.write a time).Below (v'.write a time) where
  current := sup_le_sup h.current le_rfl
  acquired := sup_le_sup h.acquired le_rfl
  released := h.released
  ordered := h.ordered.trans le_sup_left

theorem front (h : v.Below v') (ho : o.Weaker o') (a : Loc) (time : Nat) :
    v.front o a time ≤ v'.front o' a time := by
  unfold Fronts.front
  refine sup_le_sup ?_ le_rfl
  by_cases hr : o.releases = true
  · rw [if_pos hr, if_pos (ho.releases hr)]
    exact h.current
  · rw [if_neg hr]
    split
    · exact h.released.trans h.ordered
    · exact h.released

end Fronts.Below

namespace WeakMemory

variable {m m' n' : WeakMemory Tid Loc Val} {acc acc' : Access} {t : Tid} {a : Loc}
  {v v' : Fronts Loc} {w w' : Write Loc Val} {time : Nat}

theorem Below.refl (h : ∀ t, (m.fronts t).released ≤ (m.fronts t).current) : m.Below m where
  history _ := List.forall₂_same.mpr fun w _ => .refl w
  fronts t := ⟨le_rfl, le_rfl, le_rfl, h t⟩

theorem exists_below {es es' : List (Write Loc Val)} (h : List.Forall₂ Write.Below es es')
    (hw : w ∈ es) : ∃ w' ∈ es', w.Below w' := by
  induction h with
  | nil => cases hw
  | @cons e e' es es' he hes ih =>
    rcases List.mem_cons.mp hw with rfl | hw
    · exact ⟨e', List.mem_cons_self, he⟩
    · obtain ⟨w', hw', hbelow⟩ := ih hw
      exact ⟨w', List.mem_cons_of_mem _ hw', hbelow⟩

theorem find_below {es es' : List (Write Loc Val)} (h : List.Forall₂ Write.Below es es')
    {n n' : Nat} (hn : n ≤ n')
    (hw : es'.find? (fun w => w.time = time ∧ n' ≤ w.time) = some w') :
    ∃ w, es.find? (fun w => w.time = time ∧ n ≤ w.time) = some w ∧ w.Below w' := by
  induction h with
  | nil => cases hw
  | @cons e e' es es' he hes ih =>
    have htime := he.time
    by_cases hp : e'.time = time ∧ n' ≤ e'.time
    · rw [List.find?_cons_of_pos (by simpa using hp)] at hw
      cases hw
      exact ⟨e, List.find?_cons_of_pos (by simp; omega), he⟩
    · rw [List.find?_cons_of_neg (by simpa using hp)] at hw
      obtain ⟨w, hfind, hbelow⟩ := ih hw
      have hnew := List.find?_some hw
      simp only [Bool.decide_and, Bool.and_eq_true, decide_eq_true_eq] at hnew
      exact ⟨w, (List.find?_cons_of_neg (by simp; omega)).trans hfind, hbelow⟩

theorem Below.visible (h : m.Below m') (hv : v.Below v') (hw : m'.visible v' a time = some w') :
    ∃ w, m.visible v a time = some w ∧ w.Below w' :=
  find_below (h.history a) (hv.current a) hw

theorem Below.fresh (h : m.Below m') (hv : v.Below v') (hf : m'.Fresh v' a time) :
    m.Fresh v a time := by
  refine ⟨(hv.current a).trans_lt hf.1, fun w hw => ?_⟩
  obtain ⟨w', hw', hbelow⟩ := exists_below (h.history a) hw
  exact hbelow.time ▸ hf.2 w' hw'

theorem Below.entering (h : m.Below m') (hacc : acc.Weaker acc') (t : Tid) :
    (m.entering acc t).Below (m'.entering acc' t) :=
  (h.fronts t).fenceAcquire hacc.acquireFence

variable [DecidableEq Tid]

theorem Below.look (h : m.Below m') (hv : v.Below v') (t : Tid) :
    (m.look t v).Below (m'.look t v') where
  history := h.history
  fronts u := by
    rcases eq_or_ne u t with rfl | hu
    · rw [fronts_look, fronts_look]
      exact hv
    · simpa [WeakMemory.look, hu] using h.fronts u

theorem Below.synchronize (h : m.Below m') (t u : Tid) :
    (m.synchronize t u).Below (m'.synchronize t u) :=
  h.look ((h.fronts u).join (h.fronts t)) u

variable [DecidableEq Loc]

theorem Below.add (h : m.Below m') (hv : v.Below v') (hw : w.Below w') (t : Tid) (a : Loc) :
    (m.add t v a w).Below (m'.add t v' a w') where
  history b := by
    rcases eq_or_ne b a with rfl | hb
    · simpa [WeakMemory.add] using ⟨hw, h.history b⟩
    · simpa [WeakMemory.add, hb] using h.history b
  fronts u := by
    rcases eq_or_ne u t with rfl | hu
    · rw [fronts_add, fronts_add]
      exact hv
    · simpa [WeakMemory.add, hu] using h.fronts u

variable [DecidableEq Val]

theorem Below.exec {i : Instr Loc Val State} {s : State} (h : m.Below m') (hacc : acc.Weaker acc')
    (hx : m'.exec acc' t time i = some (s, n')) :
    ∃ n, m.exec acc t time i = some (s, n) ∧ n.Below n' := by
  have hin := h.entering hacc t
  cases i with
  | load a next =>
    obtain ⟨w', hw', he⟩ := Option.map_eq_some_iff.mp hx
    obtain ⟨w, hw, hbelow⟩ := h.visible hin hw'
    cases he
    have hread := (hin.read hbelow hacc.order (a := a)).fenceRelease hacc.releaseFence
    refine ⟨_, ?_, h.look hread t⟩
    simp only [WeakMemory.exec, hw, Option.map_some, hbelow.val]
  | store a x next =>
    simp only [WeakMemory.exec] at hx
    split at hx <;> cases hx
    have hwrite := (hin.write time (a := a)).fenceRelease hacc.releaseFence
    have hfront := hin.front hacc.order a time
    exact ⟨_, if_pos (h.fresh hin ‹_›), h.add hwrite (.of_front hfront) t a⟩
  | rmw a f next =>
    obtain ⟨w', hw', he⟩ := Option.bind_eq_some_iff.mp hx
    obtain ⟨w, hw, hbelow⟩ := h.visible hin hw'
    simp only [WeakMemory.exec, hw, Option.bind_some, hbelow.val]
    split at he
    · rename_i hf
      cases he
      rw [if_pos hf]
      exact ⟨_, rfl, h.look (hin.read hbelow (.refl _)) t⟩
    · rename_i hf
      dsimp only at he
      split at he <;> cases he
      have hread := hin.read hbelow hacc.order (a := a)
      rw [if_neg hf, if_pos (h.fresh hread ‹_›)]
      have hfront := sup_le_sup (hread.front hacc.order a (time + 1)) hbelow.front
      exact ⟨_, rfl, h.add (hread.write (time + 1)) (.of_front hfront) t a⟩
  | futexWait a same parked skipped =>
    obtain ⟨w', hw', he⟩ := Option.map_eq_some_iff.mp hx
    obtain ⟨w, hw, hbelow⟩ := h.visible hin hw'
    cases he
    refine ⟨_, ?_, h.look hin t⟩
    simp only [WeakMemory.exec, hw, Option.map_some, hbelow.val]
  | futexWake a next =>
    cases hx
    exact ⟨_, rfl, h.look hin t⟩
  | blocked next =>
    cases hx
    exact ⟨_, rfl, h.look hin t⟩

end WeakMemory

end Concurrency
