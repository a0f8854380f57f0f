import Shimmy.Ring.Consumer
import Shimmy.Ring.Producer

namespace Shimmy

open Concurrency Function

inductive Phase where
  | fresh
  | marked
  | copying (j : Nat)
  | stamped
  deriving DecidableEq, Repr

structure Pos where
  count : Nat
  phase : Phase
  deriving DecidableEq, Repr

namespace Pos

def stampedCount (d : Pos) : Nat := if d.phase = .stamped then d.count + 1 else d.count

def touched (d : Pos) : Nat := if d.phase = .fresh then d.count else d.count + 1

variable (cfg : RingConfig) (stream : Nat → Message cfg.blockSize)

def entry (d : Pos) : Loc × Nat :=
  match d.phase with
  | .fresh =>
      if cfg.overflow = .overwrite then (.slotSeq (cfg.slot d.count), writingSeq)
      else (.slotLen (cfg.slot d.count), (stream d.count).len)
  | .marked => (.slotLen (cfg.slot d.count), (stream d.count).len)
  | .copying j =>
      if j < (stream d.count).len then
        (.payload (cfg.slot d.count) j, (stream d.count).bytes.getD j 0)
      else (.slotSeq (cfg.slot d.count), d.count)
  | .stamped => (.nextPublish, d.count + 1)

def succ (d : Pos) : Pos :=
  match d.phase with
  | .fresh => ⟨d.count, if cfg.overflow = .overwrite then .marked else .copying 0⟩
  | .marked => ⟨d.count, .copying 0⟩
  | .copying j => ⟨d.count, if j < (stream d.count).len then .copying (j + 1) else .stamped⟩
  | .stamped => ⟨d.count + 1, .fresh⟩

def Resident (d : Pos) (s : Nat) : Prop := s < d.stampedCount ∧ d.touched ≤ s + cfg.capacity

def stampAt (d : Pos) (i : Nat) : Nat :=
  if cfg.overflow = .overwrite ∧ d.stampedCount < d.touched ∧ i = cfg.slot d.count then writingSeq
  else (lastBefore cfg.capacity d.stampedCount i).getD emptySeq

variable {cfg stream}

theorem count_le_stampedCount (d : Pos) : d.count ≤ d.stampedCount := by
  unfold stampedCount
  split <;> omega

theorem stampedCount_le_touched (d : Pos) : d.stampedCount ≤ d.touched := by
  unfold stampedCount touched
  split
  · rename_i h
    simp [h]
  · split <;> omega

theorem touched_le (d : Pos) : d.touched ≤ d.count + 1 := by
  unfold touched
  split <;> omega

theorem count_le_succ (d : Pos) : d.count ≤ (d.succ cfg stream).count := by
  unfold succ
  split <;> simp

theorem stampedCount_le_succ (d : Pos) :
    d.stampedCount ≤ (d.succ cfg stream).stampedCount := by
  have h := (d.succ cfg stream).count_le_stampedCount
  obtain ⟨n, phase⟩ := d
  cases phase with
  | stamped => exact h
  | _ => exact (count_le_succ ⟨n, _⟩).trans h

theorem touched_le_succ (d : Pos) : d.touched ≤ (d.succ cfg stream).touched := by
  obtain ⟨n, phase⟩ := d
  cases phase with
  | fresh =>
    have hcount : n ≤ (succ cfg stream ⟨n, .fresh⟩).count := count_le_succ ⟨n, .fresh⟩
    exact hcount.trans ((count_le_stampedCount _).trans (stampedCount_le_touched _))
  | marked => simp [touched, succ]
  | copying j => by_cases hj : j < (stream n).len <;> simp [touched, succ, hj]
  | stamped => simp [touched, succ]

theorem Resident.of_succ {d : Pos} {s : Nat} (h : Resident cfg (d.succ cfg stream) s)
    (hs : s < d.stampedCount) : Resident cfg d s :=
  ⟨hs, (touched_le_succ d).trans h.2⟩

theorem Resident.close {d : Pos} {s : Nat} (h : Resident cfg d s) (ht : d.stampedCount < d.touched) :
    cfg.slot s ≠ cfg.slot d.count := by
  obtain ⟨h1, h2⟩ := h
  have hc := d.count_le_stampedCount
  have := d.touched_le
  exact cfg.slot_ne_of_close (by omega) (by omega)

theorem stampAt_slot_eq {d : Pos} {s : Nat} (h : Resident cfg d s) :
    stampAt cfg d (cfg.slot s) = s := by
  have hlast : lastBefore cfg.capacity d.stampedCount (cfg.slot s) = some s := by
    refine (lastBefore_eq_some (cfg.slot_lt s)).mpr ⟨h.1, ?_, (cfg.slot_eq_mod s).symm⟩
    exact d.stampedCount_le_touched.trans h.2
  unfold stampAt
  rw [if_neg fun hw => h.close hw.2.1 hw.2.2, hlast, Option.getD_some]

theorem lastBefore_of_stampAt {d : Pos} {i q : Nat} (h : stampAt cfg d i = q)
    (hw : cfg.overflow = .overwrite → q ≠ writingSeq) (he : q ≠ emptySeq) :
    lastBefore cfg.capacity d.stampedCount i = some q := by
  unfold stampAt at h
  split at h
  · rename_i hm
    exact absurd h.symm (hw hm.1)
  · cases hl : lastBefore cfg.capacity d.stampedCount i with
    | none => exact absurd (by rw [← h, hl]; rfl) he
    | some p => rw [hl] at h; exact congrArg some h

theorem resident_of_stampAt {d : Pos} {s : Nat} (hover : cfg.overflow = .overwrite)
    (h : stampAt cfg d (cfg.slot s) = s) (hs : s < writingSeq) : Resident cfg d s := by
  have hlast : lastBefore cfg.capacity d.stampedCount (cfg.slot s) = some s :=
    lastBefore_of_stampAt h (fun _ => by omega) (by unfold emptySeq; unfold writingSeq at hs; omega)
  obtain ⟨h1, h2, -⟩ := (lastBefore_eq_some (cfg.slot_lt s)).mp hlast
  refine ⟨h1, ?_⟩
  by_contra hlt
  have hc := d.count_le_stampedCount
  have ht := d.touched_le
  have heq : d.count = s + cfg.capacity := by omega
  have hslot : cfg.slot s = cfg.slot d.count := by
    rw [heq, cfg.slot_eq_mod, cfg.slot_eq_mod, Nat.add_mod_right]
  rw [stampAt, if_pos ⟨hover, by omega, hslot⟩] at h
  omega

theorem resident_of_stampAt_le {d : Pos} {s : Nat} (hover : cfg.overflow = .overwrite)
    (h : stampAt cfg d (cfg.slot s) = s) (hs : s ≤ d.stampedCount) (ht : d.touched ≤ writingSeq) :
    Resident cfg d s := by
  have hst := d.stampedCount_le_touched
  rcases Nat.lt_or_ge s writingSeq with hlt | hge
  · exact resident_of_stampAt hover h hlt
  · have hq : d.stampedCount = s := by omega
    rw [stampAt, if_neg fun hm => by omega] at h
    cases hl : lastBefore cfg.capacity d.stampedCount (cfg.slot s) with
    | none =>
      rw [hl, Option.getD_none] at h
      unfold emptySeq at h
      unfold writingSeq at ht
      omega
    | some q =>
      rw [hl, Option.getD_some] at h
      have := ((lastBefore_eq_some (cfg.slot_lt s)).mp hl).1
      omega

theorem touched_of_moved {d : Pos} {s : Nat} (hs : s < d.stampedCount)
    (h : stampAt cfg d (cfg.slot s) ≠ s) : s + cfg.capacity < d.touched := by
  by_contra hle
  exact h (stampAt_slot_eq ⟨hs, by omega⟩)

theorem le_of_stampAt {d : Pos} {i q : Nat} (h : stampAt cfg d i = q)
    (hw : cfg.overflow = .overwrite → q ≠ writingSeq) (he : q ≠ emptySeq) (hi : i < cfg.capacity) :
    q < d.stampedCount ∧ d.stampedCount ≤ q + cfg.capacity ∧ cfg.slot q = i := by
  have hl := (lastBefore_eq_some hi).mp (lastBefore_of_stampAt h hw he)
  exact ⟨hl.1, hl.2.1, (cfg.slot_eq_mod q).trans hl.2.2⟩

theorem lt_of_stampAt {d : Pos} {w : Nat} (h : stampAt cfg d (cfg.slot w) = w)
    (hw : cfg.overflow = .overwrite → w ≠ writingSeq)
    (hn : w ≤ d.stampedCount ∨ w ≠ emptySeq) : w < d.stampedCount := by
  by_cases he : w = emptySeq
  · have hle : w ≤ d.stampedCount := hn.resolve_right (not_not_intro he)
    have hcap := cfg.capacity_lt
    have hslot := cfg.slot_lt w
    have hbig : 2 ^ 63 ≤ w := by rw [he, emptySeq]; omega
    unfold stampAt at h
    split at h
    · rename_i hm
      exact absurd h.symm (hw hm.1)
    · cases hl : lastBefore cfg.capacity d.stampedCount (cfg.slot w) with
      | none =>
        have := lastBefore_eq_none.mp hl
        omega
      | some p =>
        rw [hl, Option.getD_some] at h
        exact h ▸ ((lastBefore_eq_some hslot).mp hl).1
  · exact (le_of_stampAt h hw he (cfg.slot_lt w)).1

theorem touched_of_lapped {d : Pos} {w : Nat}
    (h : Consumer.classify (stampAt cfg d (cfg.slot w)) w = .lapped) :
    w + cfg.capacity < d.touched := by
  generalize hq : stampAt cfg d (cfg.slot w) = q at h
  obtain ⟨h1, h2, h3, h4⟩ : q ≠ w ∧ q ≠ writingSeq ∧ q ≠ emptySeq ∧ w ≤ q := by
    simp only [Consumer.classify] at h
    split_ifs at h
    simp_all
  obtain ⟨hlt, -, hslot⟩ := le_of_stampAt hq (fun _ => h2) h3 (cfg.slot_lt w)
  rw [cfg.slot_eq_mod, cfg.slot_eq_mod w] at hslot
  have := add_le_of_mod_eq_of_lt hslot.symm (by omega)
  have := d.stampedCount_le_touched
  omega

theorem classify_ne_lapped {d : Pos} {w : Nat} (h : d.touched ≤ w + cfg.capacity) :
    Consumer.classify (stampAt cfg d (cfg.slot w)) w ≠ .lapped := by
  intro hl
  have := touched_of_lapped hl
  omega

end Pos

structure Holds (cfg : RingConfig) (cells : Loc → Nat) (msg : Message cfg.blockSize) (i : Nat) :
    Prop where
  len : cells (.slotLen i) = msg.len
  bytes : ∀ k < msg.len, cells (.payload i k) = msg.bytes.getD k 0

theorem Holds.update {cfg : RingConfig} {cells : Loc → Nat} {msg : Message cfg.blockSize} {i : Nat}
    {a : Loc} {v : Nat} (h : Holds cfg cells msg i) (hl : Loc.slotLen i ≠ a)
    (hp : ∀ k, Loc.payload i k ≠ a) : Holds cfg (update cells a v) msg i where
  len := by rw [update_of_ne hl, h.len]
  bytes k hk := by rw [update_of_ne (hp k), h.bytes k hk]

structure Image (cfg : RingConfig) (stream : Nat → Message cfg.blockSize) (cells : Loc → Nat)
    (d : Pos) : Prop where
  nextPublish : cells .nextPublish = d.count
  stamps : ∀ i < cfg.capacity, cells (.slotSeq i) = d.stampAt cfg i
  content : ∀ s, d.Resident cfg s → Holds cfg cells (stream s) (cfg.slot s)
  inFlight : ∀ j, d.phase = .copying j → j ≤ (stream d.count).len ∧
    cells (.slotLen (cfg.slot d.count)) = (stream d.count).len ∧
    ∀ k < j, cells (.payload (cfg.slot d.count) k) = (stream d.count).bytes.getD k 0
  lens : ∀ i, cells (.slotLen i) ≤ cfg.blockSize

def Loc.ofProducer : Loc → Bool
  | .nextPublish => true
  | .slotSeq _ => true
  | .slotLen _ => true
  | .payload _ _ => true
  | _ => false

namespace Image

variable {cfg : RingConfig} {stream : Nat → Message cfg.blockSize} {cells cells' : Loc → Nat}
  {d : Pos}

theorem congr (h : Image cfg stream cells d)
    (hc : ∀ a, a.ofProducer = true → cells' a = cells a) : Image cfg stream cells' d where
  nextPublish := (hc _ rfl).trans h.nextPublish
  stamps i hi := (hc _ rfl).trans (h.stamps i hi)
  content s hs :=
    ⟨(hc _ rfl).trans (h.content s hs).len,
      fun k hk => (hc _ rfl).trans ((h.content s hs).bytes k hk)⟩
  inFlight j hj :=
    ⟨(h.inFlight j hj).1, (hc _ rfl).trans (h.inFlight j hj).2.1,
      fun k hk => (hc _ rfl).trans ((h.inFlight j hj).2.2 k hk)⟩
  lens i := (hc _ rfl).le.trans (h.lens i)

theorem init (fresh : Loc → Nat) : Image cfg stream (Ring.init fresh) ⟨0, .fresh⟩ where
  nextPublish := rfl
  stamps i _ := by simp [Ring.init, Pos.stampAt, Pos.stampedCount, Pos.touched, lastBefore]
  content s hs := by simp [Pos.Resident, Pos.stampedCount] at hs
  inFlight j hj := by simp at hj
  lens i := Nat.zero_le _

theorem store_mark (n : Nat) (ho : cfg.overflow = .overwrite)
    (h : Image cfg stream cells ⟨n, .fresh⟩) :
    Image cfg stream (update cells (.slotSeq (cfg.slot n)) writingSeq) ⟨n, .marked⟩ where
  nextPublish := by simpa using h.nextPublish
  stamps i hi := by
    by_cases hin : i = cfg.slot n
    · subst hin
      simp [Pos.stampAt, Pos.stampedCount, Pos.touched, ho]
    · rw [update_of_ne (by simpa using hin), h.stamps i hi]
      simp [Pos.stampAt, Pos.stampedCount, Pos.touched, hin]
  content s hs := by
    have hr : Pos.Resident cfg ⟨n, .fresh⟩ s := ⟨hs.1, by have := hs.2; simp [Pos.touched] at *; omega⟩
    exact (h.content s hr).update (by simp) (by simp)
  inFlight j hj := by simp at hj
  lens i := by simpa using h.lens i

theorem store_len (n : Nat) {phase : Phase} (hp : phase = .marked ∨
      phase = .fresh ∧ cfg.overflow ≠ .overwrite) (h : Image cfg stream cells ⟨n, phase⟩) :
    Image cfg stream (update cells (.slotLen (cfg.slot n)) (stream n).len) ⟨n, .copying 0⟩ where
  nextPublish := by simpa using h.nextPublish
  stamps i hi := by
    rw [update_of_ne (by simp), h.stamps i hi]
    rcases hp with rfl | ⟨rfl, ho⟩
    · simp [Pos.stampAt, Pos.stampedCount, Pos.touched]
    · simp [Pos.stampAt, Pos.stampedCount, Pos.touched, ho]
  content s hs := by
    have hne := hs.close (by simp [Pos.stampedCount, Pos.touched])
    have hr : Pos.Resident cfg ⟨n, phase⟩ s := by
      obtain ⟨h1, h2⟩ := hs
      rcases hp with rfl | ⟨rfl, -⟩ <;>
        exact ⟨h1, by simp [Pos.touched] at *; omega⟩
    exact (h.content s hr).update (by simpa using hne) (by simp)
  inFlight j hj := by
    obtain rfl : 0 = j := by simpa using hj
    simp
  lens i := by
    by_cases hin : i = cfg.slot n
    · subst hin
      rw [update_self]
      exact (stream n).length_le
    · simpa [update_of_ne, hin] using h.lens i

theorem store_byte (n j : Nat) (hj : j < (stream n).len)
    (h : Image cfg stream cells ⟨n, .copying j⟩) :
    Image cfg stream (update cells (.payload (cfg.slot n) j) ((stream n).bytes.getD j 0))
      ⟨n, .copying (j + 1)⟩ where
  nextPublish := by simpa using h.nextPublish
  stamps i hi := by
    rw [update_of_ne (by simp), h.stamps i hi]
    simp [Pos.stampAt, Pos.stampedCount, Pos.touched]
  content s hs := by
    have hne := hs.close (by simp [Pos.stampedCount, Pos.touched])
    have hr : Pos.Resident cfg ⟨n, .copying j⟩ s := hs
    exact (h.content s hr).update (by simp) fun k he => hne (by simp_all)
  inFlight k hk := by
    obtain rfl : j + 1 = k := by simpa using hk
    obtain ⟨-, hlen, hbytes⟩ := h.inFlight j rfl
    refine ⟨hj, by simpa using hlen, fun k hk => ?_⟩
    rcases eq_or_ne k j with rfl | hkj
    · simp
    · rw [update_of_ne (by simpa using hkj)]
      exact hbytes k (by omega)
  lens i := by simpa using h.lens i

theorem store_stamp (n : Nat) (h : Image cfg stream cells ⟨n, .copying (stream n).len⟩) :
    Image cfg stream (update cells (.slotSeq (cfg.slot n)) n) ⟨n, .stamped⟩ where
  nextPublish := by simpa using h.nextPublish
  stamps i hi := by
    by_cases hin : i = cfg.slot n
    · subst hin
      have hl := lastBefore_succ_of_mod (cfg.slot_lt n) (cfg.slot_eq_mod n).symm
      simp [Pos.stampAt, Pos.stampedCount, Pos.touched, hl]
    · have hne : n % cfg.capacity ≠ i := by rw [← cfg.slot_eq_mod]; exact Ne.symm hin
      rw [update_of_ne (by simpa using hin), h.stamps i hi]
      simp [Pos.stampAt, Pos.stampedCount, Pos.touched, hin, lastBefore_succ_of_ne hi hne]
  content s hs := by
    rcases eq_or_ne s n with rfl | hsn
    · obtain ⟨-, hlen, hbytes⟩ := h.inFlight _ rfl
      exact Holds.update ⟨hlen, hbytes⟩ (by simp) (by simp)
    · have hr : Pos.Resident cfg ⟨n, .copying (stream n).len⟩ s := by
        obtain ⟨h1, h2⟩ := hs
        exact ⟨by simp [Pos.stampedCount] at *; omega, h2⟩
      exact (h.content s hr).update (by simp) (by simp)
  inFlight j hj := by simp at hj
  lens i := by simpa using h.lens i

theorem store_next (n : Nat) (h : Image cfg stream cells ⟨n, .stamped⟩) :
    Image cfg stream (update cells .nextPublish (n + 1)) ⟨n + 1, .fresh⟩ where
  nextPublish := by simp
  stamps i hi := by
    rw [update_of_ne (by simp), h.stamps i hi]
    simp [Pos.stampAt, Pos.stampedCount, Pos.touched]
  content s hs := by
    have hr : Pos.Resident cfg ⟨n, .stamped⟩ s := hs
    exact (h.content s hr).update (by simp) (by simp)
  inFlight j hj := by simp at hj
  lens i := by simpa using h.lens i

theorem store (h : Image cfg stream cells d) :
    Image cfg stream (update cells (d.entry cfg stream).1 (d.entry cfg stream).2)
      (d.succ cfg stream) := by
  obtain ⟨n, phase⟩ := d
  cases phase with
  | fresh =>
    by_cases ho : cfg.overflow = .overwrite
    · simpa [Pos.entry, Pos.succ, ho] using h.store_mark n ho
    · simpa [Pos.entry, Pos.succ, ho] using h.store_len n (.inr ⟨rfl, ho⟩)
  | marked => exact h.store_len n (.inl rfl)
  | copying j =>
    by_cases hj : j < (stream n).len
    · simpa [Pos.entry, Pos.succ, hj] using h.store_byte n j hj
    · obtain rfl : j = (stream n).len := by
        have : j ≤ (stream n).len := (h.inFlight j rfl).1
        omega
      simpa [Pos.entry, Pos.succ] using h.store_stamp n
  | stamped => exact h.store_next n

end Image

end Shimmy
