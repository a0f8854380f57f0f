import Mathlib.Data.List.GetD
import Shimmy.Log.Operation

namespace Shimmy

open Concurrency Function

structure BoundedLog (ι : Type) (blockSize : Nat) where
  entries : List (Message blockSize)
  reader : ι → Option Reader

namespace BoundedLog

variable {ι : Type} {blockSize : Nat}

def start (ι : Type) (blockSize : Nat) : BoundedLog ι blockSize := ⟨[], fun _ => none⟩

def shown : Lookup (Message blockSize) → ReadStatus × List Nat
  | .found msg => (.ok, msg.bytes)
  | .absent => (.empty, [])
  | .lost => (.lapped, [])

variable (cap : Nat) (log : List (Message blockSize))

def readerAfter (k : Act) (r : Reader) : Reader :=
  match k with
  | .construct => ⟨0, 0⟩
  | .read => r.read (lookup cap log r.next)
  | .readCopy _ =>
      match lookup cap log r.next with
      | .found _ => (r.read (lookup cap log r.next)).commit
      | _ => r
  | .validate => r
  | .commit => r.commit
  | .resync => r.resync cap log.length

def readerReply (k : Act) (r : Reader) : Reply :=
  let seen := shown (lookup cap log r.next)
  match k with
  | .read => .shown seen.1 seen.2
  | .readCopy outCap => .copied seen.1 (min seen.2.length outCap) (seen.2.take outCap)
  | .validate => .valid (InWindow cap log.length r.held)
  | _ => .done

def enter (k : Act) : Option Reader → Option Reader
  | none => if k = .construct then some ⟨0, 0⟩ else none
  | some r => if k = .construct then none else some r

variable [DecidableEq ι]

def apply : Op ι blockSize → BoundedLog ι blockSize → Option (Reply × BoundedLog ι blockSize)
  | .publish msg, b =>
      some (.published b.entries.length, { b with entries := b.entries ++ [msg] })
  | .act c k, b => (enter k (b.reader c)).map fun r =>
      (readerReply cap b.entries k r,
        { b with reader := update b.reader c (some (readerAfter cap b.entries k r)) })

def machine (ι : Type) [DecidableEq ι] (blockSize cap : Nat) :
    Machine (Op ι blockSize) Reply (BoundedLog ι blockSize) :=
  ⟨apply cap⟩

end BoundedLog

variable {cfg : RingConfig} {cells : Loc → Nat}

theorem Holds.take {msg : Message cfg.blockSize} {i n : Nat} (h : Holds cfg cells msg i)
    (hn : n ≤ msg.len) :
    ((List.range n).map fun j => cells (.payload i j)) = msg.bytes.take n := by
  refine List.ext_getElem ?_ fun j hj hj' => ?_
  · rw [List.length_map, List.length_range, List.length_take]
    exact (Nat.min_eq_left hn).symm
  · rw [List.length_map, List.length_range] at hj
    have hlt : j < msg.bytes.length := hj.trans_le hn
    rw [List.getElem_map, List.getElem_range, h.bytes j hlt, List.getElem_take,
      List.getD_eq_getElem _ _ hlt]

theorem Image.fresh_congr {stream stream' : Nat → Message cfg.blockSize} {n : Nat}
    (h : Image cfg stream cells ⟨n, .fresh⟩) (hs : ∀ i < n, stream' i = stream i) :
    Image cfg stream' cells ⟨n, .fresh⟩ where
  nextPublish := h.nextPublish
  stamps := h.stamps
  content s hr := by
    rw [hs s hr.1]
    exact h.content s hr
  inFlight j hj := by cases hj
  lens := h.lens

theorem Image.copyPayload {stream : Nat → Message cfg.blockSize} {n j : Nat} {bs : List Nat}
    (hbs : bs = (stream n).bytes.drop j) (h : Image cfg stream cells ⟨n, .copying j⟩) :
    Image cfg stream (Ring.copyPayload (cfg.slot n) bs j cells)
      ⟨n, .copying (stream n).len⟩ := by
  induction bs generalizing cells j with
  | nil =>
    have hle : (stream n).len ≤ j := List.drop_eq_nil_iff.mp hbs.symm
    have hj : j = (stream n).len := le_antisymm (h.inFlight j rfl).1 hle
    exact hj ▸ h
  | cons b bs ih =>
    have hj : j < (stream n).bytes.length := by
      by_contra hle
      rw [List.drop_eq_nil_of_le (Nat.not_lt.mp hle)] at hbs
      cases hbs
    rw [List.drop_eq_getElem_cons hj, List.cons.injEq] at hbs
    refine ih hbs.2 ?_
    have hstore := h.store_byte n j hj
    rwa [List.getD_eq_getElem _ _ hj, ← hbs.1] at hstore

theorem Image.publish {stream : Nat → Message cfg.blockSize} {n : Nat}
    (hover : cfg.overflow = .overwrite) (hn : n + 1 < 2 ^ 64)
    (h : Image cfg stream cells ⟨n, .fresh⟩) :
    Image cfg stream (Ring.publish cfg (stream n) cells) ⟨n + 1, .fresh⟩ := by
  have hlen := (h.store_mark n hover).store_len n (.inl rfl)
  have hcopy := hlen.copyPayload (show (stream n).bytes = (stream n).bytes.drop 0 from rfl)
  have hnext := (hcopy.store_stamp n).store_next n
  simp only [Ring.publish, Ring.fillSlot, h.nextPublish, if_pos hover, Nat.mod_eq_of_lt hn]
  exact hnext

def stored (log : List (Message cfg.blockSize)) (i : Nat) : Message cfg.blockSize :=
  log.getD i (.empty cfg.blockSize)

def Stocked (cfg : RingConfig) (cells : Loc → Nat) (log : List (Message cfg.blockSize)) : Prop :=
  Image cfg (stored log) cells ⟨log.length, .fresh⟩

namespace Stocked

variable {log : List (Message cfg.blockSize)} {want : Nat}

theorem publish (h : Stocked cfg cells log) (hover : cfg.overflow = .overwrite)
    (hn : log.length + 1 < 2 ^ 64) (msg : Message cfg.blockSize) :
    Stocked cfg (Ring.publish cfg msg cells) (log ++ [msg]) := by
  have hgrown : Image cfg (stored (log ++ [msg])) cells ⟨log.length, .fresh⟩ :=
    h.fresh_congr fun i hi => by simp [stored, List.getElem?_append_left hi]
  have hmsg : stored (log ++ [msg]) log.length = msg := by simp [stored]
  have hpublish := hgrown.publish hover hn
  rw [hmsg] at hpublish
  simpa [Stocked] using hpublish

theorem stamp (h : Stocked cfg cells log) :
    cells (.slotSeq (cfg.slot want)) =
      (lastBefore cfg.capacity log.length (cfg.slot want)).getD emptySeq := by
  rw [h.stamps _ (cfg.slot_lt want)]
  simp [Pos.stampAt, Pos.stampedCount, Pos.touched]

theorem stamp_inWindow (h : Stocked cfg cells log) (hw : InWindow cfg.capacity log.length want) :
    cells (.slotSeq (cfg.slot want)) = want := by
  rw [h.stamp, (lastBefore_eq_some (cfg.slot_lt want)).mpr
    ⟨hw.1, hw.2, (cfg.slot_eq_mod want).symm⟩, Option.getD_some]

theorem stamp_iff (h : Stocked cfg cells log) (hwant : want < writingSeq) :
    cells (.slotSeq (cfg.slot want)) = want ↔ InWindow cfg.capacity log.length want := by
  refine ⟨fun hs => ?_, h.stamp_inWindow⟩
  rw [h.stamp] at hs
  cases hl : lastBefore cfg.capacity log.length (cfg.slot want) with
  | none =>
    rw [hl, Option.getD_none] at hs
    unfold emptySeq at hs
    unfold writingSeq at hwant
    omega
  | some q =>
    rw [hl, Option.getD_some] at hs
    subst hs
    obtain ⟨h1, h2, -⟩ := (lastBefore_eq_some (cfg.slot_lt q)).mp hl
    exact ⟨h1, h2⟩

theorem classify (h : Stocked cfg cells log) (hn : log.length < writingSeq)
    (hwant : want < writingSeq) :
    Consumer.classify (cells (.slotSeq (cfg.slot want))) want =
      (BoundedLog.shown (lookup cfg.capacity log want)).1 := by
  have hne := h.stamp_iff hwant
  cases hlook : lookup cfg.capacity log want with
  | found msg =>
    obtain ⟨hmsg, hle⟩ := lookup_found_iff.mp hlook
    have hlt := (List.getElem?_eq_some_iff.mp hmsg).1
    exact if_pos (hne.mpr ⟨hlt, hle⟩)
  | absent =>
    have hle := lookup_absent_iff.mp hlook
    have hout : cells (.slotSeq (cfg.slot want)) ≠ want := fun hs => by
      have := (hne.mp hs).1
      omega
    rw [Consumer.classify, if_neg hout]
    split
    · rfl
    · refine if_pos ?_
      rw [h.stamp]
      cases hl : lastBefore cfg.capacity log.length (cfg.slot want) with
      | none => exact .inl rfl
      | some q =>
        have := ((lastBefore_eq_some (cfg.slot_lt want)).mp hl).1
        exact .inr (by rw [Option.getD_some]; omega)
  | lost =>
    have hlt := lookup_lost_iff.mp hlook
    have hout : cells (.slotSeq (cfg.slot want)) ≠ want := fun hs => by
      have := (hne.mp hs).2
      omega
    obtain ⟨q, hq⟩ : ∃ q, lastBefore cfg.capacity log.length (cfg.slot want) = some q := by
      refine Option.ne_none_iff_exists'.mp fun hnone => ?_
      have := lastBefore_eq_none.mp hnone
      have := cfg.slot_lt want
      omega
    obtain ⟨h1, h2, -⟩ := (lastBefore_eq_some (cfg.slot_lt want)).mp hq
    have hstamp : cells (.slotSeq (cfg.slot want)) = q := by rw [h.stamp, hq, Option.getD_some]
    rw [hstamp] at hout ⊢
    have hreal : ¬ (q = emptySeq ∨ q < want) := by
      unfold emptySeq
      unfold writingSeq at hn
      omega
    rw [Consumer.classify, if_neg hout, if_neg (by omega), if_neg hreal]
    rfl

theorem holds (h : Stocked cfg cells log) {msg : Message cfg.blockSize}
    (hlook : lookup cfg.capacity log want = .found msg) :
    Holds cfg cells msg (cfg.slot want) := by
  obtain ⟨hmsg, hle⟩ := lookup_found_iff.mp hlook
  have hlt := (List.getElem?_eq_some_iff.mp hmsg).1
  have hres : Pos.Resident cfg ⟨log.length, .fresh⟩ want := ⟨hlt, hle⟩
  have hcontent := h.content want hres
  rwa [stored, List.getD, hmsg] at hcontent

theorem stamp_found (h : Stocked cfg cells log) {msg : Message cfg.blockSize}
    (hlook : lookup cfg.capacity log want = .found msg) :
    cells (.slotSeq (cfg.slot want)) = want := by
  obtain ⟨hmsg, hle⟩ := lookup_found_iff.mp hlook
  exact h.stamp_inWindow ⟨(List.getElem?_eq_some_iff.mp hmsg).1, hle⟩

theorem stamp_missing (h : Stocked cfg cells log) (hwant : want < writingSeq)
    (hlook : ∀ msg, lookup cfg.capacity log want ≠ .found msg) :
    cells (.slotSeq (cfg.slot want)) ≠ want := fun heq => by
  obtain ⟨hlt, hle⟩ := (h.stamp_iff hwant).mp heq
  exact hlook _ (lookup_found_iff.mpr ⟨List.getElem?_eq_getElem hlt, hle⟩)

theorem read_status (h : Stocked cfg cells log) (hn : log.length < writingSeq) {s : Session}
    (hs : s.obj.next < writingSeq) : (s.readWhole cfg cells).obj.lastStatus =
      (BoundedLog.shown (lookup cfg.capacity log s.obj.next)).1 :=
  (Consumer.doRead_status _ _).trans (h.classify hn hs)

theorem read_span (h : Stocked cfg cells log) {s : Session} {msg : Message cfg.blockSize}
    (hlook : lookup cfg.capacity log s.obj.next = .found msg) :
    (s.readWhole cfg cells).span cfg cells = msg.bytes := by
  have hholds := h.holds hlook
  have hview := hholds.take (le_refl msg.len)
  rw [Message.len, List.take_length] at hview
  simp only [Session.span, Session.readWhole, Consumer.doRead, if_pos (h.stamp_found hlook),
    hholds.len]
  exact hview

theorem read_shown (h : Stocked cfg cells log) (hn : log.length < writingSeq) {s : Session}
    (hs : s.obj.next < writingSeq) :
    (if (s.readWhole cfg cells).obj.lastStatus = .ok then (s.readWhole cfg cells).span cfg cells
      else []) = (BoundedLog.shown (lookup cfg.capacity log s.obj.next)).2 := by
  rw [h.read_status hn hs]
  cases hlook : lookup cfg.capacity log s.obj.next with
  | found msg => exact h.read_span hlook
  | absent | lost => rfl

end Stocked

structure Tracks (s : Session) (r : Reader) (n : Nat) : Prop where
  pc : s.pc = .idle
  next : s.obj.next = r.next
  held : s.obj.readSeq = r.held
  next_le : r.next ≤ n ∨ r.next ≤ 1
  held_lt : r.held < n ∨ r.held = 0

def Follows (s : Session) : Option Reader → Nat → Prop
  | none, _ => s.pc = .unborn
  | some r, n => Tracks s r n

namespace Tracks

variable {log : List (Message cfg.blockSize)} {s : Session} {r : Reader} {n : Nat}

theorem mono {m : Nat} (h : Tracks s r n) (hm : n ≤ m) : Tracks s r m :=
  ⟨h.pc, h.next, h.held, h.next_le.imp_left (le_trans · hm),
    h.held_lt.imp_left (lt_of_lt_of_le · hm)⟩

theorem construct : Tracks (s.constructWhole cfg) ⟨0, 0⟩ n :=
  ⟨rfl, rfl, rfl, .inl (Nat.zero_le n), .inr rfl⟩

theorem next_lt (h : Tracks s r n) (hn : n < writingSeq) : s.obj.next < writingSeq := by
  rw [h.next]
  rcases h.next_le with hle | hle
  · exact hle.trans_lt hn
  · exact hle.trans_lt (by decide)

theorem held_lt_writing (h : Tracks s r n) (hn : n < writingSeq) : s.obj.readSeq < writingSeq := by
  rw [h.held]
  rcases h.held_lt with hlt | hzero
  · exact hlt.trans hn
  · exact hzero ▸ (by decide)

theorem commit (hn : log.length < writingSeq) (h : Tracks s r log.length) :
    Tracks s.commitWhole r.commit log.length where
  pc := rfl
  next := by
    have hsmall := h.held_lt_writing hn
    have hmod : (s.obj.readSeq + 1) % 2 ^ 64 = s.obj.readSeq + 1 :=
      Nat.mod_eq_of_lt (by unfold writingSeq at hsmall; omega)
    simp only [Session.commitWhole, Consumer.commit, hmod, Reader.commit]
    rw [h.held]
  held := h.held
  next_le := h.held_lt.imp id fun hzero => by simp [Reader.commit, hzero]
  held_lt := h.held_lt

theorem resync (hs : Stocked cfg cells log) (h : Tracks s r log.length) :
    Tracks (s.resyncWhole cfg cells) (r.resync cfg.capacity log.length) log.length where
  pc := rfl
  next := by
    simp only [Session.resyncWhole, Consumer.resync, hs.nextPublish, Reader.resync]
    split <;> omega
  held := h.held
  next_le := .inl (Nat.sub_le _ _)
  held_lt := h.held_lt

variable (hs : Stocked cfg cells log) (hn : log.length < writingSeq)
  (h : Tracks s r log.length)

include hs hn h

theorem read : Tracks (s.readWhole cfg cells) (r.read (lookup cfg.capacity log r.next))
    log.length := by
  cases hlook : lookup cfg.capacity log r.next with
  | found msg =>
    have hlt := (List.getElem?_eq_some_iff.mp (lookup_found_iff.mp hlook).1).1
    have hobj : s.obj.doRead (cells (.slotSeq (cfg.slot s.obj.next))) =
        { s.obj with readSeq := s.obj.next, lastStatus := .ok } :=
      if_pos (hs.stamp_found (h.next ▸ hlook))
    refine ⟨rfl, ?_, ?_, h.next_le, .inl hlt⟩
    · simp only [Session.readWhole, hobj]
      exact h.next
    · simp only [Session.readWhole, hobj]
      exact h.next
  | absent | lost =>
    have hne := hs.stamp_missing (h.next_lt hn) (by simp [h.next, hlook])
    refine ⟨rfl, ?_, ?_, h.next_le, h.held_lt⟩
    · simp only [Session.readWhole, Consumer.doRead, if_neg hne]
      exact h.next
    · simp only [Session.readWhole, Consumer.doRead, if_neg hne]
      exact h.held

theorem readCopy (outCap : Nat) : Tracks (s.readCopyWhole cfg cells outCap)
    (BoundedLog.readerAfter cfg.capacity log (.readCopy outCap) r) log.length := by
  cases hlook : lookup cfg.capacity log r.next with
  | found msg =>
    have hstamp := hs.stamp_found (h.next ▸ hlook)
    have hlt := (List.getElem?_eq_some_iff.mp (lookup_found_iff.mp hlook).1).1
    have hsmall := h.next_lt hn
    have hmod : (s.obj.next + 1) % 2 ^ 64 = s.obj.next + 1 :=
      Nat.mod_eq_of_lt (by unfold writingSeq at hsmall; omega)
    refine ⟨?_, ?_, ?_, ?_, ?_⟩
    · simp [Session.readCopyWhole, hstamp]
    · simp only [Session.readCopyWhole, if_pos hstamp, Consumer.doRead, Consumer.commit, hmod,
        BoundedLog.readerAfter, hlook, Reader.read, Reader.commit]
      rw [h.next]
    · simp only [Session.readCopyWhole, if_pos hstamp, Consumer.doRead, Consumer.commit,
        BoundedLog.readerAfter, hlook, Reader.read, Reader.commit]
      exact h.next
    · simp only [BoundedLog.readerAfter, hlook, Reader.read, Reader.commit]
      exact .inl hlt
    · simp only [BoundedLog.readerAfter, hlook, Reader.read, Reader.commit]
      exact .inl hlt
  | absent | lost =>
    have hne := hs.stamp_missing (h.next_lt hn) (by simp [h.next, hlook])
    simp only [BoundedLog.readerAfter, hlook]
    refine ⟨?_, ?_, ?_, h.next_le, h.held_lt⟩
    · simp only [Session.readCopyWhole, if_neg hne]
    · simp only [Session.readCopyWhole, if_neg hne, Consumer.doRead]
      exact h.next
    · simp only [Session.readCopyWhole, if_neg hne, Consumer.doRead]
      exact h.held

theorem readCopy_reply (outCap : Nat) :
    (s.readCopyWhole cfg cells outCap).reply cfg cells (.readCopy outCap) =
      BoundedLog.readerReply cfg.capacity log (.readCopy outCap) r := by
  have hstatus : (s.obj.doRead (cells (.slotSeq (cfg.slot s.obj.next)))).lastStatus =
      (BoundedLog.shown (lookup cfg.capacity log r.next)).1 :=
    (hs.read_status hn (h.next_lt hn)).trans (by rw [h.next])
  cases hlook : lookup cfg.capacity log r.next with
  | found msg =>
    have hstamp := hs.stamp_found (h.next ▸ hlook)
    have hholds := h.next ▸ hs.holds hlook
    have hmin : (if msg.len ≤ outCap then msg.len else outCap) = min msg.bytes.length outCap := by
      exact Nat.min_def.symm
    have hcopied := hholds.take (n := min msg.bytes.length outCap) (Nat.min_le_left _ _)
    have hout : (s.readCopyWhole cfg cells outCap).out = msg.bytes.take outCap := by
      simp only [Session.out, Session.readCopyWhole, if_pos hstamp, Session.copied, hholds.len,
        hmin, List.map_map]
      refine hcopied.trans ?_
      rw [List.take_eq_take_iff, Nat.min_assoc, Nat.min_comm, Nat.min_assoc, Nat.min_self]
    simp only [Session.reply, hout]
    simp [BoundedLog.readerReply, BoundedLog.shown, hlook, Session.readCopyWhole, hstamp, hmin,
      hholds.len, Consumer.doRead, Consumer.commit]
  | absent | lost =>
    have hne := hs.stamp_missing (h.next_lt hn) (by simp [h.next, hlook])
    rw [hlook] at hstatus
    simp [BoundedLog.readerReply, hlook, Session.reply, Session.readCopyWhole, hne, hstatus,
      BoundedLog.shown]

theorem validated : (s.validateWhole cfg cells).validated =
    decide (InWindow cfg.capacity log.length r.held) := by
  have hiff := hs.stamp_iff (h.held_lt_writing hn)
  rw [h.held] at hiff
  simp only [Session.validateWhole, h.held, hiff]

theorem act {k : Act} (hk : k ≠ .construct) :
    Tracks (s.after cfg cells k) (BoundedLog.readerAfter cfg.capacity log k r) log.length ∧
      (s.after cfg cells k).reply cfg cells k = BoundedLog.readerReply cfg.capacity log k r := by
  cases k with
  | construct => exact absurd rfl hk
  | read =>
    refine ⟨h.read hs hn, ?_⟩
    simp only [Session.reply, BoundedLog.readerReply, Reply.shown.injEq]
    exact h.next ▸ ⟨hs.read_status hn (h.next_lt hn), hs.read_shown hn (h.next_lt hn)⟩
  | readCopy outCap => exact ⟨h.readCopy hs hn outCap, h.readCopy_reply hs hn outCap⟩
  | validate =>
    exact ⟨⟨rfl, h.next, h.held, h.next_le, h.held_lt⟩, congrArg Reply.valid (h.validated hs hn)⟩
  | commit => exact ⟨h.commit hn, rfl⟩
  | resync => exact ⟨h.resync hs, rfl⟩

end Tracks

variable {ι : Type}

structure Refines (cfg : RingConfig) (ops : List (Op ι cfg.blockSize)) (ρ : RingState ι)
    (b : BoundedLog ι cfg.blockSize) : Prop where
  stocked : Stocked cfg ρ.cells b.entries
  follows : ∀ c, Follows (ρ.consumer c) (b.reader c) b.entries.length
  short : b.entries.length + (published ops).length < writingSeq

namespace Refines

variable {ops : List (Op ι cfg.blockSize)} {ρ : RingState ι} {b : BoundedLog ι cfg.blockSize}

theorem booted (fresh : Loc → Nat) (hn : (published ops).length < writingSeq) :
    Refines cfg ops (Ring.booted ι cfg fresh) (.start ι cfg.blockSize) where
  stocked := Image.init fresh
  follows _ := rfl
  short := by simpa [BoundedLog.start] using hn

variable [DecidableEq ι]

theorem seat {c : ι} {s : Session} {r : Reader} (h : Refines cfg ops ρ b)
    (hs : Tracks s r b.entries.length) :
    Refines cfg ops { ρ with consumer := update ρ.consumer c s }
      { b with reader := update b.reader c (some r) } where
  stocked := h.stocked
  follows c' := by
    rcases eq_or_ne c' c with rfl | hc
    · simp only [update_self]
      exact hs
    · simp only [update_of_ne hc]
      exact h.follows c'
  short := h.short

theorem step_act {c : ι} {k : Act} (h : Refines cfg (.act c k :: ops) ρ b) :
    Option.Rel (fun a a' => a.1 = a'.1 ∧ Refines cfg ops a.2 a'.2)
      (Op.apply cfg (.act c k) ρ) (BoundedLog.apply cfg.capacity (.act c k) b) := by
  have hn : b.entries.length < writingSeq := (Nat.le_add_right _ _).trans_lt h.short
  have hrest : Refines cfg ops ρ b := ⟨h.stocked, h.follows, h.short⟩
  have hc := h.follows c
  simp only [Op.apply, BoundedLog.apply]
  cases hr : b.reader c with
  | none =>
    have hpc : (ρ.consumer c).pc = .unborn := by rwa [hr] at hc
    by_cases hk : k = .construct
    · subst hk
      rw [if_pos (show (ρ.consumer c).pc = Act.construct.entry from hpc)]
      exact .some ⟨rfl, hrest.seat .construct⟩
    · have hentry : (ρ.consumer c).pc ≠ k.entry := by
        rw [hpc]
        cases k <;> simp_all [Act.entry]
      rw [if_neg hentry, BoundedLog.enter, if_neg hk]
      exact .none
  | some r =>
    have htracks : Tracks (ρ.consumer c) r b.entries.length := by rwa [hr] at hc
    by_cases hk : k = .construct
    · subst hk
      rw [if_neg (by rw [htracks.pc]; simp [Act.entry]), BoundedLog.enter, if_pos rfl]
      exact .none
    · have hentry : (ρ.consumer c).pc = k.entry := by
        rw [htracks.pc]
        cases k <;> simp_all [Act.entry]
      rw [if_pos hentry, BoundedLog.enter, if_neg hk]
      obtain ⟨hafter, hreply⟩ := htracks.act h.stocked hn hk
      exact .some ⟨hreply, hrest.seat hafter⟩

theorem step_publish (hover : cfg.overflow = .overwrite) {msg : Message cfg.blockSize}
    (h : Refines cfg (.publish msg :: ops) ρ b) :
    Option.Rel (fun a a' => a.1 = a'.1 ∧ Refines cfg ops a.2 a'.2)
      (Op.apply cfg (.publish msg) ρ) (BoundedLog.apply cfg.capacity (.publish msg) b) := by
  have hshort := h.short
  have hgrow : (b.entries ++ [msg]).length = b.entries.length + 1 := by simp
  rw [published, List.length_cons] at hshort
  refine .some ⟨?_, ?_, fun c => ?_, ?_⟩
  · exact congrArg Reply.published h.stocked.nextPublish
  · exact h.stocked.publish hover (by unfold writingSeq at hshort; omega) msg
  · have hc := h.follows c
    rw [hgrow]
    cases hr : b.reader c with
    | none => rwa [hr] at hc
    | some r =>
      rw [hr] at hc
      exact Tracks.mono hc (Nat.le_succ _)
  · rw [hgrow]
    omega

theorem step (hover : cfg.overflow = .overwrite) {op : Op ι cfg.blockSize}
    (h : Refines cfg (op :: ops) ρ b) :
    Option.Rel (fun a a' => a.1 = a'.1 ∧ Refines cfg ops a.2 a'.2)
      (op.apply cfg ρ) (BoundedLog.apply cfg.capacity op b) := by
  cases op with
  | publish msg => exact h.step_publish hover
  | act c k => exact h.step_act

theorem run (hover : cfg.overflow = .overwrite) {rest : List (Op ι cfg.blockSize)}
    (h : Refines cfg (ops ++ rest) ρ b) :
    Option.Rel (fun a a' => a.1 = a'.1 ∧ Refines cfg rest a.2 a'.2)
      ((Ring.machine ι cfg).run ops ρ)
      ((BoundedLog.machine ι cfg.blockSize cfg.capacity).run ops b) :=
  Machine.run_simulate (R := fun ops => Refines cfg (ops ++ rest))
    (fun _ _ _ _ h => h.step hover) h

end Refines

end Shimmy
