import Shimmy.Log.Bounded

namespace Shimmy

open Concurrency Function

namespace BoundedLog

variable {ι : Type} {blockSize cap : Nat}

def rounds (ι : Type) (blockSize : Nat) (c : ι) (n : Nat) : List (Op ι blockSize) :=
  (List.replicate n [.act c .read, .act c .commit]).flatten

theorem published_rounds (c : ι) (n : Nat) : published (rounds ι blockSize c n) = [] := by
  induction n with
  | zero => rfl
  | succ n ih => simpa [rounds, List.replicate_succ, published] using ih

variable [DecidableEq ι]

theorem apply_act (cap : Nat) {c : ι} {k : Act} {b : BoundedLog ι blockSize} {r : Reader}
    (hr : b.reader c = some r) (hk : k ≠ .construct) :
    apply cap (.act c k) b = some (readerReply cap b.entries k r,
      { b with reader := update b.reader c (some (readerAfter cap b.entries k r)) }) := by
  simp [apply, hr, enter, hk]

theorem run_entries {ops : List (Op ι blockSize)} {b b' : BoundedLog ι blockSize}
    {rs : List Reply} (h : (machine ι blockSize cap).run ops b = some (rs, b')) :
    b'.entries = b.entries ++ published ops := by
  induction ops generalizing b rs with
  | nil =>
    cases h
    exact (List.append_nil _).symm
  | cons op ops ih =>
    obtain ⟨r, b₁, qs, hop, hrun, -⟩ := Machine.run_cons_iff.mp h
    rw [ih hrun]
    cases op with
    | publish msg =>
      cases hop
      simp [published]
    | act c k =>
      obtain ⟨r, -, hb⟩ := Option.map_eq_some_iff.mp hop
      cases hb
      rfl

theorem apply_held {c : ι} {op : Op ι blockSize} {b b' : BoundedLog ι blockSize} {r : Reader}
    {q : Reply} (hop : ∀ k, op = .act c k → k ≠ .read ∧ ∀ outCap, k ≠ .readCopy outCap)
    (hr : b.reader c = some r) (h : apply cap op b = some (q, b')) :
    ∃ r', b'.reader c = some r' ∧ r'.held = r.held := by
  cases op with
  | publish msg =>
    cases h
    exact ⟨r, hr, rfl⟩
  | act d k =>
    obtain ⟨r₀, henter, hb⟩ := Option.map_eq_some_iff.mp h
    cases hb
    rcases eq_or_ne d c with rfl | hd
    · obtain ⟨hread, hcopy⟩ := hop k rfl
      rw [hr, enter] at henter
      split at henter
      · cases henter
      · cases henter
        refine ⟨_, update_self _ _ _, ?_⟩
        cases k with
        | construct => exact absurd rfl ‹_›
        | read => exact absurd rfl hread
        | readCopy outCap => exact absurd rfl (hcopy outCap)
        | validate | commit | resync => rfl
    · exact ⟨r, (update_of_ne (Ne.symm hd) _ _).trans hr, rfl⟩

theorem lost_of_reply {log : List (Message blockSize)} {r : Reader} {bytes : List Nat}
    (h : readerReply cap log .read r = .shown .lapped bytes) :
    lookup cap log r.next = .lost := by
  simp only [readerReply, Reply.shown.injEq] at h
  cases hlook : lookup cap log r.next with
  | lost => rfl
  | absent | found msg =>
    rw [hlook] at h
    cases h.1

theorem readerAfter_read {log : List (Message blockSize)} {r : Reader} {bytes : List Nat}
    (h : readerReply cap log .read r = .shown .ok bytes) :
    readerAfter cap log .read r = { r with held := r.next } := by
  simp only [readerReply, Reply.shown.injEq] at h
  simp only [readerAfter]
  cases hlook : lookup cap log r.next with
  | found msg => rfl
  | absent | lost =>
    rw [hlook] at h
    cases h.1

def deliveries (msgs : List (Message blockSize)) : List Reply :=
  msgs.flatMap fun msg => [.shown .ok msg.bytes, .done]

theorem run_round {c : ι} {b : BoundedLog ι blockSize} {r : Reader} {msg : Message blockSize}
    (hr : b.reader c = some r) (hlook : lookup cap b.entries r.next = .found msg) :
    (machine ι blockSize cap).run [.act c .read, .act c .commit] b =
      some ([.shown .ok msg.bytes, .done],
        { b with reader := update b.reader c (some ⟨r.next + 1, r.next⟩) }) := by
  have hread := apply_act cap (k := .read) hr (by simp)
  have hcommit := apply_act cap (k := .commit)
    (b := { b with reader := update b.reader c (some (readerAfter cap b.entries .read r)) })
    (update_self _ _ _) (by simp)
  refine (Machine.run_cons hread (Machine.run_cons hcommit rfl)).trans ?_
  simp [readerReply, readerAfter, hlook, shown, Reader.read, Reader.commit]

theorem drain (cap : Nat) {c : ι} {b : BoundedLog ι blockSize} {r : Reader}
    (hr : b.reader c = some r) (hw : b.entries.length ≤ r.next + cap) :
    ∃ b', (machine ι blockSize cap).run
        (rounds ι blockSize c (b.entries.length - r.next) ++ [.act c .read]) b =
      some (deliveries (b.entries.drop r.next) ++ [.shown .empty []], b') := by
  induction hm : b.entries.length - r.next generalizing b r with
  | zero =>
    have hle : b.entries.length ≤ r.next := by omega
    have hread := apply_act cap (k := .read) hr (by simp)
    rw [readerReply, lookup_absent_iff.mpr hle] at hread
    rw [List.drop_eq_nil_of_le hle]
    exact ⟨_, Machine.run_cons hread rfl⟩
  | succ m ih =>
    have hlt : r.next < b.entries.length := by omega
    have hround := run_round hr (lookup_found_iff.mpr ⟨List.getElem?_eq_getElem hlt, hw⟩)
    obtain ⟨b', hrest⟩ := ih (r := ⟨r.next + 1, r.next⟩)
      (b := { b with reader := update b.reader c (some ⟨r.next + 1, r.next⟩) })
      (update_self _ _ _) (show b.entries.length ≤ r.next + 1 + cap by omega)
      (show b.entries.length - (r.next + 1) = m by omega)
    refine ⟨b', ?_⟩
    rw [List.drop_eq_getElem_cons hlt]
    simpa only [rounds, deliveries, List.replicate_succ, List.flatten_cons, List.flatMap_cons,
      List.append_assoc] using Machine.run_append hround hrest

end BoundedLog

variable {ι : Type} [DecidableEq ι]

def Classifies (cfg : RingConfig) (log : List (Message cfg.blockSize)) (cells : Loc → Nat) :
    Prop :=
  ∀ want < 2 ^ 64 - 2, ∀ s : Session, s.obj.next = want →
    let t := s.readWhole cfg cells
    (t.obj.lastStatus = .ok ↔ log.length - cfg.capacity ≤ want ∧ want < log.length) ∧
      (t.obj.lastStatus = .ok →
        ∃ msg, log[want]? = some msg ∧ t.span cfg cells = msg.bytes) ∧
      (t.obj.lastStatus = .empty ↔ log.length ≤ want) ∧
      (t.obj.lastStatus = .lapped ↔ want + cfg.capacity < log.length)

def Validates (cfg : RingConfig) (ops : List (Op ι cfg.blockSize)) (ρ₀ ρ : RingState ι) : Prop :=
  ∀ c before after r₁ r₂ ρ₁ ρ₂ bytes,
    ops = before ++ .act c .read :: after →
    (Ring.machine ι cfg).run before ρ₀ = some (r₁, ρ₁) →
    Op.apply cfg (.act c .read) ρ₁ = some (.shown .ok bytes, ρ₂) →
    (Ring.machine ι cfg).run after ρ₂ = some (r₂, ρ) →
    (∀ op ∈ after, ∀ k, op = .act c k → k ≠ .read ∧ ∀ outCap, k ≠ .readCopy outCap) →
    ∃ b ρ', Op.apply cfg (.act c .validate) ρ = some (.valid b, ρ') ∧
      (b = true ↔ InWindow cfg.capacity (published ops).length (ρ₁.consumer c).obj.next)

def Drains (cfg : RingConfig) (log : List (Message cfg.blockSize)) (ρ : RingState ι) : Prop :=
  ∀ c bytes ρ', Op.apply cfg (.act c .read) ρ = some (.shown .lapped bytes, ρ') →
    ∃ ρ'', (Ring.machine ι cfg).run
        (.act c .resync :: BoundedLog.rounds ι cfg.blockSize c cfg.capacity ++ [.act c .read]) ρ' =
      some (.done :: BoundedLog.deliveries (log.drop (log.length - cfg.capacity)) ++
        [.shown .empty []], ρ'')

theorem Stocked.classifies {cfg : RingConfig} {log : List (Message cfg.blockSize)}
    {cells : Loc → Nat} (hs : Stocked cfg cells log) (hn : log.length < writingSeq) :
    Classifies cfg log cells := by
  rintro want hwant s rfl
  have hstatus := hs.read_status hn hwant
  dsimp only
  rw [hstatus]
  cases hlook : lookup cfg.capacity log s.obj.next with
  | found msg =>
    obtain ⟨hmsg, hle⟩ := lookup_found_iff.mp hlook
    have hlt := (List.getElem?_eq_some_iff.mp hmsg).1
    simp only [BoundedLog.shown]
    exact ⟨by simp; omega, fun _ => ⟨msg, hmsg, hs.read_span hlook⟩, by simp; omega, by simp; omega⟩
  | absent =>
    have hle := lookup_absent_iff.mp hlook
    simp only [BoundedLog.shown]
    exact ⟨by simp; omega, by simp, by simp; omega, by simp; omega⟩
  | lost =>
    have hlt := lookup_lost_iff.mp hlook
    simp only [BoundedLog.shown]
    exact ⟨by simp; omega, by simp, by simp; omega, by simp; omega⟩

namespace Refines

variable {cfg : RingConfig} {ops : List (Op ι cfg.blockSize)} {ρ ρ' : RingState ι}
  {b : BoundedLog ι cfg.blockSize}

theorem exists_run (hover : cfg.overflow = .overwrite) {rest : List (Op ι cfg.blockSize)}
    (h : Refines cfg (ops ++ rest) ρ b) {rs : List Reply}
    (hrun : (Ring.machine ι cfg).run ops ρ = some (rs, ρ')) :
    ∃ b', (BoundedLog.machine ι cfg.blockSize cfg.capacity).run ops b = some (rs, b') ∧
      Refines cfg rest ρ' b' := by
  obtain ⟨⟨qs, b'⟩, hb, hreply, href⟩ := exists_of_rel_left (h.run hover) hrun
  exact ⟨b', by rw [hb, show rs = qs from hreply], href⟩

theorem exists_step (hover : cfg.overflow = .overwrite) {op : Op ι cfg.blockSize}
    (h : Refines cfg (op :: ops) ρ b) {r : Reply} (hop : op.apply cfg ρ = some (r, ρ')) :
    ∃ b', BoundedLog.apply cfg.capacity op b = some (r, b') ∧ Refines cfg ops ρ' b' := by
  obtain ⟨⟨q, b'⟩, hb, hreply, href⟩ := exists_of_rel_left (h.step hover) hop
  exact ⟨b', by rw [hb, show r = q from hreply], href⟩

theorem exists_reader {c : ι} {k : Act} {r : Reply} (h : Refines cfg ops ρ b)
    (hk : k ≠ .construct) (hop : Op.apply cfg (.act c k) ρ = some (r, ρ')) :
    ∃ q, b.reader c = some q ∧ Tracks (ρ.consumer c) q b.entries.length := by
  have hc := h.follows c
  cases hq : b.reader c with
  | none =>
    rw [hq] at hc
    simp only [Op.apply] at hop
    split at hop
    · rename_i hentry
      rw [show (ρ.consumer c).pc = .unborn from hc] at hentry
      cases k <;> simp_all [Act.entry]
    · cases hop
  | some q =>
    rw [hq] at hc
    exact ⟨q, rfl, hc⟩

theorem validates (hover : cfg.overflow = .overwrite) {ρ₀ : RingState ι}
    {b₀ : BoundedLog ι cfg.blockSize} (h : Refines cfg ops ρ₀ b₀) (hempty : b₀.entries = []) :
    Validates cfg ops ρ₀ ρ := by
  rintro c before after r₁ r₂ ρ₁ ρ₂ bytes rfl hbefore hread hafter hquiet
  obtain ⟨b₁, hb₁, href₁⟩ := h.exists_run hover hbefore
  obtain ⟨q, hq, htracks⟩ := href₁.exists_reader (by simp) hread
  obtain ⟨b₂, hb₂, href₂⟩ := href₁.exists_step hover hread
  have hget := BoundedLog.apply_act cfg.capacity (k := .read) hq (by simp)
  obtain ⟨hreply, hb⟩ := Prod.mk.inj (Option.some.inj (hget.symm.trans hb₂))
  have hheld : ∃ q₂, b₂.reader c = some q₂ ∧ q₂.held = (ρ₁.consumer c).obj.next := by
    subst hb
    exact ⟨_, update_self _ _ _, by rw [BoundedLog.readerAfter_read hreply, htracks.next]⟩
  rw [← List.append_nil after] at href₂
  obtain ⟨b₃, hb₃, href₃⟩ := href₂.exists_run hover hafter
  obtain ⟨q₃, hq₃, hsame⟩ := Machine.run_invariant
    (I := fun b => ∃ q, b.reader c = some q ∧ q.held = (ρ₁.consumer c).obj.next) hb₃ hheld
    fun op hmem b₄ b₅ r hI hop => by
      obtain ⟨q₄, hq₄, hs⟩ := hI
      obtain ⟨q₅, hq₅, hs'⟩ := BoundedLog.apply_held (hquiet op hmem) hq₄ hop
      exact ⟨q₅, hq₅, hs'.trans hs⟩
  have hentries : b₃.entries = published (before ++ .act c .read :: after) := by
    rw [BoundedLog.run_entries hb₃, ← hb, published_append]
    exact congrArg (· ++ published after)
      ((BoundedLog.run_entries hb₁).trans (by rw [hempty, List.nil_append]))
  have hready : Refines cfg [.act c .validate] ρ b₃ := ⟨href₃.stocked, href₃.follows, href₃.short⟩
  have hvalid := BoundedLog.apply_act cfg.capacity (k := .validate) hq₃ (by simp)
  obtain ⟨⟨r, ρ'⟩, hop, hr, -⟩ := exists_of_rel_right (hready.step hover) hvalid
  refine ⟨_, ρ', by rw [hop, show r = _ from hr]; rfl, ?_⟩
  rw [decide_eq_true_iff, hentries, hsame]

theorem drains (hover : cfg.overflow = .overwrite) (h : Refines cfg [] ρ b) :
    Drains cfg b.entries ρ := by
  intro c bytes ρ' hread
  obtain ⟨q, hq, -⟩ := h.exists_reader (by simp) hread
  have hready : Refines cfg [.act c .read] ρ b := ⟨h.stocked, h.follows, h.short⟩
  obtain ⟨b₁, hb₁, href₁⟩ := hready.exists_step hover hread
  have hget := BoundedLog.apply_act cfg.capacity (k := .read) hq (by simp)
  obtain ⟨hreply, hb⟩ := Prod.mk.inj (Option.some.inj (hget.symm.trans hb₁))
  have hlost := lookup_lost_iff.mp (BoundedLog.lost_of_reply hreply)
  have hentries : b₁.entries = b.entries := hb ▸ rfl
  obtain ⟨q₁, hq₁⟩ : ∃ q₁, b₁.reader c = some q₁ := by
    rw [← hb]
    exact ⟨_, update_self _ _ _⟩
  have hresync : (BoundedLog.machine ι cfg.blockSize cfg.capacity).step (.act c .resync) b₁ = _ :=
    BoundedLog.apply_act cfg.capacity hq₁ (by simp)
  rw [← hentries] at hlost ⊢
  have hcap : b₁.entries.length - (b₁.entries.length - cfg.capacity) = cfg.capacity := by omega
  obtain ⟨b₂, hdrain⟩ := BoundedLog.drain cfg.capacity (c := c)
    (b := { b₁ with reader := update b₁.reader c (some (q₁.resync cfg.capacity
      b₁.entries.length)) })
    (update_self _ _ _) (Nat.le_add_of_sub_le le_rfl)
  simp only [Reader.resync, hcap] at hdrain
  have hready : Refines cfg ((.act c .resync :: BoundedLog.rounds ι cfg.blockSize c cfg.capacity ++
      [.act c .read]) ++ []) ρ' b₁ := by
    refine ⟨href₁.stocked, href₁.follows, ?_⟩
    rw [List.append_nil, published_append]
    simpa [published, BoundedLog.published_rounds] using href₁.short
  have hlog := Machine.run_cons (M := BoundedLog.machine ι cfg.blockSize cfg.capacity)
    hresync hdrain
  obtain ⟨⟨rs, ρ''⟩, hrun, hrs, -⟩ := exists_of_rel_right (hready.run hover) hlog
  exact ⟨ρ'', hrun.trans (by rw [show rs = _ from hrs]; rfl)⟩

end Refines

theorem bounded_log {cfg : RingConfig} (hover : cfg.overflow = .overwrite) (fresh : Loc → Nat)
    (ops : List (Op ι cfg.blockSize)) (hn : (published ops).length < 2 ^ 64 - 2) :
    let ring := (Ring.machine ι cfg).run ops (Ring.booted ι cfg fresh)
    let log := (BoundedLog.machine ι cfg.blockSize cfg.capacity).run ops
      (.start ι cfg.blockSize)
    ring.map Prod.fst = log.map Prod.fst ∧
      ∀ rs ρ, ring = some (rs, ρ) →
        Classifies cfg (published ops) ρ.cells ∧
          Validates cfg ops (Ring.booted ι cfg fresh) ρ ∧
          Drains cfg (published ops) ρ ∧
          (Setup.serial ι cfg (published ops)).lts.Reaches
            ((Setup.serial ι cfg (published ops)).initial fresh)
            (Setup.resting ρ (published ops).length) := by
  have hbooted : Refines cfg ops (Ring.booted ι cfg fresh) (.start ι cfg.blockSize) :=
    .booted fresh hn
  rw [← List.append_nil ops] at hbooted
  intro ring log
  refine ⟨?_, fun rs ρ hring => ?_⟩
  · have hrel : Option.Rel _ ring log := hbooted.run hover
    generalize ring = x, log = y at hrel
    cases hrel with
    | none => rfl
    | some hab => exact congrArg some hab.1
  · obtain ⟨b, hb, href⟩ := hbooted.exists_run hover hring
    have hentries : b.entries = published ops := BoundedLog.run_entries hb
    rw [List.append_nil] at hbooted
    refine ⟨?_, hbooted.validates hover rfl, ?_, Setup.serial_run hover hring⟩
    · exact hentries ▸ href.stocked.classifies ((Nat.le_add_right _ _).trans_lt href.short)
    · exact hentries ▸ href.drains hover

theorem bounded_log_pair :
    (let cfg := RingConfig.pair .overwrite 1 .spin (by decide) (by decide)
    let ops : List (Op Nat cfg.blockSize) := [.act 0 .construct, .publish (.ofByte 7),
      .publish (.ofByte 8), .publish (.ofByte 9), .act 0 .read]
    let ring := (Ring.machine Nat cfg).run ops (Ring.booted Nat cfg fun _ => 0)
    ring.map Prod.fst = some [.done, .published 0, .published 1, .published 2,
        .shown .lapped []] ∧
      ∀ rs ρ, ring = some (rs, ρ) → Drains cfg (published ops) ρ) := by
  intro cfg ops ring
  obtain ⟨hreplies, hstate⟩ := bounded_log (show cfg.overflow = .overwrite from rfl) (fun _ => 0) ops
    (by decide)
  exact ⟨hreplies, fun rs ρ hring => (hstate rs ρ hring).2.2.1⟩

end Shimmy
