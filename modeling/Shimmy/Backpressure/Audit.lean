import Shimmy.Backpressure.Table

namespace Shimmy

open Concurrency Function

def SessionPc.joining : SessionPc → Bool
  | .unborn => true
  | .claimCursor _ _ => true
  | .initCursor _ _ => true
  | _ => false

theorem SessionPc.arriving_of_joining {pc : SessionPc} (h : pc.joining = true) :
    pc.arriving = true := by
  cases pc <;> first | rfl | cases h

namespace Session

def authors (cfg : RingConfig) (s : Session) : Option Nat :=
  match s.stored cfg with
  | some (.cursorValue i) => some i
  | _ => none

def claims (cells : Loc → Nat) (s : Session) : Option Nat :=
  match s.pc with
  | .claimCursor i _ => if cells (.cursorInUse i) = 0 then some i else none
  | _ => none

end Session

namespace Session

theorem Moves.joining {cfg : RingConfig} {cells : Loc → Nat} {s s' : Session}
    (h : s.Moves cfg cells s') (hj : s'.pc.joining = true) : s.pc.joining = true := by
  have ha := (h.arriving (SessionPc.arriving_of_joining hj)).1
  cases hpc : s.pc with
  | attachProduced =>
    cases h with
    | control hn =>
      rw [hpc] at hn
      cases hn
    | attached _ =>
      have hlive : (s.seek cfg (cells .nextPublish)).pc.arriving = false := arriving_cursorPc _
      rw [SessionPc.arriving_of_joining hj] at hlive
      cases hlive
    | _ => simp_all
  | unborn => rfl
  | claimCursor i attach => rfl
  | initCursor i attach => rfl
  | _ =>
    rw [hpc] at ha
    cases ha

end Session

structure Audit (ι : Type) where
  system : System ι
  author : Nat → Option ι
  claimant : Nat → Option ι

def sign {ι : Type} (book : Nat → Option ι) (c : ι) : Option Nat → Nat → Option ι
  | some i => update book i (some c)
  | none => book

namespace Audit

variable {ι : Type}

def record (S : Setup ι) (ρ : Audit ι) (σ : System ι) : Label ι → Audit ι
  | .consumer c =>
      { system := σ
        author := sign ρ.author c ((ρ.system.consumer c).authors S.cfg)
        claimant := sign ρ.claimant c ((ρ.system.consumer c).claims ρ.system.memory.cells) }
  | _ => { ρ with system := σ }

end Audit

namespace Setup

variable {ι : Type} (S : Setup ι)

def opened (fresh : Loc → Nat) : Audit ι := ⟨S.initial fresh, fun _ => none, fun _ => none⟩

def audit [DecidableEq ι] : Lts (Label ι) (Audit ι) where
  step l ρ := (S.step l ρ.system).map fun σ => ρ.record S σ l

end Setup

theorem Producer.awaitValue_of_exec {ι : Type} [DecidableEq ι] {cfg : RingConfig}
    {stream : Nat → Message cfg.blockSize} {model : Model} {key : Loc → Nat × Nat}
    {p p' : Producer} {m m' : RingMemory ι} {seq i : Nat}
    (h : m.exec model key .producer (p.code cfg stream) = some (p', m'))
    (hpc : p'.pc = .awaitValue seq i) : m.read .producer (.cursorInUse i) ≠ 0 := by
  have hbegin (n : Nat) : cfg.beginWrite n ≠ .awaitValue seq i := by
    unfold RingConfig.beginWrite
    split <;> simp
  have hfrom (n j : Nat) : cfg.awaitFrom n j ≠ .awaitValue seq i := by
    unfold RingConfig.awaitFrom
    split
    · simp
    · exact hbegin n
  obtain ⟨pc, n⟩ := p
  cases pc with
  | idle =>
    cases h
    dsimp only at hpc
    unfold RingConfig.publishFrom at hpc
    split at hpc
    · exact absurd hpc (hfrom _ _)
    · exact absurd hpc (hbegin _)
  | awaitInUse seq' j =>
    cases h
    dsimp only at hpc
    split at hpc
    · exact absurd hpc (hfrom _ _)
    · cases hpc
      assumption
  | awaitValue seq' j =>
    cases h
    dsimp only at hpc
    split at hpc
    · exact absurd hpc (hfrom _ _)
    · exact absurd hpc (hfrom _ _)
  | storeLen seq' =>
    have hl := Memory.exec_leads h
    obtain rfl := hl
    dsimp only [copyFrom] at hpc
    split at hpc <;> cases hpc
  | copy seq' j =>
    have hl := Memory.exec_leads h
    obtain rfl := hl
    dsimp only [copyFrom] at hpc
    split at hpc <;> cases hpc
  | mark seq' =>
    have hl := Memory.exec_leads h
    obtain rfl := hl
    cases hpc
  | stamp seq' =>
    have hl := Memory.exec_leads h
    obtain rfl := hl
    cases hpc
  | advance seq' =>
    have hl := Memory.exec_leads h
    obtain rfl := hl
    split at hpc <;> cases hpc
  | notify seq' =>
    cases h
    dsimp only at hpc
    split at hpc <;> cases hpc
  | wake seq' =>
    cases h
    cases hpc

namespace Backpressure

variable {ι : Type} {S : Setup ι} {ρ ρ' : Audit ι} {l : Label ι}

structure Audited (S : Setup ι) (ρ : Audit ι) : Prop where
  empty : Setup.BuffersEmpty ρ.system
  table : Table S ρ.system
  owner : ∀ c i, (ρ.system.consumer c).cursor S.cfg = some i → ρ.claimant i = some c
  stranger : ∀ c i, (ρ.system.consumer c).pc.joining = true → ρ.author i ≠ some c
  current : ∀ i, (∀ c attach, (ρ.system.consumer c).pc ≠ .initCursor i attach) →
    ρ.author i = ρ.claimant i
  watched : ∀ seq i, ρ.system.producer.pc = .awaitValue seq i → ρ.claimant i ≠ none

def Judged (l : Label ι) (ρ : Audit ι) : Prop :=
  l = .producer → ∀ seq i, ρ.system.producer.pc = .awaitValue seq i →
    ∃ c, ρ.author i = some c ∧ ρ.claimant i = some c

def Initialised (l : Label ι) (ρ : Audit ι) : Prop :=
  l = .producer → ∀ seq i, ρ.system.producer.pc = .awaitValue seq i →
    ∀ c attach, (ρ.system.consumer c).pc ≠ .initCursor i attach

namespace Audited

theorem initial (fresh : Loc → Nat) : Audited S (S.opened fresh) where
  empty _ := rfl
  table := .initial fresh
  owner c i h := by cases h
  stranger c i _ h := by cases h
  current i _ := rfl
  watched seq i h := by cases h

theorem judged_iff (h : Audited S ρ) : Judged l ρ ↔ Initialised l ρ := by
  constructor
  · intro hjudged hl seq i hpc c attach hinit
    obtain ⟨b, hauthor, hclaimant⟩ := hjudged hl seq i hpc
    have hcur : (ρ.system.consumer c).cursor S.cfg = some i := by
      rw [Session.cursor, hinit]
      rfl
    obtain rfl : c = b := Option.some.inj ((h.owner c i hcur).symm.trans hclaimant)
    exact h.stranger c i (by rw [hinit]; rfl) hauthor
  · intro hinit hl seq i hpc
    obtain ⟨c, hc⟩ := Option.ne_none_iff_exists'.mp (h.watched seq i hpc)
    exact ⟨c, (h.current i (hinit hl seq i hpc)).trans hc, hc⟩

variable [DecidableEq ι]

theorem producer_step (h : Audited S ρ) {p : Producer} {m : RingMemory ι}
    (hempty : ∀ t, m.buffer t = [])
    (htable : Table S { ρ.system with producer := p, memory := m })
    (hx : ρ.system.memory.exec .sc (S.key .producer) .producer
      (ρ.system.producer.code S.cfg S.stream) = some (p, m)) :
    Audited S { ρ with system := { ρ.system with producer := p, memory := m } } := by
  refine ⟨hempty, htable, h.owner, h.stranger, h.current, ?_⟩
  intro seq i hpc
  have hread := Producer.awaitValue_of_exec hx hpc
  rw [Memory.read_eq_cells (by simp [h.empty _])] at hread
  have howned : ∃ c, (ρ.system.consumer c).cursor S.cfg = some i := by
    by_contra hnone
    exact hread (h.table.free i fun c hc => hnone ⟨c, hc⟩)
  obtain ⟨c, hc⟩ := howned
  rw [h.owner c i hc]
  simp

theorem call_step (hbp : S.cfg.overflow = .backpressure) (h : Audited S ρ) {c : ι} {k : Call}
    (hk : (ρ.system.consumer c).enabled k = true) :
    Audited S { ρ with system := { ρ.system with
      consumer := update ρ.system.consumer c
        (((ρ.system.consumer c).noteCall k).enter S.cfg k) } } := by
  have hborn := Session.pc_of_enabled hk
  refine ⟨h.empty, h.table.call_step hbp hk, ?_, ?_, ?_, h.watched⟩
  · refine Table.forall_update (P := fun b s => ∀ i, s.cursor S.cfg = some i →
      ρ.claimant i = some b) ?_ fun b _ => h.owner b
    intro i hi
    exact h.owner c i ((Session.cursor_enter hbp (h.table.registered c) hk).symm.trans hi)
  · refine Table.forall_update (P := fun b s => ∀ i, s.pc.joining = true → ρ.author i ≠ some b)
      ?_ fun b _ => h.stranger b
    intro i hjoin
    refine h.stranger c i ?_
    rcases hborn with hpc | hpc
    · have harr : (((ρ.system.consumer c).noteCall k).enter S.cfg k).pc.arriving = false := by
        refine Session.arriving_enter hk ?_ ?_
        all_goals
          rintro rfl
          rw [of_decide_eq_true hk] at hpc
          cases hpc
      rw [SessionPc.arriving_of_joining hjoin] at harr
      cases harr
    · rw [hpc]
      rfl
  · intro i hnone
    refine h.current i fun b attach hb => ?_
    rcases eq_or_ne b c with rfl | hbc
    · rcases hborn with hpc | hpc
      · rw [hpc] at hb
        cases hb
      · rw [hpc] at hb
        cases hb
    · exact hnone b attach (by simpa [hbc] using hb)

theorem seated {c : ι} {s : Session} {m : RingMemory ι} {author claimant : Nat → Option ι}
    (h : Audited S ρ) (hempty : ∀ t, m.buffer t = [])
    (htable : Table S { ρ.system with consumer := update ρ.system.consumer c s, memory := m })
    (hown : ∀ i, s.cursor S.cfg = some i → claimant i = some c)
    (hother : ∀ b, b ≠ c → ∀ i, (ρ.system.consumer b).cursor S.cfg = some i →
      claimant i = some b)
    (hjoin : ∀ i, s.pc.joining = true → author i ≠ some c)
    (hauthor : ∀ b, b ≠ c → ∀ i, author i = some b → ρ.author i = some b)
    (hcurrent : ∀ i, (∀ attach, s.pc ≠ .initCursor i attach) →
      (∀ b, b ≠ c → ∀ attach, (ρ.system.consumer b).pc ≠ .initCursor i attach) →
      author i = claimant i)
    (hwatched : ∀ i, ρ.claimant i ≠ none → claimant i ≠ none) :
    Audited S ⟨{ ρ.system with consumer := update ρ.system.consumer c s, memory := m },
      author, claimant⟩ := by
  refine ⟨hempty, htable, ?_, ?_, ?_, fun seq i hpc => hwatched i (h.watched seq i hpc)⟩
  · exact Table.forall_update (P := fun b s => ∀ i, s.cursor S.cfg = some i →
      claimant i = some b) hown hother
  · exact Table.forall_update (P := fun b s => ∀ i, s.pc.joining = true → author i ≠ some b)
      hjoin fun b hbc i hj hb => h.stranger b i hj (hauthor b hbc i hb)
  · intro i hnone
    refine hcurrent i (fun attach => by simpa using hnone c attach) fun b hbc attach => ?_
    simpa [hbc] using hnone b attach

theorem consumer_step (h : Audited S ρ) {c : ι} {s : Session} {m : RingMemory ι}
    (hempty : ∀ t, m.buffer t = [])
    (htable : Table S { ρ.system with consumer := update ρ.system.consumer c s, memory := m })
    (hstep : Session.TableStep S.cfg ρ.system.memory.cells m.cells (ρ.system.consumer c) s)
    (hmoves : (ρ.system.consumer c).Moves S.cfg ρ.system.memory.cells s) :
    Audited S (ρ.record S { ρ.system with
      consumer := update ρ.system.consumer c s, memory := m } (.consumer c)) := by
  have hrecord (author claimant : Option Nat)
      (hauthors : (ρ.system.consumer c).authors S.cfg = author)
      (hclaims : (ρ.system.consumer c).claims ρ.system.memory.cells = claimant)
      (hnew : Audited S ⟨{ ρ.system with consumer := update ρ.system.consumer c s, memory := m },
        sign ρ.author c author, sign ρ.claimant c claimant⟩) :
      Audited S (ρ.record S { ρ.system with
        consumer := update ρ.system.consumer c s, memory := m } (.consumer c)) := by
    subst hauthors hclaims
    exact hnew
  cases hstep with
  | quiet hcells hcur hlive hinit hstored htaken =>
    refine hrecord none none ?_ ?_ ?_
    · rw [Session.authors, hstored]
    · unfold Session.claims
      split
      · exact if_neg (htaken _ _ ‹_›).1
      · rfl
    refine h.seated hempty htable ?_ (fun b _ => h.owner b) ?_ (fun b _ i hb => hb) ?_ fun i hi => hi
    · intro i hi
      exact h.owner c i (hcur.symm.trans hi)
    · intro i hj
      exact h.stranger c i (hmoves.joining hj)
    · intro i _ hothers
      refine h.current i fun b attach hb => ?_
      rcases eq_or_ne b c with rfl | hbc
      · exact (hinit i attach).1 hb
      · exact hothers b hbc attach hb
  | claim i attach hpc hfree hcells hs =>
    refine hrecord none (some i) ?_ ?_ ?_
    · simp [Session.authors, Session.stored, Session.code, hpc]
    · simp [Session.claims, hpc, hfree]
    have hcur : s.cursor S.cfg = some i := by
      rw [hs]
      rfl
    refine h.seated hempty htable ?_ ?_ ?_ (fun b _ i hb => hb) ?_ ?_
    · intro j hj
      obtain rfl : i = j := Option.some.inj (hcur.symm.trans hj)
      exact update_self _ _ _
    · intro b hbc j hj
      have hji : j ≠ i := by
        rintro rfl
        have := h.table.held b j hj
        omega
      exact (update_of_ne hji _ _).trans (h.owner b j hj)
    · intro j _
      exact h.stranger c j (by rw [hpc]; rfl)
    · intro j hj hothers
      have hji : j ≠ i := by
        rintro rfl
        exact hj attach (by rw [hs])
      have hclaimant : sign ρ.claimant c (some i) j = ρ.claimant j := update_of_ne hji _ _
      rw [hclaimant]
      refine h.current j fun b attach hb => ?_
      rcases eq_or_ne b c with rfl | hbc
      · rw [hpc] at hb
        cases hb
      · exact hothers b hbc attach hb
    · intro j hj
      rcases eq_or_ne j i with rfl | hji
      · simp [sign]
      · simpa [sign, hji] using hj
  | store j v hcur hcur' hv hcells =>
    have hpcs : s.pc.joining = false ∧ (ρ.system.consumer c).authors S.cfg = some j ∧
        (ρ.system.consumer c).claims ρ.system.memory.cells = none ∧
        ∀ i attach, (ρ.system.consumer c).pc = .initCursor i attach → i = j := by
      rcases hv with ⟨attach, hpc, -, rfl⟩ | ⟨hpc, -, rfl⟩ | ⟨last, hpc, -, rfl⟩
      · refine ⟨?_, ?_, ?_, ?_⟩
        · cases attach <;> rfl
        · simp [Session.authors, Session.stored, Session.code, hpc]
        · simp [Session.claims, hpc]
        · rintro i b hb
          rw [hpc] at hb
          cases hb
          rfl
      · have hid : (ρ.system.consumer c).obj.cursorId = j := by
          rw [Session.cursor, hpc] at hcur
          simp only [SessionPc.cursor, Consumer.cursor] at hcur
          split at hcur
          · exact Option.some.inj hcur
          · cases hcur
        refine ⟨rfl, ?_, ?_, ?_⟩
        · simp [Session.authors, Session.stored, Session.code, hpc, hid]
        · simp [Session.claims, hpc]
        · rintro i b hb
          rw [hpc] at hb
          cases hb
      · refine ⟨rfl, ?_, ?_, ?_⟩
        · simp [Session.authors, Session.stored, Session.code, hpc]
        · simp [Session.claims, hpc]
        · rintro i b hb
          rw [hpc] at hb
          cases hb
    obtain ⟨hjoin, hauthors, hclaims, hinit⟩ := hpcs
    refine hrecord _ _ hauthors hclaims ?_
    refine h.seated hempty htable ?_ (fun b _ => h.owner b) ?_ ?_ ?_ fun i hi => hi
    · intro i hi
      obtain rfl : j = i := Option.some.inj (hcur'.symm.trans hi)
      exact h.owner c j hcur
    · intro i hj
      rw [hjoin] at hj
      cases hj
    · intro b hbc i hb
      rcases eq_or_ne i j with rfl | hij
      · simp only [sign, update_self, Option.some.injEq] at hb
        exact absurd hb.symm hbc
      · simpa [sign, hij] using hb
    · intro i _ hothers
      rcases eq_or_ne i j with rfl | hij
      · simpa [sign] using (h.owner c i hcur).symm
      · refine Eq.trans (update_of_ne hij _ _) (h.current i fun b attach hb => ?_)
        rcases eq_or_ne b c with rfl | hbc
        · exact hij (hinit i attach hb)
        · exact hothers b hbc attach hb
  | release j hcur hpc hs hcells =>
    refine hrecord none none ?_ ?_ ?_
    · simp [Session.authors, Session.stored, Session.code, hpc]
    · simp [Session.claims, hpc]
    refine h.seated hempty htable ?_ (fun b _ => h.owner b) ?_ (fun b _ i hb => hb) ?_ fun i hi => hi
    · intro i hi
      rw [hs] at hi
      cases hi
    · intro i hj
      rw [hs] at hj
      cases hj
    · intro i _ hothers
      refine h.current i fun b attach hb => ?_
      rcases eq_or_ne b c with rfl | hbc
      · rw [hpc] at hb
        cases hb
      · exact hothers b hbc attach hb

theorem step (hbp : S.cfg.overflow = .backpressure) (hm : S.model = .sc) (h : Audited S ρ)
    (hs : S.audit.step l ρ = some ρ') : Audited S ρ' := by
  obtain ⟨σ', hσ, rfl⟩ := Option.map_eq_some_iff.mp hs
  have hempty := (Setup.step_tso hm h.empty hσ).1
  have hturn := turn_of_step hm h.empty h.table.registered hσ
  have htable := h.table.turn hbp hturn
  cases hturn with
  | producer hx hcells => exact h.producer_step hempty htable hx
  | call hk => exact h.call_step hbp hk
  | consumer hstep hmoves hreg => exact h.consumer_step hempty htable hstep hmoves

end Audited

theorem scan_judges_owner [DecidableEq ι] (hbp : S.cfg.overflow = .backpressure)
    (hm : S.model = .sc) (fresh : Loc → Nat) (ls : List (Label ι)) :
    S.audit.Steps Judged ls (S.opened fresh) ↔ S.audit.Steps Initialised ls (S.opened fresh) :=
  Lts.steps_congr (fun _ _ _ h hs => h.step hbp hm hs) (fun _ _ h => h.judged_iff)
    (Audited.initial fresh)

def settledRun : List (Label (Fin 2)) :=
  [.call 0 .construct, .consumer 0, .consumer 0] ++ List.replicate 13 .producer ++
    [.call 0 (.seek 1), .consumer 0, .producer, .producer]

theorem scan_judges_owner_settled :
    (churnSetup.audit.run settledRun (churnSetup.opened fun _ => 0)).any
      (fun ρ => ρ.system.producer.pc = .storeLen 2) = true ∧
    churnSetup.audit.Steps Judged settledRun (churnSetup.opened fun _ => 0) := by
  refine ⟨by decide +kernel, (scan_judges_owner rfl rfl _ _).mpr ?_⟩
  have hsteps : churnSetup.audit.Steps (fun l ρ => l = .producer →
      (ρ.system.consumer 0).pc = .idle ∧ (ρ.system.consumer 1).pc = .unborn) settledRun
      (churnSetup.opened fun _ => 0) := by decide +kernel
  refine hsteps.mono fun l ρ h hl seq i _ c attach => ?_
  obtain ⟨h0, h1⟩ := h hl
  match c with
  | 0 => simp [h0]
  | 1 => simp [h1]

def staleRun : List (Label (Fin 2)) :=
  [.call 0 .construct, .consumer 0, .consumer 0] ++ List.replicate 10 .producer ++
    [.call 0 .destroy, .consumer 0, .consumer 0, .call 1 .construct, .consumer 1, .producer,
      .producer]

theorem scan_judges_predecessor : ∃ ρ,
    churnSetup.audit.run staleRun (churnSetup.opened fun _ => 0) = some ρ ∧
    ρ.system.producer.pc = .awaitValue 2 0 ∧ ρ.author 0 = some 0 ∧ ρ.claimant 0 = some 1 ∧
    (ρ.system.consumer 1).cursor churnSetup.cfg = some 0 ∧
    ρ.system.memory.cells (.cursorValue 0) = 2 ^ 64 - 1 ∧
    ((churnSetup.step .producer ρ.system).any fun σ => σ.producer.pc = .storeLen 2) = true ∧
    ¬ churnSetup.audit.Steps Judged (staleRun ++ [.producer]) (churnSetup.opened fun _ => 0) := by
  have hrun : ((churnSetup.audit.run staleRun (churnSetup.opened fun _ => 0)).any fun ρ =>
      ρ.system.producer.pc = .awaitValue 2 0 && ρ.author 0 = some 0 && ρ.claimant 0 = some 1 &&
        (ρ.system.consumer 1).cursor churnSetup.cfg = some 0 &&
        ρ.system.memory.cells (.cursorValue 0) = 2 ^ 64 - 1 &&
        (churnSetup.step .producer ρ.system).any fun σ => σ.producer.pc = .storeLen 2) = true := by
    decide +kernel
  obtain ⟨ρ, hρ, hp⟩ := (Option.any_eq_true _ _).mp hrun
  simp only [Bool.and_eq_true, decide_eq_true_eq] at hp
  obtain ⟨⟨⟨⟨⟨hpc, hauthor⟩, hclaimant⟩, hcursor⟩, hvalue⟩, hnext⟩ := hp
  refine ⟨ρ, hρ, hpc, hauthor, hclaimant, hcursor, hvalue, hnext, fun hsteps => ?_⟩
  obtain ⟨c, ha, hc⟩ := (hsteps.after hρ).1 rfl 2 0 hpc
  rw [hauthor] at ha
  rw [hclaimant, ← ha] at hc
  cases hc

end Backpressure

end Shimmy
