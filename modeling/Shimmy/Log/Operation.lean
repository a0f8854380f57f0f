import Shimmy.Concurrency.Log
import Shimmy.Ring.Whole

namespace Shimmy

open Concurrency Function

inductive Act where
  | construct
  | read
  | readCopy (outCap : Nat)
  | validate
  | commit
  | resync
  deriving DecidableEq, Repr

inductive Op (ι : Type) (blockSize : Nat) where
  | publish (msg : Message blockSize)
  | act (c : ι) (k : Act)

inductive Reply where
  | published (seq : Nat)
  | shown (status : ReadStatus) (bytes : List Nat)
  | copied (status : ReadStatus) (n : Nat) (bytes : List Nat)
  | valid (b : Bool)
  | done
  deriving DecidableEq, Repr

structure RingState (ι : Type) where
  cells : Loc → Nat
  consumer : ι → Session

def Act.entry : Act → SessionPc
  | .construct => .unborn
  | _ => .idle

def published {ι : Type} {blockSize : Nat} : List (Op ι blockSize) → List (Message blockSize)
  | [] => []
  | .publish msg :: ops => msg :: published ops
  | .act _ _ :: ops => published ops

theorem published_append {ι : Type} {blockSize : Nat} (ops ops' : List (Op ι blockSize)) :
    published (ops ++ ops') = published ops ++ published ops' := by
  induction ops with
  | nil => rfl
  | cons op ops ih =>
    cases op with
    | publish msg => exact congrArg (msg :: ·) ih
    | act c k => exact ih

namespace Session

variable (cfg : RingConfig) (cells : Loc → Nat)

def span (s : Session) : List Nat :=
  match s.view with
  | none => []
  | some v => (List.range v.len).map fun j => cells (.payload (cfg.slot s.obj.readSeq) j)

def out (s : Session) : List Nat :=
  match s.view with
  | none => []
  | some v => v.bytes.map Prod.snd

def after (s : Session) : Act → Session
  | .construct => s.constructWhole cfg
  | .read => s.readWhole cfg cells
  | .readCopy outCap => s.readCopyWhole cfg cells outCap
  | .validate => s.validateWhole cfg cells
  | .commit => s.commitWhole
  | .resync => s.resyncWhole cfg cells

def reply (s : Session) : Act → Reply
  | .read => .shown s.obj.lastStatus (if s.obj.lastStatus = .ok then s.span cfg cells else [])
  | .readCopy _ =>
      .copied s.obj.lastStatus s.returned (if s.obj.lastStatus = .ok then s.out else [])
  | .validate => .valid s.validated
  | _ => .done

end Session

def Ring.booted (ι : Type) (cfg : RingConfig) (fresh : Loc → Nat) : RingState ι where
  cells := Ring.init fresh
  consumer _ := Session.initial cfg

variable {ι : Type}

namespace Setup

def resting (ρ : RingState ι) (n : Nat) : System ι where
  memory := ⟨ρ.cells, fun _ => [], fun _ => none⟩
  producer := ⟨.idle, n⟩
  consumer := ρ.consumer

def serial (ι : Type) (cfg : RingConfig) (msgs : List (Message cfg.blockSize)) : Setup ι where
  cfg := cfg
  stream i := msgs.getD i (.empty cfg.blockSize)
  client _ _ _ := true
  model := .sc
  process _ := ⟨0, 0⟩

end Setup

variable [DecidableEq ι]

def Op.apply (cfg : RingConfig) : Op ι cfg.blockSize → RingState ι → Option (Reply × RingState ι)
  | .publish msg, ρ =>
      some (.published (ρ.cells .nextPublish), { ρ with cells := Ring.publish cfg msg ρ.cells })
  | .act c k, ρ =>
      if (ρ.consumer c).pc = k.entry then
        let s := (ρ.consumer c).after cfg ρ.cells k
        some (s.reply cfg ρ.cells k, { ρ with consumer := update ρ.consumer c s })
      else none

def Ring.machine (ι : Type) [DecidableEq ι] (cfg : RingConfig) :
    Machine (Op ι cfg.blockSize) Reply (RingState ι) :=
  ⟨Op.apply cfg⟩

theorem Op.apply_nextPublish_lt {cfg : RingConfig} {op : Op ι cfg.blockSize} {ρ ρ' : RingState ι}
    {r : Reply} (h : op.apply cfg ρ = some (r, ρ')) (hlt : ρ.cells .nextPublish < 2 ^ 64) :
    ρ'.cells .nextPublish < 2 ^ 64 := by
  cases op with
  | publish msg =>
    cases h
    exact (Ring.publish_nextPublish msg).trans_lt (Nat.mod_lt _ (by decide))
  | act c k =>
    simp only [Op.apply] at h
    split at h <;> cases h
    exact hlt

namespace Setup

variable {S : Setup ι} {n : Nat} {ρ ρ' : RingState ι}

theorem resting_act (hm : S.model = .sc) (hclient : ∀ c s k, S.client c s k = true)
    (hover : S.cfg.overflow = .overwrite) {c : ι} {k : Act}
    (hlt : ρ.cells .nextPublish < 2 ^ 64) (hpc : (ρ.consumer c).pc = k.entry) :
    S.lts.Reach (ByConsumer c) (resting ρ n)
      (resting ⟨ρ.cells, update ρ.consumer c ((ρ.consumer c).after S.cfg ρ.cells k)⟩ n) := by
  cases k with
  | construct => exact reach_construct hover (hclient _ _ _) hpc
  | read => exact reach_read (hclient _ _ _) hpc rfl
  | readCopy outCap => exact reach_readCopy hover (hclient _ _ _) hpc rfl
  | validate => exact reach_validate (hclient _ _ _) hpc rfl
  | commit =>
    have hcommit := reach_commit hm (hclient c ((resting ρ n).consumer c) .commit) hpc
    rwa [Ring.setCursor, if_neg (by rw [Session.cursorPc_overwrite hover]; simp)] at hcommit
  | resync => exact reach_resync hover (fun _ _ => hclient _ _ _) hpc rfl hlt

theorem resting_publish (hm : S.model = .sc) (hover : S.cfg.overflow = .overwrite) :
    S.lts.Reach ByProducer (resting ρ n)
      (resting ⟨Ring.publish S.cfg (S.stream n) ρ.cells, ρ.consumer⟩ (n + 1)) :=
  reach_publish (σ := resting ρ n) ⟨rfl, fun _ => rfl⟩ hm rfl (by simp [hover])

theorem resting_run (hm : S.model = .sc) (hclient : ∀ c s k, S.client c s k = true)
    (hover : S.cfg.overflow = .overwrite) {ops : List (Op ι S.cfg.blockSize)} {rs : List Reply}
    (hlt : ρ.cells .nextPublish < 2 ^ 64) (h : (Ring.machine ι S.cfg).run ops ρ = some (rs, ρ'))
    (hstream : ∀ i msg, (published ops)[i]? = some msg → S.stream (n + i) = msg) :
    S.lts.Reaches (resting ρ n) (resting ρ' (n + (published ops).length)) := by
  induction ops generalizing ρ rs n with
  | nil =>
    cases h
    exact .refl
  | cons op ops ih =>
    obtain ⟨r, ρ₁, qs, hop, hrun, -⟩ := Machine.run_cons_iff.mp h
    have hlt₁ := Op.apply_nextPublish_lt hop hlt
    cases op with
    | publish msg =>
      cases hop
      have hmsg : S.stream n = msg := hstream 0 msg rfl
      have htail := ih (n := n + 1) hlt₁ hrun fun i m hi => by
        rw [Nat.add_assoc, Nat.add_comm 1 i]
        exact hstream (i + 1) m hi
      rw [published, List.length_cons, Nat.add_comm _ 1, ← Nat.add_assoc]
      exact (hmsg ▸ (resting_publish hm hover).reaches).trans htail
    | act c k =>
      simp only [Ring.machine, Op.apply] at hop
      split at hop <;> cases hop
      exact (resting_act hm hclient hover hlt ‹_›).reaches.trans (ih hlt₁ hrun hstream)

theorem serial_run {cfg : RingConfig} {fresh : Loc → Nat} {ops : List (Op ι cfg.blockSize)}
    {rs : List Reply} (hover : cfg.overflow = .overwrite)
    (h : (Ring.machine ι cfg).run ops (Ring.booted ι cfg fresh) = some (rs, ρ)) :
    (serial ι cfg (published ops)).lts.Reaches ((serial ι cfg (published ops)).initial fresh)
      (resting ρ (published ops).length) := by
  have hrun := resting_run (S := serial ι cfg (published ops)) (n := 0) rfl (fun _ _ _ => rfl)
    hover (show 0 < 2 ^ 64 by decide) h fun i msg hi => by
      rw [Nat.zero_add]
      exact congrArg (fun o => o.getD (.empty cfg.blockSize)) hi
  rwa [Nat.zero_add] at hrun

end Setup

end Shimmy
