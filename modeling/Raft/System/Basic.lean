import Raft.Node.Loop

/-!
# The system

A group of nodes and the network between them.  A node's `out` is everything it has ever
sent; any of it may be delivered at any time, any number of times, or never.  An answer is
only taken up by the incarnation that asked.

A crash may come at any point.  It keeps what storage holds and any number of the queued
writes in their order, and the node starts again from that.  A restart that is not possible
is no step at all.

## Main definitions

* `Action`, `Sys.step`, `Sys.run`: what can happen, and runs as lists of actions.
* `Sys.Along`: a condition on every step of a run.
-/

namespace Raft

variable {ι : Type}

/-- The nodes of a group. -/
def Sys (ι : Type) : Type := ι → Node ι

/-- Everything that can happen: messages arrive or are lost, a writer executes its next run, failing
after `k` operations if `fault = some k`, a node crashes, keeping `k` queued writes, and the turns
of the loops. -/
inductive Action (ι : Type)
  | deliver (i : ι) (k : Nat)
  | dropped (i : ι) (k : Nat)
  | reachable (i : ι) (peer : ι) (up : Bool)
  | tick (i : ι)
  | propose (i : ι) (cmds : List (Command ι))
  | readIndex (i : ι) (read : Nat)
  | forwardRead (i : ι) (read : Nat)
  | transfer (i : ι) (target : ι)
  | execute (i : ι) (fault : Option Nat)
  | complete (i : ι)
  | applyCommitted (i : ι) (faults : ReadFaults)
  | applyRestore (i : ι) (ok : Bool)
  | applyResult (i : ι)
  | captureSnapshot (i : ι)
  | writeSnapshot (i : ι) (outcome : SnapshotWrite ι)
  | snapshotResult (i : ι)
  | installSnapshot (i : ι) (k : Nat) (saved ok : Bool)
  | installResult (i : ι) (k : Nat)
  | crash (i : ι) (k : Nat)

/-- What storage holds after a crash that keeps the first `k` queued writes, if the writer has not
failed. -/
def RaftLog.survives (rl : RaftLog ι) (k : Nat) : Option (Store ι) :=
  if rl.w.failed then some rl.w.storage
  else StorageWriter.execAll rl.w.commits rl.w.storage (rl.w.queue.take k)

namespace Node

variable [DecidableEq ι] [Sized ι]

/-- The node that starts from what a crash left. -/
def restart (n : Node ι) (k : Nat) : Option (Node ι) :=
  (n.log.survives k).bind fun s => new n.cfg s (n.boot + 1) n.draws n.out n.apply.sm

def start (cfg : Config ι) (s : Store ι) : Node ι :=
  match new cfg s 0 0 [] [] with
  | some n => n
  | none => fresh cfg s ⟨.init s cfg.batchWriter cfg.commitRecorder, ⟨0, 0⟩, 0, 0, 0, [], 0, [], 0, 0, 0⟩
      0 0 [] [] 0

def receive (n : Node ι) : Msg ι → Node ι
  | .requestVote src _ req => n.handleRequestVote src req
  | .requestVoteReply src dst req resp =>
    if n.boot = dst.boot then n.handleVoteResult src req resp else n
  | .appendEntries src _ req => n.handleAppendEntries src req
  | .appendEntriesReply src dst req resp =>
    if n.boot = dst.boot then n.handleAppendResult src req resp else n
  | .installSnapshot src _ req => n.handleInstallSnapshot src req
  | .installSnapshotReply src dst req resp =>
    -- only the last chunk, or news of a later term, is reported by the sender
    if n.boot = dst.boot ∧ (req.term < resp.term ∨ req.last) then
      n.handleInstallSnapshotResult src req resp
    else n
  | .timeoutNow _ req => n.handleTimeoutNow req
  | .readIndex _ req read => n.handleReadIndexRPC req read

def lose (n : Node ι) : Msg ι → Node ι
  | .appendEntries src dst _ => if n.boot = src.boot then n.handleAppendDropped dst else n
  | .installSnapshot src dst _ =>
    if n.boot = src.boot then n.handleInstallSnapshotDropped dst else n
  | _ => n

end Node

/-- The node a message is addressed to. -/
def Msg.dst : Msg ι → ι
  | .requestVote _ dst _ => dst
  | .requestVoteReply _ dst _ _ => dst.id
  | .appendEntries _ dst _ => dst
  | .appendEntriesReply _ dst _ _ => dst.id
  | .installSnapshot _ dst _ => dst
  | .installSnapshotReply _ dst _ _ => dst.id
  | .timeoutNow dst _ => dst
  | .readIndex dst _ _ => dst

namespace Action

variable [DecidableEq ι] [Sized ι]

/-- The node an action takes place at, and what it does there. -/
def effect (σ : Sys ι) : Action ι → Option (ι × (Node ι → Node ι))
  | .deliver i k => (σ i).out[k]?.map fun msg => (msg.dst, (·.receive msg))
  | .dropped i k => (σ i).out[k]?.map fun msg => (i, (·.lose msg))
  | .reachable i peer up => some (i, fun n => if up then n.markPeerUp peer else n.markPeerDown peer)
  | .tick i => some (i, (·.tick))
  | .propose i cmds => some (i, (·.handleProposals cmds))
  | .readIndex i read => some (i, (·.handleReadIndex read))
  | .forwardRead i read => some (i, (·.forwardRead read))
  | .transfer i target => some (i, (·.handleLeadershipTransfer target))
  | .execute i fault => some (i, fun n => { n with log := n.log.execute fault })
  | .complete i => some (i, (·.handleWriteCompletions))
  | .applyCommitted i faults => some (i, (·.applyCommitted faults))
  | .applyRestore i ok => some (i, (·.applyRestore ok))
  | .applyResult i => some (i, (·.handleApplyResult))
  | .captureSnapshot i => some (i, (·.captureSnapshot))
  | .writeSnapshot i outcome => some (i, (·.writeSnapshot outcome))
  | .snapshotResult i => some (i, (·.takeSnapshotResult))
  | .installSnapshot i k saved ok => some (i, (·.installSnapshot k saved ok))
  | .installResult i k => some (i, (·.takeInstallResult k))
  | .crash i k => some (i, fun n => (n.restart k).getD n)

end Action

namespace Sys

variable [DecidableEq ι] [Sized ι] {P : Sys ι → Action ι → Prop} {as : List (Action ι)} {σ : Sys ι}

def start (cfg : ι → Config ι) (store : ι → Store ι) : Sys ι := fun i => Node.start (cfg i) (store i)

/-- One step.  An action that names a message never sent changes nothing. -/
def step (σ : Sys ι) (a : Action ι) : Sys ι :=
  match a.effect σ with
  | some (i, f) => assign σ i (f (σ i))
  | none => σ

def run (σ : Sys ι) (as : List (Action ι)) : Sys ι := as.foldl step σ

theorem run_append (σ : Sys ι) (as bs : List (Action ι)) : σ.run (as ++ bs) = (σ.run as).run bs :=
  List.foldl_append ..

def Along (P : Sys ι → Action ι → Prop) : Sys ι → List (Action ι) → Prop
  | _, [] => True
  | σ, a :: as => P σ a ∧ Along P (σ.step a) as

theorem along_append (σ : Sys ι) (as bs : List (Action ι)) :
    Along P σ (as ++ bs) ↔ Along P σ as ∧ Along P (σ.run as) bs := by
  induction as generalizing σ with
  | nil => simp [Along, run]
  | cons a as ih => simp only [List.cons_append, Along, ih, and_assoc, run, List.foldl_cons]

theorem Along.and {Q : Sys ι → Action ι → Prop} (h : Along P σ as) (h' : Along Q σ as) :
    Along (fun σ a => P σ a ∧ Q σ a) σ as := by
  induction as generalizing σ with
  | nil => trivial
  | cons a as ih => exact ⟨⟨h.1, h'.1⟩, ih h.2 h'.2⟩

theorem Along.invariant {I : Sys ι → Prop} (hkeep : ∀ {σ a}, I σ → P σ a → I (σ.step a))
    (h : Along P σ as) (hI : I σ) (k : Nat) : I (σ.run (as.take k)) := by
  induction as generalizing σ k with
  | nil => simpa [run] using hI
  | cons a as ih =>
    cases k with
    | zero => exact hI
    | succ k => exact ih h.2 (hkeep hI h.1) k

theorem Along.get (h : Along P σ as) {k : Nat} {a : Action ι} (ha : as[k]? = some a) :
    P (σ.run (as.take k)) a := by
  induction as generalizing σ k with
  | nil => cases ha
  | cons b as ih =>
    cases k with
    | zero =>
      cases ha
      exact h.1
    | succ k => exact ih h.2 ha

theorem run_take_succ (σ : Sys ι) {k : Nat} {a : Action ι} (ha : as[k]? = some a) :
    σ.run (as.take (k + 1)) = (σ.run (as.take k)).step a := by
  rw [List.take_add_one, ha, run_append]
  rfl

/-- A property that each step keeps exactly if it meets a condition holds throughout a run exactly
if all do. -/
theorem forall_take_iff_along {P I : Sys ι → Prop} {C K : Sys ι → Action ι → Prop}
    (hkeep : ∀ {σ a}, I σ → C σ a → I (σ.step a))
    (hstep : ∀ {σ a}, I σ → C σ a → P σ → (P (σ.step a) ↔ K σ a)) (hI : I σ) (hP : P σ)
    (hC : Along C σ as) : (∀ k, P (σ.run (as.take k))) ↔ Along K σ as := by
  induction as generalizing σ with
  | nil => simp [run, Along, hP]
  | cons a as ih =>
    obtain ⟨hCa, hC⟩ := hC
    constructor
    · intro hall
      have hPa : P (σ.step a) := hall 1
      exact ⟨(hstep hI hCa hP).mp hPa,
        (ih (hkeep hI hCa) hPa hC).mp fun k => hall (k + 1)⟩
    · rintro ⟨hKa, hK⟩ k
      have hPa : P (σ.step a) := (hstep hI hCa hP).mpr hKa
      cases k with
      | zero => exact hP
      | succ k => exact (ih (hkeep hI hCa) hPa hC).mpr hK k

instance Along.decidable {P : Sys ι → Action ι → Prop} [∀ σ a, Decidable (P σ a)] :
    ∀ (σ : Sys ι) (as : List (Action ι)), Decidable (Along P σ as)
  | _, [] => isTrue trivial
  | σ, a :: as =>
    have := Along.decidable (P := P) (σ.step a) as
    inferInstanceAs (Decidable (_ ∧ _))

end Sys

end Raft
