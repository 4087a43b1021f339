import Raft.Reads.Rounds

/-!
# What most turns leave alone

The event loop's view of what has been applied, its client table, the local snapshots
on their way and the apply loop behind its channel for commit indices: none of the
turns about elections, replication, reads and proposals touches them.
-/

namespace Raft

variable {ι : Type}

/-- The part of a node that follows the apply loop, commit indices apart. -/
structure Side (ι : Type) where
  cfg : Config ι
  lastApplied : Nat
  clientTable : ClientLRU
  snapshotting : Bool
  writing : List (SnapshotTrigger ι × List (LogEntry ι))
  written : List (SnapshotResult ι)
  installed : List (Snapshot ι × Bool)
  apply : ApplyLoop ι

/-- What turns change outside of the core, timers and throttles apart. -/
structure Shell (ι : Type) where
  side : Side ι
  pendingConfigIndex : Nat
  reads : ReadQueue ι

/-- What stays as it is while a node keeps its role and adds nothing to its log. -/
structure Tenure (ι : Type) where
  side : Side ι
  state : State
  termStartIndex : Nat
  pendingConfigIndex : Nat
  lastLogIndex : Nat

namespace Node

def side (n : Node ι) : Side ι :=
  { cfg := n.cfg
    lastApplied := n.lastApplied
    clientTable := n.clientTable
    snapshotting := n.snapshots.snapshotting
    writing := n.snapshots.writing
    written := n.snapshots.results
    installed := n.snapshots.installed
    apply := { n.apply with commitNotify := none } }

def shell (n : Node ι) : Shell ι :=
  { side := n.side
    pendingConfigIndex := n.pendingConfigIndex
    reads := n.reads }

def tenure (n : Node ι) : Tenure ι :=
  { side := n.side
    state := n.state
    termStartIndex := n.termStartIndex
    pendingConfigIndex := n.pendingConfigIndex
    lastLogIndex := n.log.lastLogIndex }

variable {n m n' : Node ι}

theorem tenure_of_core {c : Core ι} (h : n'.toCore = c) (hs : n'.shell = n.shell)
    (hstate : c.state = n.state) (hstart : c.termStartIndex = n.termStartIndex)
    (hlast : c.log.lastLogIndex = n.log.lastLogIndex) : n'.tenure = n.tenure := by
  have hside : n'.side = n.side := congrArg Shell.side hs
  have hpending : n'.pendingConfigIndex = n.pendingConfigIndex := congrArg Shell.pendingConfigIndex hs
  rw [tenure, h, hside, hstate, hstart, hpending, hlast]
  rfl

/-- Nothing but the reads has changed. -/
structure OnlyReads (n n' : Node ι) : Prop where
  core : n'.toCore = n.toCore
  shell : n'.shell = { n.shell with reads := n'.reads }

namespace OnlyReads

section

variable (h : n.OnlyReads m)

include h

theorem trans (h' : m.OnlyReads n') : n.OnlyReads n' :=
  ⟨h'.core.trans h.core, by rw [h'.shell, h.shell]⟩

theorem openReadBatch : n.OnlyReads m.openReadBatch := h.trans ⟨rfl, rfl⟩

theorem resolveReadBatch : n.OnlyReads m.resolveReadBatch := h.trans ⟨rfl, rfl⟩

theorem promoteWaitingReads : n.OnlyReads m.promoteWaitingReads :=
  h.trans ⟨rfl, rfl⟩

end

theorem tenure (h : n.OnlyReads n') : n'.tenure = n.tenure := by
  have hside : n'.side = n.side := (congrArg Shell.side h.shell :)
  have hpending : n'.pendingConfigIndex = n.pendingConfigIndex :=
    (congrArg Shell.pendingConfigIndex h.shell :)
  rw [Node.tenure, hside, h.core, hpending]
  rfl

end OnlyReads

/-- What follows the apply loop stays as it is, and so does the rest as long as the node leads. -/
structure Keeps (n n' : Node ι) : Prop where
  side : n'.side = n.side
  tenure : n'.state = .leader → n'.tenure = n.tenure

namespace Keeps

theorem of_tenure (h : n'.tenure = n.tenure) : n.Keeps n' := ⟨congrArg Tenure.side h, fun _ => h⟩

theorem of_not_leader (hside : n'.side = n.side) (hstate : n'.state ≠ .leader) : n.Keeps n' :=
  ⟨hside, fun h => absurd h hstate⟩

theorem trans (h : n.Keeps m) (h' : m.Keeps n') : n.Keeps n' := by
  refine ⟨h'.side.trans h.side, fun hlead => ?_⟩
  have hm := h'.tenure hlead
  have hstate : n'.state = m.state := congrArg Tenure.state hm
  exact hm.trans (h.tenure (hstate.symm.trans hlead))

end Keeps

end Node

end Raft
