import Raft.Node.Loop

/-!
# Rounds of reads

A leader answers reads in rounds.  `pendingReads` are the reads of the round in flight,
`waitingReads` those that arrived after it had started, and a round is in flight while
`readBatchAcks` holds a set of acknowledgements.
-/

namespace Raft

variable {ι : Type}

/-- What a node keeps about reads. -/
structure ReadQueue (ι : Type) where
  leaderNopCommitted : Bool
  readBatchAcks : Option (List ι)
  pendingReads : List Nat
  waitingReads : List Nat

namespace ReadQueue

/-- A round in flight has reads, reads wait only for such a round, and they have been asked
about. -/
structure Attached (q : ReadQueue ι) : Prop where
  round : q.readBatchAcks.isSome = true → q.pendingReads ≠ []
  waits : q.waitingReads ≠ [] → q.pendingReads ≠ []
  asked : q.leaderNopCommitted = true → q.pendingReads ≠ [] → q.readBatchAcks.isSome = true

theorem Attached.idle {q : ReadQueue ι} (hacks : q.readBatchAcks = none)
    (hpending : q.pendingReads = []) (hwaiting : q.waitingReads = []) : q.Attached :=
  ⟨fun h => by simp [hacks] at h, fun h => absurd hwaiting h, fun _ h => absurd hpending h⟩

theorem Attached.asking {q : ReadQueue ι} (hacks : q.readBatchAcks.isSome = true)
    (hpending : q.pendingReads ≠ []) : q.Attached :=
  ⟨fun _ => hpending, fun _ => hpending, fun _ _ => hacks⟩

end ReadQueue

namespace Node

def reads (n : Node ι) : ReadQueue ι :=
  { leaderNopCommitted := n.leaderNopCommitted
    readBatchAcks := n.readBatchAcks
    pendingReads := n.pendingReads
    waitingReads := n.waitingReads }

def Attached (n : Node ι) : Prop := n.reads.Attached

variable {n n' : Node ι}

theorem Attached.congr (h : n.Attached) (hreads : n'.reads = n.reads) : n'.Attached := by
  rw [Attached, hreads]
  exact h

theorem openReadBatch_attached (h : n.pendingReads ≠ []) : n.openReadBatch.Attached :=
  .asking rfl h

theorem startReadBatch_attached (h : n.pendingReads ≠ []) : n.startReadBatch.Attached := by
  unfold startReadBatch
  dsimp only
  split_ifs with hsingle hwaiting
  · -- a single voter has answered everything
    exact .idle rfl rfl (List.isEmpty_iff.mp hwaiting)
  · exact .idle rfl rfl rfl
  · exact openReadBatch_attached h

theorem confirmReadBatch_attached (n : Node ι) : n.confirmReadBatch.Attached := by
  unfold confirmReadBatch
  dsimp only
  split_ifs with hwaiting
  · exact .idle rfl rfl (List.isEmpty_iff.mp hwaiting)
  · exact startReadBatch_attached fun hnil => hwaiting (List.isEmpty_iff.mpr hnil)

theorem Attached.openTerm (h : n.Attached) (hnil : n.pendingReads = []) :
    Attached { n with leaderNopCommitted := true } :=
  ⟨h.round, h.waits, fun _ hne => absurd hnil hne⟩

end Node

end Raft
