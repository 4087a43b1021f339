import Raft.Log.Contents

/-!
# The numbering of writes

Every change of the overlay queues storage operations under consecutive numbers, and
the writer reports them in that order.  `RaftLog.Queues` says which operations were
queued and that the writer is otherwise as before; `RaftLog.Numbered` that numbers
grow along the queue and behind the reports.

## Main results

* `Extends.append`, `Extends.truncateSuffix`, `Extends.installSnapshot` and so on: no
  operation on entries queues a term or a vote.
* `Numbered.queues`, `Numbered.execute`: the numbering is kept.
-/

namespace Raft

variable {ι : Type}

namespace RaftLog

structure Queues (rl rl' : RaftLog ι) (ops : List (WriteOp ι)) : Prop where
  w : rl'.w = { rl.w with queue := rl.w.queue ++ ops }
  seqs : ops.map (·.seq) = List.range' (rl.nextSeq + 1) ops.length
  nextSeq : rl'.nextSeq = rl.nextSeq + ops.length

namespace Queues

variable {rl rl' rl'' : RaftLog ι} {ops ops' : List (WriteOp ι)}

theorem of_same (hw : rl'.w = rl.w) (hn : rl'.nextSeq = rl.nextSeq) : rl.Queues rl' [] :=
  ⟨by rw [hw, List.append_nil], rfl, hn⟩

theorem trans (h : rl.Queues rl' ops) (h' : rl'.Queues rl'' ops') :
    rl.Queues rl'' (ops ++ ops') := by
  refine ⟨?_, ?_, ?_⟩
  · rw [h'.w, h.w, List.append_assoc]
  · rw [List.map_append, h.seqs, h'.seqs, h.nextSeq, List.length_append,
      show rl.nextSeq + ops.length + 1 = rl.nextSeq + 1 + ops.length by omega]
    exact List.range'_append_1
  · rw [h'.nextSeq, h.nextSeq, List.length_append]
    omega

theorem of_enqueue (h : rl.w.closed = false) (kind : WriteKind ι) :
    rl.Queues (rl.enqueue kind) [⟨rl.nextSeq + 1, kind, rl.queuedDurable⟩] :=
  ⟨queue_enqueue h, rfl, rfl⟩

theorem seq_mem (h : rl.Queues rl' ops) {op : WriteOp ι} (hop : op ∈ ops) :
    rl.nextSeq < op.seq ∧ op.seq ≤ rl'.nextSeq := by
  have hmem : op.seq ∈ ops.map (·.seq) := List.mem_map_of_mem hop
  rw [h.seqs, List.mem_range'_1] at hmem
  rw [h.nextSeq]
  omega

end Queues

/-- The writer has been handed operations none of which saves a term or a vote. -/
def Extends (rl rl' : RaftLog ι) : Prop :=
  rl.w.closed = false → ∃ ops, rl.Queues rl' ops ∧ ∀ op ∈ ops, op.kind.isHardState = false

namespace Extends

variable {rl rl' rl'' : RaftLog ι}

theorem of_same (hw : rl'.w = rl.w) (hn : rl'.nextSeq = rl.nextSeq) : rl.Extends rl' :=
  fun _ => ⟨[], .of_same hw hn, by simp⟩

theorem refl (rl : RaftLog ι) : rl.Extends rl := of_same rfl rfl

theorem trans (h : rl.Extends rl') (h' : rl'.Extends rl'') : rl.Extends rl'' := by
  intro hopen
  obtain ⟨ops, hops, hplain⟩ := h hopen
  obtain ⟨ops', hops', hplain'⟩ := h' (by rw [hops.w]; exact hopen)
  exact ⟨ops ++ ops', hops.trans hops', List.forall_mem_append.mpr ⟨hplain, hplain'⟩⟩

theorem of_enqueue {kind : WriteKind ι} {durableAfter : Nat}
    (hw : rl'.w = rl.w.enqueue ⟨rl.nextSeq + 1, kind, durableAfter⟩)
    (hn : rl'.nextSeq = rl.nextSeq + 1) (hk : kind.isHardState = false) : rl.Extends rl' := by
  intro hopen
  refine ⟨[⟨rl.nextSeq + 1, kind, durableAfter⟩], ⟨?_, rfl, hn⟩, List.forall_mem_singleton.mpr hk⟩
  rw [hw, queue_enqueue hopen]

theorem enqueue (rl : RaftLog ι) {kind : WriteKind ι} (hk : kind.isHardState = false) :
    rl.Extends (rl.enqueue kind) :=
  of_enqueue rfl rfl hk

variable [Sized ι]

theorem append (rl : RaftLog ι) (es : List (LogEntry ι)) : rl.Extends (rl.append es).2 := by
  unfold RaftLog.append
  split
  · exact of_enqueue rfl rfl rfl
  · exact .refl rl

theorem truncateSuffix {i : Nat} (h : rl.truncateSuffix i = some rl') : rl.Extends rl' := by
  obtain ⟨t, -, heq⟩ := Option.map_eq_some_iff.mp h
  rw [← heq]
  split_ifs <;> exact of_enqueue rfl rfl rfl

theorem truncatePrefix (rl : RaftLog ι) (i : Nat) : rl.Extends (rl.truncatePrefix i) := by
  by_cases h : rl.first ≠ 0 ∧ i ≤ rl.first
  · rw [truncatePrefix_of_le h]
    exact .refl rl
  · exact of_enqueue (prefixCut h).w (prefixCut h).nextSeq rfl

theorem compact (rl : RaftLog ι) (position : SnapshotMeta) (trailing : Nat) :
    rl.Extends (rl.compact position trailing) :=
  (truncatePrefix rl _).trans (of_same rfl rfl)

theorem installSnapshot {position : SnapshotMeta} (h : rl.installSnapshot position = some rl') :
    rl.Extends rl' := by
  obtain ⟨kept, hkept, heq⟩ := Option.map_eq_some_iff.mp h
  have hcut : rl.Extends kept := by
    split_ifs at hkept
    · cases hkept
      exact truncatePrefix rl _
    · exact truncateSuffix hkept
    · cases hkept
      exact .refl rl
  rw [← heq]
  dsimp only
  split_ifs <;> exact hcut.trans (of_same rfl rfl)

theorem stabilize (rl : RaftLog ι) (d : WriteDone) : rl.Extends (rl.stabilize d) := by
  unfold RaftLog.stabilize
  split_ifs
  · exact .refl rl
  · exact of_same rfl rfl

end Extends

/-- The queue is in the order of its numbers, behind everything reported; `ds` are reports
collected. -/
structure Numbered (rl : RaftLog ι) (ds : List WriteDone) : Prop where
  running : rl.w.closed = false
  sorted : (rl.w.queue.map (·.seq)).Pairwise (· < ·)
  le : ∀ op ∈ rl.w.queue, op.seq ≤ rl.nextSeq
  done : ∀ d ∈ rl.w.done ++ ds, d.seq ≤ rl.nextSeq ∧ ∀ op ∈ rl.w.queue, d.seq < op.seq

namespace Numbered

variable {rl rl' : RaftLog ι} {ds : List WriteDone} {ops : List (WriteOp ι)}

theorem queues (h : rl.Numbered ds) (hq : rl.Queues rl' ops) : rl'.Numbered ds := by
  have hseq : ∀ op ∈ ops, rl.nextSeq < op.seq ∧ op.seq ≤ rl'.nextSeq := fun op => hq.seq_mem
  have hnext : rl.nextSeq ≤ rl'.nextSeq := hq.nextSeq ▸ Nat.le_add_right ..
  refine ⟨?_, ?_, ?_, ?_⟩ <;> rw [hq.w]
  · exact h.running
  · rw [List.map_append, List.pairwise_append]
    refine ⟨h.sorted, ?_, ?_⟩
    · rw [hq.seqs]
      exact List.pairwise_lt_range'
    · simp only [List.mem_map]
      rintro _ ⟨op, hop, rfl⟩ _ ⟨op', hop', rfl⟩
      exact (h.le op hop).trans_lt (hseq op' hop').1
  · exact List.forall_mem_append.mpr
      ⟨fun op hop => (h.le op hop).trans hnext, fun op hop => (hseq op hop).2⟩
  · intro d hd
    obtain ⟨hle, hlt⟩ := h.done d hd
    exact ⟨hle.trans hnext, List.forall_mem_append.mpr
      ⟨hlt, fun op hop => hle.trans_lt (hseq op hop).1⟩⟩

theorem collect (h : rl.Numbered []) :
    ({ rl with w := rl.w.takeDone.2 } : RaftLog ι).Numbered rl.w.takeDone.1 :=
  ⟨h.running, h.sorted, h.le, fun d hd => h.done d (by simpa [StorageWriter.takeDone] using hd)⟩

theorem settle {d : WriteDone} (h : rl.Numbered (d :: ds)) : rl.Numbered ds :=
  ⟨h.running, h.sorted, h.le, fun d' hd' => h.done d' (by
    rcases List.mem_append.mp hd' with hd' | hd'
    · exact List.mem_append_left _ hd'
    · exact List.mem_append_right _ (List.mem_cons_of_mem _ hd'))⟩

theorem saveSnapshot (h : rl.Numbered ds) (snap : Snapshot ι) : (rl.saveSnapshot snap).Numbered ds :=
  ⟨h.running, h.sorted, h.le, h.done⟩

theorem execute (h : rl.Numbered ds) (fault : Option Nat) : (rl.execute fault).Numbered ds := by
  have hsplit : rl.w.queue = rl.w.queue.take rl.w.takeCount ++ rl.w.queue.drop rl.w.takeCount :=
    (List.take_append_drop _ _).symm
  have hsorted := h.sorted
  rw [hsplit, List.map_append, List.pairwise_append] at hsorted
  refine ⟨h.running, hsorted.2.1, fun op hop => h.le op (List.mem_of_mem_drop hop), ?_⟩
  intro d hd
  simp only [RaftLog.execute, StorageWriter.execute, StorageWriter.take, List.append_assoc,
    List.mem_append, List.mem_map] at hd
  rcases hd with hd | ⟨op, hop, rfl⟩ | hd
  · obtain ⟨hle, hlt⟩ := h.done d (List.mem_append_left _ hd)
    exact ⟨hle, fun op hop => hlt op (List.mem_of_mem_drop hop)⟩
  · refine ⟨h.le op (List.mem_of_mem_take hop), fun op' hop' => ?_⟩
    exact hsorted.2.2 _ (List.mem_map_of_mem hop) _ (List.mem_map_of_mem hop')
  · obtain ⟨hle, hlt⟩ := h.done d (List.mem_append_right _ hd)
    exact ⟨hle, fun op hop => hlt op (List.mem_of_mem_drop hop)⟩

end Numbered

theorem numbered_of_init {rl : RaftLog ι} {s : Store ι} {batch commits : Bool} (hw : rl.w = .init s batch commits) :
    RaftLog.Numbered rl [] := by
  refine ⟨by rw [hw]; rfl, ?_, ?_, ?_⟩ <;> rw [hw] <;> simp [StorageWriter.init]

end RaftLog

end Raft
