import Raft.Log.History
import Raft.Node.Leading

/-!
# The requests a leader builds

Every AppendEntries request comes from `heartbeatPeer`, `broadcastReadBarrier` or
`replicateToPeer`.  `Node.Builds` is their common form; `Builds.spec` says what such
a request states about the leader's log: its entries continue the index before them
and carry the terms of the log's history, and the term it names for that index is
the one of the history, or 0 when the leader cannot tell.

## Main results

* `Builds.spec`: what the request states.
-/

namespace Raft

variable {ι : Type} {es : List (LogEntry ι)} {hist : List Nat}

def LogEntry.shape (e : LogEntry ι) : Nat × Nat := (e.index, e.term)

theorem stripForWitness_shape (es : List (LogEntry ι)) :
    (stripForWitness es).map LogEntry.shape = es.map LogEntry.shape := by
  rw [stripForWitness, List.map_map]
  refine List.map_congr_left fun e _ => ?_
  simp only [Function.comp_apply]
  split_ifs <;> rfl

theorem fitting_eq_take [Sized ι] (budget total : Nat) (es : List (LogEntry ι)) :
    ∃ k, fitting budget total es = es.take k := by
  induction es generalizing total with
  | nil => exact ⟨0, rfl⟩
  | cons e es ih =>
    simp only [fitting]
    split_ifs
    · exact ⟨0, rfl⟩
    · obtain ⟨k, hk⟩ := ih (total + Sized.len e.command)
      exact ⟨k + 1, by rw [hk, List.take_succ_cons]⟩

theorem capByBytes_eq_take [Sized ι] (budget : Nat) (es : List (LogEntry ι)) :
    ∃ k, capByBytes es budget = es.take k := by
  unfold capByBytes
  split_ifs
  · exact ⟨es.length, by simp⟩
  · exact ⟨1, rfl⟩
  · exact fitting_eq_take budget 0 es

theorem Contiguous.of_shape {f : Nat} {es' : List (LogEntry ι)} (h : Contiguous f es)
    (hs : es'.map LogEntry.shape = es.map LogEntry.shape) : Contiguous f es' := by
  intro k e hk
  have hk' : (es'.map LogEntry.shape)[k]? = some e.shape := by rw [List.getElem?_map, hk]; rfl
  rw [hs, List.getElem?_map, Option.map_eq_some_iff] at hk'
  obtain ⟨e', he', hshape⟩ := hk'
  have := h k e' he'
  have hidx : e'.index = e.index := congrArg Prod.fst hshape
  omega

def OfHist (hist : List Nat) (es : List (LogEntry ι)) : Prop :=
  ∀ e ∈ es, histTerm hist e.index = some e.term

theorem OfHist.of_shape {es' : List (LogEntry ι)} (h : OfHist hist es)
    (hs : es'.map LogEntry.shape = es.map LogEntry.shape) : OfHist hist es' := by
  intro e he
  have hmem : e.shape ∈ es.map LogEntry.shape := hs ▸ List.mem_map_of_mem he
  obtain ⟨e', he', hshape⟩ := List.mem_map.mp hmem
  have hidx : e'.index = e.index := congrArg Prod.fst hshape
  have hterm : e'.term = e.term := congrArg Prod.snd hshape
  rw [← hidx, ← hterm]
  exact h e' he'

theorem RaftLog.TailOf.canDescribe_spec {rl : RaftLog ι} {next : Nat} (ht : rl.TailOf hist)
    (hbound : hist.length < 2 ^ 64 - 1) (h : rl.canDescribe (predIndex next) = true) :
    predIndex next + 1 = next ∧ (rl.first ≠ 0 → rl.first ≤ next) ∧
      ∃ t, rl.termAt (predIndex next) = some t := by
  have hsnap := ht.snap_le
  have hle : predIndex next ≤ hist.length ∧ (rl.first ≠ 0 → rl.first ≤ predIndex next + 1) ∧
      ∃ t, rl.termAt (predIndex next) = some t := by
    unfold RaftLog.canDescribe at h
    split_ifs at h with hb hz
    · exact ⟨hb ▸ hsnap, fun hf => hb ▸ (ht.joined hf).1, ht.exists_termAt hb.ge (hb ▸ hsnap)⟩
    · rw [hz]
      refine ⟨Nat.zero_le _, fun hf => ?_, 0, by simp [RaftLog.termAt]⟩
      rcases of_decide_eq_true h with h1 | h1 <;> omega
    · obtain ⟨hf, hlo, hhi⟩ := of_decide_eq_true h
      have := ht.lastLogIndex_of_first hf
      exact ⟨by omega, fun _ => by omega, ht.wf.exists_termAt hf hlo hhi⟩
  -- 0 wraps around to an index that no log reaches
  have hpred : predIndex next + 1 = next := by
    have := hle.1
    unfold predIndex at this ⊢
    split_ifs at this ⊢ <;> omega
  rw [hpred] at hle
  exact ⟨hpred, hle.2⟩

namespace Node

variable [DecidableEq ι]

theorem strippedFor_take (n : Node ι) (peer : ι) (es : List (LogEntry ι)) (k : Nat) :
    (n.strippedFor peer es).take k = n.strippedFor peer (es.take k) := by
  unfold strippedFor
  split_ifs
  · rw [stripForWitness, stripForWitness, List.map_take]
  · rfl

theorem strippedFor_shape (n : Node ι) (peer : ι) (es : List (LogEntry ι)) :
    (n.strippedFor peer es).map LogEntry.shape = es.map LogEntry.shape := by
  unfold strippedFor
  split_ifs
  · exact stripForWitness_shape es
  · rfl

variable [Sized ι]


/-- The requests a node builds for a peer: one without entries, or with those from its next
index on. -/
inductive Builds (n : Node ι) (peer : ι) : AppendEntriesRequest ι → Prop
  | empty (barrier : Nat) : Builds n peer (n.emptyAppend peer barrier)
  | entries (es : List (LogEntry ι))
      (hdesc : n.log.canDescribe (predIndex (lookup n.nextIndex peer)) = true)
      (hes : n.entriesFor peer = some es) : Builds n peer { n.emptyAppend peer 0 with entries := es }

theorem entriesFor_spec {n : Node ι} {peer : ι} (hwf : n.log.Wf) (hseg : n.log.Segmented)
    (hlo : n.log.first ≠ 0 → n.log.first ≤ lookup n.nextIndex peer)
    (hpos : 0 < lookup n.nextIndex peer) (h : n.entriesFor peer = some es) :
    es = [] ∨ n.log.first ≠ 0 ∧ ∃ k, es = n.strippedFor peer
      ((n.log.contents.drop (lookup n.nextIndex peer - n.log.first)).take k) := by
  unfold entriesFor at h
  simp only at h
  split_ifs at h with hle
  swap
  · exact .inl (Option.some.inj h).symm
  rw [Option.map_eq_some_iff] at h
  obtain ⟨slice, hslice, hes⟩ := h
  obtain ⟨k, hk⟩ := capByBytes_eq_take n.cfg.maxBytesPerRPC
    (n.strippedFor peer (slice.take n.cfg.maxLogEntriesPerRPC))
  rw [hk, strippedFor_take, List.take_take] at hes
  rcases eq_or_ne n.log.first 0 with hz | hf
  · -- an empty log has nothing to read
    have hlast := hwf.last_eq_zero (hwf.first_eq_zero.mp hz)
    simp only [RaftLog.entries, hlast] at hslice
    rw [if_pos (by omega)] at hslice
    rw [← Option.some.inj hslice] at hes
    refine .inl (hes.symm.trans ?_)
    simp [strippedFor, stripForWitness]
  · have hne := hwf.ne_nil_of_first hf
    have hle' := hlo hf
    rw [RaftLog.lastLogIndex, if_pos (hwf.last_pos hne)] at hle hslice
    rw [hseg.entries_eq hwf hf hle' (by omega) le_rfl] at hslice
    rw [← Option.some.inj hslice, List.take_take] at hes
    exact .inr ⟨hf, _, hes.symm⟩

/-- **What a request states about the log of its sender**, and entries that follow on. -/
theorem Builds.spec {n : Node ι} {peer : ι} {req : AppendEntriesRequest ι} (hb : n.Builds peer req)
    (ht : n.log.TailOf hist) (hseg : n.log.Segmented) (hbound : hist.length < 2 ^ 64 - 1) :
    req.term = n.currentTerm ∧ req.leaderCommit = n.commitIndex ∧
      req.prevLogTerm = (n.log.termAt req.prevLogIndex).getD 0 ∧
      Contiguous (req.prevLogIndex + 1) req.entries ∧ OfHist hist req.entries ∧
      (req.entries ≠ [] → ∃ t, n.log.termAt req.prevLogIndex = some t) := by
  cases hb with
  | empty barrier =>
    exact ⟨rfl, rfl, rfl, Contiguous.nil _, fun e he => absurd he (by simp [emptyAppend]),
      fun h => absurd rfl h⟩
  | entries es hdesc hes =>
    obtain ⟨hpred, hlo, hterm⟩ := ht.canDescribe_spec hbound hdesc
    refine ⟨rfl, rfl, rfl, ?_, ?_, fun _ => hterm⟩
    all_goals simp only [emptyAppend, hpred]
    all_goals rcases entriesFor_spec ht.wf hseg hlo (by omega) hes with rfl | ⟨hf, k, rfl⟩
    · exact Contiguous.nil _
    · have := (ht.wf.contiguous.drop (lookup n.nextIndex peer - n.log.first)).take k
      rw [show n.log.first + (lookup n.nextIndex peer - n.log.first) = lookup n.nextIndex peer by
        have := hlo hf; omega] at this
      exact this.of_shape (strippedFor_shape _ _ _)
    · exact fun e he => absurd he (by simp)
    · refine OfHist.of_shape (fun e he => ht.terms e ?_) (strippedFor_shape _ _ _)
      exact List.mem_of_mem_drop (List.mem_of_mem_take he)

end Node

end Raft
