import Raft.Apply.GapFree
import Raft.Snapshot.Roster

/-!
# What a snapshot should contain

The effect of the first entries of the committed log is what the apply loop makes of
them, in whatever ranges they come, together with the roster that their configuration
entries leave.  A snapshot is exact when it holds this for its own index.  Whoever
restores an exact snapshot and applies the entries after it has applied every entry
once.

## Main results

* `Alike.applyRanges`: loops that have applied the same go on alike.
* `Snapshot.exact_of_leadsTo`: what the loop has reached makes an exact snapshot.
-/

namespace Raft

variable {ι : Type}

namespace ApplyLoop

/-- Two loops that have applied the same. -/
structure Alike (a b : ApplyLoop ι) : Prop where
  sm : a.sm = b.sm
  clientTable : a.clientTable = b.clientTable
  localLastApplied : a.localLastApplied = b.localLastApplied

namespace Alike

variable {a b : ApplyLoop ι} (machine : List (LogEntry ι) → LogEntry ι → ApplyOutcome)

theorem refl (a : ApplyLoop ι) : a.Alike a := ⟨rfl, rfl, rfl⟩

section

variable (h : a.Alike b)

include h

theorem report (r : ApplyResult ι) : (a.report r).Alike (b.report r) :=
  ⟨h.sm, h.clientTable, rfl⟩

theorem settleAll (outs : List (PendingEntry ι × ApplyOutcome)) :
    (a.settleAll outs).Alike (b.settleAll outs) := by
  induction outs generalizing a b with
  | nil => exact h
  | cons p outs ih =>
    refine ih ⟨h.sm, ?_, rfl⟩
    simp only [settle, ApplyLoop.report, h.clientTable]

theorem flushed (run : List (PendingEntry ι)) :
    (flushed machine (a, run)).Alike (ApplyLoop.flushed machine (b, run)) := by
  have hstart : Alike { a with sm := a.sm ++ run.map (·.entry) }
      { b with sm := b.sm ++ run.map (·.entry) } := ⟨by rw [h.sm], h.clientTable, h.localLastApplied⟩
  have hall := hstart.settleAll (run.zip (outcomes machine b.sm (run.map (·.entry))))
  unfold ApplyLoop.flushed applyPending
  rw [h.sm] at hall ⊢
  exact hall

theorem applyEntry (run : List (PendingEntry ι)) (e : LogEntry ι) :
    (applyEntry machine (a, run) e).1.Alike (ApplyLoop.applyEntry machine (b, run) e).1 ∧
      (ApplyLoop.applyEntry machine (a, run) e).2 = (ApplyLoop.applyEntry machine (b, run) e).2 := by
  have hflushed := h.flushed machine run
  cases hop : e.configOp with
  | some op =>
    rw [applyEntry_config machine (a, run) hop, applyEntry_config machine (b, run) hop]
    exact ⟨⟨hflushed.sm, congrArg op.adjust hflushed.clientTable, rfl⟩, rfl⟩
  | none =>
    have hsame : Raft.known a.clientTable e = Raft.known b.clientTable e := by rw [h.clientTable]
    cases hknown : Raft.known b.clientTable e with
    | some cached =>
      rw [hknown] at hsame
      rw [applyEntry_known machine (a, run) hsame, applyEntry_known machine (b, run) hknown]
      exact ⟨hflushed.report _, rfl⟩
    | none =>
      rw [hknown] at hsame
      rw [applyEntry_queued machine (a, run) hop hsame, applyEntry_queued machine (b, run) hop hknown]
      exact ⟨h, rfl⟩

theorem applyEntries (es : List (LogEntry ι)) :
    (a.applyEntries machine es).Alike (b.applyEntries machine es) := by
  have hfold (run : List (PendingEntry ι)) :
      (ApplyLoop.flushed machine (es.foldl (ApplyLoop.applyEntry machine) (a, run))).Alike
        (ApplyLoop.flushed machine (es.foldl (ApplyLoop.applyEntry machine) (b, run))) := by
    induction es generalizing a b run with
    | nil => exact h.flushed machine run
    | cons e es ih =>
      obtain ⟨hnext, hwait⟩ := h.applyEntry machine run e
      have hrest := ih hnext (ApplyLoop.applyEntry machine (a, run) e).2
      nth_rewrite 2 [hwait] at hrest
      exact hrest
  exact hfold []

theorem applyRanges (ranges : List (List (LogEntry ι))) :
    (applyRanges machine a ranges).Alike (ApplyLoop.applyRanges machine b ranges) := by
  induction ranges generalizing a b with
  | nil => exact h
  | cons es ranges ih => exact ih (h.applyEntries machine es)

end

end Alike

end ApplyLoop

section Effect

variable (cfg : Config ι) (log : CommittedLog ι)

def blankLoop : ApplyLoop ι := ⟨none, none, none, 0, .empty cfg.maxClientTableSize, [], []⟩

/-- The first `k` entries lead to this state of the state machine and this table. -/
def LeadsTo (k : Nat) (sm : List (LogEntry ι)) (table : ClientLRU) : Prop :=
  ∃ ranges : List (List (LogEntry ι)), ranges.flatten = log.between 0 k ∧
    (ApplyLoop.applyRanges cfg.stateMachine (blankLoop cfg) ranges).sm = sm ∧
    (ApplyLoop.applyRanges cfg.stateMachine (blankLoop cfg) ranges).clientTable = table

theorem leadsTo_zero : LeadsTo cfg log 0 [] (.empty cfg.maxClientTableSize) :=
  ⟨[], (log.between_self 0).symm, rfl, rfl⟩

variable {cfg log}

theorem applyRanges_last {k : Nat} {ranges : List (List (LogEntry ι))}
    (hflat : ranges.flatten = log.between 0 k) :
    (ApplyLoop.applyRanges cfg.stateMachine (blankLoop cfg) ranges).localLastApplied = k := by
  rw [ApplyLoop.applyRanges_localLastApplied, hflat]
  rcases Nat.eq_zero_or_pos k with rfl | hpos
  · rfl
  · rw [log.between_getLast hpos, Option.map_some, log.index, Option.getD_some]

theorem LeadsTo.extend {a : ApplyLoop ι} (h : LeadsTo cfg log a.localLastApplied a.sm a.clientTable)
    {k : Nat} (hk : a.localLastApplied ≤ k) :
    LeadsTo cfg log k
      (a.applyEntries cfg.stateMachine (log.between a.localLastApplied k)).sm
      (a.applyEntries cfg.stateMachine (log.between a.localLastApplied k)).clientTable := by
  obtain ⟨ranges, hflat, hsm, htable⟩ := h
  have hlike : a.Alike (ApplyLoop.applyRanges cfg.stateMachine (blankLoop cfg) ranges) :=
    ⟨hsm.symm, htable.symm, (applyRanges_last hflat).symm⟩
  have hnext := hlike.applyEntries cfg.stateMachine (log.between a.localLastApplied k)
  refine ⟨ranges ++ [log.between a.localLastApplied k], ?_, ?_, ?_⟩
  · rw [List.flatten_append, hflat, List.flatten_singleton, log.between_append (Nat.zero_le _) hk]
  · rw [ApplyLoop.applyRanges_append]
    exact hnext.sm.symm
  · rw [ApplyLoop.applyRanges_append]
    exact hnext.clientTable.symm

variable [DecidableEq ι]

variable (cfg) in
def reroster (r : Roster ι) (op : Option (ConfigOp ι)) : Roster ι :=
  match op with
  | some op => r.change cfg.id cfg.witness op
  | none => r

variable (cfg log) in
def rosterAt (k : Nat) : Roster ι :=
  (log.between 0 k).foldl (fun r e => reroster cfg r e.configOp) (.initial cfg)

theorem rosterAt_extend {s t : Nat} (h : s ≤ t) :
    rosterAt cfg log t =
      (log.between s t).foldl (fun r e => reroster cfg r e.configOp) (rosterAt cfg log s) := by
  rw [rosterAt, rosterAt, ← log.between_append (Nat.zero_le s) h, List.foldl_append]

end Effect

namespace Snapshot

variable [DecidableEq ι]

/-- The snapshot holds the effect of the entries up to its index. -/
structure Exact (cfg : Config ι) (log : CommittedLog ι) (snap : Snapshot ι) : Prop where
  applied : ∃ ranges : List (List (LogEntry ι)),
    ranges.flatten = log.between 0 snap.position.lastIncludedIndex ∧
      snap.data = (ApplyLoop.applyRanges cfg.stateMachine (blankLoop cfg) ranges).sm ∧
      snap.table = (ApplyLoop.applyRanges cfg.stateMachine (blankLoop cfg) ranges).clientTable.items ∧
      ∀ a : ApplyLoop ι, a.localLastApplied < snap.position.lastIncludedIndex →
        snap.clientTableCap.getD a.clientTable.bound =
          (ApplyLoop.applyRanges cfg.stateMachine (blankLoop cfg) ranges).clientTable.bound →
        ∀ more : List (List (LogEntry ι)),
          (ApplyLoop.applyRanges cfg.stateMachine
            ({ a with restore := some snap }.restoreFrom true) more).Alike
              (ApplyLoop.applyRanges cfg.stateMachine (blankLoop cfg) (ranges ++ more))
  membership : snap.membership =
    some ((rosterAt cfg log snap.position.lastIncludedIndex).recorded cfg.id cfg.witness)
  clientTableCap : snap.clientTableCap =
    (rosterAt cfg log snap.position.lastIncludedIndex).agreedCap

theorem exact_of_leadsTo {cfg : Config ι} {log : CommittedLog ι} {snap : Snapshot ι} {table : ClientLRU}
    (hlead : LeadsTo cfg log snap.position.lastIncludedIndex snap.data table)
    (htable : snap.table = table.items)
    (hmembers : snap.membership =
      some ((rosterAt cfg log snap.position.lastIncludedIndex).recorded cfg.id cfg.witness))
    (hcap : snap.clientTableCap = (rosterAt cfg log snap.position.lastIncludedIndex).agreedCap) :
    snap.Exact cfg log := by
  obtain ⟨ranges, hflat, hsm, rfl⟩ := hlead
  refine ⟨⟨ranges, hflat, hsm.symm, htable, fun a hlt hbound more => ?_⟩, hmembers, hcap⟩
  -- The restored loop has applied what the ranges make of the first entries.
  have hlike : ({ a with restore := some snap }.restoreFrom true).Alike
      (ApplyLoop.applyRanges cfg.stateMachine (blankLoop cfg) ranges) := by
    unfold ApplyLoop.restoreFrom
    dsimp only
    rw [if_neg (Nat.not_le.mpr hlt), if_pos rfl]
    refine ⟨hsm.symm, ?_, (applyRanges_last hflat).symm⟩
    rw [hbound, htable]
    exact Recency.loadFrom_items _
  rw [ApplyLoop.applyRanges_append]
  exact hlike.applyRanges cfg.stateMachine more

end Snapshot

end Raft
