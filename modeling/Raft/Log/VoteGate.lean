import Mathlib.Data.Prod.Lex
import Raft.Log.Contents

/-!
# The vote gate

A node grants a vote only to a candidate whose log is at least as up to date as
its own, and compares against a cached last term.  This module follows that
cache through every operation on the log: startup, appends, suffix truncations,
local snapshots and snapshot installs, with the writer and its completions in
between and a crash possible at any point.
-/

namespace Raft

namespace RaftLog

variable {ι : Type}

def endTerm (rl : RaftLog ι) : Nat :=
  (rl.contents.getLast?.map (·.term)).getD rl.snapMeta.lastIncludedTerm

def endIndex (rl : RaftLog ι) : Nat :=
  (rl.contents.getLast?.map (·.index)).getD rl.snapMeta.lastIncludedIndex

/-- The vote gate compares candidates with the true end of the log. -/
structure GateExact (rl : RaftLog ι) : Prop where
  term : rl.lastLogTerm = rl.endTerm
  index : rl.lastLogIndex = rl.endIndex
  accepts : ∀ i t, rl.isUpToDate i t = true ↔ toLex (rl.endTerm, rl.endIndex) ≤ toLex (t, i)

theorem gateExact_of_lastTerm {rl : RaftLog ι} (h : rl.Wf) (ht : rl.lastTerm = rl.endTerm) :
    GateExact rl := by
  have hi : rl.lastLogIndex = rl.endIndex := h.lastLogIndex_eq
  refine ⟨ht, hi, fun i t => ?_⟩
  rw [Prod.Lex.toLex_le_toLex, isUpToDate, lastLogTerm, ht, hi]
  split_ifs with hne
  · simp only [decide_eq_true_eq]
    omega
  · simp only [decide_eq_true_eq]
    omega

end RaftLog

/-! ## Operations on the log -/

/-- What can happen to a log; a crash keeps the first `kept` queued writes. -/
inductive LogOp (ι : Type)
  | append (entries : List (LogEntry ι))
  | truncateSuffix (index : Nat)
  | localSnapshot (position : SnapshotMeta) (trailing : Nat)
  | installSnapshot (position : SnapshotMeta)
  | saveSnapshot (snap : Snapshot ι)
  | hardState (hs : HardState ι)
  | commitIndex (index : Nat)
  | execute
  | stabilize (d : WriteDone)
  | restart (kept : Nat)

namespace LogOp

variable {ι : Type} [Sized ι]

def step (rl : RaftLog ι) : LogOp ι → RaftLog ι
  | append es => (rl.append es).2
  | truncateSuffix i => (rl.truncateSuffix i).getD rl
  | localSnapshot position trailing => rl.compact position trailing
  | installSnapshot position => (rl.installSnapshot position).getD rl
  | saveSnapshot snap => rl.saveSnapshot snap
  | hardState hs => rl.enqueue (.hardState hs)
  | commitIndex i => rl.enqueue (.commitIndex i)
  | execute => rl.execute none
  | stabilize d => rl.stabilize d
  | restart kept =>
    match rl.stage kept with
    | some s => (RaftLog.new s rl.w.batch rl.w.commits).getD rl
    | none => rl

def run (rl : RaftLog ι) (ops : List (LogOp ι)) : RaftLog ι := ops.foldl step rl

/-- Appended entries continue the log, and a truncated suffix starts in it. -/
def Called (rl : RaftLog ι) : LogOp ι → Prop
  | append es => es ≠ [] ∧ Contiguous (rl.lastLogIndex + 1) es
  | truncateSuffix i => rl.first ≠ 0 ∧ rl.first ≤ i ∧ i ≤ rl.last + 1
  | _ => True

/-- The term of the end of the log is not taken from a snapshot position that disagrees with it. -/
def KeepsTerm (rl : RaftLog ι) : LogOp ι → Prop
  | localSnapshot position trailing =>
    rl.last < RaftLog.keepFrom position.lastIncludedIndex trailing →
      rl.snapMeta.lastIncludedTerm = position.lastIncludedTerm
  | truncateSuffix i =>
    rl.first < i → i - 1 = rl.snapMeta.lastIncludedIndex →
      ∀ e ∈ rl.contents, e.index = i - 1 → e.term = rl.snapMeta.lastIncludedTerm
  | _ => True

def Along (P : RaftLog ι → LogOp ι → Prop) (rl : RaftLog ι) : List (LogOp ι) → Prop
  | [] => True
  | op :: ops => P rl op ∧ Along P (step rl op) ops

/-! ## The cached term along a run -/

/-- The cached term is right. -/
def TermExact (rl : RaftLog ι) : Prop := rl.Wf ∧ rl.lastTerm = rl.endTerm

section Step

variable {rl : RaftLog ι}

section

variable (h : TermExact rl)

include h

omit [Sized ι] in
theorem TermExact.frame {rl' : RaftLog ι} (hwf : rl'.Wf ∧ rl'.contents = rl.contents)
    (hsnap : rl'.snapMeta = rl.snapMeta) (hterm : rl'.lastTerm = rl.lastTerm) : TermExact rl' := by
  refine ⟨hwf.1, ?_⟩
  rw [hterm, h.2, RaftLog.endTerm, RaftLog.endTerm, hwf.2, hsnap]

theorem TermExact.append {es : List (LogEntry ι)} (hcall : (LogOp.append es).Called rl) :
    TermExact (rl.append es).2 := by
  obtain ⟨hne, hc⟩ := hcall
  obtain ⟨hwf, hcont⟩ := RaftLog.append_spec h.1 hne hc
  have hhead : es.head? = some (es.head hne) := List.head?_eq_some_head hne
  have hlast : es.getLast? = some (es.getLast hne) := List.getLast?_eq_some_getLast hne
  refine ⟨hwf, ?_⟩
  rw [RaftLog.endTerm, hcont, List.getLast?_append, hlast, RaftLog.append_eq hhead hlast]
  rfl

theorem TermExact.truncateSuffix {i : Nat} (hcall : (LogOp.truncateSuffix i).Called rl)
    (hkeep : (LogOp.truncateSuffix i).KeepsTerm rl) :
    TermExact ((rl.truncateSuffix i).getD rl) := by
  obtain ⟨hf, hlo, hhi⟩ := hcall
  obtain ⟨rl', hrl', hcut⟩ := RaftLog.exists_suffixCut h.1 hf hlo hhi
  obtain ⟨hwf, hcont⟩ := hcut.spec h.1 hf hlo hhi
  have hne := h.1.ne_nil_of_first hf
  have hlast := h.1.last_add_one hne
  rw [hrl', Option.getD_some]
  refine ⟨hwf, ?_⟩
  rw [RaftLog.endTerm, hcont, hcut.snapMeta]
  rcases Nat.eq_or_lt_of_le hlo with heq | hlt
  · rw [hcut.lastTerm_of_eq heq.symm, ← heq]
    simp
  · -- the new last entry is the one just below the cut
    have hlen : i - 1 - rl.first < rl.contents.length := by omega
    have hget : (rl.contents.take (i - rl.first)).getLast? = rl.contents[i - 1 - rl.first]? := by
      rw [List.getLast?_eq_getElem?, List.length_take, List.getElem?_take,
        show min (i - rl.first) rl.contents.length - 1 = i - 1 - rl.first by omega,
        if_pos (by omega)]
    have hterm := hcut.lastTerm_of_lt hlt
    by_cases hsnap : i - 1 = rl.snapMeta.lastIncludedIndex
    · rw [RaftLog.termAt, if_neg (by omega), if_pos hsnap] at hterm
      have hidx := h.1.contiguous _ _ (List.getElem?_eq_getElem hlen)
      rw [hget, List.getElem?_eq_getElem hlen, ← Option.some.inj hterm]
      exact (hkeep hlt hsnap _ (List.getElem_mem hlen) (by omega)).symm
    · rw [h.1.termAt_eq (by omega) (by omega) hne hsnap] at hterm
      rw [hget, hterm, Option.getD_some]

theorem TermExact.compact {position : SnapshotMeta} {trailing : Nat}
    (hkeep : (LogOp.localSnapshot position trailing).KeepsTerm rl) :
    TermExact (rl.compact position trailing) := by
  set i := RaftLog.keepFrom position.lastIncludedIndex trailing with hi
  have hpos : 0 < i := by
    rw [hi, RaftLog.keepFrom]
    split_ifs <;> omega
  obtain ⟨hwf, hcont⟩ := RaftLog.truncatePrefix_spec h.1 i
  have hwf' : (rl.compact position trailing).Wf :=
    hwf.of_contents_eq hwf.running hwf.stages rfl rfl rfl rfl
  have hcont' : (rl.compact position trailing).contents = rl.contents.drop (i - rl.first) := hcont
  refine ⟨hwf', ?_⟩
  rw [RaftLog.endTerm, hcont']
  change (rl.truncatePrefix i).lastTerm = _
  by_cases hne : rl.contents.drop (i - rl.first) = []
  · -- the log is emptied, and the term taken is that of the previous snapshot
    have hlast : rl.last < i := by
      rcases eq_or_ne rl.contents [] with hnil | hcne
      · rw [h.1.last_eq_zero hnil]
        exact hpos
      · have := h.1.last_add_one hcne
        have := List.length_pos_of_ne_nil hcne
        rw [List.drop_eq_nil_iff] at hne
        omega
    have hcut : ¬ (rl.first ≠ 0 ∧ i ≤ rl.first) := by
      rintro ⟨hf, hle⟩
      have := h.1.first_le_last (h.1.ne_nil_of_first hf)
      omega
    rw [(RaftLog.prefixCut hcut).lastTerm, if_pos hlast, hne, hkeep hlast]
    rfl
  · have hlt : ¬ rl.contents.length ≤ i - rl.first := by
      rwa [List.drop_eq_nil_iff] at hne
    have hsome : rl.contents.getLast?.isSome := by
      rw [List.getLast?_isSome]
      rintro hnil
      simp [hnil] at hlt
    obtain ⟨e, he⟩ := Option.isSome_iff_exists.mp hsome
    rw [RaftLog.truncatePrefix_lastTerm h.1 hne, h.2, RaftLog.endTerm, List.getLast?_drop,
      if_neg hlt, he]
    rfl

theorem TermExact.installSnapshot (position : SnapshotMeta) :
    TermExact ((rl.installSnapshot position).getD rl) := by
  obtain ⟨rl', hrl', hwf, hcont, hsnap, hterm⟩ := RaftLog.installSnapshot_spec h.1 position
  rw [hrl', Option.getD_some]
  refine ⟨hwf, ?_⟩
  rw [hterm, RaftLog.endTerm, hcont, hsnap]
  -- nothing survives the snapshot, or the last entry does
  split_ifs with hnil
  · rw [hnil]
    rfl
  · rw [RaftLog.survivors] at hnil ⊢
    split_ifs at hnil ⊢ with hagree
    · have hlt : ¬ rl.contents.length ≤ position.lastIncludedIndex + 1 - rl.first := by
        rwa [List.drop_eq_nil_iff] at hnil
      rw [h.2, RaftLog.endTerm, List.getLast?_drop, if_neg hlt]
      cases hl : rl.contents.getLast? with
      | none => simp [List.getLast?_eq_none_iff.mp hl] at hlt
      | some e => rfl
    · exact absurd rfl hnil

theorem TermExact.restart (kept : Nat) : TermExact ((LogOp.restart kept).step rl) := by
  obtain ⟨s, hs, hwf⟩ := h.1.stages kept
  obtain ⟨rl', hrl', hfresh⟩ := RaftLog.exists_new hwf rl.w.batch rl.w.commits
  simp only [LogOp.step, hs, hrl', Option.getD_some]
  refine ⟨hfresh.wf, ?_⟩
  rw [hfresh.lastTerm, RaftLog.endTerm, hfresh.contents, hfresh.snapMeta]

theorem TermExact.step {op : LogOp ι} (hcall : op.Called rl) (hkeep : op.KeepsTerm rl) :
    TermExact (op.step rl) := by
  cases op with
  | append es => exact h.append hcall
  | truncateSuffix i => exact h.truncateSuffix hcall hkeep
  | localSnapshot position trailing => exact h.compact hkeep
  | installSnapshot position => exact h.installSnapshot position
  | saveSnapshot snap => exact h.frame (h.1.saveSnapshot snap) rfl rfl
  | hardState hs => exact h.frame (h.1.enqueue_hardState hs) rfl rfl
  | commitIndex i => exact h.frame (h.1.enqueue_commitIndex i) rfl rfl
  | execute => exact h.frame h.1.execute rfl rfl
  | stabilize d =>
    refine h.frame (h.1.stabilize d) ?_ ?_
    all_goals
      simp only [LogOp.step, RaftLog.stabilize]
      split_ifs <;> rfl
  | restart kept => exact h.restart kept

theorem TermExact.run {ops : List (LogOp ι)} (hcall : Along Called rl ops)
    (hkeep : Along KeepsTerm rl ops) : TermExact (run rl ops) := by
  induction ops generalizing rl with
  | nil => exact h
  | cons op ops ih => exact ih (h.step hcall.1 hkeep.1) hcall.2 hkeep.2

end

end Step

/-- **The vote gate is exact** in every state reached by operations that keep the term. -/
theorem gateExact_of_keepsTerm {s : Store ι} (hs : s.Wf) {batch commits : Bool} {rl : RaftLog ι}
    (hnew : RaftLog.new s batch commits = some rl) {ops : List (LogOp ι)}
    (hcall : Along Called rl ops) (hkeep : Along KeepsTerm rl ops) :
    RaftLog.GateExact (run rl ops) := by
  have hfresh := RaftLog.Fresh.of_new hs hnew
  have hstart : TermExact rl := by
    refine ⟨hfresh.wf, ?_⟩
    rw [hfresh.lastTerm, RaftLog.endTerm, hfresh.contents, hfresh.snapMeta]
  have hend := hstart.run hcall hkeep
  exact RaftLog.gateExact_of_lastTerm hend.1 hend.2

def fresh : RaftLog Nat := (RaftLog.new Store.empty true true).get rfl

/-- With one trailing entry the same snapshot leaves the gate exact. -/
theorem gateExact_compact_trailing : RaftLog.GateExact (run fresh
    [.append [⟨1, 1, .user []⟩], .execute, .localSnapshot ⟨1, 1⟩ 1]) :=
  gateExact_of_keepsTerm (s := Store.empty) ⟨Contiguous.nil _, fun h => absurd rfl h⟩ rfl
    ⟨⟨by decide, Contiguous.singleton _⟩, trivial, trivial, trivial⟩
    ⟨trivial, trivial, fun h => absurd h (by decide), trivial⟩

/-- A snapshot of the whole log with no trailing entries: the cached term is that of no
snapshot, and a candidate that lacks the entry passes the gate. -/
theorem not_gateExact_compact_all :
    Along Called fresh [.append [⟨1, 1, .user []⟩], .execute, .localSnapshot ⟨1, 1⟩ 0] ∧
      ¬ RaftLog.GateExact (run fresh
        [.append [⟨1, 1, .user []⟩], .execute, .localSnapshot ⟨1, 1⟩ 0]) ∧
      (run fresh [.append [⟨1, 1, .user []⟩], .execute, .localSnapshot ⟨1, 1⟩ 0]).isUpToDate
        1 0 = true := by
  refine ⟨⟨⟨by decide, Contiguous.singleton _⟩, trivial, trivial, trivial⟩, ?_, by decide⟩
  intro h
  exact absurd h.term (by decide)

end LogOp

end Raft
