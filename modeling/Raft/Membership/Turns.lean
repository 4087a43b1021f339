import Raft.System.Logs
import Raft.Turn.Tenure

/-!
# What the turns about configuration do to log and membership

The turns that bring entries or change the membership: a request is merged, proposals are
appended, an applied entry is adopted, a snapshot is taken up, the node starts again.  Each is
described by what it makes of the plain log and of the membership.
-/

namespace Raft

variable {ι : Type}

namespace PlainLog

variable {p : PlainLog ι} {e : LogEntry ι} {rest : List (LogEntry ι)}

theorem skip_present (rest : List (LogEntry ι)) (h : p.termAt e.index = some e.term) :
    p.conflict (e :: rest) = p.conflict rest ∧ p.missing (e :: rest) = p.missing rest := by
  simp [conflict, missing, h]

theorem merge_present (h : p.termAt e.index = some e.term) :
    p.kept (e :: rest) = p.kept rest ∧ p.merge (e :: rest) = p.merge rest := by
  obtain ⟨hconflict, hmissing⟩ := skip_present rest h
  have hkept : p.kept (e :: rest) = p.kept rest := by rw [kept, kept, hconflict]
  exact ⟨hkept, by rw [merge, merge, hkept, hmissing]⟩

theorem Takes.tail (h : p.Takes (e :: rest)) (hthere : p.termAt e.index = some e.term) :
    p.Takes rest := by
  obtain ⟨hconflict, hmissing⟩ := skip_present rest hthere
  refine ⟨?_, ?_⟩
  · rw [← (merge_present hthere).1, ← hmissing]
    exact h.continues
  · rw [← hconflict]
    exact h.inside

end PlainLog

variable [DecidableEq ι] [Sized ι]

namespace Node

/-- The membership once the log has given way to a request: recomputed if it may have come from what
was removed. -/
def mergedMembership (n : Node ι) (es : List (LogEntry ι)) : Membership ι :=
  match n.log.plain.conflict es with
  | none => n.membership
  | some e =>
    if e.index ≤ n.membership.configIndex then
      (n.membership.rebase n.cfg.id n.log.snapMeta.lastIncludedIndex).adoptAll n.cfg.id
        n.cfg.witness (n.log.plain.below e.index).entries
    else n.membership

variable {n : Node ι}

theorem truncateConflict_plain (hfol : n.state ≠ .leader) (hn : n.log.Sound) {e e' : LogEntry ι}
    (he' : e' ∈ n.log.plain.entries) (hidx : e'.index = e.index) :
    ∃ log m, n.truncateConflict e.index = ({ n with log := log, membership := m }, true) ∧
      log.Refines (n.log.plain.below e.index) ∧
      m = if e.index ≤ n.membership.configIndex then
          (n.membership.rebase n.cfg.id n.log.snapMeta.lastIncludedIndex).adoptAll n.cfg.id
            n.cfg.witness (n.log.plain.below e.index).entries
        else n.membership := by
  have hne : n.log.contents ≠ [] := List.ne_nil_of_mem he'
  have hbounds := hn.wf.contiguous.index_of_mem he'
  have hlast := hn.wf.last_add_one hne
  obtain ⟨log, hlog, hrefines⟩ := hn.truncateSuffix (i := e.index) (hn.wf.first_pos hne).ne'
    (by omega) (by omega)
  have hsnap : log.snapMeta = n.log.snapMeta := hrefines.base
  simp only [truncateConflict, hlog]
  split_ifs with hcfg
  · -- the rest of the log can be read, so the membership can be recomputed
    rw [rebuildMembership_eq (n := { n with log := log }) hfol hrefines.reads]
    refine ⟨log, _, rfl, hrefines, ?_⟩
    rw [hsnap]
    rfl
  · exact ⟨log, n.membership, rfl, hrefines, rfl⟩

theorem mergeEntries_plain (hfol : n.state ≠ .leader) (hn : n.log.Sound) {es : List (LogEntry ι)}
    (htakes : n.log.plain.Takes es) :
    ∃ seq log, n.mergeEntries es =
        .ok (seq, { n with log := log, membership := n.mergedMembership es }) ∧
      log.Refines (n.log.plain.merge es) := by
  induction es with
  | nil =>
    refine ⟨0, n.log, rfl, ?_⟩
    change n.log.Refines { n.log.plain with entries := n.log.plain.entries ++ [] }
    rw [List.append_nil]
    exact hn
  | cons e rest ih =>
    have hterm := hn.termAt_eq e.index
    cases ht : n.log.plain.termAt e.index with
    | none =>
      -- the entry is missing, and with it everything behind
      have hconflict : n.log.plain.conflict (e :: rest) = none := by
        simp [PlainLog.conflict, ht]
      have hmissing : n.log.plain.missing (e :: rest) = e :: rest := by
        simp [PlainLog.missing, ht]
      have hkept : n.log.plain.kept (e :: rest) = n.log.plain := by
        rw [PlainLog.kept, hconflict]
      have hcont := htakes.continues
      rw [hkept, hmissing, ← hn.lastLogIndex_eq] at hcont
      refine ⟨(n.log.append (e :: rest)).1, (n.log.append (e :: rest)).2, ?_, ?_⟩
      · simp only [mergeEntries, hterm, ht, appendEntries, mergedMembership, hconflict]
      · rw [PlainLog.merge, hkept, hmissing]
        exact hn.append (List.cons_ne_nil e rest) hcont
    | some t =>
      by_cases heq : t = e.term
      · subst heq
        obtain ⟨seq, log, hok, hrefines⟩ := ih (htakes.tail ht)
        refine ⟨seq, log, ?_, ?_⟩
        · simp only [mergeEntries, hterm, ht, if_true, hok, mergedMembership,
            (PlainLog.skip_present rest ht).1]
        · rw [(PlainLog.merge_present ht).2]
          exact hrefines
      · -- the log contradicts the entry and is cut there
        have hconflict : n.log.plain.conflict (e :: rest) = some e := by
          simp [PlainLog.conflict, ht, heq]
        have hmissing : n.log.plain.missing (e :: rest) = e :: rest := by
          simp [PlainLog.missing, ht, heq]
        have hkept : n.log.plain.kept (e :: rest) = n.log.plain.below e.index := by
          rw [PlainLog.kept, hconflict]
        obtain ⟨e', he', hidx, -⟩ := htakes.inside e hconflict
        obtain ⟨log, m, hcut, hrefines, hm⟩ := truncateConflict_plain hfol hn he' hidx
        have hcont := htakes.continues
        rw [hkept, hmissing, ← hrefines.lastLogIndex_eq] at hcont
        refine ⟨(log.append (e :: rest)).1, (log.append (e :: rest)).2, ?_, ?_⟩
        · simp only [mergeEntries, hterm, ht, if_neg heq, hcut, appendEntries, mergedMembership,
            hconflict, hm]
        · rw [PlainLog.merge, hkept, hmissing]
          exact hrefines.append (List.cons_ne_nil e rest) hcont

/-- The request passes for this node: it is not stale, and it is admitted. -/
def Accepts (n : Node ι) (req : AppendEntriesRequest ι) : Prop :=
  n.currentTerm ≤ req.term ∧ (n.becomeFollower req.term (some req.leaderID)).Admits req

instance (n : Node ι) (req : AppendEntriesRequest ι) : Decidable (n.Accepts req) :=
  inferInstanceAs (Decidable (_ ∧ _ = none ∧ _ = false))

theorem acceptEntries_plain (hfol : n.state ≠ .leader) (hn : n.log.Sound) (src : Asker ι)
    (req : AppendEntriesRequest ι) {es : List (LogEntry ι)} (htakes : n.log.plain.Takes es) :
    (n.acceptEntries src req es).log.Refines (n.log.plain.merge es) ∧
      (n.acceptEntries src req es).membership = (n.mergedMembership es).noteAppendedConfig es := by
  obtain ⟨seq, log, hok, hrefines⟩ := mergeEntries_plain hfol hn htakes
  simp only [acceptEntries, hok]
  generalize hm : (n.mergedMembership es).noteAppendedConfig es = m
  set n₁ : Node ι := { n with log := log, membership := m }
  have hraise : ∀ idx, ∀ n₂ : Node ι,
      (if n₁.commitIndex < idx then (n₁.setCommitIndex idx).notifyApply else n₁) = n₂ →
      n₂.log.Refines (n.log.plain.merge es) ∧ n₂.membership = m := by
    rintro idx n₂ rfl
    split_ifs with hlt
    · obtain ⟨log', rec, a, heq, hlog⟩ := setCommitIndex_notifyApply_cases n₁ hlt
      rw [heq]
      refine ⟨?_, rfl⟩
      rcases hlog with hlog | ⟨i, hlog⟩
      · rw [hlog]
        exact hrefines
      · rw [hlog]
        exact hrefines.step (show (LogCall.commitIndex i).Made _ from trivial)
    · exact ⟨hrefines, rfl⟩
  generalize hn₂ : (if n₁.commitIndex < min req.leaderCommit (req.prevLogIndex + es.length) then
    (n₁.setCommitIndex (min req.leaderCommit (req.prevLogIndex + es.length))).notifyApply
    else n₁) = n₂
  obtain ⟨hlog, hmem⟩ := hraise _ n₂ hn₂
  have hreply := replyAppendWhenDurable_answers n₂ src req ⟨n₂.currentTerm, true, 0, 0⟩
    (if es.isEmpty then seq else max seq (n₂.log.writeSeqCovering (req.prevLogIndex + es.length)))
  exact ⟨by rw [hreply.log]; exact hlog, (congrArg Core.membership hreply.core :).trans hmem⟩

/-- **A request** is merged if it passes, and changes nothing otherwise. -/
theorem handleAppendEntries_plain (hn : n.log.Sound) (src : Asker ι) (req : AppendEntriesRequest ι)
    (htakes : n.Accepts req → n.log.plain.Takes (n.received req)) :
    n.Accepts req ∧
        (n.handleAppendEntries src req).log.Refines (n.log.plain.merge (n.received req)) ∧
        (n.handleAppendEntries src req).membership =
          (n.mergedMembership (n.received req)).noteAppendedConfig (n.received req) ∧
        (n.handleAppendEntries src req).state = .follower ∨
      ¬ n.Accepts req ∧ (n.handleAppendEntries src req).log.Refines n.log.plain ∧
        (n.handleAppendEntries src req).membership = n.membership := by
  obtain ⟨hlog, -, hcfg, hstate, -⟩ := becomeFollower_frame n req.term (some req.leaderID)
  have hmem := becomeFollower_membership n req.term (some req.leaderID)
  have hm : (n.becomeFollower req.term (some req.leaderID)).log.Refines n.log.plain := by
    rw [hlog]
    split_ifs
    · exact RaftLog.Refines.step hn (show (LogCall.hardState _).Made _ from trivial)
    · exact hn
  simp only [handleAppendEntries, Accepts] at htakes ⊢
  generalize n.becomeFollower req.term (some req.leaderID) = m at hlog hcfg hstate hmem hm htakes ⊢
  by_cases hterm : req.term < n.currentTerm
  · have hreply := replyAppendWhenDurable_answers n src req ⟨n.currentTerm, false, 0, 0⟩ 0
    rw [if_pos hterm]
    exact .inr ⟨fun h => absurd hterm (by omega), hreply.log ▸ hn,
      (congrArg Core.membership hreply.core :)⟩
  · rw [if_neg hterm]
    cases hprev : m.prevConflict req with
    | some c =>
      have hreply := replyAppendWhenDurable_answers m src req ⟨m.currentTerm, false, c.1, c.2⟩ 0
      refine .inr ⟨fun h => ?_, hreply.log ▸ hm, (congrArg Core.membership hreply.core :).trans hmem⟩
      cases hprev.symm.trans h.2.1
    | none =>
      cases hfull : m.backlogFull req.entries with
      | true =>
        refine .inr ⟨fun h => ?_, hm, hmem⟩
        cases hfull.symm.trans h.2.2
      | false =>
        have hacc : n.currentTerm ≤ req.term ∧ m.Admits req := ⟨by omega, hprev, hfull⟩
        have hsame : m.log.plain = n.log.plain := hm.plain_eq
        have hsnap : m.log.snapMeta = n.log.snapMeta := congrArg PlainLog.base hsame
        have hes : (if m.cfg.witness = true then stripForWitness req.entries else req.entries) =
            n.received req := by rw [hcfg]; rfl
        have hmerged : m.mergedMembership (n.received req) = n.mergedMembership (n.received req) := by
          simp only [mergedMembership, hsame, hsnap, hcfg, hmem]
        obtain ⟨hlog', hmem'⟩ := acceptEntries_plain (by rw [hstate]; decide) hm.sound src req
          (by rw [hsame]; exact htakes hacc)
        rw [hes]
        rw [hsame] at hlog'
        rw [hmerged] at hmem'
        have htaken := acceptEntries_frame hstate (Eq.refl (m.acceptEntries src req (n.received req)))
        exact .inl ⟨hacc, hlog', hmem', (congrArg Core.state htaken.core :).trans hstate⟩

omit [DecidableEq ι] [Sized ι] in
theorem Numbered.extends {n' : Node ι} {ds : List WriteDone} (h : n.Numbered ds)
    (hext : n.log.Extends n'.log) (hdone : n'.completedWriteSeq = n.completedWriteSeq) :
    n'.Numbered ds := by
  obtain ⟨ops, hops, -⟩ := hext h.log.running
  exact h.queues hops (hdone ▸ ⟨h.completed, h.reported⟩)

/-- **Proposals** that are taken up are appended and noted. -/
theorem handleProposals_plain (hn : n.log.Sound) (hnum : n.Numbered []) {cmds : List (Command ι)}
    (hapart : n.NumbersApart cmds) :
    ∃ es, (n.handleProposals cmds).log.Refines
        { n.log.plain with entries := n.log.plain.entries ++ es } ∧
      Contiguous (n.log.lastLogIndex + 1) es ∧
      (n.handleProposals cmds).membership = n.membership.noteAppendedConfig es ∧
      (es = [] ∧ (n.handleProposals cmds).tenure = n.tenure ∨
        n.state = .leader ∧ es = (n.batch cmds).entries ∧
          (n.handleProposals cmds).tenure = { n.tenure with
            pendingConfigIndex := (n.batch cmds).pendingConfigIndex
            lastLogIndex := n.log.lastLogIndex + es.length }) := by
  have hnothing : n.log.Refines { n.log.plain with entries := n.log.plain.entries ++ [] } := by
    rw [List.append_nil]
    exact hn
  have hc := batch_contiguous hapart
  rcases n.handleProposals_cases cmds with ⟨heq, -⟩ | ⟨hlead, -, hne, hstays⟩
  · rw [heq]
    exact ⟨[], hnothing, .nil _, rfl, .inl ⟨rfl, rfl⟩⟩
  obtain ⟨c, q, happend⟩ := n.appendBatch_eq cmds
  replace hstays := hstays .timer
  rw [happend] at hstays
  have hlog : (n.log.append (n.batch cmds).entries).2.Refines
      { n.log.plain with entries := n.log.plain.entries ++ (n.batch cmds).entries } :=
    RaftLog.Refines.append hn hne hc
  -- what follows sends messages and may commit, but adds no entries
  have htenure := hstays.tenure
  have hrefines := (Moves.grows hstays.moves trivial (hnum.extends (.append _ _) rfl)
    (fun d due kept h => by cases h) hlog.sound).refines_of_lastLogIndex hlog.sound
    (congrArg Tenure.lastLogIndex htenure)
  rw [hlog.plain_eq] at hrefines
  refine ⟨_, hrefines, hc, hstays.membership, .inr ⟨hlead, rfl, ?_⟩⟩
  rw [htenure, ← hn.lastLogIndex_of_append hlog hc]
  rfl

omit [DecidableEq ι] [Sized ι] in
theorem noteOutcome_eq (n : Node ι) (r : ApplyResult ι) :
    ∃ t s a, (n.recordOutcome r).maybeSnapshot =
      { n with clientTable := t, snapshots := s, apply := a } := by
  obtain ⟨t, ht⟩ := recordOutcome_frame n r
  rw [ht]
  unfold maybeSnapshot
  split_ifs
  · exact ⟨t, _, _, rfl⟩
  · exact ⟨t, _, _, rfl⟩
  · split
    · exact ⟨t, _, _, rfl⟩
    · exact ⟨t, _, _, rfl⟩

omit [DecidableEq ι] [Sized ι] in
theorem noteOutcome_membership (n : Node ι) (r : ApplyResult ι) :
    ((n.recordOutcome r).maybeSnapshot).membership = n.membership := by
  obtain ⟨t, s, a, heq⟩ := n.noteOutcome_eq r
  rw [heq]

/-- **An applied entry** is adopted if it is a configuration entry; a leader may close a joint
stage. -/
theorem handleApplyResult_plain (hn : n.log.Sound) (hnum : n.Numbered []) {r : ApplyResult ι}
    {rest : List (ApplyResult ι)} (hres : n.apply.results = r :: rest) :
    n.log.Grows n.handleApplyResult.log ∧
      n.handleApplyResult.membership = match r.configCmd with
        | some op => (n.membership.adopt n.cfg.id n.cfg.witness op r.index).agree op
        | none => n.membership := by
  constructor
  · exact Moves.grows (handleApplyResult_moves n hres (rfl : Input.applied r = _)) trivial hnum
      (fun d due kept h => by cases h) hn
  · unfold handleApplyResult
    rw [hres]
    rw [noteOutcome_membership]
    cases r.configCmd with
    | none => rfl
    | some op => exact applyConfigChange_membership _ op r.index

omit [DecidableEq ι] in
/-- **The result of a local snapshot**: the log is cut behind it, and what it recorded becomes the
base. -/
theorem takeSnapshotResult_plain (hn : n.log.Sound) :
    (n.takeSnapshotResult.log.Refines n.log.plain ∧ n.takeSnapshotResult.membership = n.membership ∧
      ∀ r rest, n.snapshots.results = r :: rest → r.err = true) ∨
    ∃ r rest, n.snapshots.results = r :: rest ∧ r.err = false ∧
      n.takeSnapshotResult.log.Refines ⟨r.trigger.position, n.log.plain.entries.filter
        (RaftLog.keepFrom r.trigger.position.lastIncludedIndex n.trailingLogs ≤ ·.index)⟩ ∧
      n.takeSnapshotResult.membership = { n.membership with
        base := r.trigger.membership, baseClientTableCap := r.trigger.clientTableCap } := by
  unfold takeSnapshotResult
  cases hres : n.snapshots.results with
  | nil => exact .inl ⟨hn, rfl, fun r rest h => by cases h⟩
  | cons r rest =>
    simp only [handleSnapshotResult]
    split_ifs with herr
    · refine .inl ⟨hn, rfl, fun r' rest' h => ?_⟩
      cases h
      exact herr
    · refine .inr ⟨r, rest, rfl, by simpa using herr, ?_, rfl⟩
      exact RaftLog.Refines.step hn
        (show (LogCall.localSnapshot r.trigger.position n.trailingLogs).Made _ from trivial)

end Node

def Membership.takeFrame (m : Membership ι) (snap : Snapshot ι) : Membership ι :=
  let m := match snap.clientTableCap with
    | some capacity => { m.adoptCap capacity with baseClientTableCap := some capacity }
    | none => m
  match snap.membership with
  | some ms => { m with base := ms }.adoptCommitQuorum ms.commitQuorum
  | none => m

/-- The membership with a snapshot taken over, and the log behind it. -/
def Membership.install (self : ι) (witness : Bool) (m : Membership ι) (snap : Snapshot ι)
    (rl : RaftLog ι) : Membership ι :=
  if snap.membership.isSome then (m.takeFrame snap).rebuilt self witness rl else m.takeFrame snap

namespace Node

omit [DecidableEq ι] [Sized ι] in
theorem adoptFrame_membership (n : Node ι) (snap : Snapshot ι) :
    (n.adoptFrame snap).membership = n.membership.takeFrame snap ∧
      (n.adoptFrame snap).log = n.log ∧ (n.adoptFrame snap).cfg = n.cfg ∧
      (n.adoptFrame snap).completedWriteSeq = n.completedWriteSeq := by
  unfold adoptFrame Membership.takeFrame
  cases snap.clientTableCap with
  | none | some capacity => exact ⟨rfl, rfl, rfl, rfl⟩

variable {n : Node ι}

omit [DecidableEq ι] in
theorem setCommitIndex_plain {p : PlainLog ι} (h : n.log.Refines p) (idx : Nat) :
    (n.setCommitIndex idx).log.Refines p := by
  simp only [setCommitIndex, maybeRecordCommit]
  split_ifs
  · exact h
  · exact h
  · exact h
  · exact h.step (show (LogCall.commitIndex _).Made _ from trivial)

theorem adoptSnapshot_membership {snap : Snapshot ι} {rl : RaftLog ι}
    (hinstall : n.log.installSnapshot snap.position = some rl) :
    (n.adoptSnapshot snap).membership = n.membership.install n.cfg.id n.cfg.witness snap rl := by
  obtain ⟨hmem, hlog, hcfg, -⟩ := n.adoptFrame_membership snap
  have hcommit : ∀ (m : Node ι) (idx : Nat), (m.setCommitIndex idx).membership = m.membership := by
    intro m idx
    simp only [setCommitIndex, maybeRecordCommit]
    split_ifs <;> rfl
  unfold adoptSnapshot
  generalize n.adoptFrame snap = m at hmem hlog hcfg ⊢
  dsimp only
  rw [hlog, hinstall]
  dsimp only
  rw [hcommit]
  unfold Membership.install
  split_ifs
  · exact (checkWitness_membership _).trans (by
      rw [rebuildMembership_rebuilt, ← hmem, ← hcfg])
  · exact hmem

def reconfiguring : Input ι := .applied ⟨0, [], false, some (.finalise []), none⟩

omit [DecidableEq ι] [Sized ι] in
theorem reconfiguring_reconfigures : (reconfiguring : Input ι).Reconfigures :=
  ⟨.finalise [], rfl, rfl⟩

/-- The log goes on behind an installed snapshot, or is given up, and the membership is rebuilt if
it records one. -/
theorem adoptSnapshot_plain (hn : n.log.Sound) (hnum : n.Numbered []) (snap : Snapshot ι) :
    (n.adoptSnapshot snap).log.Refines (n.log.plain.install snap.position) ∧
      (n.adoptSnapshot snap).membership =
        if snap.membership.isSome then
          Membership.adoptAll n.cfg.id n.cfg.witness ((n.membership.takeFrame snap).rebase n.cfg.id
            snap.position.lastIncludedIndex) (n.log.plain.install snap.position).entries
        else n.membership.takeFrame snap := by
  obtain ⟨-, hlog, -, hdone⟩ := n.adoptFrame_membership snap
  obtain ⟨log, hinstall, hrefines⟩ := hn.installSnapshot snap.position
  have hbase : log.snapMeta = snap.position := hrefines.base
  refine ⟨?_, ?_⟩
  swap
  · rw [adoptSnapshot_membership hinstall, Membership.install, Membership.rebuilt,
      hrefines.reads.readAll_eq, hbase]
  unfold adoptSnapshot
  generalize n.adoptFrame snap = m at hlog hdone ⊢
  dsimp only
  rw [hlog, hinstall]
  dsimp only
  have hnum₁ : ({ m with log := log } : Node ι).Numbered [] :=
    Numbered.extends (n := m) (hnum.congr hlog hdone) (hlog ▸ .installSnapshot hinstall) rfl
  -- a rebuild may record a commit index, but adds no entries
  have hkept : (if snap.membership.isSome then
      ({ m with log := log } : Node ι).rebuildMembership.1.checkWitness
      else { m with log := log }).log.Refines log.plain := by
    split_ifs
    · have hbuilt : Remains reconfiguring _ _ := (rebuildMembership_remains
        reconfiguring_reconfigures ({ m with log := log } : Node ι)).trans (checkWitness_remains _)
      have hgrows := Moves.grows hbuilt.moves trivial hnum₁ (fun d due kept h => by cases h) hrefines.sound
      exact hgrows.refines_of_lastLogIndex hrefines.sound (congrArg Tenure.lastLogIndex hbuilt.tenure)
    · exact hrefines.sound
  rw [hrefines.plain_eq] at hkept
  generalize (if snap.membership.isSome then _ else _) = m' at hkept ⊢
  exact setCommitIndex_plain (n := { m' with
    lastApplied := max m'.lastApplied snap.position.lastIncludedIndex
    apply := { m'.apply with restore := some snap } }) hkept snap.position.lastIncludedIndex

def Installs (n : Node ι) (k : Nat) (snap : Snapshot ι) : Prop :=
  n.snapshots.installed[k]? = some (snap, true) ∧ n.lastApplied < snap.position.lastIncludedIndex

/-- **The result of an installation** is adopted if it is ahead of the node. -/
theorem takeInstallResult_plain (hn : n.log.Sound) (hnum : n.Numbered []) (k : Nat) :
    (∃ snap, n.Installs k snap ∧
      (n.takeInstallResult k).log.Refines (n.log.plain.install snap.position) ∧
      (n.takeInstallResult k).membership =
        if snap.membership.isSome then
          Membership.adoptAll n.cfg.id n.cfg.witness ((n.membership.takeFrame snap).rebase n.cfg.id
            snap.position.lastIncludedIndex) (n.log.plain.install snap.position).entries
        else n.membership.takeFrame snap) ∨
    (∀ snap, ¬ n.Installs k snap) ∧ (n.takeInstallResult k).log.Refines n.log.plain ∧
      (n.takeInstallResult k).membership = n.membership := by
  unfold takeInstallResult Installs
  cases hinst : n.snapshots.installed[k]? with
  | none => exact .inr ⟨fun snap h => (nomatch h.1), hn, rfl⟩
  | some p =>
    obtain ⟨snap, ok⟩ := p
    obtain ⟨_, _, _, _, _, m, hm, hcases⟩ := handleSnapInstallResult_cases { n with
      snapshots := { n.snapshots with installed := n.snapshots.installed.eraseIdx k } } snap ok
    have hlog : m.log = n.log := by rw [hm]
    have hmem : m.membership = n.membership := by rw [hm]
    have hcfg : m.cfg = n.cfg := by rw [hm]
    have hdone : m.completedWriteSeq = n.completedWriteSeq := by rw [hm]
    have hsound : m.log.Refines n.log.plain := by rw [hlog]; exact hn
    rcases hcases with ⟨rfl, hlt, heq⟩ | ⟨hno, heq⟩
    · obtain ⟨hrefines, hadopt⟩ := adoptSnapshot_plain hsound.sound (hnum.congr hlog hdone) snap
      rw [hsound.plain_eq] at hrefines hadopt
      rw [hmem, hcfg] at hadopt
      dsimp only
      rw [heq]
      exact .inl ⟨snap, ⟨rfl, hlt⟩, hrefines, hadopt⟩
    · dsimp only
      rw [heq]
      refine .inr ⟨?_, hsound, hmem⟩
      rintro snap' ⟨hsame, hlt⟩
      cases hsame
      exact hno ⟨rfl, hlt⟩

variable (cfg : Config ι)

def bareMembership : Membership ι :=
  { peers := cfg.peers, voter := cfg.voter, jointOld := none, jointNew := []
    jointIncludeSelf := false, jointSelfVoter := false, jointSelfVoterOld := false
    membershipWitness := false
    base :=
      { joint := false, members := withSelf cfg.peers cfg.id true cfg.voter cfg.witness
        old := [], new := [], commitQuorum := 0 }
    configIndex := 0, commitQuorumApplied := 0, commitQuorumLatest := 0
    commitQuorumAgreed := false, clientTableCap := cfg.maxClientTableSize
    clientTableCapReplicated := false, clientTableCapAgreed := false
    baseClientTableCap := none }

/-- **A node that starts** has the log of its store, and the membership of its snapshot with the log
adopted. -/
theorem new_plain {cfg : Config ι} {s : Store ι} (hs : s.Wf) {boot draws : Nat} {out : List (Msg ι)}
    {sm : List (LogEntry ι)} (h : new cfg s boot draws out sm = some n) :
    n.log.Refines ⟨RaftLog.snapPosition s, s.entries⟩ ∧ n.cfg = cfg ∧
      n.membership = Membership.adoptAll cfg.id cfg.witness
        (((bareMembership cfg).fromStore s).rebase cfg.id
          (RaftLog.snapPosition s).lastIncludedIndex) s.entries := by
  obtain ⟨log, hlog, -, -, rfl⟩ := new_cases h
  have hfresh := RaftLog.Fresh.of_new hs hlog
  have hrefines := RaftLog.Refines.of_fresh hfresh
  have hbase : log.snapMeta = RaftLog.snapPosition s := hrefines.base
  have hrebuild := rebuildMembership_eq (n := recovered cfg s log boot draws out sm)
    (by simp [recovered, fresh, recoverSnapshot]) hrefines.reads
  rw [hrebuild]
  refine ⟨hrefines, rfl, ?_⟩
  rw [← hbase]
  rfl

omit [Sized ι] in
theorem bareMembership_witness (i : Nat) :
    ((bareMembership cfg).rebase cfg.id i).membershipWitness = cfg.witness := by
  simp [Membership.rebase, Membership.restore, bareMembership, withSelf, selfIn]

theorem new_empty : new cfg .empty 0 0 [] [] = some (start cfg .empty) := by
  obtain ⟨log, hlog, hfresh⟩ := RaftLog.exists_new Store.empty_wf cfg.batchWriter cfg.commitRecorder
  have hrebuild := rebuildMembership_eq (n := recovered cfg .empty log 0 0 [] [])
    (by simp [recovered, fresh, recoverSnapshot]) (RaftLog.Refines.of_fresh hfresh).reads
  have hsome : ∃ n, new cfg .empty 0 0 [] [] = some n := by
    unfold new
    rw [hlog]
    dsimp only
    rw [if_neg (by simp [durableAppliedIndex])]
    rw [recovered, recoveredSM] at hrebuild
    rw [hrebuild]
    exact ⟨_, if_pos (bareMembership_witness cfg _)⟩
  obtain ⟨n, hn⟩ := hsome
  rw [start, hn]

theorem start_plain :
    (start cfg .empty).log.Refines ⟨⟨0, 0⟩, []⟩ ∧ (start cfg .empty).cfg = cfg ∧
      (start cfg .empty).membership = (bareMembership cfg).rebase cfg.id 0 :=
  new_plain Store.empty_wf (new_empty cfg)

theorem restart_plain {n' : Node ι} (hn : n.log.Sound) {k : Nat} (h : n.restart k = some n') :
    ∃ s, n.log.survives k = some s ∧ s.Wf ∧ n'.log.Refines ⟨RaftLog.snapPosition s, s.entries⟩ ∧
      n'.membership = Membership.adoptAll n.cfg.id n.cfg.witness
        (((bareMembership n.cfg).fromStore s).rebase n.cfg.id
          (RaftLog.snapPosition s).lastIncludedIndex) s.entries := by
  obtain ⟨s, hs, hnew⟩ := Option.bind_eq_some_iff.mp h
  have hwf : s.Wf := by
    rw [RaftLog.survives, hn.wf.running.2] at hs
    obtain ⟨s', hs', hwf⟩ := hn.wf.stages k
    cases hs'.symm.trans hs
    exact hwf
  obtain ⟨hlog, -, hmem⟩ := new_plain hwf hnew
  exact ⟨s, hs, hwf, hlog, hmem⟩

end Node

/-- No write fails, a request that passes can be taken, and a leader's own entries are numbered
apart. -/
def Action.KeepsLog (σ : Sys ι) : Action ι → Prop
  | .deliver j k => ∀ src dst req, (σ j).out[k]? = some (.appendEntries src dst req) →
      (σ dst).Accepts req → (σ dst).log.plain.Takes ((σ dst).received req)
  | .propose i cmds => (σ i).NumbersApart cmds
  | .execute _ fault => fault = none
  | _ => True

namespace Sys

variable {σ : Sys ι} {a : Action ι} {j : ι}

theorem step_of_effect {P : ι → Node ι → Prop} {f : Node ι → Node ι}
    (heff : a.effect σ = some (j, f)) (hj : P j (f (σ j))) (hrest : ∀ i, P i (σ i)) (i : ι) :
    P i (σ.step a i) := by
  rw [step, heff]
  by_cases hij : i = j
  · subst hij
    simpa [assign] using hj
  · simpa [assign, hij] using hrest i

theorem step_at {f : Node ι → Node ι} (heff : a.effect σ = some (j, f)) : σ.step a j = f (σ j) := by
  rw [step, heff]
  simp [assign]

theorem effect_deliver {k : Nat} {msg : Msg ι} (hmsg : (σ j).out[k]? = some msg) :
    (Action.deliver j k).effect σ = some (msg.dst, (·.receive msg)) := by
  simp [Action.effect, hmsg]

omit [DecidableEq ι] [Sized ι] in
theorem deliver_cases (σ : Sys ι) (j : ι) (k : Nat) :
    (∃ src dst req, (σ j).out[k]? = some (.appendEntries src dst req)) ∨
      (Action.deliver j k).Steady σ := by
  by_cases h : ∃ src dst req, (σ j).out[k]? = some (.appendEntries src dst req)
  · exact .inl h
  · push Not at h
    exact .inr h

theorem step_sound (hnum : ∀ i, (σ i).Numbered []) (hn : ∀ i, (σ i).log.Sound) (ha : a.KeepsLog σ)
    (i : ι) : (σ.step a i).log.Sound := by
  have steady : a.Steady σ → (σ.step a i).log.Sound := fun hs => (step_steady hnum hn hs i).log.sound
  have at_node : ∀ {j f}, a.effect σ = some (j, f) → (f (σ j)).log.Sound → (σ.step a i).log.Sound :=
    fun heff hj => step_of_effect (P := fun _ n => n.log.Sound) heff hj hn i
  cases a with
  | deliver j k =>
    rcases deliver_cases σ j k with ⟨src, dst, req, hmsg⟩ | hs
    · refine at_node (effect_deliver hmsg) ?_
      rcases Node.handleAppendEntries_plain (hn dst) src req (ha src dst req hmsg) with
        ⟨-, hlog, -⟩ | ⟨-, hlog, -⟩ <;> exact hlog.sound
    · exact steady hs
  | propose j cmds =>
    refine at_node rfl ?_
    obtain ⟨es, hlog, -⟩ := Node.handleProposals_plain (hn j) (hnum j) ha
    exact hlog.sound
  | applyResult j =>
    refine at_node rfl ?_
    cases hres : (σ j).apply.results with
    | nil =>
      simp only [Node.handleApplyResult, hres]
      exact hn j
    | cons r rest => exact (Node.handleApplyResult_plain (hn j) (hnum j) hres).1.sound
  | snapshotResult j =>
    refine at_node rfl ?_
    rcases Node.takeSnapshotResult_plain (hn j) with ⟨hlog, -⟩ | ⟨r, rest, -, -, hlog, -⟩ <;>
      exact hlog.sound
  | installResult j k =>
    refine at_node rfl ?_
    rcases Node.takeInstallResult_plain (hn j) (hnum j) k with ⟨snap, -, hlog, -⟩ | ⟨-, hlog, -⟩ <;>
      exact hlog.sound
  | crash j k =>
    refine at_node rfl ?_
    cases hrestart : (σ j).restart k with
    | none => exact hn j
    | some n' =>
      obtain ⟨s, -, -, hlog, -⟩ := Node.restart_plain (hn j) hrestart
      exact hlog.sound
  | execute j fault => exact steady ha
  | _ => exact steady trivial

end Sys

end Raft
