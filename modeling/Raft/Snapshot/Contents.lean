import Mathlib.Data.Fintype.Basic
import Raft.Apply.Lockstep
import Raft.Snapshot.Exact

/-!
# What local snapshots contain

The event loop decides on a local snapshot when it takes up a result: it notes the index,
its table of clients and its membership, and asks the apply loop to capture the state
machine.  By then the apply loop may have applied further entries.

The snapshot is exact when the apply loop captures the state machine before it applies
another entry.  This rests on the results on their way leading from where the event loop is
to where the apply loop is, in position, tables and membership.
-/

namespace Raft

variable {ι : Type} [DecidableEq ι] {r : ApplyResult ι} {rest : List (ApplyResult ι)}
  {snap : Snapshot ι} {a : Action ι} {σ : Sys ι}

def SnapshotTrigger.framed (t : SnapshotTrigger ι) (data : List (LogEntry ι)) : Snapshot ι :=
  ⟨t.position, t.clientTable, some t.membership, t.clientTableCap, data⟩

structure SnapshotTrigger.Records (cfg : Config ι) (log : CommittedLog ι) (table : ClientLRU)
    (t : SnapshotTrigger ι) : Prop where
  clientTable : t.clientTable = table.items
  membership : t.membership =
    (rosterAt cfg log t.position.lastIncludedIndex).recorded cfg.id cfg.witness
  clientTableCap : t.clientTableCap = (rosterAt cfg log t.position.lastIncludedIndex).agreedCap

namespace Side

variable (log : CommittedLog ι) (s : Side ι) (roster : Roster ι)

/-- The results on their way lead the event loop to where the apply loop is. -/
structure InPace : Prop where
  behind : s.lastApplied ≤ s.apply.localLastApplied
  indices : s.apply.results.map (·.index) =
    List.range' (s.lastApplied + 1) (s.apply.localLastApplied - s.lastApplied)
  table : s.apply.results.foldl ApplyResult.record s.clientTable = s.apply.clientTable
  roster : s.apply.results.foldl (fun r res => reroster s.cfg r res.configCmd) roster =
    rosterAt s.cfg log s.apply.localLastApplied

/-- The event loop has adopted a snapshot that the apply loop has still to restore. -/
structure Restoring (snap : Snapshot ι) : Prop where
  pending : s.apply.restore = some snap
  ahead : s.apply.localLastApplied < snap.position.lastIncludedIndex
  results : s.apply.results = []
  lastApplied : s.lastApplied = snap.position.lastIncludedIndex
  table : s.clientTable =
    (Recency.empty (snap.clientTableCap.getD s.apply.clientTable.bound)).loadFrom snap.table
  leads : LeadsTo s.cfg log snap.position.lastIncludedIndex snap.data s.clientTable
  roster : roster = rosterAt s.cfg log snap.position.lastIncludedIndex

/-- The two loops keep pace, or will meet at an adopted snapshot. -/
def Phase : Prop :=
  s.apply.Due = false ∧ s.InPace log roster ∨ ∃ snap, s.Restoring log roster snap

/-- Where the two loops are, and what has been noted and captured. -/
structure InOrder : Prop where
  leads : LeadsTo s.cfg log s.apply.localLastApplied s.apply.sm s.apply.clientTable
  phase : s.Phase log roster
  trigger : ∀ t, s.apply.snapshotTrigger = some t →
    t.position.lastIncludedIndex ≤ s.apply.localLastApplied ∧
      (t.position.lastIncludedIndex = s.apply.localLastApplied →
        t.Records s.cfg log s.apply.clientTable)
  writing : ∀ p ∈ s.writing, (p.1.framed p.2).Exact s.cfg log

variable {log s roster}

omit [DecidableEq ι] in
theorem due_of_ahead {a : ApplyLoop ι} (hpending : a.restore = some snap)
    (hahead : a.localLastApplied < snap.position.lastIncludedIndex) : a.Due = true := by
  rw [ApplyLoop.Due, hpending]
  exact decide_eq_true hahead

theorem Phase.local (h : s.Phase log roster) (snapshotting : Bool)
    (writing : List (SnapshotTrigger ι × List (LogEntry ι))) (written : List (SnapshotResult ι))
    (installed : List (Snapshot ι × Bool)) (trigger : Option (SnapshotTrigger ι)) :
    Phase log { s with
      snapshotting := snapshotting, writing := writing, written := written, installed := installed
      apply := { s.apply with snapshotTrigger := trigger } } roster := by
  rcases h with ⟨hdue, hpace⟩ | ⟨snap, hsnap⟩
  · exact .inl ⟨hdue, hpace.behind, hpace.indices, hpace.table, hpace.roster⟩
  · exact .inr ⟨snap, hsnap.pending, hsnap.ahead, hsnap.results, hsnap.lastApplied, hsnap.table,
      hsnap.leads, hsnap.roster⟩

/-! ## Results taken up -/

def took (s : Side ι) (r : ApplyResult ι) (rest : List (ApplyResult ι)) : Side ι :=
  { s with
    lastApplied := max s.lastApplied r.index
    clientTable := r.record s.clientTable
    apply := { s.apply with results := rest } }

theorem InPace.next (h : s.InPace log roster) (hres : s.apply.results = r :: rest) :
    r.index = s.lastApplied + 1 ∧ (rest = [] ↔ r.index = s.apply.localLastApplied) ∧
      (s.took r rest).InPace log (reroster s.cfg roster r.configCmd) := by
  have hindices := h.indices
  have htable := h.table
  have hroster := h.roster
  rw [hres] at hindices htable hroster
  obtain ⟨d, hd⟩ : ∃ d, s.apply.localLastApplied - s.lastApplied = d + 1 := by
    refine Nat.exists_eq_succ_of_ne_zero fun hzero => ?_
    rw [hzero] at hindices
    cases hindices
  rw [hd, List.range'_succ, List.map_cons, List.cons.injEq] at hindices
  have hmax : max s.lastApplied r.index = s.lastApplied + 1 := by
    rw [hindices.1]
    exact Nat.max_eq_right (Nat.le_succ _)
  have hlen := congrArg List.length hindices.2
  rw [List.length_range', List.length_map] at hlen
  refine ⟨hindices.1, ⟨?_, ?_⟩, ⟨?_, ?_, htable, hroster⟩⟩
  · rintro rfl
    rw [List.length_nil] at hlen
    omega
  · intro hlast
    exact List.eq_nil_of_length_eq_zero (by omega)
  · change max s.lastApplied r.index ≤ s.apply.localLastApplied
    omega
  · change rest.map (·.index) = List.range' (max s.lastApplied r.index + 1)
      (s.apply.localLastApplied - max s.lastApplied r.index)
    rw [hindices.2, hmax]
    congr 1
    omega

section

variable (h : s.InOrder log roster)

include h

theorem InOrder.pace (hdue : s.apply.Due = false) : s.InPace log roster := by
  rcases h.phase with hpace | ⟨snap, hsnap⟩
  · exact hpace.2
  · rw [due_of_ahead hsnap.pending hsnap.ahead] at hdue
    cases hdue

theorem InOrder.next (hres : s.apply.results = r :: rest) :
    (s.took r rest).InOrder log (reroster s.cfg roster r.configCmd) ∧
      (s.took r rest).InPace log (reroster s.cfg roster r.configCmd) := by
  rcases h.phase with ⟨hdue, hpace⟩ | ⟨snap, hsnap⟩
  · have hpace' := (hpace.next hres).2.2
    exact ⟨⟨h.leads, .inl ⟨hdue, hpace'⟩, h.trigger, h.writing⟩, hpace'⟩
  · -- Nothing is on its way while a snapshot is waiting to be restored.
    rw [hsnap.results] at hres
    cases hres

theorem InOrder.decide (pace : s.InPace log roster) {t : SnapshotTrigger ι}
    (hindex : t.position.lastIncludedIndex = s.lastApplied)
    (htable : t.clientTable = s.clientTable.items)
    (hmembers : t.membership = roster.recorded s.cfg.id s.cfg.witness)
    (hcap : t.clientTableCap = roster.agreedCap) (snapshotting : Bool) :
    InOrder log { s with
      snapshotting := snapshotting
      apply := { s.apply with snapshotTrigger := some t } } roster := by
  refine ⟨h.leads, h.phase.local _ _ _ _ _, fun t' ht' => ?_, h.writing⟩
  cases ht'
  refine ⟨hindex ▸ pace.behind, fun hlast => ?_⟩
  -- Nothing is on its way any more, so both loops are at the same index.
  have hindices := pace.indices
  rw [← hindex, hlast, Nat.sub_self, List.range'_zero, List.map_eq_nil_iff] at hindices
  have htable' := pace.table
  have hroster' := pace.roster
  rw [hindices] at htable' hroster'
  have hroster'' : roster = rosterAt s.cfg log t.position.lastIncludedIndex := by
    rw [hlast]
    exact hroster'
  refine ⟨?_, ?_, ?_⟩
  · rw [htable]
    exact congrArg Recency.items htable'
  · rw [hmembers, hroster'']
  · rw [hcap, hroster'']

/-! ## What the apply loop does -/

theorem InOrder.capture {t : SnapshotTrigger ι} (ht : s.apply.snapshotTrigger = some t)
    (hlast : t.position.lastIncludedIndex = s.apply.localLastApplied) :
    InOrder log { s with
      writing := s.writing ++ [(t, s.apply.sm)]
      apply := { s.apply with snapshotTrigger := none } } roster := by
  have hrec := (h.trigger t ht).2 hlast
  have hleads := h.leads
  rw [← hlast] at hleads
  exact ⟨h.leads, h.phase.local _ _ _ _ _, fun t' ht' => (by cases ht'),
    List.forall_mem_append.mpr ⟨h.writing, List.forall_mem_singleton.mpr
      (Snapshot.exact_of_leadsTo hleads hrec.clientTable (congrArg some hrec.membership)
        hrec.clientTableCap)⟩⟩

theorem InOrder.written {writing : List (SnapshotTrigger ι × List (LogEntry ι))}
    (hsub : ∀ p ∈ writing, p ∈ s.writing) (snapshotting : Bool) (written : List (SnapshotResult ι))
    (installed : List (Snapshot ι × Bool)) :
    InOrder log { s with
      writing := writing, snapshotting := snapshotting, written := written
      installed := installed } roster :=
  ⟨h.leads, h.phase.local _ _ _ _ s.apply.snapshotTrigger, h.trigger,
    fun p hp => h.writing p (hsub p hp)⟩

end

section Commit

open ApplyLoop

variable {commitIdx : Nat}

def reportsTo (log : CommittedLog ι) (s : Side ι) (commitIdx : Nat) : List (Report ι) :=
  reportsOf s.cfg.stateMachine s.apply [log.between s.apply.localLastApplied commitIdx]

def TakesAlike (log : CommittedLog ι) (s : Side ι) (commitIdx : Nat) : Prop :=
  ∀ (k : Nat) (r : Report ι), (s.reportsTo log commitIdx)[k]? = some r →
    r.Harmless (s.apply.performAll ((s.reportsTo log commitIdx).take k)).clientTable

omit [DecidableEq ι] in
theorem reportsTo_entries : (s.reportsTo log commitIdx).map Report.entry =
    log.between s.apply.localLastApplied commitIdx := by
  rw [reportsTo, reportsOf_entries, List.flatten_singleton]

omit [DecidableEq ι] in
theorem reportsTo_indices : ((s.reportsTo log commitIdx).map Report.result).map (·.index) =
    List.range' (s.apply.localLastApplied + 1) (commitIdx - s.apply.localLastApplied) := by
  calc ((s.reportsTo log commitIdx).map Report.result).map (·.index)
      = ((s.reportsTo log commitIdx).map Report.entry).map (·.index) := by
        simp only [List.map_map]
        exact List.map_congr_left fun r _ => r.result_index
    _ = (log.between s.apply.localLastApplied commitIdx).map (·.index) := by rw [reportsTo_entries]
    _ = _ := by
        rw [CommittedLog.between, List.map_map]
        exact (List.map_congr_left fun i _ => log.index i).trans (List.map_id _)

omit [DecidableEq ι] in
theorem reportsTo_last (log : CommittedLog ι) (hlt : s.apply.localLastApplied < commitIdx) :
    (s.apply.performAll (s.reportsTo log commitIdx)).localLastApplied = commitIdx := by
  rw [performAll_localLastApplied, reportsTo_entries, log.between_getLast hlt, Option.map_some,
    log.index, Option.getD_some]

omit [DecidableEq ι] in
theorem foldl_reroster [DecidableEq ι] (cfg : Config ι) {reports : List (Report ι)}
    (hgen : ∀ r ∈ reports, r.Genuine) (roster : Roster ι) :
    (reports.map Report.result).foldl (fun r res => reroster cfg r res.configCmd) roster =
      (reports.map Report.entry).foldl (fun r e => reroster cfg r e.configOp) roster := by
  induction reports generalizing roster with
  | nil => rfl
  | cons r reports ih =>
    simp only [List.map_cons, List.foldl_cons]
    rw [Report.configCmd_eq (hgen r List.mem_cons_self)]
    exact ih (fun r' hr' => hgen r' (List.mem_cons_of_mem r hr')) _

theorem InPace.reports (h : s.InPace log roster) (hlt : s.apply.localLastApplied < commitIdx)
    (halike : s.TakesAlike log commitIdx) (sm : List (LogEntry ι)) :
    InPace log { s with
      apply := { s.apply.performAll (s.reportsTo log commitIdx) with sm := sm } } roster := by
  have hgen : ∀ r ∈ s.reportsTo log commitIdx, r.Genuine := reportsOf_genuine _ _ _
  have hlast := reportsTo_last log hlt
  have hresults := performAll_results s.apply (s.reportsTo log commitIdx)
  have hall := (inStep_performAll_iff ((inStep_iff_same _ _).mpr h.table) hgen).mpr halike
    (s.reportsTo log commitIdx).length
  rw [List.take_length] at hall
  have hbehind := h.behind
  refine ⟨?_, ?_, hall.same, ?_⟩ <;> dsimp only
  · rw [hlast]
    omega
  · have hmid : s.apply.localLastApplied + 1 =
        s.lastApplied + 1 + (s.apply.localLastApplied - s.lastApplied) := by omega
    have hlen : commitIdx - s.lastApplied =
        s.apply.localLastApplied - s.lastApplied + (commitIdx - s.apply.localLastApplied) := by omega
    rw [hresults, List.map_append, h.indices, reportsTo_indices, hlast, hmid, hlen,
      List.range'_append_1]
  · rw [hresults, List.foldl_append, h.roster, foldl_reroster s.cfg hgen, reportsTo_entries, hlast,
      rosterAt_extend hlt.le]

theorem InOrder.commit (h : s.InOrder log roster) (hdue : s.apply.Due = false)
    (hlt : s.apply.localLastApplied < commitIdx) (halike : s.TakesAlike log commitIdx) :
    InOrder log { s with
      apply := (s.apply.applyEntries s.cfg.stateMachine
        (log.between s.apply.localLastApplied commitIdx)) } roster := by
  have hleads := h.leads.extend hlt.le
  have heq := applyEntries_eq_performAll s.cfg.stateMachine s.apply
    (log.between s.apply.localLastApplied commitIdx)
  generalize (s.apply.applyEntries s.cfg.stateMachine
    (log.between s.apply.localLastApplied commitIdx)).sm = sm at heq
  rw [heq] at hleads ⊢
  have hlast := reportsTo_last log hlt
  obtain ⟨-, hrestore, htrigger⟩ := performAll_channels s.apply (s.reportsTo log commitIdx)
  refine ⟨?_, .inl ⟨?_, (h.pace hdue).reports hlt halike sm⟩, fun t ht => ?_, h.writing⟩
  · change LeadsTo _ log (s.apply.performAll (s.reportsTo log commitIdx)).localLastApplied _ _
    rw [hlast]
    exact hleads
  · -- What was not ahead of the loop is not ahead of it now.
    change (s.apply.performAll (s.reportsTo log commitIdx)).Due = false
    unfold Due at hdue ⊢
    rw [hrestore]
    cases hres : s.apply.restore with
    | none => rfl
    | some snap =>
      rw [hres] at hdue
      simp only [decide_eq_false_iff_not] at hdue ⊢
      omega
  · have hle := (h.trigger t (htrigger.symm.trans ht)).1
    refine ⟨?_, fun hsame => ?_⟩
    · change _ ≤ (s.apply.performAll (s.reportsTo log commitIdx)).localLastApplied
      omega
    · change _ = (s.apply.performAll (s.reportsTo log commitIdx)).localLastApplied at hsame
      omega

end Commit

/-! ## Adopted snapshots -/

def loaded (t : ClientLRU) (snap : Snapshot ι) : ClientLRU :=
  (Recency.empty (snap.clientTableCap.getD t.bound)).loadFrom snap.table

theorem InOrder.restore (h : s.InOrder log roster) {ok : Bool} (hok : s.apply.Due = true → ok = true) :
    InOrder log { s with apply := s.apply.restoreFrom ok } roster := by
  rcases h.phase with ⟨hdue, hpace⟩ | ⟨snap, hsnap⟩
  · -- Nothing to restore, or nothing new: only the channel is emptied.
    have heq : s.apply.restoreFrom ok = { s.apply with restore := none } := by
      unfold ApplyLoop.restoreFrom
      unfold ApplyLoop.Due at hdue
      cases hres : s.apply.restore with
      | none =>
        dsimp only
        rw [← hres]
      | some snap =>
        rw [hres] at hdue
        simp only [decide_eq_false_iff_not, Nat.not_lt] at hdue
        dsimp only
        rw [if_pos hdue]
    rw [heq]
    exact ⟨h.leads, .inl ⟨rfl, hpace.behind, hpace.indices, hpace.table, hpace.roster⟩, h.trigger,
      h.writing⟩
  · obtain rfl := hok (due_of_ahead hsnap.pending hsnap.ahead)
    have hahead := hsnap.ahead
    have heq : s.apply.restoreFrom true = { s.apply with
        restore := none, sm := snap.data, clientTable := s.clientTable
        localLastApplied := snap.position.lastIncludedIndex } := by
      unfold ApplyLoop.restoreFrom
      rw [hsnap.pending]
      dsimp only
      rw [if_neg (by omega), if_pos rfl, hsnap.table]
    rw [heq]
    refine ⟨hsnap.leads, .inl ⟨rfl, ?_, ?_, ?_, ?_⟩, fun t ht => ?_, h.writing⟩
    · exact hsnap.lastApplied.le
    · rw [hsnap.results, hsnap.lastApplied, Nat.sub_self]
      rfl
    · rw [hsnap.results]
      rfl
    · rw [hsnap.results]
      exact hsnap.roster
    · have hle := (h.trigger t ht).1
      refine ⟨hle.trans hahead.le, fun heq' => ?_⟩
      change _ = snap.position.lastIncludedIndex at heq'
      omega

theorem InOrder.adopt (h : s.InOrder log roster) (hdue : s.apply.Due = false)
    (hresults : s.apply.results = []) (hlt : s.lastApplied < snap.position.lastIncludedIndex)
    (hleads : LeadsTo s.cfg log snap.position.lastIncludedIndex snap.data (loaded s.clientTable snap)) :
    InOrder log { s with
      lastApplied := snap.position.lastIncludedIndex
      clientTable := loaded s.clientTable snap
      apply := { s.apply with restore := some snap } }
        (rosterAt s.cfg log snap.position.lastIncludedIndex) := by
  have hpace := h.pace hdue
  have hindices := hpace.indices
  have htable := hpace.table
  rw [hresults] at hindices htable
  have hlen := congrArg List.length hindices
  rw [List.length_range', List.map_nil, List.length_nil] at hlen
  refine ⟨h.leads, .inr ⟨snap, rfl, ?_, hresults, rfl, ?_, hleads, rfl⟩, h.trigger, h.writing⟩
  · change s.apply.localLastApplied < snap.position.lastIncludedIndex
    omega
  · rw [← htable]
    rfl

end Side

/-! ## The turns of a node -/

namespace Node

variable {n : Node ι} {log : CommittedLog ι}

def InOrder (log : CommittedLog ι) (n : Node ι) : Prop := n.side.InOrder log n.membership.roster

omit [DecidableEq ι] in
theorem recordOutcome_side (n : Node ι) (r : ApplyResult ι) :
    (n.recordOutcome r).side = { n.side with clientTable := r.note n.clientTable } ∧
      (n.recordOutcome r).membership = n.membership := by
  have htable := recordOutcome_clientTable n r
  obtain ⟨t, heq⟩ := recordOutcome_frame n r
  rw [heq] at htable ⊢
  rw [← htable]
  exact ⟨rfl, rfl⟩

theorem handleApplyResult_eq [Sized ι] (hres : n.apply.results = r :: rest) :
    ∃ m : Node ι, n.handleApplyResult = m.maybeSnapshot ∧ m.side = n.side.took r rest ∧
      m.membership.roster = reroster n.cfg n.membership.roster r.configCmd := by
  unfold handleApplyResult Side.took ApplyResult.record reroster
  rw [hres]
  dsimp only
  set n₁ : Node ι := { n with
    apply := { n.apply with results := rest }, lastApplied := max n.lastApplied r.index } with hn₁
  cases r.configCmd with
  | none =>
    obtain ⟨hside, hmem⟩ := recordOutcome_side n₁ r
    exact ⟨_, rfl, hside, congrArg Membership.roster hmem⟩
  | some op =>
    -- A change may set the bound of the table, and the outcome is recorded after it.
    obtain ⟨hside, hmem⟩ := recordOutcome_side { n₁.applyConfigChange op r.index with
      pendingConfigIndex := if (n₁.applyConfigChange op r.index).pendingConfigIndex = r.index then 0
        else (n₁.applyConfigChange op r.index).pendingConfigIndex } r
    have htable := applyConfigChange_clientTable n₁ op r.index
    have hchange := applyConfigChange_side n₁ op r.index
    refine ⟨_, rfl, ?_, ?_⟩
    · rw [hside]
      change { (n₁.applyConfigChange op r.index).side with
        clientTable := r.note (n₁.applyConfigChange op r.index).clientTable } = _
      rw [htable, hchange]
      rfl
    · rw [hmem]
      exact applyConfigChange_roster n₁ op r.index

def noted (n : Node ι) (term : Nat) : SnapshotTrigger ι :=
  { position := ⟨n.lastApplied, term⟩
    clientTable := n.clientTable.items
    membership := n.membership.roster.recorded n.cfg.id n.cfg.witness
    clientTableCap := n.membership.roster.agreedCap }

omit [DecidableEq ι] in
theorem maybeSnapshot_cases (n : Node ι) :
    n.maybeSnapshot = n ∨ ∃ term, n.maybeSnapshot.membership = n.membership ∧
      n.maybeSnapshot.side = { n.side with
        snapshotting := true
        apply := { n.side.apply with snapshotTrigger := some (n.noted term) } } := by
  unfold maybeSnapshot
  split_ifs
  · exact .inl rfl
  · exact .inl rfl
  · cases n.log.termAt n.lastApplied with
    | none => exact .inl rfl
    | some term =>
      refine .inr ⟨term, rfl, ?_⟩
      rfl

theorem InOrder.handleApplyResult [Sized ι] (h : n.InOrder log) : n.handleApplyResult.InOrder log := by
  cases hres : n.apply.results with
  | nil =>
    have heq : n.handleApplyResult = n := by rw [Node.handleApplyResult, hres]
    rw [heq]
    exact h
  | cons r rest =>
    obtain ⟨m, heq, hside, hroster⟩ := handleApplyResult_eq hres
    obtain ⟨hm, hpace⟩ : m.InOrder log ∧ m.side.InPace log m.membership.roster := by
      rw [InOrder, hside, hroster]
      exact Side.InOrder.next h hres
    -- What the node notes if it decides on a snapshot now is where the event loop is.
    rw [heq]
    rcases maybeSnapshot_cases m with hno | ⟨term, hmem, hyes⟩
    · rw [hno]
      exact hm
    · rw [InOrder, hmem, hyes]
      exact Side.InOrder.decide hm hpace rfl rfl rfl rfl true

/-! ### The apply loop and the snapshot goroutines -/

/-- No snapshot is due, the entries can be read, and both tables take up every report alike. -/
structure AppliesOrderly (log : CommittedLog ι) (n : Node ι) (faults : ReadFaults) : Prop where
  due : n.apply.Due = false
  smooth : n.apply.Smooth (.commit n.log.w.storage faults)
  harmless : ∀ commitIdx, n.apply.commitNotify = some commitIdx → ∀ (k : Nat) (r : Report ι),
    (ApplyLoop.reportsOf n.cfg.stateMachine n.side.apply
        [log.between n.apply.localLastApplied commitIdx])[k]? = some r →
      r.Harmless (ApplyLoop.afterReports n.cfg.stateMachine n.side.apply
        [log.between n.apply.localLastApplied commitIdx] k).clientTable

theorem InOrder.applyCommitted (h : n.InOrder log) {faults : ReadFaults}
    (hsees : n.apply.Sees log (.commit n.log.w.storage faults)) (hord : n.AppliesOrderly log faults) :
    (n.applyCommitted faults).InOrder log := by
  cases hnotify : n.apply.commitNotify with
  | none =>
    have heq : n.apply.commit n.cfg.stateMachine n.log.w.storage faults = n.apply := by
      rw [ApplyLoop.commit, hnotify]
    rw [Node.applyCommitted, heq]
    exact h
  | some commitIdx =>
    by_cases hlt : n.apply.localLastApplied < commitIdx
    · have heq : n.apply.commit n.cfg.stateMachine n.log.w.storage faults =
          n.side.apply.applyEntries n.cfg.stateMachine
            (log.between n.apply.localLastApplied commitIdx) :=
        Progress.commit_eq hsees.1 hnotify (hsees.2 commitIdx hnotify) hlt hord.smooth
      have hnone : (n.side.apply.applyEntries n.cfg.stateMachine
          (log.between n.apply.localLastApplied commitIdx)).commitNotify = none := by
        rw [ApplyLoop.applyEntries_eq_performAll]
        exact (ApplyLoop.performAll_channels n.side.apply _).1
      have hside : (n.applyCommitted faults).side = { n.side with
          apply := (n.side.apply.applyEntries n.cfg.stateMachine
            (log.between n.apply.localLastApplied commitIdx)) } := by
        change { n.side with apply := { n.apply.commit n.cfg.stateMachine n.log.w.storage faults with
          commitNotify := none } } = _
        rw [heq]
        rw [← hnone]
      rw [InOrder, hside]
      exact Side.InOrder.commit h hord.due hlt (hord.harmless commitIdx hnotify)
    · have heq : n.apply.commit n.cfg.stateMachine n.log.w.storage faults =
          { n.apply with commitNotify := none } := by
        rw [ApplyLoop.commit, hnotify]
        dsimp only
        rw [if_pos (by omega)]
      rw [Node.applyCommitted, heq]
      exact h

omit [DecidableEq ι] in
theorem restoreFrom_channel (a : ApplyLoop ι) (ok : Bool) :
    { a.restoreFrom ok with commitNotify := none } =
      ApplyLoop.restoreFrom ok { a with commitNotify := none } := by
  obtain ⟨commitNotify, restore, trigger, last, table, sm, results⟩ := a
  cases restore with
  | none => rfl
  | some snap =>
    unfold ApplyLoop.restoreFrom
    dsimp only
    split_ifs <;> rfl

theorem InOrder.applyRestore (h : n.InOrder log) {ok : Bool} (hok : n.apply.Due = true → ok = true) :
    (n.applyRestore ok).InOrder log := by
  have hside : (n.applyRestore ok).side = { n.side with apply := n.side.apply.restoreFrom ok } := by
    exact congrArg (fun a => { n.side with apply := a }) (restoreFrom_channel n.apply ok)
  rw [InOrder, hside]
  exact Side.InOrder.restore h hok

theorem InOrder.captureSnapshot (h : n.InOrder log) (hlast : ∀ t, n.apply.snapshotTrigger = some t →
      t.position.lastIncludedIndex = n.apply.localLastApplied) : n.captureSnapshot.InOrder log := by
  unfold Node.captureSnapshot
  cases ht : n.apply.snapshotTrigger with
  | none => exact h
  | some t => exact Side.InOrder.capture h ht (hlast t ht)

theorem InOrder.writeSnapshot (h : n.InOrder log) (outcome : SnapshotWrite ι) :
    (n.writeSnapshot outcome).InOrder log := by
  unfold Node.writeSnapshot
  cases hw : n.snapshots.writing with
  | nil => exact h
  | cons p rest =>
    refine Side.InOrder.written h (fun q hq => ?_) n.snapshots.snapshotting _
      n.snapshots.installed
    change q ∈ n.snapshots.writing
    rw [hw]
    exact List.mem_cons_of_mem p hq

theorem InOrder.takeSnapshotResult [Sized ι] (h : n.InOrder log) : n.takeSnapshotResult.InOrder log := by
  unfold Node.takeSnapshotResult
  cases n.snapshots.results with
  | nil => exact h
  | cons r rest =>
    unfold handleSnapshotResult
    dsimp only
    split_ifs <;> exact Side.InOrder.written h (fun q hq => hq) false rest n.snapshots.installed

/-! ### Adopting a snapshot, and starting again -/

/-- All results have been taken up, and the snapshot holds the effect of what it covers. -/
def AdoptsOrderly [Sized ι] (log : CommittedLog ι) (n : Node ι) (k : Nat) : Prop :=
  ∀ snap, n.snapshots.installed[k]? = some (snap, true) →
    n.lastApplied < snap.position.lastIncludedIndex →
      n.apply.Due = false ∧ n.apply.results = [] ∧
        LeadsTo n.cfg log snap.position.lastIncludedIndex snap.data (Side.loaded n.clientTable snap) ∧
        ∃ rl, n.log.installSnapshot snap.position = some rl ∧
          (n.membership.install n.cfg.id n.cfg.witness snap rl).roster =
            rosterAt n.cfg log snap.position.lastIncludedIndex

omit [DecidableEq ι] in
theorem adoptFrame_side (n : Node ι) (snap : Snapshot ι) :
    (n.adoptFrame snap).side = { n.side with clientTable := Side.loaded n.clientTable snap } ∧
      (n.adoptFrame snap).log = n.log := by
  unfold adoptFrame Side.loaded
  cases snap.clientTableCap with
  | none | some capacity => exact ⟨rfl, rfl⟩

theorem adoptSnapshot_side [Sized ι] (hlt : n.lastApplied < snap.position.lastIncludedIndex)
    (hlog : (n.log.installSnapshot snap.position).isSome) :
    (n.adoptSnapshot snap).side = { n.side with
      lastApplied := snap.position.lastIncludedIndex
      clientTable := Side.loaded n.clientTable snap
      apply := { n.side.apply with restore := some snap } } := by
  obtain ⟨hframe, hsame⟩ := adoptFrame_side n snap
  obtain ⟨log, hinstall⟩ := Option.isSome_iff_exists.mp hlog
  unfold adoptSnapshot
  generalize n.adoptFrame snap = m at hframe hsame ⊢
  dsimp only
  rw [hsame, hinstall]
  -- Neither the commit index nor the rebuilt membership is part of what is compared here.
  have hcommit : ∀ (m : Node ι) (idx : Nat), (m.setCommitIndex idx).side = m.side := fun m idx => by
    have hrecord : Stays .timer _ _ := maybeRecordCommit_stays { m with commitIndex := idx }
    unfold setCommitIndex
    split_ifs
    · rfl
    · exact hrecord.side
  rw [hcommit]
  generalize hmem : (if snap.membership.isSome then
    ({ m with log := log } : Node ι).rebuildMembership.1.checkWitness else { m with log := log }) = m'
  have hside : m'.side = m.side := by
    rw [← hmem]
    split_ifs
    · have hrebuilt := rebuildMembership_remains snapshot_reconfigures { m with log := log }
      exact (hrebuilt.trans (checkWitness_remains _)).side
    · rfl
  rw [hframe] at hside
  have hla : m'.lastApplied = n.lastApplied := (congrArg Side.lastApplied hside :)
  have hmax : max m'.lastApplied snap.position.lastIncludedIndex = snap.position.lastIncludedIndex :=
    Nat.max_eq_right (hla ▸ hlt.le)
  change { m'.side with
    lastApplied := max m'.lastApplied snap.position.lastIncludedIndex
    apply := { m'.side.apply with restore := some snap } } = _
  rw [hmax, hside]

theorem InOrder.takeInstallResult [Sized ι] (h : n.InOrder log) {k : Nat} (hord : n.AdoptsOrderly log k) :
    (n.takeInstallResult k).InOrder log := by
  cases hget : n.snapshots.installed[k]? with
  | none =>
    have heq : n.takeInstallResult k = n := by rw [Node.takeInstallResult, hget]
    rw [heq]
    exact h
  | some p =>
    obtain ⟨snap, ok⟩ := p
    set n₁ : Node ι := { n with snapshots := { n.snapshots with
      installed := n.snapshots.installed.eraseIdx k } } with hn₁
    have heq : n.takeInstallResult k = n₁.handleSnapInstallResult snap ok := by
      rw [Node.takeInstallResult, hget]
    have h₁ : n₁.InOrder log := Side.InOrder.written h (fun q hq => hq) n.snapshots.snapshotting
      n.snapshots.results (n.snapshots.installed.eraseIdx k)
    obtain ⟨_, _, _, _, _, m, hm, ⟨rfl, hlt, hadopt⟩ | ⟨-, hsame⟩⟩ :=
      handleSnapInstallResult_cases n₁ snap ok
    · obtain ⟨hdue, hresults, hleads, rl, hinstall, hroster⟩ := hord snap hget hlt
      have hinstall' : m.log.installSnapshot snap.position = some rl := by rw [hm]; exact hinstall
      have hadopted := adoptSnapshot_side (n := m) (by rw [hm]; exact hlt)
        (Option.isSome_iff_exists.mpr ⟨rl, hinstall'⟩)
      have hmem := adoptSnapshot_membership hinstall'
      rw [← hadopt, ← heq, hm] at hadopted hmem
      rw [InOrder, hadopted, hmem, hroster]
      exact Side.InOrder.adopt h₁ hdue hresults hlt hleads
    · rw [heq, hsame, hm]
      exact h₁

structure Opens (log : CommittedLog ι) (n : Node ι) : Prop where
  results : n.apply.results = []
  trigger : n.apply.snapshotTrigger = none
  restore : n.apply.restore = none
  writing : n.snapshots.writing = []
  lastApplied : n.lastApplied = n.apply.localLastApplied
  table : n.clientTable = n.apply.clientTable
  leads : LeadsTo n.cfg log n.apply.localLastApplied n.apply.sm n.apply.clientTable
  roster : n.membership.roster = rosterAt n.cfg log n.apply.localLastApplied

theorem Opens.inOrder (h : n.Opens log) : n.InOrder log where
  leads := h.leads
  phase := by
    refine .inl ⟨?_, h.lastApplied.le, ?_, ?_, ?_⟩
    · change n.apply.Due = false
      rw [ApplyLoop.Due, h.restore]
    · change n.apply.results.map (·.index) = List.range' _ (n.apply.localLastApplied - n.lastApplied)
      rw [h.results, h.lastApplied, Nat.sub_self]
      rfl
    · change n.apply.results.foldl ApplyResult.record n.clientTable = n.apply.clientTable
      rw [h.results]
      exact h.table
    · change n.apply.results.foldl _ n.membership.roster = rosterAt n.cfg log n.apply.localLastApplied
      rw [h.results]
      exact h.roster
  trigger t ht := absurd (h.trigger.symm.trans ht) (Option.some_ne_none t).symm
  writing p hp := by
    change p ∈ n.snapshots.writing at hp
    rw [h.writing] at hp
    cases hp

omit [DecidableEq ι] in
def startBound (cfg : Config ι) (store : Store ι) : Nat :=
  (store.snap.bind (·.clientTableCap)).getD cfg.maxClientTableSize

omit [DecidableEq ι] in
def startTable (cfg : Config ι) (store : Store ι) : ClientLRU :=
  (Recency.empty (startBound cfg store)).loadFrom ((store.snap.map (·.table)).getD [])

/-- The store, and what the state machine has kept, hold the effect of the entries they cover, and
the apply loop starts with the table of the event loop. -/
structure OpensFrom (log : CommittedLog ι) (cfg : Config ι) (sm : List (LogEntry ι)) (s : Store ι)
    (rl : RaftLog ι) : Prop where
  table : 0 < rl.snapMeta.lastIncludedIndex →
    durableAppliedIndex cfg sm < rl.snapMeta.lastIncludedIndex ∨
      startTable cfg s = .empty (startBound cfg s)
  leads : LeadsTo cfg log (max rl.snapMeta.lastIncludedIndex (durableAppliedIndex cfg sm))
    (recoveredSM cfg s rl sm)
    (if 0 < rl.snapMeta.lastIncludedIndex then startTable cfg s else .empty (startBound cfg s))
  roster : (((bareMembership cfg).fromStore s).rebuilt cfg.id cfg.witness rl).roster =
    rosterAt cfg log (max rl.snapMeta.lastIncludedIndex (durableAppliedIndex cfg sm))

theorem OpensFrom.opens [Sized ι] {cfg : Config ι} {sm : List (LogEntry ι)} {s : Store ι}
    {boot draws : Nat} {out : List (Msg ι)} (hnew : new cfg s boot draws out sm = some n)
    (h : ∀ rl, RaftLog.new s cfg.batchWriter cfg.commitRecorder = some rl →
      durableAppliedIndex cfg sm ≤ rl.lastLogIndex → OpensFrom log cfg sm s rl) : n.Opens log := by
  obtain ⟨rl, hlog, hle, -, rfl⟩ := new_cases hnew
  obtain ⟨htable, hleads, hroster⟩ := h rl hlog hle
  have hindex := (RaftLog.new_fields hlog).2.2
  have hrebuilt := rebuildMembership_rebuilt (recovered cfg s rl boot draws out sm)
  obtain ⟨m, ok, hm⟩ := rebuildMembership_of_follower (n := recovered cfg s rl boot draws out sm)
    (by simp [recovered, fresh, recoverSnapshot])
  rw [hm] at hrebuilt ⊢
  -- the tables of the two loops are filled alike
  have htables : (recovered cfg s rl boot draws out sm).clientTable =
        (if 0 < rl.snapMeta.lastIncludedIndex then startTable cfg s else .empty (startBound cfg s)) ∧
      (recovered cfg s rl boot draws out sm).apply.clientTable =
        (if 0 < rl.snapMeta.lastIncludedIndex then startTable cfg s else .empty (startBound cfg s)) := by
    simp only [recovered, recoverSnapshot, fresh, ← hindex, startTable, startBound] at htable ⊢
    refine ⟨trivial, ?_⟩
    by_cases hpos : 0 < rl.snapMeta.lastIncludedIndex
    · by_cases hlt : durableAppliedIndex cfg sm < rl.snapMeta.lastIncludedIndex
      · rw [if_pos ⟨hpos, hlt⟩, if_pos hpos]
      · rw [if_neg fun h => hlt h.2, if_pos hpos]
        exact ((htable hpos).resolve_left hlt).symm
    · rw [if_neg fun h => hpos h.1, if_neg hpos]
  refine ⟨rfl, rfl, rfl, rfl, rfl, htables.1.trans htables.2.symm, ?_, ?_⟩
  · refine Eq.mp ?_ hleads
    rw [← htables.2]
    rfl
  · exact (congrArg Membership.roster hrebuilt).trans hroster

end Node

/-! ## Whole runs -/

namespace Sys

variable [Sized ι]

def Sees (log : CommittedLog ι) (σ : Sys ι) : Action ι → Prop
  | .applyCommitted i faults => (σ i).apply.Sees log (.commit (σ i).log.w.storage faults)
  | _ => True

/-- The apply loop captures the state machine where a snapshot was decided, can read what it
applies, and restores an adopted snapshot first; a node starts again from what it had applied; and
no request makes it go back on a configuration entry. -/
def Orderly (log : CommittedLog ι) (σ : Sys ι) : Action ι → Prop
  | .applyCommitted i faults => (σ i).AppliesOrderly log faults
  | .applyRestore i ok => (σ i).apply.Due = true → ok = true
  | .captureSnapshot i => ∀ t, (σ i).apply.snapshotTrigger = some t →
      t.position.lastIncludedIndex = (σ i).apply.localLastApplied
  | .writeSnapshot _ outcome => ∀ written, outcome ≠ .cut written
  | .installResult i k => (σ i).AdoptsOrderly log k
  | .crash i k => ∀ s rl, (σ i).log.survives k = some s →
      RaftLog.new s (σ i).cfg.batchWriter (σ i).cfg.commitRecorder = some rl →
      Node.durableAppliedIndex (σ i).cfg (σ i).apply.sm ≤ rl.lastLogIndex →
        Node.OpensFrom log (σ i).cfg (σ i).apply.sm s rl
  | .deliver j k => ∀ src dst req, (σ j).out[k]? = some (.appendEntries src dst req) →
      (σ dst).KeepsRoster req
  | _ => True

theorem step_assign {j : ι} {f : Node ι → Node ι} (heff : a.effect σ = some (j, f)) :
    σ.step a = assign σ j (f (σ j)) := by
  rw [step, heff]

/-- **An orderly step** keeps the loops of every node in order. -/
theorem step_inOrder {log : CommittedLog ι} (h : ∀ i, (σ i).InOrder log) (hsees : σ.Sees log a)
    (hord : σ.Orderly log a) (i : ι) : (σ.step a i).InOrder log := by
  -- It is enough to look at the node the action takes place at.
  have at_node : ∀ (j : ι) (f : Node ι → Node ι), a.effect σ = some (j, f) →
      (f (σ j)).InOrder log → (σ.step a i).InOrder log := by
    intro j f heff hj
    rw [step_assign heff]
    unfold assign
    split_ifs with hij
    · exact hj
    · exact h i
  -- Most turns leave alone what matters here.
  have by_side : ∀ {j : ι} {f : Node ι → Node ι}, a.effect σ = some (j, f) →
      (f (σ j)).side = (σ j).side → (f (σ j)).membership.roster = (σ j).membership.roster →
        (σ.step a i).InOrder log := by
    intro j f heff hside hroster
    refine at_node j f heff ?_
    rw [Node.InOrder, hside, hroster]
    exact h j
  have rests : ∀ {j : ι} {f : Node ι → Node ι}, a.effect σ = some (j, f) →
      (σ j).Rests (f (σ j)) → (σ.step a i).InOrder log := fun heff hrests =>
    by_side heff hrests.side (congrArg Membership.roster hrests.membership)
  have timer : ∀ {j : ι} {f : Node ι → Node ι}, a.effect σ = some (j, f) →
      Node.Moves .timer (σ j) (f (σ j)) → (σ.step a i).InOrder log := fun heff hmoves =>
    rests heff (hmoves.rests trivial)
  have none_due : a.effect σ = none → (σ.step a i).InOrder log := fun heff => by
    rw [step, heff]
    exact h i
  cases a with
  | deliver j k =>
    cases hmsg : (σ j).out[k]? with
    | none => exact none_due (by rw [Action.effect, hmsg]; rfl)
    | some msg =>
      rcases deliver_cases σ j k with ⟨src, dst, req, hreq⟩ | hother
      · exact by_side (effect_deliver hreq) ((Node.handleAppendEntries_moves _ src dst req rfl).side trivial)
          (Node.handleAppendEntries_roster src (hord src dst req hreq))
      · refine rests (effect_deliver hmsg) (Node.receive_rests _ msg fun src dst req hreq => ?_)
        exact hother src dst req (hreq ▸ hmsg)
  | dropped j k =>
    cases hmsg : (σ j).out[k]? with
    | none => exact none_due (by rw [Action.effect, hmsg]; rfl)
    | some msg =>
      exact rests (j := j) (by rw [Action.effect, hmsg]; rfl) ((Node.lose_moves _ msg rfl).rests trivial)
  | reachable j peer up => exact timer rfl (Node.reachable_moves _ peer up)
  | tick j => exact rests rfl (Node.tick_rests _)
  | propose j cmds =>
    exact by_side rfl ((Node.handleProposals_moves _ cmds rfl).side trivial) (Node.handleProposals_roster _ cmds)
  | readIndex j read => exact timer rfl (Node.handleReadIndex_stays _ read).moves
  | forwardRead j read => exact timer rfl (Node.forwardRead_moves _ read)
  | transfer j target => exact timer rfl (Node.handleLeadershipTransfer_stays _ target).moves
  | execute j fault => exact rests rfl ⟨rfl, rfl⟩
  | complete j => exact rests rfl (Node.handleWriteCompletions_rests _)
  | installSnapshot j k saved ok =>
    refine at_node j _ rfl ?_
    unfold Node.installSnapshot
    cases (σ j).snapshots.installing[k]? with
    | none => exact h j
    | some snap =>
      exact Side.InOrder.written (h j) (fun q hq => hq) (σ j).snapshots.snapshotting
        (σ j).snapshots.results _
  | applyCommitted j faults => exact at_node j _ rfl ((h j).applyCommitted hsees hord)
  | applyRestore j ok => exact at_node j _ rfl ((h j).applyRestore hord)
  | applyResult j => exact at_node j _ rfl (h j).handleApplyResult
  | captureSnapshot j => exact at_node j _ rfl ((h j).captureSnapshot hord)
  | writeSnapshot j outcome => exact at_node j _ rfl ((h j).writeSnapshot outcome)
  | snapshotResult j => exact at_node j _ rfl (h j).takeSnapshotResult
  | installResult j k => exact at_node j _ rfl ((h j).takeInstallResult hord)
  | crash j k =>
    refine at_node j _ rfl ?_
    cases hrestart : (σ j).restart k with
    | none => exact h j
    | some n =>
      obtain ⟨s, hs, hnew⟩ := Option.bind_eq_some_iff.mp hrestart
      exact (Node.OpensFrom.opens hnew fun rl hlog hle => hord s rl hs hlog hle).inOrder

end Sys

def Action.savesLocally (σ : Sys ι) : Action ι → Option (ι × Snapshot ι)
  | .writeSnapshot i outcome =>
    (σ i).snapshots.writing.head?.bind fun p =>
      match outcome with
      | .saved => some (i, p.1.framed p.2)
      | .cut written => some (i, p.1.framed written)
      | .refused => none
  | _ => none

namespace Sys

omit [DecidableEq ι] in
theorem savesLocally_cases {i : ι} (h : a.savesLocally σ = some (i, snap)) :
    ∃ outcome p rest, a = .writeSnapshot i outcome ∧
      (σ i).snapshots.writing = p :: rest ∧
      (outcome = .saved ∧ snap = p.1.framed p.2 ∨
        ∃ written, outcome = .cut written ∧ snap = p.1.framed written) := by
  cases a with
  | writeSnapshot j outcome =>
    obtain ⟨p, hp, hsnap⟩ := Option.bind_eq_some_iff.mp h
    obtain ⟨rest, hw⟩ := List.head?_eq_some_iff.mp hp
    cases outcome with
    | saved =>
      cases hsnap
      exact ⟨_, p, rest, rfl, hw, .inl ⟨rfl, rfl⟩⟩
    | cut written =>
      cases hsnap
      exact ⟨_, p, rest, rfl, hw, .inr ⟨written, rfl, rfl⟩⟩
    | refused => cases hsnap
  | _ => cases h

variable [Sized ι]

/-- **In an orderly run every local snapshot that is saved is exact.** -/
theorem savesLocally_exact {log : CommittedLog ι} {σ : Sys ι} (hstart : ∀ i, (σ i).Opens log)
    {as : List (Action ι)} (hsees : Along (Sees log) σ as) (hord : Along (Orderly log) σ as) :
    Along (fun σ a => ∀ i snap, a.savesLocally σ = some (i, snap) → snap.Exact (σ i).cfg log) σ as := by
  have hinit : ∀ i, (σ i).InOrder log := fun i => (hstart i).inOrder
  clear hstart
  induction as generalizing σ with
  | nil => trivial
  | cons a as ih =>
    refine ⟨fun i snap hsaves => ?_, ih hsees.2 hord.2 (step_inOrder hinit hsees.1 hord.1)⟩
    obtain ⟨outcome, p, rest, rfl, hw, hsnap⟩ := savesLocally_cases hsaves
    rcases hsnap with ⟨rfl, rfl⟩ | ⟨written, rfl, rfl⟩
    · refine (hinit i).writing p ?_
      change p ∈ (σ i).snapshots.writing
      rw [hw]
      exact List.mem_cons_self
    · exact absurd rfl (hord.1 written)

/-! ### A node on its own -/

def solo : Sys (Fin 1) :=
  start (fun i => { Config.ofSize 1 i with snapshotThreshold := 1 }) fun _ => .empty

def soloLog : CommittedLog (Fin 1) :=
  ⟨fun i => ⟨i, 1, if i = 1 then .noop else .user [1]⟩, fun _ => rfl⟩

def soloLeads : List (Action (Fin 1)) :=
  [.tick 0, .tick 0, .execute 0 none, .complete 0, .execute 0 none, .complete 0]

/-- Two entries are applied before the result of the first is taken up. -/
def overtaken : List (Action (Fin 1)) :=
  soloLeads ++ [.propose 0 [.user [1]], .execute 0 none, .complete 0, .applyCommitted 0 .healthy,
    .applyResult 0, .captureSnapshot 0]

theorem solo_opens (i : Fin 1) : (solo i).Opens soloLog := by
  obtain rfl : i = 0 := Subsingleton.elim i 0
  refine ⟨by decide +kernel, by decide +kernel, by decide +kernel, by decide +kernel,
    by decide +kernel, by decide +kernel, ?_, by decide +kernel⟩
  exact leadsTo_zero _ _

/-- The snapshot of the first entry is captured before there is another. -/
theorem savesLocally_exact_solo :
    Along (fun σ a => ∀ i snap, a.savesLocally σ = some (i, snap) → snap.Exact (σ i).cfg soloLog) solo
      (soloLeads ++ [.applyCommitted 0 .healthy, .applyResult 0, .captureSnapshot 0,
        .writeSnapshot 0 .saved]) := by
  refine savesLocally_exact solo_opens ?_ ?_
  · refine ⟨trivial, trivial, trivial, trivial, trivial, trivial, ?_, trivial, trivial, trivial, trivial⟩
    have hentries : ((solo.run soloLeads) 0).log.w.storage.entries = soloLog.between 0 1 := by
      decide +kernel
    exact ApplyLoop.sees_between hentries _ .healthy
  · have hnotify : (solo.run soloLeads 0).apply.commitNotify = some 1 := by decide +kernel
    refine ⟨trivial, trivial, trivial, trivial, trivial, trivial, ⟨by decide +kernel, ?_, ?_⟩,
      trivial, ?_, ?_, trivial⟩
    · intro commitIdx hc
      obtain rfl : 1 = commitIdx := Option.some.inj (hnotify.symm.trans hc)
      exact .inl (by decide +kernel)
    · intro commitIdx hc k r hk
      obtain rfl : 1 = commitIdx := Option.some.inj (hnotify.symm.trans hc)
      have hk' : ([.handed (soloLog.entry 1).queued ⟨[], false⟩] : List (Report (Fin 1)))[k]? =
          some r := by
        exact hk
      cases k with
      | zero =>
        cases hk'
        intro _ client seq hnote
        cases hnote
      | succ k => cases hk'
    · intro t ht
      have hindex : (solo.run (soloLeads ++ [.applyCommitted 0 .healthy, .applyResult 0]) 0).apply.snapshotTrigger.map
          (·.position.lastIncludedIndex) =
            some (solo.run (soloLeads ++ [.applyCommitted 0 .healthy, .applyResult 0])
              0).apply.localLastApplied := by decide +kernel
      have ht' := congrArg (Option.map (·.position.lastIncludedIndex)) ht
      exact Option.some.inj (ht'.symm.trans hindex)
    · intro written hcut
      cases hcut

/-- A second entry is applied before the first result is taken up: the snapshot contains both. -/
theorem not_savesLocally_exact_overtaken :
    (∀ i, (solo i).Opens soloLog) ∧
      Along (Sees soloLog) solo (overtaken ++ [.writeSnapshot 0 .saved]) ∧
      ¬ Along (fun σ a => ∀ i snap, a.savesLocally σ = some (i, snap) →
        snap.Exact (σ i).cfg soloLog) solo (overtaken ++ [.writeSnapshot 0 .saved]) := by
  refine ⟨solo_opens, ?_, fun h => ?_⟩
  · refine ⟨trivial, trivial, trivial, trivial, trivial, trivial, trivial, trivial, trivial, ?_, trivial,
      trivial, trivial, trivial⟩
    have hentries : ((solo.run (soloLeads ++ [.propose 0 [.user [1]], .execute 0 none, .complete 0]))
        0).log.w.storage.entries = soloLog.between 0 2 := by decide +kernel
    exact ApplyLoop.sees_between hentries _ .healthy
  · obtain ⟨snap, hsaves, hindex, hdata⟩ : ∃ snap,
        (Action.writeSnapshot 0 .saved).savesLocally (solo.run overtaken) = some (0, snap) ∧
          snap.position.lastIncludedIndex = 1 ∧ snap.data.length = 2 :=
      ⟨_, rfl, by decide +kernel, by decide +kernel⟩
    obtain ⟨ranges, hflat, hsm, -⟩ := (((along_append solo overtaken _).mp h).2.1 0 snap hsaves).applied
    have hlen := ApplyLoop.applyRanges_sm_length ((solo.run overtaken) 0).cfg.stateMachine
      (blankLoop ((solo.run overtaken) 0).cfg) ranges
    rw [← hsm, hflat, hindex, hdata] at hlen
    exact absurd hlen (by decide)

end Sys

end Raft
