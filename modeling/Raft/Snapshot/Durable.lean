import Raft.Membership.PrefixFold
import Raft.Snapshot.Contents

/-!
# Restarting over a durable state machine

A state machine that keeps its own state says how far it has come, and the node resumes
there.  The node's own replicated state, the table of clients and its bound, the commit
quorum and the membership, is not kept by the state machine.  A restart finds it in the
snapshot, which is older, and in the log, which is longer.

A node that has applied a log without interruption is compared with one that was restarted
at the index its state machine reported.
-/

namespace Raft

variable {ι : Type} [DecidableEq ι]

/-- The state a group replicates: both tables of clients, the roster, commit quorum and bound. -/
structure Shared (ι : Type) where
  clientTable : ClientLRU
  applyTable : ClientLRU
  roster : Roster ι
  deriving DecidableEq

namespace Node

omit [DecidableEq ι] in
def shared (n : Node ι) : Shared ι := ⟨n.clientTable, n.apply.clientTable, n.membership.roster⟩

variable [Sized ι] {n : Node ι}

def takeUp (n : Node ι) (es : List (LogEntry ι)) : Node ι :=
  let n := { n with apply := n.apply.applyEntries n.cfg.stateMachine es }
  handleApplyResult^[n.apply.results.length] n

def takeUpAll (n : Node ι) (ranges : List (List (LogEntry ι))) : Node ι := ranges.foldl takeUp n

/-! ## Nodes that agree -/

omit [Sized ι] in
/-- Two nodes that have applied the same. -/
structure Abreast (n m : Node ι) : Prop where
  cfg : n.cfg = m.cfg
  apply : n.apply.cleared = m.apply.cleared
  clientTable : n.clientTable = m.clientTable
  roster : n.membership.roster = m.membership.roster

theorem handleApplyResult_cases {r : ApplyResult ι} {rest : List (ApplyResult ι)}
    (hres : n.apply.results = r :: rest) :
    n.handleApplyResult.cfg = n.cfg ∧
      n.handleApplyResult.apply.cleared = { n.apply.cleared with results := rest } ∧
      n.handleApplyResult.clientTable = r.record n.clientTable ∧
      n.handleApplyResult.membership.roster = reroster n.cfg n.membership.roster r.configCmd := by
  obtain ⟨m, heq, hside, hroster⟩ := handleApplyResult_eq hres
  have hcfg : m.cfg = n.cfg := congrArg Side.cfg hside
  have htable : m.clientTable = r.record n.clientTable := congrArg Side.clientTable hside
  have happly : m.apply.cleared = { n.apply.cleared with results := rest } :=
    congrArg (fun s : Side ι => s.apply.cleared) hside
  rw [heq]
  rcases maybeSnapshot_cases m with hno | ⟨term, hmem, hyes⟩
  · rw [hno]
    exact ⟨hcfg, happly, htable, hroster⟩
  · exact ⟨(congrArg Side.cfg hyes).trans hcfg,
      (congrArg (fun s : Side ι => s.apply.cleared) hyes :).trans happly,
      (congrArg Side.clientTable hyes).trans htable, (congrArg Membership.roster hmem).trans hroster⟩

theorem handleApplyResult_nil (hres : n.apply.results = []) : n.handleApplyResult = n := by
  rw [handleApplyResult, hres]

namespace Abreast

variable {n m : Node ι}

section

variable (h : n.Abreast m)

include h

omit [Sized ι] [DecidableEq ι] in
theorem results : n.apply.results = m.apply.results :=
  (congrArg ApplyLoop.results h.apply :)

theorem handleApplyResult : n.handleApplyResult.Abreast m.handleApplyResult := by
  cases hres : n.apply.results with
  | nil =>
    rw [handleApplyResult_nil hres, handleApplyResult_nil (h.results.symm.trans hres)]
    exact h
  | cons r rest =>
    obtain ⟨hcfg, happly, htable, hroster⟩ := handleApplyResult_cases hres
    obtain ⟨hcfg', happly', htable', hroster'⟩ :=
      handleApplyResult_cases (h.results.symm.trans hres)
    exact ⟨hcfg.trans (h.cfg.trans hcfg'.symm), by rw [happly, happly', h.apply],
      by rw [htable, htable', h.clientTable], by rw [hroster, hroster', h.cfg, h.roster]⟩

theorem drain (k : Nat) :
    (Node.handleApplyResult^[k] n).Abreast (Node.handleApplyResult^[k] m) := by
  induction k generalizing n m with
  | zero => exact h
  | succ k ih =>
    exact ih h.handleApplyResult

theorem takeUp (es : List (LogEntry ι)) : (n.takeUp es).Abreast (m.takeUp es) := by
  have hgiven : Abreast { n with apply := n.apply.applyEntries n.cfg.stateMachine es }
      { m with apply := m.apply.applyEntries m.cfg.stateMachine es } := by
    refine ⟨h.cfg, ?_, h.clientTable, h.roster⟩
    rw [ApplyLoop.applyEntries_cleared, ApplyLoop.applyEntries_cleared, h.apply, h.cfg]
  have hsame := hgiven.results
  unfold Node.takeUp
  dsimp only at hsame ⊢
  rw [hsame]
  exact hgiven.drain _

/-- **Nodes that agree go on agreeing**. -/
theorem takeUpAll (ranges : List (List (LogEntry ι))) :
    (n.takeUpAll ranges).Abreast (m.takeUpAll ranges) := by
  induction ranges generalizing n m with
  | nil => exact h
  | cons es ranges ih => exact ih (h.takeUp es)

end

omit [DecidableEq ι] [Sized ι] in
theorem shared_eq (h : n.Abreast m) : n.shared = m.shared := by
  have happly : n.apply.clientTable = m.apply.clientTable :=
    (congrArg ApplyLoop.clientTable h.apply :)
  unfold shared
  rw [h.clientTable, happly, h.roster]

end Abreast

/-! ## Taking up a log -/

omit [Sized ι] in
/-- The table has the bound in effect, the configured one until the group agrees on another. -/
structure Capped (n : Node ι) : Prop where
  bound : n.clientTable.bound = n.membership.clientTableCap
  unagreed : n.membership.clientTableCapAgreed = false →
    n.membership.clientTableCap = n.cfg.maxClientTableSize

omit [DecidableEq ι] [Sized ι] in
theorem record_bound (t : ClientLRU) (r : ApplyResult ι) :
    (r.record t).bound = match r.configCmd with
      | some (.clientTableCap capacity) => capacity
      | _ => t.bound := by
  have hnote : ∀ t : ClientLRU, (r.note t).bound = t.bound := fun t => by
    unfold ApplyResult.note
    cases r.cmd.bind (·.dedup) with
    | none => rfl
    | some d =>
      dsimp only
      split_ifs <;> rfl
  unfold ApplyResult.record
  cases r.configCmd with
  | none => exact hnote t
  | some op =>
    rw [hnote]
    cases op <;> rfl

omit [Sized ι] in
theorem reroster_cap (cfg : Config ι) (r : Roster ι) (op : Option (ConfigOp ι)) :
    match op with
    | some (.clientTableCap capacity) => (reroster cfg r op).clientTableCap = capacity ∧
        (reroster cfg r op).clientTableCapAgreed = true
    | _ => (reroster cfg r op).clientTableCap = r.clientTableCap ∧
        (reroster cfg r op).clientTableCapAgreed = r.clientTableCapAgreed := by
  cases op with
  | none => exact ⟨rfl, rfl⟩
  | some op =>
    cases op with
    | add peer =>
      simp only [reroster, Roster.change]
      split_ifs
      · exact ⟨rfl, rfl⟩
      · split
        · split_ifs <;> exact ⟨rfl, rfl⟩
        · exact ⟨rfl, rfl⟩
    | remove id =>
      simp only [reroster, Roster.change]
      split_ifs <;> exact ⟨rfl, rfl⟩
    | _ => exact ⟨rfl, rfl⟩

theorem Capped.handleApplyResult (h : n.Capped) : n.handleApplyResult.Capped := by
  cases hres : n.apply.results with
  | nil =>
    rw [handleApplyResult_nil hres]
    exact h
  | cons r rest =>
    obtain ⟨hcfg, -, htable, hroster⟩ := handleApplyResult_cases hres
    have hcap : n.handleApplyResult.membership.clientTableCap =
        (reroster n.cfg n.membership.roster r.configCmd).clientTableCap :=
      congrArg Roster.clientTableCap hroster
    have hagreed : n.handleApplyResult.membership.clientTableCapAgreed =
        (reroster n.cfg n.membership.roster r.configCmd).clientTableCapAgreed :=
      congrArg Roster.clientTableCapAgreed hroster
    have hbound := record_bound n.clientTable r
    have hchange := reroster_cap n.cfg n.membership.roster r.configCmd
    rw [← htable] at hbound
    -- the entry sets the bound of the table and of the group, or of neither
    split at hchange
    · rename_i capacity hop
      rw [hop] at hbound
      refine ⟨hbound.trans (hcap.trans hchange.1).symm, fun hno => ?_⟩
      rw [hagreed, hchange.2] at hno
      cases hno
    · rename_i hop
      have hkept : n.handleApplyResult.clientTable.bound = n.clientTable.bound := by
        rw [hbound]
        split
        · rename_i capacity heq
          exact absurd heq (hop capacity)
        · rfl
      refine ⟨hkept.trans (h.bound.trans (hcap.trans hchange.1).symm), fun hno => ?_⟩
      rw [hcap, hchange.1, hcfg]
      exact h.unagreed (hchange.2.symm.trans (hagreed.symm.trans hno))

structure Drained (n n' : Node ι) : Prop where
  cfg : n'.cfg = n.cfg
  apply : n'.apply.cleared = { n.apply.cleared with results := [] }
  capped : n.Capped → n'.Capped

theorem drain (n : Node ι) : n.Drained (handleApplyResult^[n.apply.results.length] n) := by
  generalize hres : n.apply.results = rs
  induction rs generalizing n with
  | nil =>
    have hsame : n.apply.cleared = { n.apply.cleared with results := n.apply.results } := rfl
    rw [hres] at hsame
    exact ⟨rfl, hsame, id⟩
  | cons r rest ih =>
    obtain ⟨hcfg, happly, -, -⟩ := handleApplyResult_cases hres
    have hrest := ih n.handleApplyResult (congrArg ApplyLoop.results happly :)
    rw [List.length_cons, Function.iterate_succ_apply]
    refine ⟨hrest.cfg.trans hcfg, ?_, fun h => hrest.capped h.handleApplyResult⟩
    rw [hrest.apply, happly]

theorem takeUp_spec (n : Node ι) (es : List (LogEntry ι)) :
    (n.takeUp es).cfg = n.cfg ∧ (n.takeUp es).apply.results = [] ∧
      (n.takeUp es).apply.Alike (n.apply.applyEntries n.cfg.stateMachine es) ∧
      (n.Capped → (n.takeUp es).Capped) := by
  have hdrained := drain { n with apply := n.apply.applyEntries n.cfg.stateMachine es }
  exact ⟨hdrained.cfg, (congrArg ApplyLoop.results hdrained.apply :),
    ⟨(congrArg ApplyLoop.sm hdrained.apply :), (congrArg ApplyLoop.clientTable hdrained.apply :),
      (congrArg ApplyLoop.localLastApplied hdrained.apply :)⟩,
    fun h => hdrained.capped ⟨h.bound, h.unagreed⟩⟩

theorem takeUpAll_spec (n : Node ι) (hres : n.apply.results = []) (hcap : n.Capped)
    (ranges : List (List (LogEntry ι))) :
    (n.takeUpAll ranges).cfg = n.cfg ∧ (n.takeUpAll ranges).apply.results = [] ∧
      (n.takeUpAll ranges).apply.Alike (ApplyLoop.applyRanges n.cfg.stateMachine n.apply ranges) ∧
      (n.takeUpAll ranges).Capped := by
  induction ranges generalizing n with
  | nil => exact ⟨rfl, hres, .refl _, hcap⟩
  | cons es ranges ih =>
    obtain ⟨hcfg, hdone, halike, hcapped⟩ := n.takeUp_spec es
    obtain ⟨hcfg', hdone', halike', hcapped'⟩ := ih (n.takeUp es) hdone (hcapped hcap)
    rw [hcfg] at halike'
    have hrest := halike.applyRanges n.cfg.stateMachine ranges
    exact ⟨hcfg'.trans hcfg, hdone', ⟨halike'.sm.trans hrest.sm,
      halike'.clientTable.trans hrest.clientTable,
      halike'.localLastApplied.trans hrest.localLastApplied⟩, hcapped'⟩

end Node

/-! ## Starting -/

namespace Membership

omit [DecidableEq ι] in
theorem roster_eq_iff (m m' : Membership ι) :
    m.roster = m'.roster ↔ m.lineup = m'.lineup ∧ m.agreedPart = m'.agreedPart := by
  simp only [roster, lineup, agreedPart, Roster.mk.injEq, Lineup.mk.injEq, Prod.mk.injEq]
  tauto

end Membership

namespace Node

variable [Sized ι]

/-- **What a node starts with**, over a state machine that is not behind the snapshot. -/
theorem new_shared {cfg : Config ι} {store : Store ι} (hs : store.Wf) {boot draws : Nat}
    {out : List (Msg ι)} {sm : List (LogEntry ι)} {n : Node ι}
    (hnew : new cfg store boot draws out sm = some n)
    (hahead : (RaftLog.snapPosition store).lastIncludedIndex ≤ durableAppliedIndex cfg sm) :
    n.cfg = cfg ∧
      n.apply.cleared = ⟨none, none, none, durableAppliedIndex cfg sm,
        .empty (startBound cfg store), if cfg.durableSM then sm else [], []⟩ ∧
      n.clientTable = (if 0 < (RaftLog.snapPosition store).lastIncludedIndex then startTable cfg store
        else .empty (startBound cfg store)) ∧
      n.membership = Membership.adoptAll cfg.id cfg.witness
        (((bareMembership cfg).fromStore store).rebase cfg.id
          (RaftLog.snapPosition store).lastIncludedIndex) store.entries := by
  obtain ⟨-, hcfg, hmem⟩ := new_plain hs hnew
  obtain ⟨log, hlog, -, -, rfl⟩ := new_cases hnew
  have hfresh := RaftLog.Fresh.of_new hs hlog
  have hbase : log.snapMeta = RaftLog.snapPosition store := (RaftLog.Refines.of_fresh hfresh).base
  obtain ⟨m, ok, hm⟩ := rebuildMembership_of_follower (n := recovered cfg store log boot draws out sm)
    (by simp [recovered, fresh, recoverSnapshot])
  have hindex : (store.snap.map (·.position.lastIncludedIndex)).getD 0 =
      (RaftLog.snapPosition store).lastIncludedIndex := by
    unfold RaftLog.snapPosition
    cases store.snap <;> rfl
  -- the state machine has kept what the snapshot holds, and is not restored from it
  have hnot : ¬ (0 < (RaftLog.snapPosition store).lastIncludedIndex ∧
      durableAppliedIndex cfg sm < (RaftLog.snapPosition store).lastIncludedIndex) := by omega
  refine ⟨hcfg, ?_, ?_, hmem⟩
  · rw [hm]
    simp only [recovered, recoverSnapshot, fresh, recoveredSM, resetElectionTimeout,
      ApplyLoop.cleared, hbase, hindex, if_neg hnot, Nat.max_eq_right hahead, startBound]
  · rw [hm]
    simp only [recovered, recoverSnapshot, fresh, resetElectionTimeout, hindex, startBound, startTable]

theorem start_capped (cfg : Config ι) : (start cfg .empty).Capped ∧
    (start cfg .empty).apply.cleared = blankLoop cfg := by
  obtain ⟨hcfg, happly, htable, hmem⟩ := new_shared Store.empty_wf (new_empty cfg) (Nat.zero_le _)
  have hagreed : (start cfg .empty).membership.agreedPart = (0, cfg.maxClientTableSize, false) := by
    rw [hmem, Membership.rebuilt_agreedPart]
    rfl
  have hcap : (start cfg .empty).membership.clientTableCap = cfg.maxClientTableSize :=
    congrArg (·.2.1) hagreed
  refine ⟨⟨?_, fun _ => by rw [hcap, hcfg]⟩, ?_⟩
  · rw [htable, hcap]
    rfl
  · rw [happly]
    simp only [durableAppliedIndex, ite_self, List.getLast?_nil, Option.map_none, Option.getD_none]
    rfl

end Node

/-! ## Restarting -/

namespace Store

variable [Sized ι]

/-- What storage holds: the snapshot taken when the node was as `u`, and a stretch of the log that
reaches further. -/
structure LeftBy (store : Store ι) (log : CommittedLog ι) (s : Nat) (u : Node ι) : Prop where
  wf : store.Wf
  none : s = 0 → store.snap = none
  snap : 0 < s → ∃ term, store.snap =
    some (SnapshotTrigger.framed { u.noted term with position := ⟨s, term⟩ } u.apply.sm)
  entries : ∃ first last, first ≤ s ∧ store.entries = log.between first last

omit [DecidableEq ι] [Sized ι] in
theorem LeftBy.position {store : Store ι} {log : CommittedLog ι} {s : Nat} {u : Node ι}
    (h : store.LeftBy log s u) :
    (RaftLog.snapPosition store).lastIncludedIndex = s := by
  unfold RaftLog.snapPosition
  rcases Nat.eq_zero_or_pos s with rfl | hpos
  · rw [h.none rfl]
  · obtain ⟨term, hsnap⟩ := h.snap hpos
    rw [hsnap]
    rfl

/-- The event loop's table, quorum and bound are the snapshot's, the apply loop's table is empty,
and the members have the whole log adopted. -/
structure LosesNothing (store : Store ι) (u v : Node ι) : Prop where
  clientTable : v.clientTable = u.clientTable
  applyTable : v.apply.clientTable = .empty u.clientTable.bound
  agreed : v.membership.agreedPart = u.membership.agreedPart
  lineup : v.membership.lineup =
    ((((Node.bareMembership v.cfg).fromStore store).base.lineup v.cfg.id).adoptAll v.cfg.id
      v.cfg.witness store.entries)

end Store

namespace Node

variable [Sized ι]

theorem takeUpAll_empty {n : Node ι} (hres : n.apply.results = []) {ranges : List (List (LogEntry ι))}
    (hflat : ranges.flatten = []) : n.takeUpAll ranges = n := by
  induction ranges with
  | nil => rfl
  | cons es ranges ih =>
    obtain ⟨rfl, hrest⟩ := List.append_eq_nil_iff.mp (List.flatten_cons ▸ hflat)
    have hidle : n.takeUp [] = n := by
      unfold takeUp
      dsimp only
      rw [ApplyLoop.applyEntries_nil, hres]
      rfl
    change (n.takeUp []).takeUpAll ranges = n
    rw [hidle]
    exact ih hrest

theorem takeUpAll_append (n : Node ι) (ranges ranges' : List (List (LogEntry ι))) :
    n.takeUpAll (ranges ++ ranges') = (n.takeUpAll ranges).takeUpAll ranges' := List.foldl_append

structure TakenUp (cfg : Config ι) (k : Nat) (n : Node ι) : Prop where
  cfg_eq : n.cfg = cfg
  results : n.apply.results = []
  localLastApplied : n.apply.localLastApplied = k
  capped : n.Capped
  initially : k = 0 → n = start cfg .empty

theorem takenUp_start (cfg : Config ι) {log : CommittedLog ι} {k : Nat}
    {ranges : List (List (LogEntry ι))} (hflat : ranges.flatten = log.between 0 k) :
    TakenUp cfg k ((start cfg .empty).takeUpAll ranges) := by
  obtain ⟨hcap, hblank⟩ := start_capped cfg
  have hcfg := (start_plain cfg).2.1
  have hres : (start cfg .empty).apply.results = [] := (congrArg ApplyLoop.results hblank :)
  obtain ⟨hcfg', hres', halike, hcap'⟩ := takeUpAll_spec _ hres hcap ranges
  refine ⟨hcfg'.trans hcfg, hres', ?_, hcap', ?_⟩
  · have hstart : (start cfg .empty).apply.Alike (blankLoop cfg) :=
      ⟨(congrArg ApplyLoop.sm hblank :), (congrArg ApplyLoop.clientTable hblank :),
        (congrArg ApplyLoop.localLastApplied hblank :)⟩
    rw [hcfg] at halike
    exact halike.localLastApplied.trans
      ((hstart.applyRanges cfg.stateMachine ranges).localLastApplied.trans (applyRanges_last hflat))
  · rintro rfl
    exact takeUpAll_empty hres hflat

section Restart

variable {cfg : Config ι} {log : CommittedLog ι} {s d : Nat} {store : Store ι} {boot draws : Nat}
  {out : List (Msg ι)} {sm : List (LogEntry ι)} {u n : Node ι}

theorem leftBy_agreedPart (h : store.LeftBy log s u) (hu : TakenUp cfg s u) :
    startBound cfg store = u.clientTable.bound ∧
      ((bareMembership cfg).fromStore store).agreedPart = u.membership.agreedPart := by
  -- without a snapshot the node is as it was the first time
  rcases Nat.eq_zero_or_pos s with rfl | hpos
  · obtain ⟨-, -, htable, hmem⟩ :=
      new_shared Store.empty_wf (new_empty cfg) (Nat.zero_le _)
    have hsnap := h.none rfl
    rw [hu.initially rfl, htable, hmem, Membership.rebuilt_agreedPart]
    unfold startBound Membership.fromStore
    rw [hsnap]
    exact ⟨rfl, rfl⟩
  · obtain ⟨term, hsnap⟩ := h.snap hpos
    have hbound := hu.capped.bound
    have hunagreed := hu.capped.unagreed
    rw [hu.cfg_eq] at hunagreed
    have hcap : (u.noted term).clientTableCap = if u.membership.clientTableCapAgreed then
      some u.membership.clientTableCap else none := rfl
    unfold startBound Membership.fromStore
    rw [hsnap, hbound]
    simp only [SnapshotTrigger.framed, Option.bind_some, hcap]
    have hquorum : (u.noted term).membership.commitQuorum = u.membership.commitQuorumApplied := by
      change (u.membership.roster.recorded u.cfg.id u.cfg.witness).commitQuorum = _
      unfold Roster.recorded
      split <;> rfl
    cases hagreed : u.membership.clientTableCapAgreed with
    | true =>
      simp only [if_true, Option.getD_some, Membership.agreedPart, Membership.adoptCommitQuorum,
        Membership.adoptCap, hquorum, hagreed, and_self]
    | false =>
      simp only [Bool.false_eq_true, if_false, Option.getD_none, Membership.agreedPart,
        Membership.adoptCommitQuorum, hquorum, hagreed, hunagreed hagreed, true_and]
      rfl

/-- **What a restart finds**. -/
theorem new_of_leftBy (hstore : store.LeftBy log s u) (hu : TakenUp cfg s u)
    (hdurable : cfg.durableSM = true) (hreported : durableAppliedIndex cfg sm = d) (hle : s ≤ d)
    (hnew : new cfg store boot draws out sm = some n) :
    n.cfg = cfg ∧
      n.apply.cleared = ⟨none, none, none, d, .empty u.clientTable.bound, sm, []⟩ ∧
      n.clientTable = u.clientTable ∧
      n.membership.agreedPart = u.membership.agreedPart ∧
      n.membership.lineup = ((((bareMembership cfg).fromStore store).base.lineup cfg.id).adoptAll
        cfg.id cfg.witness store.entries) := by
  have hposition := hstore.position
  obtain ⟨hbound, hagreed⟩ := leftBy_agreedPart hstore hu
  obtain ⟨hcfg, happly, htable, hmem⟩ := new_shared hstore.wf hnew (by omega)
  refine ⟨hcfg, ?_, ?_, ?_, ?_⟩
  · rw [happly, hbound, hreported, if_pos hdurable]
  · rw [htable, hposition]
    rcases Nat.eq_zero_or_pos s with rfl | hpos
    · obtain ⟨-, -, hinitial, -⟩ := new_shared Store.empty_wf (new_empty cfg) (Nat.zero_le _)
      rw [if_neg (Nat.lt_irrefl 0), hbound, hu.initially rfl, hinitial]
      rfl
    · obtain ⟨term, hsnap⟩ := hstore.snap hpos
      rw [if_pos hpos, startTable, hbound, hsnap]
      exact Recency.loadFrom_items u.clientTable
  · rw [hmem, Membership.rebuilt_agreedPart, hagreed]
  · rw [hmem, Membership.adoptAll_lineup, Membership.rebase_lineup]

/-- **A restart goes unnoticed exactly when nothing is lost.**  `n` is restarted where its
state machine reports to be, after a snapshot of `s` entries. -/
theorem shared_eq_iff (hdurable : cfg.durableSM = true) (hle : s ≤ d)
    {pre mid : List (List (LogEntry ι))} (hpre : pre.flatten = log.between 0 s)
    (hmid : mid.flatten = log.between s d)
    (hstore : store.LeftBy log s ((start cfg .empty).takeUpAll pre))
    (hreported : durableAppliedIndex cfg ((start cfg .empty).takeUpAll (pre ++ mid)).apply.sm = d)
    (hnew : new cfg store boot draws out ((start cfg .empty).takeUpAll (pre ++ mid)).apply.sm = some n) :
    (∀ e more, d ≤ e → more.flatten = log.between d e →
      (n.takeUpAll more).shared = ((start cfg .empty).takeUpAll (pre ++ mid ++ more)).shared) ↔
        store.LosesNothing ((start cfg .empty).takeUpAll pre)
          ((start cfg .empty).takeUpAll (pre ++ mid)) := by
  have hu := takenUp_start cfg hpre
  have hv := takenUp_start cfg (show (pre ++ mid).flatten = log.between 0 d by
    rw [List.flatten_append, hpre, hmid, log.between_append (Nat.zero_le s) hle])
  obtain ⟨hcfg, happly, htable, hagreed, hlineup⟩ :=
    new_of_leftBy hstore hu hdurable hreported hle hnew
  have hlater : ∀ more, (start cfg .empty).takeUpAll (pre ++ mid ++ more) =
      ((start cfg .empty).takeUpAll (pre ++ mid)).takeUpAll more := fun more => takeUpAll_append _ _ _
  simp only [hlater]
  generalize (start cfg .empty).takeUpAll pre = u at hu hstore htable happly hagreed ⊢
  generalize (start cfg .empty).takeUpAll (pre ++ mid) = v at hv hreported hnew happly ⊢
  constructor
  · -- the index of the restart is one of those at which they are compared
    intro hall
    have hsame : n.shared = v.shared := hall d [] le_rfl (log.between_self d).symm
    have hroster : n.membership.roster = v.membership.roster := congrArg Shared.roster hsame
    obtain ⟨hmembers, hquorum⟩ := (Membership.roster_eq_iff _ _).mp hroster
    refine ⟨(congrArg Shared.clientTable hsame).symm.trans htable, ?_, hquorum.symm.trans hagreed, ?_⟩
    · have hempty : n.apply.clientTable = .empty u.clientTable.bound :=
        (congrArg ApplyLoop.clientTable happly :)
      exact (congrArg Shared.applyTable hsame).symm.trans hempty
    · rw [hv.cfg_eq]
      exact hmembers.symm.trans hlineup
  · intro h e more _ _
    have habreast : n.Abreast v := by
      refine ⟨hcfg.trans hv.cfg_eq.symm, ?_, htable.trans h.clientTable.symm, ?_⟩
      · have hloop : v.apply.cleared = ⟨none, none, none, v.apply.localLastApplied,
          v.apply.clientTable, v.apply.sm, v.apply.results⟩ := rfl
        rw [happly, hloop, hv.localLastApplied, h.applyTable, hv.results]
      · refine (Membership.roster_eq_iff _ _).mpr ⟨?_, hagreed.trans h.agreed.symm⟩
        rw [hlineup, h.lineup, hv.cfg_eq]
    exact (habreast.takeUpAll more).shared_eq

end Restart

end Node

/-! ### A node on its own -/

namespace Sys

def durableCfg : Config (Fin 1) := { Config.ofSize 1 0 with durableSM := true }

def afterOne : Node (Fin 1) := (Node.start durableCfg .empty).takeUpAll [soloLog.between 0 1]

def leftAfterOne : Store (Fin 1) :=
  { hs := ⟨1, none⟩
    entries := soloLog.between 0 3
    snap := some (SnapshotTrigger.framed { afterOne.noted 1 with position := ⟨1, 1⟩ }
      afterOne.apply.sm)
    commitIndex := 0 }

/-- The entries are ordinary commands, and the state machine has applied two of them: the
restart goes unnoticed. -/
theorem shared_eq_iff_afterOne :
    ∃ n, Node.new durableCfg leftAfterOne 1 0 []
        ((Node.start durableCfg .empty).takeUpAll
          ([soloLog.between 0 1] ++ [soloLog.between 1 2])).apply.sm = some n ∧
      ∀ e more, 2 ≤ e → more.flatten = soloLog.between 2 e →
        (n.takeUpAll more).shared = ((Node.start durableCfg .empty).takeUpAll
          ([soloLog.between 0 1] ++ [soloLog.between 1 2] ++ more)).shared := by
  have hsome : (Node.new durableCfg leftAfterOne 1 0 []
      ((Node.start durableCfg .empty).takeUpAll
        ([soloLog.between 0 1] ++ [soloLog.between 1 2])).apply.sm).isSome = true := by decide +kernel
  obtain ⟨n, hnew⟩ := Option.isSome_iff_exists.mp hsome
  have hleft : leftAfterOne.LeftBy soloLog 1 afterOne :=
    ⟨Store.wf_of_contiguous (soloLog.contiguous_between 0 3) fun _ => Nat.one_pos, by decide,
      fun _ => ⟨1, rfl⟩, 0, 3, Nat.zero_le 1, rfl⟩
  have hloses : leftAfterOne.LosesNothing afterOne
      ((Node.start durableCfg .empty).takeUpAll ([soloLog.between 0 1] ++ [soloLog.between 1 2])) :=
    ⟨by decide +kernel, by decide +kernel, by decide +kernel, by decide +kernel⟩
  exact ⟨n, hnew, (Node.shared_eq_iff rfl (by decide) (by decide +kernel) (by decide +kernel) hleft
    (by decide +kernel) hnew).mpr hloses⟩

def durable : Sys (Fin 1) := start (fun _ => durableCfg) fun _ => .empty

def once : Command (Fin 1) := .user (Command.encodeDedupCmd ⟨[7], 1, [1]⟩)

def serve : List (Action (Fin 1)) :=
  [.propose 0 [once], .execute 0 none, .complete 0, .applyCommitted 0 .healthy, .applyResult 0,
    .applyResult 0]

def served : List (Action (Fin 1)) :=
  soloLeads ++ [.applyCommitted 0 .healthy, .applyResult 0] ++ serve

def servedAgain : List (Action (Fin 1)) :=
  served ++ .crash 0 0 :: soloLeads ++ [.applyCommitted 0 .healthy, .applyResult 0] ++ serve

/-- **A command is executed again after a restart**: neither table of clients has it.  Without
the restart the retry is not even appended. -/
theorem retry_executed_again :
    (durable.run (served ++ serve) 0).apply.sm.map (·.command) = [.noop, .user [1]] ∧
      (durable.run served 0).lastApplied = 3 ∧ (durable.run served 0).clientTable.items.length = 1 ∧
      (durable.run (served ++ [.crash 0 0]) 0).lastApplied = 3 ∧
      (durable.run (served ++ [.crash 0 0]) 0).clientTable.items = [] ∧
      (durable.run (served ++ [.crash 0 0]) 0).apply.clientTable.items = [] ∧
      (durable.run servedAgain 0).apply.sm.map (·.command) =
        [.noop, .user [1], .noop, .user [1]] := by
  decide +kernel

end Sys

end Raft
