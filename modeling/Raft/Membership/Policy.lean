import Raft.Membership.Turns

/-!
# The latest commit quorum and the log

A node counts by the stricter of two policies: the one it has applied and the latest one it
knows of, which is meant to be what the last commit-quorum entry of its log sets, or what
its snapshot records.  Nothing recomputes it from the log: it is written wherever an entry
is appended, merged, adopted or restored.  An entry of a joint reconfiguration carries no
commit quorum, so adopting one sets the latest policy to none at all.
-/

namespace Raft

variable {ι : Type} [DecidableEq ι]

def Command.restores : Command ι → Bool
  | .config (.joint _ _) => true
  | .config (.finalise _) => true
  | _ => false

/-- A membership is put into effect behind the last entry that sets a commit quorum. -/
def forgetsQuorum : List (LogEntry ι) → Bool
  | [] => false
  | e :: es => forgetsQuorum es || (e.command.restores && (lastQuorum es).isNone)

/-- The policy of the last entry that sets one, over what the snapshot records. -/
def PlainLog.policy (p : PlainLog ι) (base : MembershipState ι) : Nat :=
  (lastQuorum p.entries).getD base.commitQuorum

namespace Membership

variable (m : Membership ι) (id : ι) (witness : Bool)

theorem adopt_latest (op : ConfigOp ι) (i : Nat) :
    (m.adopt id witness op i).commitQuorumLatest =
      if (Command.config op).restores then 0
      else (Command.config op).quorum.getD m.commitQuorumLatest := by
  cases op with
  | add peer => exact (addMember_frame _ id peer).2
  | remove peer => exact (removeMember_frame _ id peer).2
  | joint old new | finalise members => exact restore_latest _ id _
  | _ => rfl

/-- **Adopting entries** leaves the policy of the last one that sets it, unless it is forgotten. -/
theorem adoptAll_latest (es : List (LogEntry ι)) :
    (m.adoptAll id witness es).commitQuorumLatest =
      if forgetsQuorum es then 0 else (lastQuorum es).getD m.commitQuorumLatest := by
  induction es generalizing m with
  | nil => rfl
  | cons e es ih =>
    rw [lastQuorum_cons]
    cases hcmd : e.command with
    | user payload =>
      rw [adoptAll_user id witness m hcmd, ih]
      simp [forgetsQuorum, hcmd, Command.restores, Command.quorum]
    | config op =>
      rw [adoptAll_config id witness m hcmd, ih, adopt_latest]
      cases hrest : forgetsQuorum es with
      | true => simp [forgetsQuorum, hrest]
      | false =>
        -- the entries behind decide, or else this one does
        cases hlast : lastQuorum es with
        | some q => simp [forgetsQuorum, hrest, hlast]
        | none => cases hres : (Command.config op).restores <;> simp [forgetsQuorum, hrest, hlast, hcmd, hres]

theorem rebuilt_latest (i : Nat) (p : PlainLog ι) :
    ((m.rebase id i).adoptAll id witness p.entries).commitQuorumLatest =
      if forgetsQuorum p.entries then 0 else p.policy m.base := by
  rw [adoptAll_latest, (m.rebase_frame id i).2]
  rfl

end Membership

theorem forgets_iff {forgets : Bool} {q : Nat} :
    (if forgets then 0 else q) = q ↔ (forgets = true → q = 0) := by
  cases forgets
  · simp
  · simp [eq_comm]

namespace PlainLog

variable (p : PlainLog ι)

omit [DecidableEq ι] in
theorem missing_suffix (es : List (LogEntry ι)) : p.missing es <:+ es := by
  induction es with
  | nil => exact List.suffix_refl _
  | cons e es ih =>
    unfold missing
    split_ifs
    · exact ih.trans (List.suffix_cons e es)
    · exact List.suffix_refl _

omit [DecidableEq ι] in
theorem lastQuorum_of_suffix {es es' : List (LogEntry ι)} (h : es' <:+ es) {q : Nat}
    (hq : lastQuorum es' = some q) : lastQuorum es = some q := by
  obtain ⟨front, rfl⟩ := h
  rw [lastQuorum_append, hq]
  rfl

end PlainLog

namespace Node

def policy (n : Node ι) : Nat := n.log.plain.policy n.membership.base

/-- The node knows the policy its log carries, and counts by the stricter of it and the one it
has applied. -/
structure TracksPolicy (n : Node ι) : Prop where
  latest : n.membership.commitQuorumLatest = n.policy
  commits : ∀ total, n.membership.quorumNeeded .commitQuorum total =
    max (commitQuorumFor n.membership.commitQuorumApplied total) (commitQuorumFor n.policy total)
  elections : ∀ total, n.membership.quorumNeeded .electionQuorum total =
    max (electionQuorumFor n.membership.commitQuorumApplied total)
      (electionQuorumFor n.policy total)

variable {n : Node ι}

omit [DecidableEq ι] in
theorem tracksPolicy_iff_latest : n.TracksPolicy ↔ n.membership.commitQuorumLatest = n.policy := by
  refine ⟨TracksPolicy.latest, fun h => ⟨h, fun total => ?_, fun total => ?_⟩⟩
  all_goals
    rw [← h]
    rfl

omit [DecidableEq ι] in
theorem policy_of_refines {p : PlainLog ι} (h : n.log.Refines p) :
    n.policy = p.policy n.membership.base := by
  rw [policy, h.plain_eq]

/-- Merging leaves the policy of the log: what is new sets one, or what is cut off did not
matter. -/
def MergeKeepsPolicy (n : Node ι) (es : List (LogEntry ι)) : Prop :=
  (lastQuorum (n.log.plain.missing es)).isSome ∨
    match lastQuorum es, n.log.plain.conflict es with
    | some q, _ => q = (n.log.plain.kept es).policy n.membership.base
    | none, none => True
    | none, some e =>
      -- what is cut off may have been adopted, and is then forgotten by a rebuild
      if e.index ≤ n.membership.configIndex then
        forgetsQuorum (n.log.plain.below e.index).entries = true →
          (n.log.plain.below e.index).policy n.membership.base = 0
      else (n.log.plain.below e.index).policy n.membership.base = n.policy

theorem mergedMembership_base (n : Node ι) (es : List (LogEntry ι)) :
    (n.mergedMembership es).base = n.membership.base := by
  unfold mergedMembership
  split
  · rfl
  · split_ifs
    · rw [Membership.adoptAll_base]
      exact (n.membership.rebase_frame _ _).1
    · rfl

theorem merge_latest_iff (hn : n.membership.commitQuorumLatest = n.policy) (es : List (LogEntry ι)) :
    ((n.mergedMembership es).noteAppendedConfig es).commitQuorumLatest =
        (n.log.plain.merge es).policy n.membership.base ↔ n.MergeKeepsPolicy es := by
  rw [Membership.noteAppendedConfig_eq]
  unfold MergeKeepsPolicy
  have hmerge : (n.log.plain.merge es).policy n.membership.base =
      ((lastQuorum (n.log.plain.missing es)).or (lastQuorum (n.log.plain.kept es).entries)).getD
        n.membership.base.commitQuorum := by
    rw [PlainLog.policy, PlainLog.merge, lastQuorum_append]
  rw [hmerge]
  cases hmissing : lastQuorum (n.log.plain.missing es) with
  | some q =>
    rw [PlainLog.lastQuorum_of_suffix (n.log.plain.missing_suffix es) hmissing]
    simp
  | none =>
    have hkept : ((none : Option Nat).or (lastQuorum (n.log.plain.kept es).entries)).getD
        n.membership.base.commitQuorum = (n.log.plain.kept es).policy n.membership.base := rfl
    rw [hkept]
    cases hlast : lastQuorum es with
    | some q => simp
    | none =>
      cases hconflict : n.log.plain.conflict es with
      | none => simp [mergedMembership, PlainLog.kept, hconflict, hn, policy]
      | some e =>
        simp only [mergedMembership, PlainLog.kept, hconflict, Option.getD_none, Option.isSome_none,
          Bool.false_eq_true, false_or]
        split_ifs with hidx
        · rw [Membership.rebuilt_latest]
          exact forgets_iff
        · rw [hn, eq_comm]

/-- Adopting a snapshot leaves the policy of the log: nothing is forgotten, or what it cuts off does
not matter. -/
def InstallKeepsPolicy (n : Node ι) (snap : Snapshot ι) : Prop :=
  match snap.membership with
  | some ms => forgetsQuorum (n.log.plain.install snap.position).entries = true →
      (n.log.plain.install snap.position).policy ms = 0
  | none => (n.log.plain.install snap.position).policy n.membership.base = n.policy

omit [DecidableEq ι] in
theorem takeFrame_frame (m : Membership ι) (snap : Snapshot ι) :
    (m.takeFrame snap).base = snap.membership.getD m.base ∧
      (m.takeFrame snap).commitQuorumLatest = m.commitQuorumLatest := by
  unfold Membership.takeFrame
  cases snap.clientTableCap <;> cases snap.membership <;> exact ⟨rfl, rfl⟩

end Node

def Store.policy (s : Store ι) : Nat :=
  (lastQuorum s.entries).getD ((s.snap.bind (·.membership)).elim 0 (·.commitQuorum))

omit [DecidableEq ι] in
theorem Store.policy_eq (s : Store ι) (cfg : Config ι) :
    s.policy = (⟨RaftLog.snapPosition s, s.entries⟩ : PlainLog ι).policy
      ((Node.bareMembership cfg).fromStore s).base := by
  unfold Store.policy PlainLog.policy Membership.fromStore
  congr 1
  cases s.snap.bind (·.clientTableCap) <;> cases s.snap.bind (·.membership) <;> rfl

variable [Sized ι]

/-- The step leaves every node with the policy of its log, if it had it before. -/
def Action.KeepsPolicy (σ : Sys ι) : Action ι → Prop
  | .deliver j k => ∀ src dst req, (σ j).out[k]? = some (.appendEntries src dst req) →
      (σ dst).Accepts req → (σ dst).MergeKeepsPolicy ((σ dst).received req)
  | .applyResult i => ∀ r rest op, (σ i).apply.results = r :: rest → r.configCmd = some op →
      -- an older entry is adopted over a later one
      if (Command.config op).restores then (σ i).policy = 0
      else ∀ q, (Command.config op).quorum = some q → q = (σ i).policy
  | .snapshotResult i => ∀ r rest, (σ i).snapshots.results = r :: rest → r.err = false →
      (lastQuorum ((σ i).log.plain.entries.filter
        (RaftLog.keepFrom r.trigger.position.lastIncludedIndex (σ i).trailingLogs ≤ ·.index))).isSome ∨
      r.trigger.membership.commitQuorum = (σ i).policy
  | .installResult i k => ∀ snap, (σ i).Installs k snap → (σ i).InstallKeepsPolicy snap
  | .crash i k => (σ i).restart k ≠ none →
      ∀ s, (σ i).log.survives k = some s → forgetsQuorum s.entries = true → s.policy = 0
  | _ => True

namespace Node

variable {n : Node ι}

omit [Sized ι] in
theorem applied_latest_iff (hn : n.membership.commitQuorumLatest = n.policy) (op : ConfigOp ι)
    (i : Nat) : ((n.membership.adopt n.cfg.id n.cfg.witness op i).agree op).commitQuorumLatest =
        n.policy ↔
      if (Command.config op).restores then n.policy = 0
      else ∀ q, (Command.config op).quorum = some q → q = n.policy := by
  rw [(Membership.agree_frame _ op).2, Membership.adopt_latest]
  split_ifs
  · exact eq_comm
  · cases (Command.config op).quorum with
    | none => simp [hn]
    | some q => simp

theorem handleAppendEntries_tracks_iff (hn : n.log.Sound) (h : n.TracksPolicy) (src : Asker ι)
    (req : AppendEntriesRequest ι) (htakes : n.Accepts req → n.log.plain.Takes (n.received req)) :
    (n.handleAppendEntries src req).TracksPolicy ↔
      (n.Accepts req → n.MergeKeepsPolicy (n.received req)) := by
  rw [tracksPolicy_iff_latest]
  rcases handleAppendEntries_plain hn src req htakes with ⟨hacc, hlog, hmem, -⟩ | ⟨hno, hlog, hmem⟩
  · have hbase : (n.handleAppendEntries src req).membership.base = n.membership.base := by
      rw [hmem, Membership.noteAppendedConfig_eq]
      exact n.mergedMembership_base _
    rw [policy_of_refines hlog, hbase, hmem, merge_latest_iff h.latest]
    exact ⟨fun hkeep _ => hkeep, fun hkeep => hkeep hacc⟩
  · rw [policy_of_refines hlog, hmem]
    exact ⟨fun _ hacc => absurd hacc hno, fun _ => h.latest⟩

omit [DecidableEq ι] [Sized ι] in
theorem policy_of_grows {n' : Node ι} (hlog : n.log.Grows n'.log)
    (hbase : n'.membership.base = n.membership.base) : n'.policy = n.policy := by
  obtain ⟨es, hrefines, -, hes⟩ := hlog
  rw [policy_of_refines hrefines, hbase, policy, PlainLog.policy, PlainLog.policy, lastQuorum_append,
    lastQuorum_eq_none.mpr hes]
  rfl

omit [DecidableEq ι] [Sized ι] in
theorem TracksPolicy.grows {n' : Node ι} (h : n.TracksPolicy)
    (hmem : n'.membership = n.membership) (hlog : n.log.Grows n'.log) : n'.TracksPolicy := by
  rw [tracksPolicy_iff_latest, policy_of_grows hlog (by rw [hmem]), hmem]
  exact h.latest

theorem handleProposals_tracks (hn : n.log.Sound) (hnum : n.Numbered []) (h : n.TracksPolicy)
    {cmds : List (Command ι)} (hapart : n.NumbersApart cmds) :
    (n.handleProposals cmds).TracksPolicy := by
  obtain ⟨es, hlog, -, hmem, -⟩ := handleProposals_plain hn hnum hapart
  rw [tracksPolicy_iff_latest, policy_of_refines hlog, hmem, Membership.noteAppendedConfig_eq,
    PlainLog.policy]
  rw [lastQuorum_append, h.latest]
  cases lastQuorum es <;> rfl

theorem handleApplyResult_tracks_iff (hn : n.log.Sound) (hnum : n.Numbered []) (h : n.TracksPolicy) :
    n.handleApplyResult.TracksPolicy ↔
      ∀ r rest op, n.apply.results = r :: rest → r.configCmd = some op →
        if (Command.config op).restores then n.policy = 0
        else ∀ q, (Command.config op).quorum = some q → q = n.policy := by
  cases hres : n.apply.results with
  | nil =>
    simp only [handleApplyResult, hres, reduceCtorEq, false_implies, implies_true, iff_true]
    exact h
  | cons r rest =>
    obtain ⟨hgrows, hmem⟩ := handleApplyResult_plain hn hnum hres
    cases hcmd : r.configCmd with
    | none =>
      rw [hcmd] at hmem
      refine ⟨fun _ r' rest' op heq hop => ?_, fun _ => h.grows hmem hgrows⟩
      cases heq
      cases hcmd.symm.trans hop
    | some op =>
      rw [hcmd] at hmem
      have hbase : n.handleApplyResult.membership.base = n.membership.base := by
        rw [hmem, (Membership.agree_frame _ op).1, Membership.adopt_base]
      rw [tracksPolicy_iff_latest, policy_of_grows hgrows hbase, hmem,
        applied_latest_iff h.latest]
      refine ⟨fun hkeep r' rest' op' heq hop => ?_, fun hkeep => hkeep r rest op rfl hcmd⟩
      cases heq
      cases hcmd.symm.trans hop
      exact hkeep

omit [DecidableEq ι] in
theorem takeSnapshotResult_tracks_iff (hn : n.log.Sound) (h : n.TracksPolicy) :
    n.takeSnapshotResult.TracksPolicy ↔
      ∀ r rest, n.snapshots.results = r :: rest → r.err = false →
        (lastQuorum (n.log.plain.entries.filter
          (RaftLog.keepFrom r.trigger.position.lastIncludedIndex n.trailingLogs ≤ ·.index))).isSome ∨
        r.trigger.membership.commitQuorum = n.policy := by
  rw [tracksPolicy_iff_latest]
  rcases takeSnapshotResult_plain hn with ⟨hlog, hmem, herr⟩ | ⟨r, rest, hres, herr, hlog, hmem⟩
  · rw [policy_of_refines hlog, hmem]
    refine ⟨fun _ r rest hres hok => ?_, fun _ => h.latest⟩
    cases hok.symm.trans (herr r rest hres)
  · have hsuffix : n.log.plain.entries.filter
        (RaftLog.keepFrom r.trigger.position.lastIncludedIndex n.trailingLogs ≤ ·.index) <:+
          n.log.plain.entries := by
      rw [show n.log.plain.entries = n.log.contents from rfl, hn.wf.contiguous.filter_ge]
      exact List.drop_suffix _ _
    rw [policy_of_refines hlog, hmem, PlainLog.policy, h.latest]
    constructor
    · intro hlatest r' rest' hres' _
      cases hres.symm.trans hres'
      generalize n.log.plain.entries.filter _ = es at hlatest ⊢
      cases hq : lastQuorum es with
      | some q => exact .inl rfl
      | none =>
        rw [hq] at hlatest
        exact .inr hlatest.symm
    · intro hkeep
      specialize hkeep r rest hres herr
      generalize hes : n.log.plain.entries.filter _ = es at hsuffix hkeep ⊢
      cases hq : lastQuorum es with
      | some q =>
        rw [policy, PlainLog.policy, PlainLog.lastQuorum_of_suffix hsuffix hq]
        rfl
      | none =>
        rw [hq] at hkeep
        exact (hkeep.resolve_left (by simp)).symm

theorem takeInstallResult_tracks_iff (hn : n.log.Sound) (hnum : n.Numbered []) (h : n.TracksPolicy)
    (k : Nat) : (n.takeInstallResult k).TracksPolicy ↔
      ∀ snap, n.Installs k snap → n.InstallKeepsPolicy snap := by
  rw [tracksPolicy_iff_latest]
  rcases takeInstallResult_plain hn hnum k with ⟨snap, hinst, hlog, hmem⟩ | ⟨hno, hlog, hmem⟩
  · have honly : (∀ snap, n.Installs k snap → n.InstallKeepsPolicy snap) ↔
        n.InstallKeepsPolicy snap := by
      refine ⟨fun hkeep => hkeep snap hinst, fun hkeep snap' hinst' => ?_⟩
      cases hinst.1.symm.trans hinst'.1
      exact hkeep
    obtain ⟨hbase, hlatest⟩ := takeFrame_frame n.membership snap
    rw [honly, policy_of_refines hlog, hmem, InstallKeepsPolicy]
    cases hms : snap.membership with
    | none =>
      rw [hms] at hbase
      simp only [Option.isSome_none, Bool.false_eq_true, if_false]
      rw [hlatest, hbase, h.latest, eq_comm]
      rfl
    | some ms =>
      rw [hms] at hbase
      simp only [Option.isSome_some, if_true]
      rw [Membership.rebuilt_latest, Membership.adoptAll_base, (Membership.rebase_frame _ _ _).1, hbase]
      exact forgets_iff
  · rw [policy_of_refines hlog, hmem]
    exact ⟨fun _ snap hinst => absurd hinst (hno snap), fun _ => h.latest⟩

theorem restart_tracks_iff (hn : n.log.Sound) (h : n.TracksPolicy) (k : Nat) :
    ((n.restart k).getD n).TracksPolicy ↔ (n.restart k ≠ none →
      ∀ s, n.log.survives k = some s → forgetsQuorum s.entries = true → s.policy = 0) := by
  cases hrestart : n.restart k with
  | none => exact ⟨fun _ hno => absurd rfl hno, fun _ => h⟩
  | some n' =>
    obtain ⟨s, hs, -, hlog, hmem⟩ := restart_plain hn hrestart
    have hbase : n'.membership.base = ((bareMembership n.cfg).fromStore s).base := by
      rw [hmem, Membership.adoptAll_base]
      exact (Membership.rebase_frame _ _ _).1
    have hlatest : n'.membership.commitQuorumLatest =
        if forgetsQuorum s.entries then 0 else s.policy := by
      rw [hmem, s.policy_eq n.cfg]
      exact Membership.rebuilt_latest _ _ _ _ ⟨RaftLog.snapPosition s, s.entries⟩
    rw [Option.getD_some, tracksPolicy_iff_latest, policy_of_refines hlog, hbase, ← s.policy_eq,
      hlatest, forgets_iff]
    refine ⟨fun hkeep _ s' hs' => ?_, fun hkeep => hkeep (by simp) s hs⟩
    cases hs.symm.trans hs'
    exact hkeep

end Node

namespace Sys

variable {σ : Sys ι}

theorem forall_step_iff {P : Node ι → Prop} {a : Action ι} {j : ι} {f : Node ι → Node ι}
    (heff : a.effect σ = some (j, f)) (h : ∀ i, P (σ i)) :
    (∀ i, P (σ.step a i)) ↔ P (f (σ j)) := by
  refine ⟨fun hall => ?_, fun hj => step_of_effect (P := fun _ => P) heff hj h⟩
  have hj := hall j
  rwa [step_at heff] at hj

/-- **A step** leaves every node with the policy of its log exactly if it keeps it. -/
theorem step_tracks_iff (hnum : ∀ i, (σ i).Numbered []) (hn : ∀ i, (σ i).log.Sound)
    (h : ∀ i, (σ i).TracksPolicy) {a : Action ι} (ha : a.KeepsLog σ) :
    (∀ i, (σ.step a i).TracksPolicy) ↔ a.KeepsPolicy σ := by
  have steady : a.Steady σ → a.KeepsPolicy σ →
      ((∀ i, (σ.step a i).TracksPolicy) ↔ a.KeepsPolicy σ) := fun hs hkeep =>
    ⟨fun _ => hkeep, fun _ i =>
      (h i).grows (step_steady hnum hn hs i).membership (step_steady hnum hn hs i).log⟩
  cases a with
  | deliver j k =>
    rcases deliver_cases σ j k with ⟨src, dst, req, hmsg⟩ | hs
    · refine (forall_step_iff (effect_deliver hmsg) h).trans ?_
      refine (Node.handleAppendEntries_tracks_iff (hn dst) (h dst) src req
        (ha src dst req hmsg)).trans ⟨fun hkeep src' dst' req' hmsg' => ?_,
          fun hkeep => hkeep src dst req hmsg⟩
      cases hmsg.symm.trans hmsg'
      exact hkeep
    · exact steady hs fun src dst req hmsg => absurd hmsg (hs src dst req)
  | propose j cmds =>
    refine (forall_step_iff rfl h).trans ⟨fun _ => trivial, fun _ => ?_⟩
    exact Node.handleProposals_tracks (hn j) (hnum j) (h j) ha
  | applyResult j =>
    exact (forall_step_iff rfl h).trans (Node.handleApplyResult_tracks_iff (hn j) (hnum j) (h j))
  | snapshotResult j =>
    exact (forall_step_iff rfl h).trans (Node.takeSnapshotResult_tracks_iff (hn j) (h j))
  | installResult j k =>
    exact (forall_step_iff rfl h).trans (Node.takeInstallResult_tracks_iff (hn j) (hnum j) (h j) k)
  | crash j k =>
    exact (forall_step_iff (f := fun n => (n.restart k).getD n) rfl h).trans
      (Node.restart_tracks_iff (hn j) (h j) k)
  | execute j fault => exact steady ha trivial
  | _ => exact steady trivial trivial

theorem start_tracksPolicy (cfg : Config ι) : (Node.start cfg .empty).TracksPolicy := by
  obtain ⟨hlog, -, hmem⟩ := Node.start_plain cfg
  rw [Node.tracksPolicy_iff_latest, Node.policy_of_refines hlog, hmem,
    (Membership.rebase_frame _ _ _).1]
  rfl

/-- **The latest policy tracks the log** of every node throughout a run exactly if every step
keeps the policy. -/
theorem tracksPolicy_iff (cfg : ι → Config ι) (as : List (Action ι))
    (hlog : Along (fun σ a => a.KeepsLog σ) (start cfg fun _ => .empty) as) :
    (∀ k i, ((start cfg fun _ => .empty).run (as.take k) i).TracksPolicy) ↔
      Along (fun σ a => a.KeepsPolicy σ) (start cfg fun _ => .empty) as := by
  refine forall_take_iff_along (P := fun σ => ∀ i, (σ i).TracksPolicy)
    (I := fun σ => (∀ i, (σ i).Numbered []) ∧ ∀ i, (σ i).log.Sound) ?_ ?_ ?_
    (fun i => start_tracksPolicy (cfg i)) hlog
  · rintro σ a ⟨hnum, hn⟩ ha
    exact ⟨step_numbered hnum a, step_sound hnum hn ha⟩
  · rintro σ a ⟨hnum, hn⟩ ha h
    exact step_tracks_iff hnum hn h ha
  · exact ⟨fun i => (Node.start_starts (cfg i) .empty).numbered,
      fun i => (Node.start_plain (cfg i)).1.sound⟩

def lone : Sys (Fin 1) := start (Config.ofSize 1) fun _ => .empty

def agreesOnOne : List (Action (Fin 1)) :=
  [.tick 0, .tick 0, .execute 0 none, .complete 0, .execute 0 none, .complete 0,
    .propose 0 [.config (.commitQuorum 1)], .execute 0 none, .complete 0,
    .applyCommitted 0 .healthy, .applyResult 0, .applyResult 0]

def goesJoint : List (Action (Fin 1)) :=
  agreesOnOne ++ [.propose 0 [.config (.joint [] [⟨0, true, false⟩])],
    .execute 0 none, .complete 0, .applyCommitted 0 .healthy, .applyResult 0]

theorem lone_keepsLog : Along (fun σ a => a.KeepsLog σ) lone agreesOnOne := by
  have hapart : (lone.run (agreesOnOne.take 6) 0).NumbersApart [.config (.commitQuorum 1)] := by
    decide +kernel
  exact ⟨trivial, trivial, rfl, trivial, rfl, trivial, hapart, rfl, trivial, trivial, trivial,
    trivial, trivial⟩

theorem lone_keepsPolicy :
    Along (fun σ a => a.KeepsPolicy σ) lone agreesOnOne := by
  -- the first entry is the leader's own, the second sets the policy that is the last
  have hfirst : ((lone.run (agreesOnOne.take 10)) 0).apply.results.head?.bind (·.configCmd) = none := by
    decide +kernel
  have hsecond : ((lone.run (agreesOnOne.take 11)) 0).apply.results.head?.bind (·.configCmd) =
      some (.commitQuorum 1) := by decide +kernel
  refine ⟨trivial, trivial, trivial, trivial, trivial, trivial, trivial, trivial, trivial, trivial,
    ?_, ?_, trivial⟩
  · intro r rest op hres hop
    change ((lone.run (agreesOnOne.take 10)) 0).apply.results = r :: rest at hres
    rw [hres] at hfirst
    cases hop.symm.trans hfirst
  · intro r rest op hres hop
    change (lone.run (agreesOnOne.take 11) 0).apply.results = r :: rest at hres
    rw [hres] at hsecond
    cases hop.symm.trans hsecond
    rintro q hq
    exact (Option.some.inj hq).symm

theorem tracksPolicy_iff_lone :
    Along (fun σ a => a.KeepsLog σ) lone agreesOnOne ∧
      Along (fun σ a => a.KeepsPolicy σ) lone agreesOnOne ∧
      ∀ k i, (lone.run (agreesOnOne.take k) i).TracksPolicy :=
  ⟨lone_keepsLog, lone_keepsPolicy,
    (tracksPolicy_iff (Config.ofSize 1) agreesOnOne lone_keepsLog).mpr
      lone_keepsPolicy⟩

/-- **The latest policy is forgotten** when the joint entry is adopted: the log still says one. -/
theorem joint_forgets_policy :
    ((lone.run goesJoint) 0).policy = 1 ∧ ¬ ((lone.run goesJoint) 0).TracksPolicy := by
  have hpolicy : ((lone.run goesJoint) 0).policy = 1 := by decide +kernel
  have hlatest : ((lone.run goesJoint) 0).membership.commitQuorumLatest = 0 := by decide +kernel
  refine ⟨hpolicy, fun h => ?_⟩
  have := h.latest
  omega

end Sys

end Raft
