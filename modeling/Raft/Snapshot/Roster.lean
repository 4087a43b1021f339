import Raft.Membership.Turns

/-!
# What a snapshot records of the membership

A snapshot carries the members, the stage of a joint change, the commit quorum and the
bound of the client table.  This part of a node's membership changes with the
configuration entries that are applied, and how it changes depends on nothing else.  The other
turns leave it alone, unless a request cuts the log where a configuration entry was.
-/

namespace Raft

variable {ι : Type}

/-- The part of a membership that a snapshot records. -/
structure Roster (ι : Type) where
  peers : List (PeerConfig ι)
  voter : Bool
  jointOld : Option (List (PeerConfig ι))
  jointNew : List (PeerConfig ι)
  jointIncludeSelf : Bool
  jointSelfVoter : Bool
  jointSelfVoterOld : Bool
  commitQuorum : Nat
  clientTableCap : Nat
  clientTableCapAgreed : Bool
  deriving DecidableEq, Repr

def Membership.roster (m : Membership ι) : Roster ι :=
  { peers := m.peers
    voter := m.voter
    jointOld := m.jointOld
    jointNew := m.jointNew
    jointIncludeSelf := m.jointIncludeSelf
    jointSelfVoter := m.jointSelfVoter
    jointSelfVoterOld := m.jointSelfVoterOld
    commitQuorum := m.commitQuorumApplied
    clientTableCap := m.clientTableCap
    clientTableCapAgreed := m.clientTableCapAgreed }

namespace Roster

def initial (cfg : Config ι) : Roster ι :=
  { peers := cfg.peers
    voter := cfg.voter
    jointOld := none
    jointNew := []
    jointIncludeSelf := false
    jointSelfVoter := false
    jointSelfVoterOld := false
    commitQuorum := 0
    clientTableCap := cfg.maxClientTableSize
    clientTableCapAgreed := false }

variable (r : Roster ι)

def agreedCap : Option Nat :=
  if r.clientTableCapAgreed then some r.clientTableCap else none

variable [DecidableEq ι]

variable (self : ι)

def recorded (witness : Bool) : MembershipState ι :=
  match r.jointOld with
  | some old =>
    { joint := true
      members := []
      old := withSelf old self true r.jointSelfVoterOld witness
      new := withSelf r.jointNew self r.jointIncludeSelf r.jointSelfVoter witness
      commitQuorum := r.commitQuorum }
  | none =>
    { joint := false
      members := withSelf r.peers self true r.voter witness
      old := []
      new := []
      commitQuorum := r.commitQuorum }

def enterJoint (old new : List (PeerConfig ι)) : Roster ι :=
  { r with
    jointOld := some (withoutSelf old self)
    jointNew := withoutSelf new self
    jointSelfVoterOld := Membership.selfVoterIn old self
    jointIncludeSelf := !(selfIn new self).isEmpty
    jointSelfVoter := Membership.selfVoterIn new self
    voter := Membership.selfVoterIn old self
    peers := peerUnion (withoutSelf old self) (withoutSelf new self) self }

def settleOn (members : List (PeerConfig ι)) : Roster ι :=
  { r with
    peers := withoutSelf members self
    voter := Membership.selfVoterIn members self
    jointOld := none
    jointNew := []
    jointIncludeSelf := false
    jointSelfVoter := false
    jointSelfVoterOld := false }

/-- What a configuration entry does to the roster of the node `self`. -/
def change (witness : Bool) (r : Roster ι) : ConfigOp ι → Roster ι
  | .clientTableCap capacity => { r with clientTableCap := capacity, clientTableCapAgreed := true }
  | .commitQuorum q => { r with commitQuorum := q }
  | .add peer =>
    if peer.id = self then { r with voter := peer.voter }
    else
      match r.peers.find? (·.id = peer.id) with
      | some p =>
        if p.voter = peer.voter then r
        else { r with peers := setVoter peer.id peer.voter r.peers }
      | none => { r with peers := r.peers ++ [peer] }
  | .remove id =>
    if id = self then { r with voter := false }
    else { r with peers := r.peers.eraseP (·.id = id) }
  | .joint old new => r.enterJoint self (withSelf old self true r.voter witness) new
  | .finalise members => r.settleOn self members

end Roster

variable [DecidableEq ι]

theorem Membership.adopt_agree_roster (self : ι) (witness : Bool) (m : Membership ι)
    (op : ConfigOp ι) (index : Nat) :
    ((m.adopt self witness op index).agree op).roster = m.roster.change self witness op := by
  cases op with
  | add peer =>
    simp only [adopt, agree, addMember, Roster.change]
    split_ifs
    · rfl
    · change _ = (match m.peers.find? (·.id = peer.id) with | some p => _ | none => _)
      cases m.peers.find? (·.id = peer.id) with
      | some p =>
        dsimp only
        split_ifs <;> rfl
      | none => rfl
  | remove id =>
    simp only [adopt, agree, removeMember, Roster.change]
    split_ifs <;> rfl
  | joint old new | finalise members | clientTableCap capacity | commitQuorum q => rfl

theorem Node.applyConfigChange_roster [Sized ι] (n : Node ι) (op : ConfigOp ι) (index : Nat) :
    (n.applyConfigChange op index).membership.roster =
      n.membership.roster.change n.cfg.id n.cfg.witness op := by
  rw [applyConfigChange_membership, Membership.adopt_agree_roster]

/-! ## Turns in which nothing is applied -/

omit [DecidableEq ι] in
theorem Membership.noteAppendedConfig_roster (m : Membership ι) (es : List (LogEntry ι)) :
    (m.noteAppendedConfig es).roster = m.roster := by
  rw [noteAppendedConfig_eq]
  rfl

namespace RaftLog

/-- The first of the entries that the log lacks, if it has another in its place. -/
def disagrees (rl : RaftLog ι) (es : List (LogEntry ι)) : Option (LogEntry ι) :=
  (es.find? fun e => rl.termAt e.index ≠ some e.term).filter fun e => (rl.termAt e.index).isSome

omit [DecidableEq ι] in
theorem readAll_congr {rl rl' : RaftLog ι} (hfirst : rl'.first = rl.first) (hlast : rl'.last = rl.last)
    (hsegs : rl'.segs = rl.segs) (hstorage : rl'.w.storage = rl.w.storage) : rl'.readAll = rl.readAll := by
  obtain ⟨⟨⟩⟩ := rl
  obtain ⟨⟨⟩⟩ := rl'
  dsimp only at hfirst hlast hsegs hstorage
  subst hfirst hlast hsegs hstorage
  rfl

omit [DecidableEq ι] in
theorem truncateSuffix_enqueue [Sized ι] {rl log : RaftLog ι} {kind : WriteKind ι} {i : Nat}
    (h : (rl.enqueue kind).truncateSuffix i = some log) :
    ∃ log', rl.truncateSuffix i = some log' ∧ log'.readAll = log.readAll ∧ log'.snapMeta = log.snapMeta := by
  have hstorage : ∀ (w : StorageWriter ι) op, (w.enqueue op).storage = w.storage := fun w op => by
    unfold StorageWriter.enqueue
    split_ifs <;> rfl
  obtain ⟨t, ht, rfl⟩ := Option.map_eq_some_iff.mp h
  refine ⟨_, Option.map_eq_some_iff.mpr ⟨t, ht, rfl⟩, ?_⟩
  dsimp only
  by_cases hle : i ≤ rl.first
  · rw [if_pos hle, if_pos (show i ≤ (rl.enqueue kind).first from hle)]
    exact ⟨readAll_congr rfl rfl rfl (by simp [enqueue, dropUnstableFrom, shrinkSegs, hstorage]), rfl⟩
  · rw [if_neg hle, if_neg (show ¬ i ≤ (rl.enqueue kind).first from hle)]
    exact ⟨readAll_congr rfl rfl rfl (by simp [enqueue, dropUnstableFrom, shrinkSegs, hstorage]), rfl⟩

end RaftLog

namespace Node

variable [Sized ι] {n : Node ι}

theorem truncateConflict_membership (n : Node ι) (i : Nat) :
    (n.truncateConflict i).1.membership = n.membership ∨
      ∃ log, n.log.truncateSuffix i = some log ∧ i ≤ n.membership.configIndex ∧
        (n.truncateConflict i).1.membership = n.membership.rebuilt n.cfg.id n.cfg.witness log := by
  unfold truncateConflict
  cases n.log.truncateSuffix i with
  | none => exact .inl rfl
  | some log =>
    dsimp only
    split_ifs with hle
    · exact .inr ⟨log, rfl, hle, rebuildMembership_rebuilt { n with log := log }⟩
    · exact .inl rfl

theorem mergeEntries_membership (es : List (LogEntry ι)) {m : Node ι}
    (hm : n.mergeEntries es = .error m ∨ ∃ seq, n.mergeEntries es = .ok (seq, m)) :
    m.membership = n.membership ∨
      ∃ e log, n.log.disagrees es = some e ∧ e.index ≤ n.membership.configIndex ∧
        n.log.truncateSuffix e.index = some log ∧
        m.membership = n.membership.rebuilt n.cfg.id n.cfg.witness log := by
  rcases mergeEntries_cases n es with ⟨-, hok⟩ | ⟨pre, e, rest, rfl, hpre, hcase⟩
  · rcases hm with hm | ⟨seq, hm⟩ <;> rw [hok] at hm <;> cases hm
    exact .inl rfl
  · rcases hcase with ⟨-, hok⟩ | ⟨⟨t, ht, hne⟩, hcut⟩
    · rcases hm with hm | ⟨seq, hm⟩ <;> rw [hok] at hm <;> cases hm
      exact .inl rfl
    · have hfirst : n.log.disagrees (pre ++ e :: rest) = some e := by
        have hnone : pre.find? (fun e => n.log.termAt e.index ≠ some e.term) = none :=
          List.find?_eq_none.mpr fun e' he' => by simpa using hpre e' he'
        rw [RaftLog.disagrees, List.find?_append, hnone]
        simp [ht, hne]
      have hsame : m.membership = (n.truncateConflict e.index).1.membership := by
        rcases hcut with ⟨m', htr, herr⟩ | ⟨m', htr, hok⟩ <;> rw [htr]
        · rcases hm with hm | ⟨seq, hm⟩ <;> rw [herr] at hm <;> cases hm
          rfl
        · rcases hm with hm | ⟨seq, hm⟩ <;> rw [hok] at hm <;> cases hm
          rfl
      rw [hsame]
      exact (n.truncateConflict_membership e.index).imp_right
        fun ⟨log, hlog, hle, heq⟩ => ⟨e, log, hfirst, hle, hlog, heq⟩

omit [DecidableEq ι] [Sized ι] in
theorem replyAppendWhenDurable_membership (n : Node ι) (src : Asker ι) (req : AppendEntriesRequest ι)
    (resp : AppendEntriesResponse) (seq : Nat) :
    (n.replyAppendWhenDurable src req resp seq).membership = n.membership :=
  (congrArg Core.membership (replyAppendWhenDurable_answers n src req resp seq).core :)

theorem acceptEntries_roster (src : Asker ι) (req : AppendEntriesRequest ι) (es : List (LogEntry ι)) :
    ∃ m, (n.mergeEntries es = .error m ∨ ∃ seq, n.mergeEntries es = .ok (seq, m)) ∧
      (n.acceptEntries src req es).membership.roster = m.membership.roster := by
  unfold acceptEntries
  cases n.mergeEntries es with
  | error m => exact ⟨m, .inl rfl, rfl⟩
  | ok p =>
    obtain ⟨seq, m⟩ := p
    refine ⟨m, .inr ⟨seq, rfl⟩, ?_⟩
    dsimp only
    rw [replyAppendWhenDurable_membership]
    refine Eq.trans ?_ (m.membership.noteAppendedConfig_roster es)
    split_ifs with hlt
    · obtain ⟨log, rec, notify, heq, -⟩ := setCommitIndex_notifyApply_cases
        { m with membership := m.membership.noteAppendedConfig es } hlt
      rw [heq]
    · rfl

/-- If the request makes the node cut its log where a configuration entry was, the rest of the log
says the same of the members. -/
def KeepsRoster (n : Node ι) (req : AppendEntriesRequest ι) : Prop :=
  n.Accepts req → ∀ e log, n.log.disagrees (n.received req) = some e →
    e.index ≤ n.membership.configIndex → n.log.truncateSuffix e.index = some log →
      (n.membership.rebuilt n.cfg.id n.cfg.witness log).roster = n.membership.roster

/-- **A request** leaves the roster alone, unless the log it cuts says otherwise. -/
theorem handleAppendEntries_roster (src : Asker ι) {req : AppendEntriesRequest ι} (h : n.KeepsRoster req) :
    (n.handleAppendEntries src req).membership.roster = n.membership.roster := by
  obtain ⟨hlog, -, hcfg, -⟩ := becomeFollower_frame n req.term (some req.leaderID)
  have hmem := becomeFollower_membership n req.term (some req.leaderID)
  unfold handleAppendEntries
  by_cases hstale : req.term < n.currentTerm
  · rw [if_pos hstale, replyAppendWhenDurable_membership]
  rw [if_neg hstale]
  dsimp only
  have hadmits : (n.becomeFollower req.term (some req.leaderID)).Admits req → n.Accepts req :=
    fun hadm => ⟨not_lt.mp hstale, hadm⟩
  generalize n.becomeFollower req.term (some req.leaderID) = m at hlog hcfg hmem hadmits ⊢
  cases hprev : m.prevConflict req with
  | some c =>
    dsimp only
    rw [replyAppendWhenDurable_membership, hmem]
  | none =>
    cases hfull : m.backlogFull req.entries with
    | true => exact congrArg Membership.roster hmem
    | false =>
      obtain ⟨m', hm', hroster⟩ := acceptEntries_roster (n := m) src req (m.received req)
      refine hroster.trans ?_
      rcases mergeEntries_membership _ hm' with hsame | ⟨e, log, hfirst, hle, hcut, hrebuilt⟩
      · rw [hsame, hmem]
      · rw [hmem] at hle hrebuilt
        rw [hcfg] at hrebuilt
        -- a new term has been queued before the log is cut
        obtain ⟨log', hcut', hread, hsnap⟩ : ∃ log', n.log.truncateSuffix e.index = some log' ∧
            log'.readAll = log.readAll ∧ log'.snapMeta = log.snapMeta := by
          split_ifs at hlog
          · rw [hlog] at hcut
            exact RaftLog.truncateSuffix_enqueue hcut
          · rw [hlog] at hcut
            exact ⟨log, hcut, rfl, rfl⟩
        have hfirst' : n.log.disagrees (n.received req) = some e := by
          have hterms : m.log.termAt = n.log.termAt := by
            split_ifs at hlog <;> rw [hlog]
            rfl
          simp only [RaftLog.disagrees, hterms, received, hcfg] at hfirst ⊢
          exact hfirst
        rw [hrebuilt, Membership.rebuilt, ← hread, ← hsnap]
        exact h (hadmits ⟨hprev, hfull⟩) e log' hfirst' hle hcut'

theorem handleProposals_roster (n : Node ι) (cmds : List (Command ι)) :
    (n.handleProposals cmds).membership.roster = n.membership.roster := by
  rcases n.handleProposals_cases cmds with ⟨heq, -⟩ | ⟨-, -, -, hstays⟩
  · rw [heq]
  · obtain ⟨c, q, happend⟩ := n.appendBatch_eq cmds
    rw [(hstays .timer).membership, happend]
    exact Membership.noteAppendedConfig_roster _ _

end Node

end Raft
