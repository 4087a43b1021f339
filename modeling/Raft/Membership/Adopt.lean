import Raft.Turn.Frames

/-!
# What configuration entries make of a membership

Adopting an entry moves a leader's bookkeeping as well, but what it makes of the membership
depends on the membership, the node's own identity and its `Config.witness` alone.  The
event loop adopts entries in two places: one at a time as they are applied, and all those
of the log when the membership is rebuilt from the snapshot base.

## Main results

* `Node.adoptConfigEntry_membership`, `Node.applyConfigChange_membership`: what adopting and
  applying an entry make of a node's membership.
* `Node.rebuildMembership_membership`: a rebuild is the fold of the log over the base.
-/

namespace Raft

variable {ι : Type} [DecidableEq ι]

namespace Membership

def addMember (self : ι) (m : Membership ι) (peer : PeerConfig ι) : Membership ι :=
  if peer.id = self then { m with membershipWitness := peer.witness, voter := peer.voter }
  else
    match m.peers.find? (·.id = peer.id) with
    | some p =>
      if p.voter = peer.voter then m
      else { m with peers := setVoter peer.id peer.voter m.peers }
    | none => { m with peers := m.peers ++ [peer] }

def removeMember (self : ι) (m : Membership ι) (id : ι) : Membership ι :=
  if id = self then { m with voter := false }
  else { m with peers := m.peers.eraseP (·.id = id) }

/-- What adopting a configuration entry makes of the membership of the node `self`. -/
def adopt (self : ι) (witness : Bool) (m : Membership ι) (op : ConfigOp ι) (index : Nat) :
    Membership ι :=
  let m := { m with configIndex := index }
  match op with
  | .clientTableCap _ => { m with clientTableCapReplicated := true }
  | .commitQuorum q => { m with commitQuorumLatest := q }
  | .add peer => m.addMember self peer
  | .remove id => m.removeMember self id
  | .joint old new =>
    m.restore self
      { joint := true
        members := []
        old := withSelf old self true m.voter witness
        new := new
        commitQuorum := 0 }
  | .finalise members =>
    m.restore self { joint := false, members := members, old := [], new := [], commitQuorum := 0 }

def adoptAll (self : ι) (witness : Bool) (m : Membership ι) (es : List (LogEntry ι)) :
    Membership ι :=
  es.foldl (fun m e =>
    match e.command with
    | .config op => m.adopt self witness op e.index
    | .user _ => m) m

/-- Applying an entry also lets the agreed quorum and the agreed bound of the client table take
effect. -/
def agree (m : Membership ι) : ConfigOp ι → Membership ι
  | .clientTableCap capacity => m.adoptCap capacity
  | .commitQuorum q => m.adoptCommitQuorum q
  | _ => m

def rebase (self : ι) (m : Membership ι) (index : Nat) : Membership ι :=
  { m.restore self m.base with
    configIndex := index
    clientTableCapReplicated := m.baseClientTableCap.isSome
    commitQuorumLatest := m.base.commitQuorum }

section Fields

variable (self : ι) (witness : Bool) (m : Membership ι)

@[simp] theorem adoptAll_nil : m.adoptAll self witness [] = m := rfl

theorem adoptAll_append (es es' : List (LogEntry ι)) :
    m.adoptAll self witness (es ++ es') = (m.adoptAll self witness es).adoptAll self witness es' :=
  List.foldl_append

theorem adoptAll_user {e : LogEntry ι} {payload : List UInt8} (h : e.command = .user payload)
    (es : List (LogEntry ι)) :
    m.adoptAll self witness (e :: es) = m.adoptAll self witness es := by
  simp only [adoptAll, List.foldl_cons, h]

theorem adoptAll_config {e : LogEntry ι} {op : ConfigOp ι} (h : e.command = .config op)
    (es : List (LogEntry ι)) :
    m.adoptAll self witness (e :: es) =
      (m.adopt self witness op e.index).adoptAll self witness es := by
  simp only [adoptAll, List.foldl_cons, h]

end Fields

section Frames

variable (m : Membership ι) (id : ι) (witness : Bool)

def agreedPart (m : Membership ι) : Nat × Nat × Bool :=
  (m.commitQuorumApplied, m.clientTableCap, m.clientTableCapAgreed)

def kept (m : Membership ι) : MembershipState ι × Nat × Nat × Bool := (m.base, m.agreedPart)

variable (ms : MembershipState ι)

theorem restore_kept : (m.restore id ms).kept = m.kept := by
  unfold restore
  split_ifs <;> rfl

@[simp] theorem restore_base : (m.restore id ms).base = m.base :=
  congrArg Prod.fst (m.restore_kept id ms)

@[simp] theorem restore_latest : (m.restore id ms).commitQuorumLatest = ms.commitQuorum := by
  unfold restore
  split_ifs <;> rfl

theorem addMember_frame (peer : PeerConfig ι) :
    (m.addMember id peer).kept = m.kept ∧
      (m.addMember id peer).commitQuorumLatest = m.commitQuorumLatest := by
  unfold addMember
  split_ifs
  · exact ⟨rfl, rfl⟩
  · split
    · split_ifs <;> exact ⟨rfl, rfl⟩
    · exact ⟨rfl, rfl⟩

theorem removeMember_frame (peer : ι) :
    (m.removeMember id peer).kept = m.kept ∧
      (m.removeMember id peer).commitQuorumLatest = m.commitQuorumLatest := by
  unfold removeMember
  split_ifs <;> exact ⟨rfl, rfl⟩

theorem adopt_kept (op : ConfigOp ι) (i : Nat) : (m.adopt id witness op i).kept = m.kept := by
  cases op with
  | add peer => exact (addMember_frame _ id peer).1
  | remove peer => exact (removeMember_frame _ id peer).1
  | joint old new | finalise members => exact restore_kept _ id _
  | _ => rfl

theorem adopt_base (op : ConfigOp ι) (i : Nat) : (m.adopt id witness op i).base = m.base :=
  congrArg Prod.fst (m.adopt_kept id witness op i)

omit [DecidableEq ι] in
theorem agree_frame (op : ConfigOp ι) :
    (m.agree op).base = m.base ∧ (m.agree op).commitQuorumLatest = m.commitQuorumLatest := by
  cases op <;> exact ⟨rfl, rfl⟩

theorem adoptAll_kept (es : List (LogEntry ι)) : (m.adoptAll id witness es).kept = m.kept := by
  induction es generalizing m with
  | nil => rfl
  | cons e es ih =>
    cases hcmd : e.command with
    | user payload => rw [adoptAll_user id witness m hcmd, ih]
    | config op => rw [adoptAll_config id witness m hcmd, ih, adopt_kept]

theorem adoptAll_base (es : List (LogEntry ι)) : (m.adoptAll id witness es).base = m.base :=
  congrArg Prod.fst (m.adoptAll_kept id witness es)

theorem rebase_frame (i : Nat) :
    (m.rebase id i).base = m.base ∧ (m.rebase id i).commitQuorumLatest = m.base.commitQuorum :=
  ⟨m.restore_base id m.base, rfl⟩

theorem rebuilt_agreedPart (i : Nat) (es : List (LogEntry ι)) :
    ((m.rebase id i).adoptAll id witness es).agreedPart = m.agreedPart :=
  congrArg Prod.snd ((adoptAll_kept (m.rebase id i) id witness es).trans (m.restore_kept id m.base))

end Frames

end Membership

/-- Reading the whole log finds the entries `es`. -/
def RaftLog.Reads (rl : RaftLog ι) (es : List (LogEntry ι)) : Prop :=
  if rl.first = 0 ∨ rl.last < rl.first then es = []
  else rl.entries rl.first (rl.last + 1) = some es

instance (rl : RaftLog ι) (es : List (LogEntry ι)) : Decidable (rl.Reads es) :=
  inferInstanceAs (Decidable (if rl.first = 0 ∨ rl.last < rl.first then es = []
    else rl.entries rl.first (rl.last + 1) = some es))

/-- The entries of the log, as far as they can be read. -/
def RaftLog.readAll (rl : RaftLog ι) : List (LogEntry ι) :=
  if rl.first = 0 ∨ rl.last < rl.first then [] else (rl.entries rl.first (rl.last + 1)).getD []

omit [DecidableEq ι] in
theorem RaftLog.Reads.readAll_eq {rl : RaftLog ι} {es : List (LogEntry ι)} (h : rl.Reads es) :
    rl.readAll = es := by
  unfold RaftLog.readAll
  rw [RaftLog.Reads] at h
  split_ifs at h ⊢
  · exact h.symm
  · rw [h]
    rfl

/-- The membership that its base and a log give. -/
def Membership.rebuilt (self : ι) (witness : Bool) (m : Membership ι) (rl : RaftLog ι) : Membership ι :=
  (m.rebase self rl.snapMeta.lastIncludedIndex).adoptAll self witness rl.readAll

namespace Node

/-! ## What leaves the membership alone -/

omit [DecidableEq ι] in
theorem checkWitness_membership (n : Node ι) : n.checkWitness.membership = n.membership := by
  unfold checkWitness
  split_ifs <;> rfl

theorem becomeFollower_membership (n : Node ι) (term : Nat) (leaderID : Option ι) :
    (n.becomeFollower term leaderID).membership = n.membership := by
  unfold becomeFollower
  split_ifs <;> rfl

variable [Sized ι]

section

variable (n : Node ι)

theorem recount_membership : n.recount.membership = n.membership := by
  have h : Stays .snapshot n n.recount := recount_stays n
  exact h.membership

theorem beginDepartures_membership (leaving : List (PeerConfig ι)) (index : Nat) :
    (leaving.foldl (fun n p => n.beginDeparture p.id index) n).maybeAdvanceCommit.membership =
      n.membership := by
  have hdepart : Stays .snapshot n (leaving.foldl (fun n p => n.beginDeparture p.id index) n) :=
    .of_foldl (fun _ => True) (fun _ _ => trivial)
      (fun m p _ => beginDeparture_stays snapshot_reconfigures m p.id index) leaving trivial
  exact (hdepart.trans (maybeAdvanceCommit_stays _)).membership

/-! ## One entry -/

theorem adoptAdd_membership (peer : PeerConfig ι) :
    (n.adoptAdd peer).membership = n.membership.addMember n.cfg.id peer := by
  unfold adoptAdd Membership.addMember
  by_cases hself : peer.id = n.cfg.id
  · simp only [if_pos hself]
  · simp only [if_neg hself]
    cases n.membership.peers.find? (·.id = peer.id) with
    | some p =>
      dsimp only
      split_ifs
      · rfl
      · exact recount_membership _
    | none =>
      -- a leader starts to track the newcomer, which is no part of the membership
      split_ifs <;> rfl

theorem adoptRemove_membership (id : ι) (index : Nat) :
    (n.adoptRemove id index).membership = n.membership.removeMember n.cfg.id id := by
  unfold adoptRemove Membership.removeMember
  by_cases hself : id = n.cfg.id
  · simp only [if_pos hself]
  · simp only [if_neg hself]
    split_ifs
    · have hstays : Stays .snapshot { n with membership :=
          { n.membership with peers := n.membership.peers.eraseP (·.id = id) } } _ :=
        (beginDeparture_stays snapshot_reconfigures _ id index).trans (maybeAdvanceCommit_stays _)
      exact hstays.membership
    · rfl

theorem adoptFinalise_membership (members : List (PeerConfig ι)) (index : Nat) :
    (n.adoptFinalise members index).membership =
      n.membership.restore n.cfg.id
        { joint := false, members := members, old := [], new := [], commitQuorum := 0 } := by
  unfold adoptFinalise
  dsimp only
  split_ifs
  · rfl
  · exact beginDepartures_membership _ _ index

variable (op : ConfigOp ι)

theorem adoptConfigEntry_membership (index : Nat) :
    (n.adoptConfigEntry op index).membership =
      n.membership.adopt n.cfg.id n.cfg.witness op index := by
  cases op with
  | clientTableCap capacity => rfl
  | commitQuorum q => exact recount_membership _
  | add peer =>
    exact adoptAdd_membership { n with membership := { n.membership with configIndex := index } } peer
  | remove id =>
    exact adoptRemove_membership
      { n with membership := { n.membership with configIndex := index } } id index
  | joint old new =>
    simp only [adoptConfigEntry, adoptJoint]
    split_ifs <;> rfl
  | finalise members =>
    exact adoptFinalise_membership
      { n with membership := { n.membership with configIndex := index } } members index

theorem applyConfigChange_membership (index : Nat) :
    (n.applyConfigChange op index).membership =
      (n.membership.adopt n.cfg.id n.cfg.witness op index).agree op := by
  have hm : (n.adoptConfigEntry op index).checkWitness.membership =
      n.membership.adopt n.cfg.id n.cfg.witness op index := by
    rw [checkWitness_membership, adoptConfigEntry_membership]
  unfold applyConfigChange
  generalize (n.adoptConfigEntry op index).checkWitness = m at hm ⊢
  cases op with
  | clientTableCap capacity => exact congrArg (Membership.adoptCap · capacity) hm
  | commitQuorum q =>
    rw [recount_membership]
    exact congrArg (Membership.adoptCommitQuorum · q) hm
  | add peer => exact hm
  | remove id =>
    dsimp only
    split_ifs
    · exact (becomeFollower_membership m _ _).trans hm
    · exact hm
  | joint old new =>
    dsimp only
    split_ifs with hlead
    · -- the entry that leaves the joint stage is only appended here
      have hstays : Stays .snapshot _ _ := appendFinaliseEntry_stays hlead.1 m.membership.jointNew
        m.membership.jointIncludeSelf m.membership.jointSelfVoter
      exact hstays.membership.trans hm
    · exact hm
  | finalise members =>
    dsimp only
    split_ifs
    · exact hm
    · exact (becomeFollower_membership m _ _).trans hm

/-! ## The entries of a log -/

theorem adoptConfigEntry_cfg (index : Nat) : (n.adoptConfigEntry op index).cfg = n.cfg := by
  have hremains : Remains .snapshot n (n.adoptConfigEntry op index) :=
    adoptConfigEntry_remains n (.inl snapshot_reconfigures) index
  exact hremains.cfg

theorem adoptEntries_membership (es : List (LogEntry ι)) :
    (n.adoptEntries es).membership = n.membership.adoptAll n.cfg.id n.cfg.witness es := by
  unfold adoptEntries Membership.adoptAll
  induction es generalizing n with
  | nil => rfl
  | cons e es ih =>
    simp only [List.foldl_cons]
    cases e.command with
    | user payload => exact ih n
    | config op =>
      rw [ih, adoptConfigEntry_cfg, adoptConfigEntry_membership]

/-- **A rebuild is a fold** of the configuration entries of the log over the snapshot base. -/
theorem rebuildMembership_rebuilt :
    n.rebuildMembership.1.membership = n.membership.rebuilt n.cfg.id n.cfg.witness n.log := by
  have hlog : n.restoreBase.log = n.log := rfl
  simp only [rebuildMembership, hlog, Membership.rebuilt, RaftLog.readAll]
  split_ifs
  · rfl
  · cases n.log.entries n.log.first (n.log.last + 1) with
    | none => rfl
    | some es => exact adoptEntries_membership n.restoreBase es

theorem rebuildMembership_membership {es : List (LogEntry ι)} (h : n.log.Reads es) :
    n.rebuildMembership.1.membership =
      (n.membership.rebase n.cfg.id n.log.snapMeta.lastIncludedIndex).adoptAll
        n.cfg.id n.cfg.witness es := by
  rw [rebuildMembership_rebuilt, Membership.rebuilt, h.readAll_eq]

end

theorem rebuildMembership_eq {n : Node ι} (hfol : n.state ≠ .leader) {es : List (LogEntry ι)}
    (h : n.log.Reads es) :
    n.rebuildMembership = ({ n with
      membership := Membership.adoptAll n.cfg.id n.cfg.witness
        (n.membership.rebase n.cfg.id n.log.snapMeta.lastIncludedIndex) es }, true) := by
  obtain ⟨m, ok, hm⟩ := rebuildMembership_of_follower hfol
  have hread := rebuildMembership_membership n h
  have hok : n.rebuildMembership.2 = true := by
    have hlog : n.restoreBase.log = n.log := rfl
    simp only [rebuildMembership, hlog]
    rw [RaftLog.Reads] at h
    split_ifs at h ⊢
    · rfl
    · rw [h]
  rw [hm] at hread hok ⊢
  rw [← hread, show ok = true from hok]

end Node

end Raft
