import Raft.Turn.Elections

/-!
# The moves of a membership change

Putting a configuration entry into effect, recomputing the membership and seeing
peers off, taken apart into moves.  Members come and go only in a turn whose input
says so; the other configuration entries change how the group counts.
-/

namespace Raft

variable {ι : Type} {op : ConfigOp ι}

/-- The input is about this configuration entry, or about the membership as a whole. -/
def Input.Brings (inp : Input ι) (op : ConfigOp ι) : Prop :=
  inp.Reconfigures ∨ ∃ r, inp = .applied r ∧ r.configCmd = some op

theorem Input.Brings.reconfigures {inp : Input ι} (h : inp.Brings op)
    (hop : op.changesMembers = true) : inp.Reconfigures := by
  rcases h with h | ⟨r, rfl, hr⟩
  · exact h
  · exact ⟨op, hr, hop⟩

theorem Input.Brings.adopts {inp : Input ι} (h : inp.Brings op) : inp.Adopts := by
  rcases h with h | ⟨r, rfl, -⟩
  · exact h.adopts
  · exact trivial

namespace Node

variable {inp : Input ι} {n : Node ι}

theorem MembershipFollows.of_same {m : Membership ι} (hinp : inp.Adopts)
    (h : n.membership.SameVoters m)
    (hagreed : m.commitQuorumAgreed = n.membership.commitQuorumAgreed)
    (hlatest : m.commitQuorumLatest = n.membership.commitQuorumLatest)
    (happlied : m.commitQuorumApplied = n.membership.commitQuorumApplied) :
    n.MembershipFollows inp m :=
  .inr ⟨hinp, h, fun hm => hagreed ▸ hm, .inl hlatest, .inl happlied⟩

theorem MembershipFollows.of_quorum {m : Membership ι} {q : Nat}
    (hinp : inp.Brings (.commitQuorum q)) (h : n.membership.SameVoters m)
    (hagreed : m.commitQuorumAgreed = false → n.membership.commitQuorumAgreed = false)
    (hlatest : m.commitQuorumLatest = n.membership.commitQuorumLatest ∨ m.commitQuorumLatest = q)
    (happlied : m.commitQuorumApplied = n.membership.commitQuorumApplied ∨
      m.commitQuorumApplied = q) : n.MembershipFollows inp m := by
  rcases hinp with hinp | ⟨r, rfl, hr⟩
  · exact .inl hinp
  · refine .inr ⟨trivial, h, hagreed, hlatest.imp_right ?_, happlied.imp_right ?_⟩
    · rintro rfl
      exact hr
    · rintro rfl
      exact hr

variable [DecidableEq ι] [Sized ι]

theorem tickDepartures_stays (h : n.departing ≠ []) : Stays inp n n.tickDepartures := by
  simp only [tickDepartures]
  generalize haged : (n.departing.map fun d => { d with elapsed := d.elapsed + 1 }) = aged
  have hne : aged ≠ [] := by
    rw [← haged]
    simpa using h
  have hage : Stays inp n { n with departing := aged } :=
    .of_move (.depart n aged (.inr fun hnil => absurd hnil h)) rfl rfl rfl rfl
  exact hage.trans (foldl_endDeparture_stays hne _)

theorem beginDeparture_stays (hinp : inp.Reconfigures) (n : Node ι) (peer : ι) (index : Nat) :
    Stays inp n (n.beginDeparture peer index) := by
  simp only [beginDeparture]
  split_ifs with hstate
  · exact .refl n
  · generalize (⟨peer, index, 0⟩ :: n.departing.filter (·.peer ≠ peer) : List (Departure ι)) = departing
    have hdep : Stays inp n { n with departing := departing } :=
      .of_move (.depart n departing (.inl hinp)) rfl rfl rfl rfl
    exact hdep.trans (replicateToPeer_stays (.inl (by simpa using hstate)) peer)

theorem recount_stays (n : Node ι) : Stays inp n n.recount := by
  unfold recount
  split_ifs
  · exact maybeAdvanceCommit_stays n
  · exact .refl n

omit [Sized ι] in
theorem assign_eq_fresh (m : ι → Option Nat) (peer : ι) (i : Nat) :
    assign m peer (some i) = fun p => if (fun p => decide (p = peer)) p then some i else m p := by
  funext p
  by_cases hp : p = peer <;> simp [assign, hp]

section

variable (hinp : inp.Reconfigures)

include hinp

theorem trackNew_remains (peer : ι) {m : Node ι} (h : Remains inp n m) :
    Remains inp n (if m.state ≠ .leader then m
      else if m.departing.any (·.peer = peer) then
        { m with departing := m.departing.filter (·.peer ≠ peer) }
      else { m with
        nextIndex := assign m.nextIndex peer (some (m.log.lastLogIndex + 1))
        matchIndex := assign m.matchIndex peer (some 0) }) := by
  split_ifs with hstate hdep
  · exact h
  · exact h.trans (.of_move (.depart m _ (.inl hinp)) rfl)
  · simp only [assign_eq_fresh]
    exact h.trans (.of_move (.track m _ (by simpa using hstate) hinp) rfl)

section

variable (n : Node ι)

theorem member_remains (m : Membership ι) : Remains inp n { n with membership := m } :=
  .of_move (.member n m (.inl hinp)) rfl

theorem adoptAdd_remains (peer : PeerConfig ι) : Remains inp n (n.adoptAdd peer) := by
  unfold adoptAdd
  by_cases hself : peer.id = n.cfg.id
  · rw [if_pos hself]
    exact member_remains hinp n _
  · rw [if_neg hself]
    cases n.membership.peers.find? (·.id = peer.id) with
    | some p =>
      dsimp only
      split_ifs
      · exact .refl n
      · exact (member_remains hinp n _).trans (recount_stays _).toRemains
    | none => exact trackNew_remains hinp peer.id (member_remains hinp n _)

theorem adoptRemove_remains (id : ι) (index : Nat) : Remains inp n (n.adoptRemove id index) := by
  simp only [adoptRemove]
  split_ifs
  · exact member_remains hinp n _
  · exact (member_remains hinp n _).trans ((beginDeparture_stays hinp _ id index).trans
      (maybeAdvanceCommit_stays _)).toRemains
  · exact member_remains hinp n _

theorem adoptJoint_remains (old new : List (PeerConfig ι)) :
    Remains inp n (n.adoptJoint old new) := by
  simp only [adoptJoint]
  generalize hm : n.restoreMembership _ = m
  have hmoves : Remains inp n m := hm ▸ member_remains hinp n _
  split_ifs with hstate
  · exact hmoves
  · exact hmoves.trans (.of_move (.track m (fun p => containsPeer m.membership.peers p &&
      (m.nextIndex p).isNone) (by simpa using hstate) hinp) rfl)

theorem adoptFinalise_remains (members : List (PeerConfig ι)) (index : Nat) :
    Remains inp n (n.adoptFinalise members index) := by
  simp only [adoptFinalise]
  generalize hm : n.restoreMembership _ = m
  have hmoves : Remains inp n m := hm ▸ member_remains hinp n _
  split_ifs with hstate
  · exact hmoves
  · have hfold : ∀ peers : List (PeerConfig ι),
        Stays inp m (peers.foldl (fun n p => n.beginDeparture p.id index) m) := fun peers =>
      .of_foldl (fun _ => True) (fun _ h => h) (fun n p _ => beginDeparture_stays hinp n p.id index)
        peers trivial
    exact hmoves.trans ((hfold _).trans (maybeAdvanceCommit_stays _)).toRemains

end

end

theorem adoptConfigEntry_remains (n : Node ι) (hinp : inp.Brings op) (index : Nat) :
    Remains inp n (n.adoptConfigEntry op index) := by
  have hindex : Remains inp n { n with membership := { n.membership with configIndex := index } } :=
    .of_move (.member n _ (.of_same hinp.adopts ⟨rfl, rfl, rfl, rfl, rfl, rfl, rfl, rfl⟩ rfl rfl rfl)) rfl
  cases op with
  | clientTableCap capacity =>
    refine .of_move (.member n { n.membership with
      configIndex := index, clientTableCapReplicated := true } ?_) rfl
    exact .of_same hinp.adopts ⟨rfl, rfl, rfl, rfl, rfl, rfl, rfl, rfl⟩ rfl rfl rfl
  | commitQuorum q =>
    refine Remains.trans (.of_move (.member n { n.membership with
      configIndex := index, commitQuorumLatest := q } ?_) rfl) (recount_stays _).toRemains
    exact .of_quorum hinp ⟨rfl, rfl, rfl, rfl, rfl, rfl, rfl, rfl⟩ id (.inr rfl) (.inl rfl)
  | add peer => exact hindex.trans (adoptAdd_remains (hinp.reconfigures rfl) _ peer)
  | remove id => exact hindex.trans (adoptRemove_remains (hinp.reconfigures rfl) _ id index)
  | joint old new => exact hindex.trans (adoptJoint_remains (hinp.reconfigures rfl) _ old new)
  | finalise members => exact hindex.trans (adoptFinalise_remains (hinp.reconfigures rfl) _ members index)

theorem adoptEntries_remains (hinp : inp.Reconfigures) (n : Node ι) (es : List (LogEntry ι)) :
    Remains inp n (n.adoptEntries es) := by
  unfold adoptEntries
  induction es generalizing n with
  | nil => exact .refl n
  | cons e es ih =>
    rw [List.foldl_cons]
    refine Remains.trans ?_ (ih _)
    cases e.command with
    | config op => exact adoptConfigEntry_remains n (.inl hinp) e.index
    | user payload => exact .refl n

theorem rebuildMembership_remains (hinp : inp.Reconfigures) (n : Node ι) :
    Remains inp n n.rebuildMembership.1 := by
  have hbase : Remains inp n n.restoreBase := member_remains hinp n _
  simp only [rebuildMembership]
  split_ifs
  · exact hbase
  · split
    · exact hbase
    · exact hbase.trans (adoptEntries_remains hinp _ _)

theorem checkWitness_remains (n : Node ι) : Remains inp n n.checkWitness := by
  unfold checkWitness
  split_ifs
  · exact .of_move (.fail n) rfl
  · exact .refl n

theorem applyConfigChange_moves (n : Node ι) {r : ApplyResult ι} (happlied : inp = .applied r)
    (hop : r.configCmd = some op) (index : Nat) : Moves inp n (n.applyConfigChange op index) := by
  have hinp : inp.Brings op := .inr ⟨r, happlied, hop⟩
  simp only [applyConfigChange]
  have hadopt : Moves inp n (n.adoptConfigEntry op index).checkWitness :=
    ((adoptConfigEntry_remains n hinp index).trans (checkWitness_remains _)).moves
  generalize (n.adoptConfigEntry op index).checkWitness = m at hadopt ⊢
  cases op with
  | clientTableCap capacity =>
    refine hadopt.trans (.head (.member m (m.membership.adoptCap capacity) ?_)
      (.head (.table _ (m.clientTable.setCap capacity) (happlied ▸ not_false)) (.quiet rfl rfl)))
    exact .of_same hinp.adopts ⟨rfl, rfl, rfl, rfl, rfl, rfl, rfl, rfl⟩ rfl rfl rfl
  | commitQuorum q =>
    refine hadopt.trans (.head (.member m (m.membership.adoptCommitQuorum q) ?_)
      ((recount_stays _).moves.trans (.quiet rfl rfl)))
    exact .of_quorum hinp ⟨rfl, rfl, rfl, rfl, rfl, rfl, rfl, rfl⟩ (by simp [Membership.adoptCommitQuorum])
      (.inl rfl) (.inr rfl)
  | add peer => exact hadopt
  | remove id =>
    dsimp only
    split_ifs
    · exact hadopt.trans (becomeFollower_moves m _ _)
    · exact hadopt
  | joint old new =>
    split_ifs with hlead
    · exact hadopt.trans (appendFinaliseEntry_moves (happlied ▸ trivial) hlead.1 hlead.2 _ _ _)
    · exact hadopt
  | finalise members =>
    dsimp only
    split_ifs
    · exact hadopt
    · exact hadopt.trans (becomeFollower_moves m _ _)

omit [DecidableEq ι] [Sized ι] in
theorem snapshot_reconfigures : (Input.snapshot : Input ι).Reconfigures := trivial

theorem adoptConfigEntry_tenure (n : Node ι) (op : ConfigOp ι) (index : Nat) :
    (n.adoptConfigEntry op index).checkWitness.tenure = n.tenure := by
  have hadopt : Remains .snapshot n (n.adoptConfigEntry op index) :=
    adoptConfigEntry_remains n (.inl snapshot_reconfigures) index
  exact (hadopt.trans (checkWitness_remains _)).tenure

end Node

end Raft
