import Raft.Log.Contents
import Raft.Membership.Adopt
import Raft.System.Basic

/-!
# The membership every node finds in a log

A node rebuilds its membership from the snapshot base and the log of its own storage, and
`InspectStorage` computes offline what the node would restart with.

A joint entry names the old group without the node that proposed the change.  Every node
puts itself back in, so the proposer finds its group again, but all the others lose the
proposer.  Inspection keeps the group it has.  A node also never leaves its own list.
-/

namespace Raft

open Function (update update_comm update_eq_iff update_eq_self_iff update_idem update_of_ne update_self)

variable {ι : Type} [DecidableEq ι] {es : List (LogEntry ι)} {base : MembershipState ι}

def upsertPeer (ps : List (PeerConfig ι)) (p : PeerConfig ι) : List (PeerConfig ι) :=
  if containsPeer ps p.id then setVoter p.id p.voter ps else ps ++ [p]

def removePeer (ps : List (PeerConfig ι)) (id : ι) : List (PeerConfig ι) :=
  ps.filter (·.id ≠ id)

/-- Takes a configuration entry into account, and says whether it states a whole configuration. -/
def adoptMembershipEntry (ms : MembershipState ι) : ConfigOp ι → MembershipState ι × Bool
  | .add peer =>
    if ms.joint then
      ({ ms with old := upsertPeer ms.old peer, new := upsertPeer ms.new peer }, false)
    else ({ ms with members := upsertPeer ms.members peer }, false)
  | .remove id =>
    if ms.joint then ({ ms with old := removePeer ms.old id, new := removePeer ms.new id }, false)
    else ({ ms with members := removePeer ms.members id }, false)
  | .joint _ new =>
    -- the old group is the one known so far, not the one the entry carries
    ({ joint := true, members := [], old := if ms.joint then ms.old else ms.members, new := new,
       commitQuorum := 0 }, false)
  | .finalise members =>
    ({ joint := false, members := members, old := [], new := [], commitQuorum := 0 }, true)
  | .clientTableCap _ => (ms, false)
  | .commitQuorum _ => (ms, false)

def replayConfigEntries (ms : MembershipState ι) (complete : Bool) (es : List (LogEntry ι)) :
    MembershipState ι × Bool :=
  es.foldl (fun acc e =>
    match e.command with
    | .config op =>
      let r := adoptMembershipEntry acc.1 op
      (r.1, r.2 || acc.2)
    | .user _ => acc) (ms, complete)

/-- The durable state a stopped node holds. -/
structure RecoveryInfo (ι : Type) where
  term : Nat
  votedFor : Option ι
  firstIndex : Nat
  lastIndex : Nat
  lastTerm : Nat
  snapshotIndex : Nat
  snapshotTerm : Nat
  knownCommittedIndex : Nat
  members : List (PeerConfig ι)
  jointMembers : Option (List (PeerConfig ι))
  membersComplete : Bool
  deriving DecidableEq, Repr

/-- Reads the durable state of a stopped node, commit indices included; `none` when the log cannot
be read. -/
def inspectStorage (store : Store ι) (commitRecorder : Bool) : Option (RecoveryInfo ι) :=
  let position := match store.snap with
    | some snap => snap.position
    | none => ⟨0, 0⟩
  let base := match store.snap.bind (·.membership) with
    | some ms => (ms, true)
    | none => (⟨false, [], [], [], 0⟩, false)
  let report := fun (last lastTerm : Nat) (found : MembershipState ι × Bool) =>
    { term := store.hs.currentTerm
      votedFor := store.hs.votedFor
      firstIndex := store.firstIndex
      lastIndex := last
      lastTerm := lastTerm
      snapshotIndex := position.lastIncludedIndex
      snapshotTerm := position.lastIncludedTerm
      knownCommittedIndex :=
        if commitRecorder then min (max position.lastIncludedIndex store.commitIndex) last
        else position.lastIncludedIndex
      members := if found.1.joint then found.1.old else found.1.members
      jointMembers := if found.1.joint then some found.1.new else none
      membersComplete := found.2 : RecoveryInfo ι }
  if store.lastIndex = 0 then
    some (report position.lastIncludedIndex position.lastIncludedTerm base)
  else
    match store.getLogEntries store.firstIndex (store.lastIndex + 1) with
    | none => none
    | some es =>
      match es.getLast? with
      | none => none
      | some e => some (report store.lastIndex e.term (replayConfigEntries base.1 base.2 es))

/-- The role a list gives a member: whether it votes, and whether it is a witness. -/
def roleIn (ps : List (PeerConfig ι)) (id : ι) : Option (Bool × Bool) :=
  (ps.find? (·.id = id)).map fun p => (p.voter, p.witness)

def Distinct (ps : List (PeerConfig ι)) : Prop := (ps.map (·.id)).Nodup

instance (ps : List (PeerConfig ι)) : Decidable (Distinct ps) :=
  inferInstanceAs (Decidable (ps.map (·.id)).Nodup)

section Roles

variable (ps : List (PeerConfig ι)) (id : ι)

theorem roleIn_nil : roleIn ([] : List (PeerConfig ι)) = fun _ => none := rfl

theorem roleIn_cons (p : PeerConfig ι) :
    roleIn (p :: ps) = update (roleIn ps) p.id (some (p.voter, p.witness)) := by
  funext id
  by_cases h : id = p.id
  · simp [roleIn, h]
  · simp [roleIn, update_of_ne h, Ne.symm h]

theorem roleIn_eq_none : roleIn ps id = none ↔ ∀ p ∈ ps, p.id ≠ id := by
  simp [roleIn]

theorem roleIn_isSome : (roleIn ps id).isSome = containsPeer ps id := by
  rw [Bool.eq_iff_iff, Option.isSome_iff_ne_none, Ne, roleIn_eq_none]
  simp [containsPeer]

theorem roleIn_filter_ne (i : ι) :
    roleIn (ps.filter (·.id ≠ i)) = update (roleIn ps) i none := by
  induction ps with
  | nil => simp [roleIn_nil]
  | cons p ps ih =>
    by_cases hp : p.id = i
    · rw [List.filter_cons_of_neg (by simpa using hp), ih, roleIn_cons, hp, update_idem]
    · rw [List.filter_cons_of_pos (by simpa using hp), roleIn_cons, roleIn_cons, ih,
        update_comm hp]

theorem roleIn_withSelf (self : ι) (voter witness : Bool) :
    roleIn (withSelf ps self true voter witness) =
      update (roleIn ps) self (some (voter, witness)) := by
  rw [withSelf, if_pos rfl, roleIn_cons]

theorem roleIn_setVoter (i : ι) (v : Bool) :
    roleIn (setVoter i v ps) =
      update (roleIn ps) i ((roleIn ps i).map fun r => (v, r.2)) := by
  induction ps with
  | nil => simp [setVoter, roleIn_nil]
  | cons p ps ih =>
    rw [setVoter]
    by_cases hp : p.id = i
    · subst hp
      rw [if_pos rfl, roleIn_cons, roleIn_cons, update_idem, update_self]
      rfl
    · rw [if_neg hp, roleIn_cons, ih, roleIn_cons, update_of_ne (Ne.symm hp),
        update_comm hp]

theorem roleIn_upsertPeer (p : PeerConfig ι) :
    roleIn (upsertPeer ps p) = update (roleIn ps) p.id
      (some (p.voter, ((roleIn ps p.id).map (·.2)).getD p.witness)) := by
  unfold upsertPeer
  rw [← roleIn_isSome]
  cases hrole : roleIn ps p.id with
  | some r =>
    rw [if_pos (show (some r).isSome = true from rfl), roleIn_setVoter, hrole]
    rfl
  | none =>
    have hfresh := (roleIn_eq_none ps p.id).mp hrole
    funext id
    by_cases hid : id = p.id
    · subst hid
      have hnone : ps.find? (·.id = p.id) = none := by simpa using hfresh
      simp [roleIn, List.find?_append, hnone]
    · simp [roleIn, List.find?_append, update_of_ne hid, Ne.symm hid]

variable {ps}

theorem Distinct.cons_iff {p : PeerConfig ι} :
    Distinct (p :: ps) ↔ roleIn ps p.id = none ∧ Distinct ps := by
  rw [Distinct, List.map_cons, List.nodup_cons, roleIn_eq_none]
  simp [Distinct]

section

variable (h : Distinct ps)

include h

omit [DecidableEq ι] in
theorem Distinct.filter (f : PeerConfig ι → Bool) : Distinct (ps.filter f) :=
  h.sublist (List.filter_sublist.map _)

theorem roleIn_eraseP (i : ι) :
    roleIn (ps.eraseP (·.id = i)) = update (roleIn ps) i none := by
  induction ps with
  | nil => simp [roleIn_nil]
  | cons p ps ih =>
    obtain ⟨hnone, hps⟩ := Distinct.cons_iff.mp h
    by_cases hp : p.id = i
    · subst hp
      rw [List.eraseP_cons_of_pos (by simp), roleIn_cons, update_idem]
      exact (update_eq_self_iff.mpr hnone.symm).symm
    · rw [List.eraseP_cons_of_neg (by simpa using hp), roleIn_cons, roleIn_cons, ih hps,
        update_comm hp]

theorem selfIn_eq (self : ι) :
    selfIn ps self = ((roleIn ps self).map fun r => (⟨self, r.1, r.2⟩ : PeerConfig ι)).toList := by
  induction ps with
  | nil => rfl
  | cons p ps ih =>
    obtain ⟨hnone, hps⟩ := Distinct.cons_iff.mp h
    rw [selfIn, roleIn_cons]
    by_cases hp : p.id = self
    · subst hp
      have hrest := ih hps
      rw [selfIn, hnone] at hrest
      rw [List.filter_cons_of_pos (by simp), hrest, update_self]
      rfl
    · rw [List.filter_cons_of_neg (by simpa using hp), update_of_ne (Ne.symm hp)]
      exact ih hps

theorem selfVoterIn_eq (self : ι) :
    Membership.selfVoterIn ps self = (roleIn ps self).any (·.1) := by
  rw [Membership.selfVoterIn, selfIn_eq h]
  cases roleIn ps self <;> rfl

theorem selfIn_isEmpty (self : ι) : (selfIn ps self).isEmpty = (roleIn ps self).isNone := by
  rw [selfIn_eq h]
  cases roleIn ps self <;> rfl

theorem selfVoterIn_withSelf (self : ι) (voter witness : Bool) :
    Membership.selfVoterIn (withSelf ps self true voter witness) self =
      ((roleIn ps self).map (·.1)).getD voter := by
  have hself : selfIn (withSelf ps self true voter witness) self =
      ⟨self, voter, witness⟩ :: selfIn ps self := by
    simp [selfIn, withSelf]
  rw [Membership.selfVoterIn, hself, selfIn_eq h]
  cases roleIn ps self <;> rfl

end

end Roles

/-- The members of a group: the current ones and, while a change is joint, the new ones. -/
abbrev Listing (ι : Type) := List (PeerConfig ι) × Option (List (PeerConfig ι))

def SameRoles (ps qs : List (PeerConfig ι)) : Prop := ∀ id, roleIn ps id = roleIn qs id

def Listing.Same (a b : Listing ι) : Prop :=
  SameRoles a.1 b.1 ∧
    match a.2, b.2 with
    | none, none => True
    | some ps, some qs => SameRoles ps qs
    | _, _ => False

def MembershipState.listing (ms : MembershipState ι) : Listing ι :=
  if ms.joint then (ms.old, some ms.new) else (ms.members, none)

omit [DecidableEq ι] in
theorem MembershipState.listing_eq (ms : MembershipState ι) :
    ms.listing = (if ms.joint then ms.old else ms.members, if ms.joint then some ms.new else none) := by
  unfold listing
  split_ifs <;> rfl

def Membership.listing (m : Membership ι) (self : ι) (witness : Bool) : Listing ι :=
  (m.current self witness).listing

def RecoveryInfo.listing (info : RecoveryInfo ι) : Listing ι := (info.members, info.jointMembers)

def MembershipState.standing (ms : MembershipState ι) : List (PeerConfig ι) :=
  if ms.joint then ms.old else ms.members

structure MembershipState.Distinct (ms : MembershipState ι) : Prop where
  members : Raft.Distinct ms.members
  old : Raft.Distinct ms.old
  new : Raft.Distinct ms.new

def ConfigOp.Distinct : ConfigOp ι → Prop
  | .joint old new => Raft.Distinct old ∧ Raft.Distinct new
  | .finalise members => Raft.Distinct members
  | _ => True

def HasVote (ps : List (PeerConfig ι)) (peer : PeerConfig ι) : Prop :=
  (roleIn ps peer.id).map (·.1) = some peer.voter

/-- The node finds itself in the list as it is configured. -/
def Enrolled (ps : List (PeerConfig ι)) (self : ι) (witness : Bool) : Prop :=
  (roleIn ps self).map (·.2) = some witness

/-- If the node finds itself in the list, it is as it is configured. -/
def NotMistaken (ps : List (PeerConfig ι)) (self : ι) (witness : Bool) : Prop :=
  ∀ r ∈ roleIn ps self, r.2 = witness

/-- What keeps the node `self` with inspection: a joint entry names the old group as it is, and
neither the final group nor single changes remove the node. -/
def Follows (self : ι) (witness : Bool) (ms : MembershipState ι) : ConfigOp ι → Prop
  | .add peer => ms.joint = true → HasVote ms.old peer ∧ HasVote ms.new peer
  | .remove id =>
    if ms.joint then roleIn ms.old id = none ∧ roleIn ms.new id = none else id ≠ self
  | .joint old new =>
    (∀ id, id ≠ self → roleIn old id = roleIn ms.standing id) ∧
      (∀ r ∈ roleIn old self, ∀ s ∈ roleIn ms.standing self, r.1 = s.1) ∧
      NotMistaken new self witness
  | .finalise members => Enrolled members self witness
  | .clientTableCap _ => True
  | .commitQuorum _ => True

def FollowsAll (self : ι) (witness : Bool) : MembershipState ι → List (LogEntry ι) → Prop
  | _, [] => True
  | ms, e :: es =>
    match e.command with
    | .config op => Follows self witness ms op ∧
        FollowsAll self witness (adoptMembershipEntry ms op).1 es
    | .user _ => FollowsAll self witness ms es

def Founded (self : ι) (witness : Bool) (base : MembershipState ι) : Prop :=
  Enrolled base.standing self witness ∧ (base.joint = true → NotMistaken base.new self witness)

section Tracking

variable {self : ι} {witness : Bool} {m : Membership ι} {ms : MembershipState ι}
  {old ps : List (PeerConfig ι)}

/-- The membership shows what inspection finds, and peers are named once. -/
structure Tracks (node : ι) (witness : Bool) (m : Membership ι) (ms : MembershipState ι) :
    Prop where
  same : (m.listing node witness).Same ms.listing
  peers : m.jointOld = none → Distinct m.peers
  voter : m.jointOld.isSome → m.voter = m.jointSelfVoterOld

theorem same_settled_iff (h : m.jointOld = none) :
    (m.listing self witness).Same ms.listing ↔ ms.joint = false ∧
      update (roleIn m.peers) self (some (m.voter, witness)) = roleIn ms.members := by
  simp only [Membership.listing, Membership.current, h, MembershipState.listing, Listing.Same,
    SameRoles, Bool.false_eq_true, if_false]
  cases ms.joint with
  | false => simp [roleIn_withSelf, funext_iff]
  | true => simp

theorem same_joint_iff (h : m.jointOld = some old) :
    (m.listing self witness).Same ms.listing ↔ ms.joint = true ∧
      update (roleIn old) self (some (m.jointSelfVoterOld, witness)) = roleIn ms.old ∧
      roleIn (withSelf m.jointNew self m.jointIncludeSelf m.jointSelfVoter witness) =
        roleIn ms.new := by
  simp only [Membership.listing, Membership.current, h, MembershipState.listing, Listing.Same,
    SameRoles, if_true]
  cases ms.joint with
  | false => simp
  | true => simp [roleIn_withSelf, funext_iff]

theorem Listing.Same.symm {a b : Listing ι} (h : a.Same b) : b.Same a := by
  obtain ⟨ps, joint⟩ := a
  obtain ⟨qs, joint'⟩ := b
  refine ⟨fun id => (h.1 id).symm, ?_⟩
  cases joint <;> cases joint'
  · trivial
  · exact h.2
  · exact h.2
  · exact fun id => (h.2 id).symm

theorem Listing.Same.trans {a b c : Listing ι} (h : a.Same b) (h' : b.Same c) : a.Same c := by
  obtain ⟨ps, joint⟩ := a
  obtain ⟨qs, joint'⟩ := b
  obtain ⟨rs, joint''⟩ := c
  refine ⟨fun id => (h.1 id).trans (h'.1 id), ?_⟩
  cases joint <;> cases joint' <;> cases joint''
  · trivial
  · exact h'.2
  · exact h.2.elim
  · exact h.2.elim
  · exact h.2.elim
  · exact h.2.elim
  · exact h'.2.elim
  · exact fun id => (h.2 id).trans (h'.2 id)

theorem listing_same_joint {ms' : MembershipState ι} (h : ms.joint = true) (h' : ms'.joint = true) :
    ms.listing.Same ms'.listing ↔ SameRoles ms.old ms'.old ∧ SameRoles ms.new ms'.new := by
  simp only [MembershipState.listing, h, h', if_true, Listing.Same]

theorem enrolled_iff :
    Enrolled ps self witness ↔ some ((roleIn ps self).any (·.1), witness) = roleIn ps self := by
  unfold Enrolled
  cases roleIn ps self with
  | none => simp
  | some r => simp [Prod.ext_iff, eq_comm]

theorem restore_settled_iff {members : List (PeerConfig ι)} (h : Distinct members) (q q' : Nat) :
    ((m.restore self ⟨false, members, [], [], q⟩).listing self witness).Same
      (MembershipState.listing ⟨false, members, [], [], q'⟩) ↔ Enrolled members self witness := by
  have hnone : (m.restore self ⟨false, members, [], [], q⟩).jointOld = none := rfl
  have hvoter : (m.restore self ⟨false, members, [], [], q⟩).voter =
      (roleIn members self).any (·.1) := selfVoterIn_eq h self
  have hpeers : roleIn (m.restore self ⟨false, members, [], [], q⟩).peers =
      update (roleIn members) self none := roleIn_filter_ne members self
  rw [same_settled_iff hnone, hvoter, hpeers, update_idem, update_eq_self_iff,
    enrolled_iff]
  exact and_iff_right rfl

theorem restore_joint_iff {new standing : List (PeerConfig ι)} (h : Distinct new) (q q' : Nat) :
    ((m.restore self ⟨true, [], old, new, q⟩).listing self witness).Same
        (MembershipState.listing ⟨true, [], standing, new, q'⟩) ↔
      update (roleIn old) self (some (Membership.selfVoterIn old self, witness)) =
        roleIn standing ∧ NotMistaken new self witness := by
  have hsome : (m.restore self ⟨true, [], old, new, q⟩).jointOld = some (withoutSelf old self) := rfl
  rw [same_joint_iff hsome, withoutSelf, roleIn_filter_ne, update_idem]
  refine (and_iff_right rfl).trans (and_congr Iff.rfl ?_)
  change roleIn (withSelf (withoutSelf new self) self (!(selfIn new self).isEmpty)
    (Membership.selfVoterIn new self) witness) = roleIn new ↔ _
  rw [selfIn_isEmpty h, selfVoterIn_eq h, withoutSelf, NotMistaken]
  cases hrole : roleIn new self with
  | none =>
    rw [withSelf, if_neg (by simp), roleIn_filter_ne, update_eq_self_iff, hrole]
    simp
  | some r =>
    rw [show (!(some r).isNone) = true from rfl, roleIn_withSelf, roleIn_filter_ne,
      update_idem, update_eq_self_iff, hrole]
    simp [Prod.ext_iff, eq_comm]

theorem same_upsertPeer_iff {peer : PeerConfig ι} :
    SameRoles ps (upsertPeer ps peer) ↔ HasVote ps peer := by
  rw [SameRoles, ← funext_iff, roleIn_upsertPeer, eq_comm, update_eq_self_iff, HasVote]
  cases roleIn ps peer.id with
  | none => simp
  | some r => simp [Prod.ext_iff, eq_comm]

theorem same_removePeer_iff {id : ι} : SameRoles ps (removePeer ps id) ↔ roleIn ps id = none := by
  rw [SameRoles, ← funext_iff, removePeer, roleIn_filter_ne, eq_comm, update_eq_self_iff,
    eq_comm]

theorem roleIn_addMember {peer : PeerConfig ι} (hne : peer.id ≠ self) :
    roleIn (m.addMember self peer).peers = roleIn (upsertPeer m.peers peer) := by
  have hfind : ∀ p, m.peers.find? (·.id = peer.id) = some p →
      roleIn m.peers peer.id = some (p.voter, p.witness) := by
    intro p hp
    rw [roleIn, hp]
    rfl
  rw [Membership.addMember, if_neg hne]
  cases hp : m.peers.find? (·.id = peer.id) with
  | none =>
    have habsent : ¬ containsPeer m.peers peer.id = true := by
      rw [← roleIn_isSome, roleIn, hp]
      simp
    rw [upsertPeer, if_neg habsent]
  | some p =>
    have hthere : containsPeer m.peers peer.id = true := by
      rw [← roleIn_isSome, hfind p hp]
      rfl
    dsimp only
    split_ifs with hvote
    · -- inspection writes the vote again that is there
      refine funext (same_upsertPeer_iff.mpr ?_)
      rw [HasVote, hfind p hp, ← hvote]
      rfl
    · rw [upsertPeer, if_pos hthere]

theorem setVoter_map_id (i : ι) (v : Bool) (ps : List (PeerConfig ι)) :
    (setVoter i v ps).map (·.id) = ps.map (·.id) := by
  induction ps with
  | nil => rfl
  | cons p ps ih =>
    rw [setVoter]
    split_ifs
    · rfl
    · rw [List.map_cons, ih, List.map_cons]

theorem Distinct.addMember (h : Distinct m.peers) (peer : PeerConfig ι) :
    Distinct (m.addMember self peer).peers := by
  unfold Membership.addMember
  split_ifs
  · exact h
  · cases hp : m.peers.find? (·.id = peer.id) with
    | none =>
      have hfresh : ∀ p ∈ m.peers, p.id ≠ peer.id := by simpa using hp
      simpa [Distinct, List.nodup_append] using And.intro h hfresh
    | some p =>
      dsimp only
      split_ifs
      · exact h
      · rw [Distinct, setVoter_map_id]
        exact h

omit [DecidableEq ι] in
theorem listing_of_joint (h : m.jointOld = some old) (ps : List (PeerConfig ι)) (v w : Bool) :
    ({ m with peers := ps, voter := v, membershipWitness := w } : Membership ι).listing self witness =
      m.listing self witness := by
  simp only [Membership.listing, Membership.current, h, MembershipState.listing, if_true]

theorem addMember_eq (m : Membership ι) (self : ι) (peer : PeerConfig ι) :
    ∃ ps w, m.addMember self peer = { m with
      peers := ps, voter := if peer.id = self then peer.voter else m.voter
      membershipWitness := w } := by
  unfold Membership.addMember
  split_ifs with hself
  · exact ⟨_, _, rfl⟩
  · cases m.peers.find? (·.id = peer.id) with
    | none => exact ⟨_, _, rfl⟩
    | some p =>
      dsimp only
      split_ifs <;> exact ⟨_, _, rfl⟩

theorem removeMember_eq (m : Membership ι) (self id : ι) :
    ∃ ps, m.removeMember self id = { m with
      peers := ps, voter := if id = self then false else m.voter } := by
  unfold Membership.removeMember
  split_ifs <;> exact ⟨_, rfl⟩

section

variable (h : Tracks self witness m ms)

include h

theorem Tracks.same_iff {ms' : MembershipState ι} :
    (m.listing self witness).Same ms'.listing ↔ ms.listing.Same ms'.listing :=
  ⟨h.same.symm.trans, h.same.trans⟩

theorem Tracks.add_iff (peer : PeerConfig ι) :
    ((m.addMember self peer).listing self witness).Same
      (adoptMembershipEntry ms (.add peer)).1.listing ↔ Follows self witness ms (.add peer) := by
  obtain ⟨ps, w, heq⟩ := addMember_eq m self peer
  cases hjoint : m.jointOld with
  | some old =>
    obtain ⟨hstage, -⟩ := (same_joint_iff hjoint).mp h.same
    rw [heq, listing_of_joint hjoint, h.same_iff, adoptMembershipEntry, if_pos hstage]
    refine (listing_same_joint hstage (by exact hstage)).trans ?_
    simp only [same_upsertPeer_iff, Follows, hstage, true_implies]
  | none =>
    obtain ⟨hstage, hroles⟩ := (same_settled_iff hjoint).mp h.same
    refine iff_of_true ?_ (fun hs => absurd (hstage.symm.trans hs) Bool.false_ne_true)
    have hvoter : (m.addMember self peer).voter = if peer.id = self then peer.voter else m.voter := by
      rw [heq]
    rw [adoptMembershipEntry, if_neg (by simp [hstage]), same_settled_iff (by rw [heq]; exact hjoint)]
    refine ⟨hstage, ?_⟩
    rw [hvoter, roleIn_upsertPeer, ← hroles]
    by_cases hpeer : peer.id = self
    · -- the node's own role: the peers stay, the vote is the entry's
      have hpeers : (m.addMember self peer).peers = m.peers := by
        rw [Membership.addMember, if_pos hpeer]
      rw [if_pos hpeer, hpeers, hpeer, update_idem, update_self]
      rfl
    · rw [if_neg hpeer, roleIn_addMember hpeer, roleIn_upsertPeer, update_of_ne hpeer,
        update_comm hpeer]

theorem Tracks.remove_iff (id : ι) :
    ((m.removeMember self id).listing self witness).Same
      (adoptMembershipEntry ms (.remove id)).1.listing ↔ Follows self witness ms (.remove id) := by
  obtain ⟨ps, heq⟩ := removeMember_eq m self id
  cases hjoint : m.jointOld with
  | some old =>
    obtain ⟨hstage, -⟩ := (same_joint_iff hjoint).mp h.same
    rw [heq, listing_of_joint hjoint, h.same_iff, adoptMembershipEntry, if_pos hstage]
    refine (listing_same_joint hstage (by exact hstage)).trans ?_
    simp only [same_removePeer_iff, Follows, hstage, if_true]
  | none =>
    obtain ⟨hstage, hroles⟩ := (same_settled_iff hjoint).mp h.same
    rw [adoptMembershipEntry, if_neg (by simp [hstage]), same_settled_iff (by rw [heq]; exact hjoint),
      Follows, if_neg (by simp [hstage])]
    simp only [removePeer, roleIn_filter_ne]
    constructor
    · -- a node that is removed still shows itself
      rintro ⟨-, hall⟩ rfl
      have hself := congrFun hall id
      simp at hself
    · intro hne
      rw [Membership.removeMember, if_neg hne, roleIn_eraseP (h.peers hjoint), ← hroles,
        update_comm hne]
      exact ⟨hstage, rfl⟩

theorem Tracks.standing : roleIn ms.standing self = some (m.voter, witness) := by
  cases hjoint : m.jointOld with
  | some old =>
    obtain ⟨hstage, holds, -⟩ := (same_joint_iff hjoint).mp h.same
    rw [MembershipState.standing, if_pos hstage, ← holds, update_self,
      h.voter (by rw [hjoint]; rfl)]
  | none =>
    obtain ⟨hstage, hroles⟩ := (same_settled_iff hjoint).mp h.same
    rw [MembershipState.standing, if_neg (by simp [hstage]), ← hroles, update_self]

theorem Tracks.joint_iff {new : List (PeerConfig ι)} (hold : Distinct old) (hnew : Distinct new)
    (index : Nat) :
    ((m.adopt self witness (.joint old new) index).listing self witness).Same
        (adoptMembershipEntry ms (.joint old new)).1.listing ↔
      Follows self witness ms (.joint old new) := by
  have hstanding := h.standing
  refine (restore_joint_iff hnew 0 0).trans ?_
  rw [Follows, ← and_assoc]
  refine and_congr ?_ Iff.rfl
  change _ = roleIn ms.standing ↔ _
  rw [selfVoterIn_withSelf hold, roleIn_withSelf, update_idem, update_eq_iff,
    hstanding, and_comm]
  refine and_congr Iff.rfl ?_
  cases roleIn old self with
  | none | some r => simp

/-- **One entry**: the node goes on showing what inspection finds exactly if the entry is one
it follows. -/
theorem Tracks.adopt_iff {op : ConfigOp ι} (hop : op.Distinct) (index : Nat) :
    ((m.adopt self witness op index).listing self witness).Same
      (adoptMembershipEntry ms op).1.listing ↔ Follows self witness ms op := by
  have hat : Tracks self witness { m with configIndex := index } ms := ⟨h.same, h.peers, h.voter⟩
  cases op with
  | add peer => exact hat.add_iff peer
  | remove id => exact hat.remove_iff id
  | joint old new => exact h.joint_iff hop.1 hop.2 index
  | finalise members => exact restore_settled_iff hop 0 0
  | clientTableCap capacity | commitQuorum q => exact iff_of_true h.same trivial

theorem Tracks.adopt {op : ConfigOp ι} (hop : op.Distinct) (index : Nat)
    (hfollows : Follows self witness ms op) :
    Tracks self witness (m.adopt self witness op index) (adoptMembershipEntry ms op).1 := by
  have hsame := (h.adopt_iff hop index).mpr hfollows
  cases op with
  | add peer =>
    obtain ⟨ps, w, heq⟩ := addMember_eq { m with configIndex := index } self peer
    have hpeers : m.jointOld = none → Distinct ps := fun hnone => by
      have hadd : Distinct (({ m with configIndex := index } : Membership ι).addMember self peer).peers :=
        .addMember (m := { m with configIndex := index }) (h.peers hnone) peer
      rwa [heq] at hadd
    change Tracks self witness (({ m with configIndex := index } : Membership ι).addMember self peer) _
    refine ⟨hsame, ?_, ?_⟩ <;> rw [heq]
    · exact hpeers
    · intro hsome
      obtain ⟨old, hold⟩ := Option.isSome_iff_exists.mp hsome
      split_ifs with hself
      · -- the entry repeats the vote the node has in the old group
        obtain ⟨hstage, holds, -⟩ := (same_joint_iff (m := m) hold).mp h.same
        have hvote := (hfollows hstage).1
        rw [HasVote, hself, ← holds, update_self] at hvote
        exact (Option.some.inj hvote).symm
      · exact h.voter hsome
  | remove id =>
    have hjoint : (m.adopt self witness (.remove id) index).jointOld = m.jointOld := by
      obtain ⟨ps, heq⟩ := removeMember_eq { m with configIndex := index } self id
      exact (congrArg Membership.jointOld heq :)
    refine ⟨hsame, fun hnone => ?_, fun hsome => ?_⟩
    · have hpeers := h.peers (hjoint.symm.trans hnone)
      simp only [Membership.adopt, Membership.removeMember]
      split_ifs
      · exact hpeers
      · exact hpeers.sublist (List.eraseP_sublist.map _)
    · rw [hjoint] at hsome
      obtain ⟨old, hold⟩ := Option.isSome_iff_exists.mp hsome
      obtain ⟨hstage, holds, -⟩ := (same_joint_iff hold).mp h.same
      rw [Follows, if_pos hstage] at hfollows
      -- the node is in the old group, so it is not the one removed
      have hne : id ≠ self := by
        rintro rfl
        have hself := (congrFun holds id).trans hfollows.1
        simp at hself
      simp only [Membership.adopt, Membership.removeMember, if_neg hne]
      exact h.voter hsome
  | joint old new => exact ⟨hsame, fun hnone => (nomatch hnone), fun _ => rfl⟩
  | finalise members =>
    exact ⟨hsame, fun _ => Distinct.filter hop _, fun hsome => nomatch hsome⟩
  | clientTableCap capacity | commitQuorum q => exact ⟨hsame, h.peers, h.voter⟩

end

theorem rebase_iff (hbase : m.base.Distinct) (index : Nat) :
    ((m.rebase self index).listing self witness).Same m.base.listing ↔
      Founded self witness m.base := by
  obtain ⟨base, hm⟩ : ∃ base, m.base = base := ⟨_, rfl⟩
  rw [hm] at hbase ⊢
  change ((m.restore self m.base).listing self witness).Same _ ↔ _
  rw [hm]
  obtain ⟨- | -, members, old, new, q⟩ := base
  · refine (restore_settled_iff hbase.members q q).trans ?_
    exact (and_iff_left (fun h => nomatch h)).symm
  · refine (restore_joint_iff hbase.new q q).trans (and_congr ?_ ⟨fun h _ => h, fun h => h rfl⟩)
    rw [selfVoterIn_eq hbase.old]
    exact update_eq_self_iff.trans enrolled_iff.symm

theorem Tracks.of_base (hbase : m.base.Distinct) (index : Nat)
    (h : Founded self witness m.base) : Tracks self witness (m.rebase self index) m.base := by
  refine ⟨(rebase_iff hbase index).mpr h, ?_, ?_⟩
  · intro hnone
    simp only [Membership.rebase, Membership.restore] at hnone ⊢
    split_ifs at hnone ⊢
    exact Distinct.filter hbase.members _
  · intro hsome
    simp only [Membership.rebase, Membership.restore] at hsome ⊢
    split_ifs at hsome ⊢
    · rfl
    · cases hsome

def MembershipState.adoptAll (ms : MembershipState ι) (es : List (LogEntry ι)) :
    MembershipState ι :=
  es.foldl (fun ms e =>
    match e.command with
    | .config op => (adoptMembershipEntry ms op).1
    | .user _ => ms) ms

theorem replayConfigEntries_fst (ms : MembershipState ι) (complete : Bool) (es : List (LogEntry ι)) :
    (replayConfigEntries ms complete es).1 = ms.adoptAll es := by
  unfold replayConfigEntries MembershipState.adoptAll
  induction es generalizing ms complete with
  | nil => rfl
  | cons e es ih =>
    simp only [List.foldl_cons]
    cases e.command with
    | user payload => exact ih ms complete
    | config op => exact ih _ _

theorem FollowsAll.append_iff {es' : List (LogEntry ι)} :
    FollowsAll self witness ms (es ++ es') ↔
      FollowsAll self witness ms es ∧ FollowsAll self witness (ms.adoptAll es) es' := by
  induction es generalizing ms with
  | nil => exact (and_iff_right trivial).symm
  | cons e es ih =>
    simp only [List.cons_append, FollowsAll, MembershipState.adoptAll, List.foldl_cons]
    cases e.command with
    | user payload => exact ih
    | config op => exact (and_congr_right fun _ => ih).trans and_assoc.symm

theorem Tracks.adoptAll (h : Tracks self witness m ms)
    (hes : ∀ e ∈ es, ∀ op, e.command = .config op → op.Distinct)
    (hfollows : FollowsAll self witness ms es) :
    Tracks self witness (m.adoptAll self witness es) (ms.adoptAll es) := by
  induction es generalizing m ms with
  | nil => exact h
  | cons e es ih =>
    have hrest := fun e' he' => hes e' (List.mem_cons_of_mem e he')
    simp only [FollowsAll] at hfollows
    simp only [MembershipState.adoptAll, List.foldl_cons]
    cases hcmd : e.command with
    | user payload =>
      rw [hcmd] at hfollows
      rw [Membership.adoptAll_user self witness m hcmd]
      exact ih h hrest hfollows
    | config op =>
      rw [hcmd] at hfollows
      rw [Membership.adoptAll_config self witness m hcmd]
      exact ih (h.adopt (hes e List.mem_cons_self op hcmd) e.index hfollows.1) hrest hfollows.2

end Tracking

structure Store.Records (s : Store ι) (base : MembershipState ι) (es : List (LogEntry ι)) :
    Prop where
  base : s.snap.bind (·.membership) = some base
  entries : s.entries = es
  wf : s.Wf

structure Node.Rebuilds (n : Node ι) (base : MembershipState ι) (es : List (LogEntry ι)) :
    Prop where
  base : n.membership.base = base
  log : n.log.Reads es

def Node.listing (n : Node ι) : Listing ι := n.membership.listing n.cfg.id n.cfg.witness

theorem inspectStorage_listing {s : Store ι} (h : s.Records base es) (commitRecorder : Bool) :
    ∃ info, inspectStorage s commitRecorder = some info ∧
      info.listing = (base.adoptAll es).listing := by
  obtain ⟨hbase, rfl, hwf⟩ := h
  simp only [inspectStorage, hbase]
  by_cases hlast : s.lastIndex = 0
  · have hnil : s.entries = [] := by
      by_contra hne
      have hlen := Store.lastIndex_eq hwf.contiguous hne
      have := hwf.pos hne
      have := List.length_pos_of_ne_nil hne
      omega
    rw [if_pos hlast, hnil]
    refine ⟨_, rfl, ?_⟩
    rw [MembershipState.listing_eq]
    rfl
  · have hne : s.entries ≠ [] := by
      intro hnil
      exact hlast (by simp [Store.lastIndex, hnil])
    rw [if_neg hlast, Store.getLogEntries_all hwf (Nat.pos_of_ne_zero hlast)]
    simp only [List.getLast?_eq_some_getLast hne]
    refine ⟨_, rfl, ?_⟩
    rw [MembershipState.listing_eq, ← replayConfigEntries_fst base true]
    rfl

variable [Sized ι]

theorem Node.rebuildMembership_listing {n : Node ι} (h : n.Rebuilds base es) :
    n.rebuildMembership.1.listing =
      ((n.membership.rebase n.cfg.id n.log.snapMeta.lastIncludedIndex).adoptAll
        n.cfg.id n.cfg.witness es).listing n.cfg.id n.cfg.witness := by
  have hremains : Remains .snapshot n n.rebuildMembership.1 :=
    rebuildMembership_remains snapshot_reconfigures n
  rw [listing, hremains.cfg, rebuildMembership_membership n h.log]

theorem rebuilt_same_inspected_iff {log : List (LogEntry ι)} {i : ι} {witness : Bool}
    (hbase : base.Distinct) (hlog : ∀ e ∈ log, ∀ op, e.command = .config op → op.Distinct)
    {n : Nat → Node ι} (hid : ∀ k, (n k).cfg.id = i ∧ (n k).cfg.witness = witness)
    (hn : ∀ k, (n k).Rebuilds base (log.take k)) :
    (∀ k, (n k).rebuildMembership.1.listing.Same (base.adoptAll (log.take k)).listing) ↔
      Founded i witness base ∧ FollowsAll i witness base log := by
  have hrebuilt : ∀ k, (n k).rebuildMembership.1.listing =
      (((n k).membership.rebase i (n k).log.snapMeta.lastIncludedIndex).adoptAll
        i witness (log.take k)).listing i witness := by
    intro k
    rw [Node.rebuildMembership_listing (hn k), (hid k).1, (hid k).2]
  have hdistinct : ∀ k, (n k).membership.base.Distinct := fun k => (hn k).base ▸ hbase
  have htracks : ∀ k es, Founded i witness base → (∀ e ∈ es, e ∈ log) →
      FollowsAll i witness base es →
      Tracks i witness (((n k).membership.rebase i
        (n k).log.snapMeta.lastIncludedIndex).adoptAll i witness es) (base.adoptAll es) := by
    intro k es hfound hsub hes
    have hstart := Tracks.of_base (hdistinct k) (n k).log.snapMeta.lastIncludedIndex
      (by rwa [(hn k).base])
    rw [(hn k).base] at hstart
    exact hstart.adoptAll (fun e he => hlog e (hsub e he)) hes
  constructor
  · intro hall
    have hfound : Founded i witness base := by
      have hzero := hall 0
      rw [hrebuilt 0, List.take_zero, Membership.adoptAll_nil, ← (hn 0).base] at hzero
      rw [← (hn 0).base]
      exact (rebase_iff (hdistinct 0) _).mp hzero
    refine ⟨hfound, ?_⟩
    -- entry by entry: the node agreed before it and agrees behind it
    have hprefix : ∀ k, k ≤ log.length → FollowsAll i witness base (log.take k) := by
      intro k
      induction k with
      | zero => exact fun _ => trivial
      | succ k ih =>
        intro hk
        have hes := ih (by omega)
        have hsame := hall (k + 1)
        rw [hrebuilt (k + 1), List.take_succ_eq_append_getElem hk, Membership.adoptAll_append,
          MembershipState.adoptAll, List.foldl_append] at hsame
        have hbefore := htracks (k + 1) (log.take k) hfound
          (fun e he => List.mem_of_mem_take he) hes
        rw [List.take_succ_eq_append_getElem hk, FollowsAll.append_iff]
        refine ⟨hes, ?_⟩
        simp only [FollowsAll]
        cases hcmd : log[k].command with
        | user payload => trivial
        | config op =>
          refine ⟨(hbefore.adopt_iff (hlog _ (List.getElem_mem _) op hcmd) log[k].index).mp ?_, trivial⟩
          rw [Membership.adoptAll_config i witness _ hcmd] at hsame
          simp only [List.foldl_cons, hcmd, List.foldl_nil] at hsame
          exact hsame
    have hwhole := hprefix log.length le_rfl
    rwa [List.take_length] at hwhole
  · rintro ⟨hfound, hfollows⟩ k
    rw [← List.take_append_drop k log, FollowsAll.append_iff] at hfollows
    rw [hrebuilt k]
    exact (htracks k _ hfound (fun e he => List.mem_of_mem_take he) hfollows.1).same

/-- **Nodes find the membership inspection finds**, at every point of a log, exactly if each
finds itself in the base and follows every entry. -/
theorem rebuilt_same_iff {base : MembershipState ι} {log : List (LogEntry ι)} (group : Set ι)
    (witness : ι → Bool) (hbase : base.Distinct)
    (hlog : ∀ e ∈ log, ∀ op, e.command = .config op → op.Distinct) (n : ι → Nat → Node ι)
    (s : ι → Nat → Store ι) (commitRecorder : Bool)
    (hid : ∀ i ∈ group, ∀ k, (n i k).cfg.id = i ∧ (n i k).cfg.witness = witness i)
    (hn : ∀ i ∈ group, ∀ k, (n i k).Rebuilds base (log.take k))
    (hs : ∀ i ∈ group, ∀ k, (s i k).Records base (log.take k)) :
    (∀ k, (∀ i ∈ group, ∀ j ∈ group,
        (n i k).rebuildMembership.1.listing.Same (n j k).rebuildMembership.1.listing) ∧
      ∀ i ∈ group, ∃ info, inspectStorage (s i k) commitRecorder = some info ∧
        (n i k).rebuildMembership.1.listing.Same info.listing) ↔
      ∀ i ∈ group, Founded i (witness i) base ∧ FollowsAll i (witness i) base log := by
  constructor
  · intro hall i hi
    refine (rebuilt_same_inspected_iff hbase hlog (hid i hi) (hn i hi)).mp fun k => ?_
    obtain ⟨info, hinfo, hsame⟩ := (hall k).2 i hi
    obtain ⟨info', hinfo', hlisting⟩ := inspectStorage_listing (hs i hi k) commitRecorder
    cases hinfo.symm.trans hinfo'
    exact hlisting ▸ hsame
  · intro hfollows k
    have hsame : ∀ i ∈ group, (n i k).rebuildMembership.1.listing.Same
        (base.adoptAll (log.take k)).listing := fun i hi =>
      (rebuilt_same_inspected_iff hbase hlog (hid i hi) (hn i hi)).mpr (hfollows i hi) k
    refine ⟨fun i hi j hj => (hsame i hi).trans (hsame j hj).symm, fun i hi => ?_⟩
    obtain ⟨info, hinfo, hlisting⟩ := inspectStorage_listing (hs i hi k) commitRecorder
    exact ⟨info, hinfo, hlisting ▸ hsame i hi⟩

def trioBase : MembershipState (Fin 3) :=
  ⟨false, [⟨0, true, false⟩, ⟨1, true, false⟩, ⟨2, true, false⟩], [], [], 0⟩

def trioStore (es : List (LogEntry (Fin 3))) : Store (Fin 3) :=
  ⟨⟨0, none⟩, es, some ⟨⟨0, 0⟩, [], some trioBase, none, []⟩, 0⟩

def trioNode (i : Fin 3) (es : List (LogEntry (Fin 3))) : Node (Fin 3) :=
  .start (.ofPeers i ((List.finRange 3).filter (· ≠ i))) (trioStore es)

def demotion : List (LogEntry (Fin 3)) :=
  [⟨1, 1, .config (.add ⟨2, false, false⟩)⟩, ⟨2, 1, .config (.add ⟨2, true, false⟩)⟩]

theorem trioNode_demotion (i : Fin 3) (k : Nat) :
    ((trioNode i (demotion.take k)).cfg.id = i ∧
      (trioNode i (demotion.take k)).cfg.witness = false) ∧
      (trioNode i (demotion.take k)).membership.base = trioBase ∧
      (trioNode i (demotion.take k)).log.Reads (demotion.take k) := by
  rcases k with - | - | k
  · revert i
    decide +kernel
  · revert i
    decide +kernel
  · rw [List.take_of_length_le (show demotion.length ≤ k + 2 from Nat.le_add_left 2 k)]
    revert i
    decide +kernel

theorem trioStore_wf {es : List (LogEntry (Fin 3))} (h : Contiguous 1 es) : (trioStore es).Wf :=
  Store.wf_of_contiguous h fun _ => Nat.one_pos

theorem rebuilt_same_iff_demotion :
    (∀ i ∈ (Set.univ : Set (Fin 3)), Founded i false trioBase ∧ FollowsAll i false trioBase demotion) ∧
      ∀ k, (∀ i ∈ (Set.univ : Set (Fin 3)), ∀ j ∈ (Set.univ : Set (Fin 3)),
        (trioNode i (demotion.take k)).rebuildMembership.1.listing.Same
          (trioNode j (demotion.take k)).rebuildMembership.1.listing) ∧
      ∀ i ∈ (Set.univ : Set (Fin 3)), ∃ info,
        inspectStorage (trioStore (demotion.take k)) false = some info ∧
          (trioNode i (demotion.take k)).rebuildMembership.1.listing.Same info.listing := by
  have hfollows : ∀ i ∈ (Set.univ : Set (Fin 3)),
      Founded i false trioBase ∧ FollowsAll i false trioBase demotion := by
    intro i _
    refine ⟨⟨?_, fun h => nomatch h⟩, ?_⟩
    · unfold Enrolled
      revert i
      decide
    · simp [demotion, FollowsAll, Follows, adoptMembershipEntry, trioBase]
  refine ⟨hfollows, (rebuilt_same_iff Set.univ (fun _ => false) ⟨by decide, by decide, by decide⟩ ?_
    (fun i k => trioNode i (demotion.take k)) (fun _ k => trioStore (demotion.take k)) false
    (fun i _ k => (trioNode_demotion i k).1) (fun i _ k => ?_) (fun i _ k => ?_)).mpr hfollows⟩
  · intro e he op hop
    obtain rfl | rfl : e = _ ∨ e = _ := by simpa [demotion] using he
    all_goals
      cases hop
      trivial
  · exact ⟨(trioNode_demotion i k).2.1, (trioNode_demotion i k).2.2⟩
  · exact ⟨rfl, rfl, trioStore_wf (((Contiguous.singleton _).append (.singleton _)).take k)⟩

/-- **A joint entry loses its writer**: nodes 1 and 2 count without node 0 in the old group,
where node 0 itself and inspection do find it. -/
theorem joint_entry_loses_writer :
    ∃ cmd, reconfigureCluster (trioNode 0 []) trioBase.members = some cmd ∧
      roleIn (trioNode 1 [⟨1, 1, cmd⟩]).listing.1 0 = none ∧
      roleIn (trioNode 2 [⟨1, 1, cmd⟩]).listing.1 0 = none ∧
      roleIn (trioNode 0 [⟨1, 1, cmd⟩]).listing.1 0 = some (true, false) ∧
      (inspectStorage (trioStore [⟨1, 1, cmd⟩]) false).map (fun info => roleIn info.members 0) =
        some (some (true, false)) := by
  refine ⟨_, rfl, ?_, ?_, ?_, ?_⟩ <;> decide +kernel

end Raft
