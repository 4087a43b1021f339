import Raft.Log.Contents
import Raft.System.Basic

/-!
# Commits and full replicas

A witness acknowledges an entry without keeping its command.  The leader counts itself as
far as its own storage has got, full voters as far as they have acknowledged, and witnesses
only while a full voter that lacks the entry is down.

Nothing asks for a full voter among those counted: when a group has as many witnesses as a
commit quorum needs, one full voter that is down lets them commit an entry that the leader
itself has not written yet.  Nor does the count of zones ask what a witness keeps.
-/

namespace Raft

variable {ι : Type}

structure CountedGroup (ι : Type) where
  members : List (PeerConfig ι)
  includeSelf : Bool
  selfVoter : Bool

def CountedGroup.voters (g : CountedGroup ι) : Nat :=
  g.members.countP (·.voter) + if g.includeSelf && g.selfVoter then 1 else 0

namespace Node

/-- The groups a commit needs a quorum of. -/
def countedGroups (n : Node ι) : List (CountedGroup ι) :=
  match n.membership.jointOld with
  | none => [⟨n.membership.peers, true, n.membership.voter⟩]
  | some old =>
    [⟨old, true, n.membership.jointSelfVoterOld⟩,
      ⟨n.membership.jointNew, n.membership.jointIncludeSelf, n.membership.jointSelfVoter⟩]

def acknowledged (n : Node ι) (idx : Nat) (p : PeerConfig ι) : Bool :=
  decide (idx ≤ lookup n.matchIndex p.id)

def selfHolds (n : Node ι) (idx : Nat) (g : CountedGroup ι) : Bool :=
  g.includeSelf && g.selfVoter && decide (idx ≤ n.log.stableIndex)

def fullHolds (n : Node ι) (idx : Nat) (g : CountedGroup ι) : Bool :=
  n.selfHolds idx g && !n.cfg.witness ||
    g.members.any fun p => p.voter && !p.witness && n.acknowledged idx p

def HeldByFull (n : Node ι) (idx : Nat) : Prop := ∃ g ∈ n.countedGroups, n.fullHolds idx g = true
  deriving Decidable

variable {idx : Nat} {n : Node ι}

theorem HeldByFull.mono {idx' : Nat} (h : n.HeldByFull idx') (hle : idx ≤ idx') :
    n.HeldByFull idx := by
  obtain ⟨g, hg, hholds⟩ := h
  refine ⟨g, hg, ?_⟩
  simp only [fullHolds, selfHolds, acknowledged, Bool.or_eq_true, Bool.and_eq_true,
    decide_eq_true_eq, List.any_eq_true] at hholds ⊢
  rcases hholds with ⟨⟨hself, hstable⟩, hfull⟩ | ⟨p, hp, hvoter, hack⟩
  · exact .inl ⟨⟨hself, by omega⟩, hfull⟩
  · exact .inr ⟨p, hp, hvoter, by omega⟩

variable [DecidableEq ι]

def fullDown (n : Node ι) (idx : Nat) (g : CountedGroup ι) : Bool :=
  g.members.any fun p =>
    p.voter && !p.witness && !n.acknowledged idx p && n.peerDown.contains p.id

/-- What the witnesses of a group contribute. -/
def witnessCount (n : Node ι) (idx : Nat) (g : CountedGroup ι) : Nat :=
  (if n.selfHolds idx g && n.cfg.witness then 1 else 0) +
    if n.fullDown idx g then
      g.members.countP fun p => p.voter && p.witness && n.acknowledged idx p
    else 0

def WitnessesSuffice (n : Node ι) (idx : Nat) (g : CountedGroup ι) : Prop :=
  n.membership.quorumNeeded .commitQuorum g.voters ≤ n.witnessCount idx g ∧
    n.spansEnoughZones idx g.members g.includeSelf g.selfVoter = true

/-- The indices a leader tries to commit: those of its own term that are not. -/
def MayCommit (n : Node ι) (idx : Nat) : Prop :=
  n.state = .leader ∧ n.termStartIndex ≠ 0 ∧ n.termStartIndex ≤ idx ∧ n.commitIndex < idx ∧
    idx ≤ n.log.lastLogIndex

theorem committedAt_iff_groups (n : Node ι) (idx : Nat) : n.committedAt idx = true ↔
    ∀ g ∈ n.countedGroups, n.replicatedOnMajority idx g.members g.includeSelf g.selfVoter = true := by
  unfold committedAt countedGroups
  cases n.membership.jointOld <;> simp

/-- A commit quorum of the group is counted, the witnesses only while a full voter is down. -/
def QuorumCounted (n : Node ι) (idx : Nat) (g : CountedGroup ι) : Prop :=
  n.membership.quorumNeeded .commitQuorum g.voters ≤ (if n.selfHolds idx g then 1 else 0) +
    (g.members.countP fun p => p.voter && !p.witness && n.acknowledged idx p) +
    if n.fullDown idx g then
      g.members.countP fun p => p.voter && p.witness && n.acknowledged idx p
    else 0

theorem replicated_iff {g : CountedGroup ι} :
    n.replicatedOnMajority idx g.members g.includeSelf g.selfVoter = true ↔ n.QuorumCounted idx g ∧
      n.spansEnoughZones idx g.members g.includeSelf g.selfVoter = true := by
  simp [replicatedOnMajority, QuorumCounted, CountedGroup.voters, fullDown, selfHolds, acknowledged,
    and_assoc]

theorem replicated_iff_witnessesSuffice {g : CountedGroup ι} (h : n.fullHolds idx g = false) :
    n.replicatedOnMajority idx g.members g.includeSelf g.selfVoter = true ↔
      n.WitnessesSuffice idx g := by
  obtain ⟨hself, hpeers⟩ : (n.selfHolds idx g && !n.cfg.witness) = false ∧
      (g.members.any fun p => p.voter && !p.witness && n.acknowledged idx p) = false := by
    simpa [fullHolds, Bool.or_eq_false_iff] using h
  have hfull : (g.members.countP fun p => p.voter && !p.witness && n.acknowledged idx p) = 0 := by
    rw [List.countP_eq_zero]
    intro p hp hcon
    exact Bool.false_ne_true (hpeers.symm.trans (List.any_eq_true.mpr ⟨p, hp, hcon⟩))
  have hown : n.selfHolds idx g = (n.selfHolds idx g && n.cfg.witness) := by
    cases hw : n.cfg.witness
    · -- this node is full, so it does not hold the index
      simpa [hw] using hself
    · simp
  rw [replicated_iff, QuorumCounted, WitnessesSuffice, witnessCount, hfull, Nat.add_zero, ← hown]

omit [DecidableEq ι] in
theorem commitIndex_maybeRecordCommit (n : Node ι) : n.maybeRecordCommit.commitIndex = n.commitIndex := by
  unfold maybeRecordCommit
  dsimp only
  split_ifs <;> rfl

omit [DecidableEq ι] in
theorem commitIndex_notifyApply (n : Node ι) : n.notifyApply.commitIndex = n.commitIndex := by
  unfold notifyApply
  dsimp only
  split_ifs <;> rfl

omit [DecidableEq ι] in
theorem commitIndex_startReadBatch (n : Node ι) : n.startReadBatch.commitIndex = n.commitIndex := by
  unfold startReadBatch
  dsimp only
  split_ifs <;> rfl

theorem commitIndex_maybeAdvanceCommit (n : Node ι) : n.maybeAdvanceCommit.commitIndex =
    if n.state = .leader ∧ n.termStartIndex ≠ 0 then
      (n.highestCommitted (max (n.commitIndex + 1) n.termStartIndex)).getD n.commitIndex
    else n.commitIndex := by
  unfold maybeAdvanceCommit
  by_cases hlead : n.state = .leader ∧ n.termStartIndex ≠ 0
  · rw [if_neg (by simpa [not_or] using hlead), if_pos hlead]
    cases hidx : n.highestCommitted (max (n.commitIndex + 1) n.termStartIndex) with
    | none => rfl
    | some idx =>
      have hmem := List.mem_of_find?_eq_some hidx
      rw [List.mem_reverse, List.mem_range'_1] at hmem
      have hset : (n.setCommitIndex idx).notifyApply.commitIndex = idx := by
        rw [commitIndex_notifyApply, setCommitIndex, if_neg (by omega), commitIndex_maybeRecordCommit]
      dsimp only [Option.getD_some]
      split_ifs
      · exact hset
      · exact hset
      · exact (commitIndex_startReadBatch _).trans hset
  · rw [if_pos (by tauto), if_neg hlead]

theorem le_highestCommitted {lo : Nat} (hlo : lo ≤ idx) (hhi : idx ≤ n.log.lastLogIndex)
    (h : n.committedAt idx = true) : ∃ top, n.highestCommitted lo = some top ∧ idx ≤ top := by
  unfold highestCommitted
  have hmem : idx ∈ List.range' lo (n.log.lastLogIndex + 1 - lo) := by
    rw [List.mem_range'_1]
    omega
  generalize n.log.lastLogIndex + 1 - lo = len at hmem
  -- the scan runs downwards, so the range is taken apart at its end
  induction len with
  | zero => simp at hmem
  | succ len ih =>
    rw [List.range'_concat, List.reverse_append, List.reverse_singleton, List.singleton_append,
      List.find?_cons]
    have hle := List.mem_range'_1.mp hmem
    cases hlast : n.committedAt (lo + 1 * len) with
    | true => exact ⟨lo + 1 * len, rfl, by omega⟩
    | false =>
      refine ih (List.mem_range'_1.mpr ⟨hle.1, ?_⟩)
      have hne : idx ≠ lo + 1 * len := by
        rintro rfl
        exact Bool.false_ne_true (hlast.symm.trans h)
      omega

theorem commits_iff (n : Node ι) (P : Nat → Prop) :
    (∀ idx, n.commitIndex < idx → idx ≤ n.maybeAdvanceCommit.commitIndex → P idx) ↔
      ∀ top, n.MayCommit top → n.committedAt top = true →
        ∀ idx, n.commitIndex < idx → idx ≤ top → P idx := by
  constructor
  · rintro hall top ⟨hlead, hstart, hlo, hgt, hhi⟩ hcommitted idx hidx hle
    have hfrom : max (n.commitIndex + 1) n.termStartIndex ≤ top := by omega
    obtain ⟨highest, hhighest, hle'⟩ := le_highestCommitted hfrom hhi hcommitted
    refine hall idx hidx ?_
    rw [commitIndex_maybeAdvanceCommit, if_pos ⟨hlead, hstart⟩, hhighest]
    exact hle.trans hle'
  · intro hcond idx hgt hle
    rw [commitIndex_maybeAdvanceCommit] at hle
    split_ifs at hle with hlead
    · cases htop : n.highestCommitted (max (n.commitIndex + 1) n.termStartIndex) with
      | none =>
        rw [htop, Option.getD_none] at hle
        omega
      | some top =>
        rw [htop, Option.getD_some] at hle
        have hmem := List.mem_of_find?_eq_some htop
        rw [List.mem_reverse, List.mem_range'_1] at hmem
        exact hcond top ⟨hlead.1, hlead.2, by omega, by omega, by omega⟩ (List.find?_some htop) idx
          hgt hle
    · omega

theorem committedAt_iff_witnessesSuffice (hnot : ¬ n.HeldByFull idx) :
    n.committedAt idx = true ↔ ∀ g ∈ n.countedGroups, n.WitnessesSuffice idx g := by
  rw [committedAt_iff_groups]
  refine forall₂_congr fun g hg => replicated_iff_witnessesSuffice ?_
  exact Bool.eq_false_of_not_eq_true fun hcon => hnot ⟨g, hg, hcon⟩

/-- How many zones a group is credited with, whatever its voters keep of an entry. -/
def creditedZones (n : Node ι) (idx : Nat) (g : CountedGroup ι) : Nat :=
  (((if n.selfHolds idx g then [n.cfg.id] else []) ++ (g.members.filter fun p =>
    p.voter && n.acknowledged idx p).map (·.id)).filterMap n.cfg.zones).dedup.length

theorem spansEnoughZones_iff {g : CountedGroup ι} :
    n.spansEnoughZones idx g.members g.includeSelf g.selfVoter = true ↔
      n.cfg.minCommitZones ≤ 1 ∨ n.cfg.minCommitZones ≤ n.creditedZones idx g := by
  unfold spansEnoughZones
  by_cases hmin : n.cfg.minCommitZones ≤ 1
  · simp [hmin]
  · simp [hmin, creditedZones, selfHolds, acknowledged, and_assoc]

/-! ## Witnesses by themselves -/

/-- A full voter of one of the counted groups. -/
def isFullVoter (n : Node ι) (i : ι) : Bool :=
  n.countedGroups.any fun g => g.members.any fun p => p.voter && !p.witness && decide (p.id = i)

/-- The voters of a group that keep no commands, as far as all counted groups go. -/
def onlyWitnesses (n : Node ι) (g : CountedGroup ι) : List (PeerConfig ι) :=
  g.members.filter fun p => p.voter && p.witness && !n.isFullVoter p.id

def selfWitness (n : Node ι) (g : CountedGroup ι) : Bool :=
  g.includeSelf && g.selfVoter && n.cfg.witness

/-- The witnesses of a group count as a commit quorum, once its full voters are down, and are in
enough zones. -/
def WitnessesCommit (n : Node ι) (g : CountedGroup ι) : Prop :=
  n.membership.quorumNeeded .commitQuorum g.voters ≤ (if n.selfWitness g then 1 else 0) +
    (if g.members.any fun p => p.voter && !p.witness then (n.onlyWitnesses g).length else 0) ∧
  (n.cfg.minCommitZones ≤ 1 ∨ n.cfg.minCommitZones ≤
    (((if n.selfWitness g then [n.cfg.id] else []) ++ (n.onlyWitnesses g).map (·.id)).filterMap
      n.cfg.zones).dedup.length)

theorem dedup_length_mono {α : Type} [DecidableEq α] {xs ys : List α} (h : xs ⊆ ys) :
    xs.dedup.length ≤ ys.dedup.length := by
  refine ((List.nodup_dedup _).subperm fun x hx => ?_).length_le
  exact List.mem_dedup.mpr (h (List.mem_dedup.mp hx))

section NotHeld

variable {g : CountedGroup ι} (hnot : ¬ n.HeldByFull idx)

include hnot

theorem isFullVoter_of_not_held {p : PeerConfig ι} (hack : n.acknowledged idx p = true) :
    n.isFullVoter p.id = false := by
  refine Bool.eq_false_of_not_eq_true fun hfull => hnot ?_
  simp only [isFullVoter, List.any_eq_true, Bool.and_eq_true, decide_eq_true_eq] at hfull
  obtain ⟨g, hg, q, hq, hvoter, hid⟩ := hfull
  rw [acknowledged, ← hid] at hack
  exact ⟨g, hg, Bool.or_eq_true_iff.mpr (.inr (List.any_eq_true.mpr
    ⟨q, hq, by rw [Bool.and_eq_true, Bool.and_eq_true]; exact ⟨hvoter, hack⟩⟩))⟩

omit [DecidableEq ι] in
theorem selfHolds_of_not_held (hg : g ∈ n.countedGroups) :
    n.selfHolds idx g = true → n.selfWitness g = true := by
  intro hself
  have hwitness : n.cfg.witness = true := by
    by_contra hfull
    exact hnot ⟨g, hg, by simp [fullHolds, hself, hfull]⟩
  simp only [selfHolds, Bool.and_eq_true] at hself
  simp [selfWitness, hself.1, hwitness]

/-- What the witnesses are by themselves bounds what they contribute in any state. -/
theorem WitnessesSuffice.witnessesCommit (hg : g ∈ n.countedGroups) (h : n.WitnessesSuffice idx g) :
    n.WitnessesCommit g := by
  obtain ⟨hcount, hzones⟩ := h
  have hself := selfHolds_of_not_held hnot hg
  constructor
  · refine hcount.trans (Nat.add_le_add ?_ ?_)
    · split_ifs <;> simp_all
    · unfold fullDown onlyWitnesses
      split_ifs with hdown hany
      · rw [← List.countP_eq_length_filter]
        refine List.countP_mono_left fun p _ hp => ?_
        rw [Bool.and_eq_true] at hp ⊢
        exact ⟨hp.1, by simp [isFullVoter_of_not_held hnot hp.2]⟩
      · obtain ⟨p, hp, hdown⟩ := List.any_eq_true.mp hdown
        simp only [Bool.and_eq_true] at hdown
        exact absurd (List.any_eq_true.mpr ⟨p, hp, by simp [hdown.1.1]⟩) hany
      · exact Nat.zero_le _
      · exact le_rfl
  · refine (spansEnoughZones_iff.mp hzones).imp_right fun hmany => hmany.trans ?_
    refine dedup_length_mono (List.filterMap_subset _ fun i hi => ?_)
    rcases List.mem_append.mp hi with hi | hi
    · refine List.mem_append_left _ ?_
      split_ifs at hi with hholds
      · rwa [if_pos (hself hholds)]
      · cases hi
    · obtain ⟨p, hp, rfl⟩ := List.mem_map.mp hi
      obtain ⟨hp, hvoter⟩ := List.mem_filter.mp hp
      rw [Bool.and_eq_true] at hvoter
      have hfull := isFullVoter_of_not_held hnot hvoter.2
      refine List.mem_append_right _ (List.mem_map_of_mem (List.mem_filter.mpr ⟨hp, ?_⟩))
      -- a voter that is no witness would be full
      have hwitness : p.witness = true := by
        by_contra hno
        refine Bool.false_ne_true (hfull.symm.trans (List.any_eq_true.mpr ⟨g, hg, ?_⟩))
        exact List.any_eq_true.mpr ⟨p, hp, by simp [hvoter.1, hno]⟩
      simp [hvoter.1, hwitness, hfull]

end NotHeld

/-- The leader has one entry, which all have acknowledged but the full voters, and these are down. -/
def witnessesAlone (n : Node ι) : Node ι :=
  { n with
    state := .leader
    termStartIndex := 1
    commitIndex := 0
    log := { n.log with
      snapMeta := ⟨0, 0⟩, last := 1, segs := [], durable := if n.cfg.witness then 1 else 0 }
    matchIndex := fun i => if n.isFullVoter i then none else some 1
    peerDown := n.countedGroups.flatMap fun g => g.members.map (·.id) }

theorem stableIndex_witnessesAlone (n : Node ι) :
    n.witnessesAlone.log.stableIndex = if n.cfg.witness then 1 else 0 := by
  cases hw : n.cfg.witness <;>
    simp [witnessesAlone, RaftLog.stableIndex, RaftLog.unstableFirst, RaftLog.lastLogIndex, hw]

theorem acknowledged_witnessesAlone (n : Node ι) (p : PeerConfig ι) :
    n.witnessesAlone.acknowledged 1 p = !n.isFullVoter p.id := by
  cases hf : n.isFullVoter p.id <;> simp [acknowledged, witnessesAlone, lookup, hf]

theorem selfHolds_witnessesAlone (n : Node ι) (g : CountedGroup ι) :
    n.witnessesAlone.selfHolds 1 g = n.selfWitness g := by
  rw [selfHolds, stableIndex_witnessesAlone, selfWitness]
  cases n.cfg.witness <;> simp

theorem isFullVoter_of_mem {g : CountedGroup ι} (hg : g ∈ n.countedGroups) {p : PeerConfig ι}
    (hp : p ∈ g.members) (hvoter : (p.voter && !p.witness) = true) : n.isFullVoter p.id = true :=
  List.any_eq_true.mpr ⟨g, hg, List.any_eq_true.mpr ⟨p, hp, by simp [hvoter]⟩⟩

theorem not_heldByFull_witnessesAlone (n : Node ι) : ¬ n.witnessesAlone.HeldByFull 1 := by
  rintro ⟨g, hg, hholds⟩
  have hg : g ∈ n.countedGroups := hg
  rw [fullHolds, selfHolds_witnessesAlone] at hholds
  rcases Bool.or_eq_true_iff.mp hholds with hself | hpeer
  · cases hw : n.cfg.witness <;> simp [selfWitness, witnessesAlone, hw] at hself
  · obtain ⟨p, hp, hack⟩ := List.any_eq_true.mp hpeer
    rw [Bool.and_eq_true, acknowledged_witnessesAlone] at hack
    rw [isFullVoter_of_mem hg hp hack.1] at hack
    exact Bool.false_ne_true hack.2

theorem committedAt_witnessesAlone (h : ∀ g ∈ n.countedGroups, n.WitnessesCommit g) :
    n.witnessesAlone.committedAt 1 = true := by
  refine (committedAt_iff_witnessesSuffice n.not_heldByFull_witnessesAlone).mpr fun g hg => ?_
  have hg : g ∈ n.countedGroups := hg
  obtain ⟨hcount, hzones⟩ := h g hg
  constructor
  · refine hcount.trans (Nat.add_le_add ?_ ?_)
    · rw [selfHolds_witnessesAlone]
      cases hw : n.selfWitness g
      · simp
      · simp_all [selfWitness, witnessesAlone]
    · split_ifs with hany hdown hdown
      · rw [onlyWitnesses, ← List.countP_eq_length_filter]
        exact List.countP_mono_left fun p _ hp => by rwa [acknowledged_witnessesAlone]
      · obtain ⟨p, hp, hfull⟩ := List.any_eq_true.mp hany
        refine absurd (List.any_eq_true.mpr ⟨p, hp, ?_⟩) hdown
        rw [acknowledged_witnessesAlone, hfull, isFullVoter_of_mem hg hp hfull]
        simpa [witnessesAlone] using ⟨g, hg, p, hp, rfl⟩
      · exact Nat.zero_le _
      · exact le_rfl
  · refine spansEnoughZones_iff.mpr (hzones.imp_right fun hmany => hmany.trans ?_)
    rw [creditedZones, selfHolds_witnessesAlone]
    refine dedup_length_mono (List.filterMap_subset _ fun i hi => ?_)
    refine (List.mem_append.mp hi).elim (List.mem_append_left _) fun hi => List.mem_append_right _ ?_
    obtain ⟨p, hp, rfl⟩ := List.mem_map.mp hi
    obtain ⟨hp, hwitness⟩ := List.mem_filter.mp hp
    simp only [Bool.and_eq_true] at hwitness
    refine List.mem_map_of_mem (List.mem_filter.mpr ⟨hp, ?_⟩)
    rw [acknowledged_witnessesAlone, hwitness.1.1, hwitness.2]
    rfl

def wholeForWitness (n : Node ι) (idx : Nat) : Bool :=
  n.log.contents.any fun e => decide (e.index = idx ∧ stripForWitness [e] = [e])

/-- The voters of a group that have the command at `idx` on disk. -/
def copyHolders (n : Node ι) (idx : Nat) (g : CountedGroup ι) : List ι :=
  (if n.selfHolds idx g then [n.cfg.id] else []) ++ (g.members.filter fun p =>
    p.voter && n.acknowledged idx p && (!p.witness || n.wholeForWitness idx)).map (·.id)

def copyZones (n : Node ι) (idx : Nat) : Nat :=
  ((n.countedGroups.flatMap (n.copyHolders idx)).filterMap n.cfg.zones).dedup.length

/-- In the zone of a witness that has acknowledged what is not committed, a full voter of the group
or the leader has acknowledged as much. -/
def ZonesCovered (n : Node ι) (g : CountedGroup ι) : Prop :=
  ∀ p ∈ g.members, p.voter = true → p.witness = true →
    n.commitIndex < lookup n.matchIndex p.id → ∀ z ∈ n.cfg.zones p.id,
      n.selfHolds (lookup n.matchIndex p.id) g = true ∧ n.cfg.zones n.cfg.id = some z ∨
      ∃ q ∈ g.members, (q.voter = true ∧ q.witness = false) ∧ n.cfg.zones q.id = some z ∧
        lookup n.matchIndex p.id ≤ lookup n.matchIndex q.id

theorem ZonesCovered.creditedZones_le {top : Nat} {g : CountedGroup ι} (h : n.ZonesCovered g)
    (hg : g ∈ n.countedGroups) (hidx : n.commitIndex < idx) (hle : idx ≤ top) :
    n.creditedZones top g ≤ n.copyZones idx := by
  have hholds : ∀ i ∈ n.copyHolders idx g, ∀ z, n.cfg.zones i = some z →
      z ∈ (n.countedGroups.flatMap (n.copyHolders idx)).filterMap n.cfg.zones := fun i hi z hz =>
    List.mem_filterMap.mpr ⟨i, List.mem_flatMap.mpr ⟨g, hg, hi⟩, hz⟩
  have hself : ∀ {m}, idx ≤ m → n.selfHolds m g = true → n.cfg.id ∈ n.copyHolders idx g := by
    intro m hm hself
    simp only [selfHolds, Bool.and_eq_true, decide_eq_true_eq] at hself
    refine List.mem_append_left _ ?_
    rw [if_pos (by simp [selfHolds, hself.1]; omega)]
    exact List.mem_singleton_self _
  have hfull : ∀ q ∈ g.members, q.voter = true ∧ q.witness = false →
      idx ≤ lookup n.matchIndex q.id → q.id ∈ n.copyHolders idx g := by
    intro q hq hvoter hack
    refine List.mem_append_right _ (List.mem_map_of_mem (List.mem_filter.mpr ⟨hq, ?_⟩))
    simp [hvoter, acknowledged, hack]
  refine dedup_length_mono fun z hz => ?_
  obtain ⟨i, hi, hz⟩ := List.mem_filterMap.mp hz
  rcases List.mem_append.mp hi with hi | hi
  · split_ifs at hi with hholds'
    · cases List.mem_singleton.mp hi
      exact hholds _ (hself hle hholds') z hz
    · cases hi
  · obtain ⟨p, hp, rfl⟩ := List.mem_map.mp hi
    obtain ⟨hp, hack⟩ := List.mem_filter.mp hp
    simp only [acknowledged, Bool.and_eq_true, decide_eq_true_eq] at hack
    cases hw : p.witness with
    | false => exact hholds _ (hfull p hp ⟨hack.1, hw⟩ (by omega)) z hz
    | true =>
      rcases h p hp hack.1 hw (by omega) z hz with ⟨hown, hzone⟩ | ⟨q, hq, hvoter, hzone, hmatch⟩
      · exact hholds _ (hself (by omega) hown) z hzone
      · exact hholds _ (hfull q hq hvoter (by omega)) z hzone

/-- Nodes 3 and 4 are never reached, and the witness, node 2, is in one zone with node 1. -/
def answeredFromZones : Sys (Fin 5) :=
  (Sys.start (fun i => { Config.ofSize 5 i with
      witness := i == 2
      peers := ((List.finRange 5).filter (· ≠ i)).map fun j => ⟨j, true, j == 2⟩
      minCommitZones := 2
      zones := fun j => some (min j.val 1) })
    fun _ => .empty).run [.tick 1, .tick 1, .tick 2, .tick 2, .tick 0, .tick 0, .deliver 0 0,
      .deliver 0 1, .deliver 1 4, .deliver 2 0, .execute 0 none, .complete 0, .deliver 0 4,
      .deliver 0 5, .execute 1 none, .complete 1, .execute 2 none, .complete 2, .deliver 1 5,
      .deliver 2 1, .propose 0 [.user [7]], .execute 0 none, .complete 0, .deliver 0 12,
      .deliver 0 13, .execute 1 none, .complete 1, .execute 2 none, .complete 2, .deliver 1 6,
      .deliver 2 2, .dropped 0 10, .dropped 0 14, .tick 0, .dropped 0 18]

end Node

def Config.zonesSuffice (c : Config ι) : Bool :=
  c.minCommitZones ≤ 1 || c.minCommitZones ≤ (((if c.voter then [c.id] else []) ++
    (c.peers.filter (·.voter)).map (·.id)).filterMap c.zones).dedup.length

namespace Sys

def witnessHeavy (i : Fin 5) : Config (Fin 5) :=
  { Config.ofSize 5 i with
    witness := decide (2 ≤ i.val)
    peers := ((List.finRange 5).filter (· ≠ i)).map fun j => ⟨j, true, decide (2 ≤ j.val)⟩ }

/-- Node 0's entries reach the three witnesses and never node 1, and its own writes are
queued. -/
def acknowledgedByWitnesses : List (Action (Fin 5)) :=
  [.tick 2, .tick 2, .tick 3, .tick 3, .tick 0, .tick 0, .deliver 0 1, .deliver 0 2, .deliver 2 0,
    .deliver 3 0, .execute 0 none, .complete 0, .deliver 0 5, .deliver 0 6, .execute 2 none,
    .complete 2, .execute 3 none, .complete 3, .deliver 2 1, .deliver 3 1, .propose 0 [.user [7]],
    .dropped 0 8, .dropped 0 12, .tick 0, .deliver 0 13, .deliver 0 14, .deliver 0 15,
    .execute 2 none, .execute 3 none, .execute 4 none, .execute 4 none, .complete 2, .complete 3,
    .complete 4, .deliver 2 2, .deliver 3 2, .deliver 4 0, .dropped 0 16]

def zoned (i : Fin 5) : Config (Fin 5) :=
  { witnessHeavy i with minCommitZones := 2, zones := fun j => some j.val }

end Sys

end Raft
