import Raft.Turn.Membership

/-!
# Batches of proposals

A leader turns proposals into a batch of entries, with up to two in front that it adds by
itself: one for the bound of the client table and one for the commit quorum.  It has noted
those two in its membership before it notes the whole batch.

## Main results

* `Membership.noteAppendedConfig_eq`: what appended entries say about counting.
* `Node.batch_contiguous`: the numbering of a batch.
* `Node.handleProposals_cases`: proposals leave the node as it is, or append their batch.
* `Node.handleProposals_moves`: the turn as a sequence of moves.
-/

namespace Raft

variable {ι : Type} {es : List (LogEntry ι)}

def Command.quorum : Command ι → Option Nat
  | .config (.commitQuorum q) => some q
  | _ => none

theorem Command.quorum_eq_some {cmd : Command ι} {q : Nat} (h : cmd.quorum = some q) :
    cmd = .config (.commitQuorum q) := by
  cases cmd with
  | user payload => cases h
  | config op =>
    cases op <;> cases h
    rfl

def Command.setsCap : Command ι → Bool
  | .config (.clientTableCap _) => true
  | _ => false

def lastQuorum (es : List (LogEntry ι)) : Option Nat :=
  (es.filterMap (·.command.quorum)).getLast?

theorem lastQuorum_append (es es' : List (LogEntry ι)) :
    lastQuorum (es ++ es') = (lastQuorum es').or (lastQuorum es) := by
  rw [lastQuorum, List.filterMap_append, List.getLast?_append]
  rfl

theorem lastQuorum_cons (e : LogEntry ι) (es : List (LogEntry ι)) :
    lastQuorum (e :: es) = (lastQuorum es).or e.command.quorum := by
  rw [← List.singleton_append, lastQuorum_append]
  congr 1
  rw [lastQuorum, List.filterMap_cons]
  cases e.command.quorum <;> rfl

theorem lastQuorum_eq_none : lastQuorum es = none ↔ ∀ e ∈ es, e.command.quorum = none := by
  rw [lastQuorum, List.getLast?_eq_none_iff, List.filterMap_eq_nil_iff]

theorem exists_of_lastQuorum {q : Nat} (h : lastQuorum es = some q) :
    ∃ e ∈ es, e.command = .config (.commitQuorum q) := by
  obtain ⟨e, he, hq⟩ := List.mem_filterMap.mp (List.mem_of_getLast? h)
  exact ⟨e, he, Command.quorum_eq_some hq⟩

namespace Membership

variable (m : Membership ι)

theorem noteAppendedConfig_eq (es : List (LogEntry ι)) :
    m.noteAppendedConfig es = { m with
      commitQuorumLatest := (lastQuorum es).getD m.commitQuorumLatest
      clientTableCapReplicated := m.clientTableCapReplicated || es.any (·.command.setsCap) } := by
  unfold noteAppendedConfig
  induction es generalizing m with
  | nil => simp [lastQuorum]
  | cons e es ih =>
    rw [List.foldl_cons, ih, lastQuorum_cons, List.any_cons]
    cases hcmd : e.command with
    | user payload => simp [Command.quorum, Command.setsCap]
    | config op =>
      cases op <;> simp [Command.quorum, Command.setsCap]

theorem noteAppendedConfig_append (es es' : List (LogEntry ι)) :
    m.noteAppendedConfig (es ++ es') = (m.noteAppendedConfig es).noteAppendedConfig es' :=
  List.foldl_append

theorem noteAppendedConfig_again (es : List (LogEntry ι)) :
    (m.noteAppendedConfig es).noteAppendedConfig es = m.noteAppendedConfig es := by
  simp only [noteAppendedConfig_eq, Bool.or_assoc, Bool.or_self]
  cases lastQuorum es <;> rfl

end Membership

namespace Node

/-- Entries the leader is about to append by itself, and the node that has noted them. -/
structure Prepares (n : Node ι) (es : List (LogEntry ι)) (n' : Node ι) : Prop where
  frame : ∃ c q i, n' = { n with
    capEntryPending := c, quorumEntryPending := q, pendingConfigIndex := i
    membership := n.membership.noteAppendedConfig es }
  same : es = [] → n' = n
  term : ∀ e ∈ es, e.term = n.currentTerm

variable {n : Node ι} {cmds : List (Command ι)}

theorem Prepares.trans {m n' : Node ι} {es' : List (LogEntry ι)} (h : Prepares n es m)
    (h' : Prepares m es' n') : Prepares n (es ++ es') n' := by
  obtain ⟨c, q, i, rfl⟩ := h.frame
  obtain ⟨c', q', i', rfl⟩ := h'.frame
  refine ⟨⟨c', q', i', ?_⟩, fun hnil => ?_, fun e he => ?_⟩
  · rw [Membership.noteAppendedConfig_append]
  · obtain ⟨hnil, hnil'⟩ := List.append_eq_nil_iff.mp hnil
    exact (h'.same hnil').trans (h.same hnil)
  · exact (List.mem_append.mp he).elim (h.term e) (h'.term e)

theorem proposeCap_spec (n : Node ι) (cmds : List (Command ι)) :
    Prepares n (n.proposeCap cmds).1 (n.proposeCap cmds).2 ∧
      Contiguous (n.log.lastLogIndex + 1) (n.proposeCap cmds).1 ∧
      ∀ e ∈ (n.proposeCap cmds).1, ∃ c, e.command = .config (.clientTableCap c) := by
  unfold proposeCap
  split_ifs
  · exact ⟨⟨⟨_, _, _, rfl⟩, by simp, by simp⟩, .singleton _, by simp⟩
  · exact ⟨⟨⟨_, _, _, rfl⟩, fun _ => rfl, by simp⟩, .nil _, by simp⟩

theorem proposeQuorum_spec (n : Node ι) :
    Prepares n n.proposeQuorum.1 n.proposeQuorum.2 ∧
      Contiguous (n.log.lastLogIndex + 1) n.proposeQuorum.1 ∧
      ∀ e ∈ n.proposeQuorum.1, e.command = .config (.commitQuorum n.cfg.commitQuorum) ∧
        n.cfg.commitQuorum ≠ 0 ∧ n.membership.commitQuorumAgreed = false := by
  unfold proposeQuorum
  split_ifs with hset
  · obtain ⟨hq, hagreed, -⟩ := hset
    have hagreed' : n.membership.commitQuorumAgreed = false := by simpa using hagreed
    exact ⟨⟨⟨_, _, _, rfl⟩, by simp, by simp⟩, .singleton _, by simp [hq, hagreed']⟩
  · exact ⟨⟨⟨_, _, _, rfl⟩, fun _ => rfl, by simp⟩, .nil _, by simp⟩

def prepared (n : Node ι) (cmds : List (Command ι)) : Node ι := (n.proposeCap cmds).2.proposeQuorum.2

/-- The entries a leader puts in front of a batch. -/
def ownEntries (n : Node ι) (cmds : List (Command ι)) : List (LogEntry ι) :=
  (n.proposeCap cmds).1 ++ (n.proposeCap cmds).2.proposeQuorum.1

theorem prepared_prepares (n : Node ι) (cmds : List (Command ι)) :
    Prepares n (n.ownEntries cmds) (n.prepared cmds) :=
  (proposeCap_spec n cmds).1.trans (proposeQuorum_spec _).1

theorem proposeQuorum_after_cap {e : LogEntry ι} (he : e ∈ (n.proposeCap cmds).2.proposeQuorum.1) :
    e.command = .config (.commitQuorum n.cfg.commitQuorum) ∧ n.cfg.commitQuorum ≠ 0 ∧
      n.membership.commitQuorumAgreed = false := by
  obtain ⟨⟨⟨c, q, i, hcap⟩, -, -⟩, -⟩ := proposeCap_spec n cmds
  have hcmd := (proposeQuorum_spec (n.proposeCap cmds).2).2.2 e he
  rwa [hcap, Membership.noteAppendedConfig_eq] at hcmd

theorem command_of_ownEntries {e : LogEntry ι} (he : e ∈ n.ownEntries cmds) :
    (∃ c, e.command = .config (.clientTableCap c)) ∨
      e.command = .config (.commitQuorum n.cfg.commitQuorum) ∧ n.cfg.commitQuorum ≠ 0 ∧
        n.membership.commitQuorumAgreed = false :=
  (List.mem_append.mp he).imp ((proposeCap_spec n cmds).2.2 e) proposeQuorum_after_cap

/-- No bound of the client table is known, and a command of the batch needs one. -/
def CapDue (n : Node ι) (cmds : List (Command ι)) : Prop :=
  n.membership.clientTableCapReplicated = false ∧ n.capEntryPending = 0 ∧ ∃ cmd ∈ cmds, cmd.isDedupCmd = true
  deriving Decidable

/-- A commit quorum is configured, none is known, and no change is under way. -/
def QuorumDue (n : Node ι) : Prop :=
  n.cfg.commitQuorum ≠ 0 ∧ n.membership.commitQuorumAgreed = false ∧
    n.membership.commitQuorumLatest = 0 ∧ n.quorumEntryPending = 0 ∧ n.pendingConfigIndex = 0
  deriving Decidable

theorem proposeCap_eq_nil : (n.proposeCap cmds).1 = [] ↔ ¬ n.CapDue cmds := by
  simp only [proposeCap, CapDue]
  split_ifs with hdue <;> simp_all

theorem proposeQuorum_eq_nil : n.proposeQuorum.1 = [] ↔ ¬ n.QuorumDue := by
  simp only [proposeQuorum, QuorumDue]
  split_ifs with hdue <;> simp_all

theorem proposeQuorum_proposeCap (n : Node ι) (cmds : List (Command ι)) :
    (n.proposeCap cmds).2.proposeQuorum.1 = n.proposeQuorum.1 := by
  unfold proposeCap
  split_ifs
  · simp only [proposeQuorum]
    split_ifs <;> rfl
  · rfl

/-- A leader does not add two entries by itself: they would share an index. -/
def NumbersApart (n : Node ι) (cmds : List (Command ι)) : Prop := ¬ (n.CapDue cmds ∧ n.QuorumDue)
  deriving Decidable

theorem numbersApart_iff : n.NumbersApart cmds ↔
    (n.proposeCap cmds).1 = [] ∨ (n.proposeCap cmds).2.proposeQuorum.1 = [] := by
  rw [proposeQuorum_proposeCap, proposeCap_eq_nil, proposeQuorum_eq_nil, NumbersApart, not_and_or]

theorem numbersApart_of {inp : Input ι} (hinp : inp = .propose cmds)
    (h : n.cfg.commitQuorum = 0 ∨ n.membership.commitQuorumAgreed = true ∨ inp.Plain) :
    n.NumbersApart cmds := by
  subst hinp
  rintro ⟨⟨-, -, cmd, hcmd, hdedup⟩, hne, hagreed, -⟩
  rcases h with hzero | hknown | hplain
  · exact hne hzero
  · exact absurd (hagreed.symm.trans hknown) (by decide)
  · exact absurd ((hplain cmd hcmd).symm.trans hdedup) (by decide)

variable [Sized ι]

theorem foldl_addToBatch_spec (n : Node ι) (cmds : List (Command ι)) (b : Batch ι) :
    ∃ rest, (cmds.foldl n.addToBatch b).entries = b.entries ++ rest ∧
      (∀ e ∈ rest, e.term = n.currentTerm ∧ e.command ∈ cmds) ∧
      Contiguous (n.log.lastLogIndex + b.entries.length + 1) rest := by
  induction cmds generalizing b with
  | nil => exact ⟨[], by simp, by simp, .nil _⟩
  | cons cmd cmds ih =>
    obtain ⟨rest, heq, hrest, hcont⟩ := ih (n.addToBatch b cmd)
    have hrest' : ∀ e ∈ rest, e.term = n.currentTerm ∧ e.command ∈ cmd :: cmds := fun e he =>
      (hrest e he).imp_right (List.mem_cons_of_mem cmd)
    have hadd : n.addToBatch b cmd = b ∨ (n.addToBatch b cmd).entries =
        b.entries ++ [⟨n.log.lastLogIndex + b.entries.length + 1, n.currentTerm, cmd⟩] := by
      simp only [addToBatch]
      split_ifs
      all_goals first | exact .inl rfl | exact .inr rfl
    rw [List.foldl_cons, heq]
    rcases hadd with hadd | hadd <;> rw [hadd] at hcont ⊢
    · exact ⟨rest, rfl, hrest', hcont⟩
    · have hone := Contiguous.singleton
        (⟨n.log.lastLogIndex + b.entries.length + 1, n.currentTerm, cmd⟩ : LogEntry ι)
      rw [List.length_append, ← Nat.add_assoc, Nat.add_right_comm] at hcont
      exact ⟨_, List.append_assoc .., List.forall_mem_cons.mpr ⟨⟨rfl, List.mem_cons_self⟩, hrest'⟩,
        hone.append hcont⟩

def batch (n : Node ι) (cmds : List (Command ι)) : Batch ι :=
  let p := n.proposeCap cmds
  let q := p.2.proposeQuorum
  cmds.foldl q.2.addToBatch ⟨p.1 ++ q.1, q.2.pendingConfigIndex, n.log.unstableBytes⟩

theorem batch_spec (n : Node ι) (cmds : List (Command ι)) :
    ∃ rest, (n.batch cmds).entries = n.ownEntries cmds ++ rest ∧
      (∀ e ∈ rest, e.term = n.currentTerm ∧ e.command ∈ cmds) ∧
      Contiguous (n.log.lastLogIndex + (n.ownEntries cmds).length + 1) rest := by
  obtain ⟨c, q, i, hprep⟩ := (n.prepared_prepares cmds).frame
  obtain ⟨rest, heq, hrest, hcont⟩ := foldl_addToBatch_spec (n.prepared cmds) cmds
    ⟨n.ownEntries cmds, (n.prepared cmds).pendingConfigIndex, n.log.unstableBytes⟩
  rw [hprep] at hrest hcont
  exact ⟨rest, heq, hrest, hcont⟩

theorem batch_contiguous (hapart : n.NumbersApart cmds) :
    Contiguous (n.log.lastLogIndex + 1) (n.batch cmds).entries := by
  obtain ⟨rest, heq, -, hcont⟩ := n.batch_spec cmds
  rw [heq]
  refine Contiguous.append ?_ (by rwa [Nat.add_right_comm])
  obtain ⟨⟨⟨c, q, i, hcap⟩, -, -⟩, hcapCont, -⟩ := proposeCap_spec n cmds
  obtain ⟨-, hquorumCont, -⟩ := proposeQuorum_spec (n.proposeCap cmds).2
  unfold ownEntries
  rcases numbersApart_iff.mp hapart with hnil | hnil
  · rw [hnil, List.nil_append]
    rwa [show (n.proposeCap cmds).2.log = n.log by rw [hcap]] at hquorumCont
  · rw [hnil, List.append_nil]
    exact hcapCont

def appendBatch (n : Node ι) (cmds : List (Command ι)) : Node ι :=
  { n.prepared cmds with
    pendingConfigIndex := (n.batch cmds).pendingConfigIndex
    membership := (n.prepared cmds).membership.noteAppendedConfig (n.batch cmds).entries
    log := ((n.prepared cmds).log.append (n.batch cmds).entries).2 }

theorem appendBatch_eq (n : Node ι) (cmds : List (Command ι)) : ∃ c q, n.appendBatch cmds = { n with
    capEntryPending := c, quorumEntryPending := q
    pendingConfigIndex := (n.batch cmds).pendingConfigIndex
    membership := n.membership.noteAppendedConfig (n.batch cmds).entries
    log := (n.log.append (n.batch cmds).entries).2 } := by
  obtain ⟨c, q, i, hprep⟩ := (n.prepared_prepares cmds).frame
  obtain ⟨rest, heq, -⟩ := n.batch_spec cmds
  have hnoted : (n.membership.noteAppendedConfig (n.ownEntries cmds)).noteAppendedConfig
      (n.batch cmds).entries = n.membership.noteAppendedConfig (n.batch cmds).entries := by
    rw [heq, Membership.noteAppendedConfig_append, Membership.noteAppendedConfig_again,
      ← Membership.noteAppendedConfig_append]
  refine ⟨c, q, ?_⟩
  rw [appendBatch, hprep, hnoted]

variable [DecidableEq ι]

/-- **Proposals** leave the node as it is, or append their batch; what follows on that keeps
the entries. -/
theorem handleProposals_cases (n : Node ι) (cmds : List (Command ι)) :
    n.handleProposals cmds = n ∧
        (n.state = .leader → n.transferTarget = none → (n.batch cmds).entries = []) ∨
      n.state = .leader ∧ n.transferTarget = none ∧ (n.batch cmds).entries ≠ [] ∧
        ∀ inp, Stays inp (n.appendBatch cmds) (n.handleProposals cmds) := by
  by_cases hno : n.state ≠ .leader ∨ n.transferTarget.isSome
  · refine .inl ⟨if_pos hno, fun hlead hnone => ?_⟩
    simp [hlead, hnone] at hno
  have hbody : n.handleProposals cmds = if (n.batch cmds).entries.isEmpty then n.prepared cmds else
      ((n.appendBatch cmds).afterWrite ((n.prepared cmds).log.append (n.batch cmds).entries).1
        (.proposals ((n.batch cmds).entries.map (·.index))) id).replicateToFollowers.maybeAdvanceCommit :=
    if_neg hno
  push Not at hno
  by_cases hempty : (n.batch cmds).entries = []
  · -- there is nothing of the node's own either
    obtain ⟨rest, heq, -⟩ := n.batch_spec cmds
    have hnone := (List.append_eq_nil_iff.mp (heq.symm.trans hempty)).1
    rw [if_pos (List.isEmpty_iff.mpr hempty), (n.prepared_prepares cmds).same hnone] at hbody
    exact .inl ⟨hbody, fun _ _ => hempty⟩
  · rw [if_neg (by simpa using hempty)] at hbody
    refine .inr ⟨hno.1, by simpa using hno.2, hempty, fun inp => ?_⟩
    rw [hbody]
    obtain ⟨c, q, happend⟩ := n.appendBatch_eq cmds
    have hlead : (n.appendBatch cmds).state = .leader := by
      rw [happend]
      exact hno.1
    have hhold : Stays inp (n.appendBatch cmds) _ := afterWrite_proposals_stays _
      ((n.prepared cmds).log.append (n.batch cmds).entries).1 ((n.batch cmds).entries.map (·.index))
    exact hhold.trans ((replicateToFollowers_stays (hhold.leader hlead)).trans
      (maybeAdvanceCommit_stays _))

variable {inp : Input ι}

theorem handleProposals_moves (n : Node ι) (cmds : List (Command ι)) (hinp : inp = .propose cmds) :
    Moves inp n (n.handleProposals cmds) := by
  rcases n.handleProposals_cases cmds with ⟨heq, -⟩ | ⟨hlead, -, hne, hstays⟩
  · rw [heq]
    exact .refl n
  obtain ⟨rest, hbatch, hrest, -⟩ := n.batch_spec cmds
  have hmem : ∀ e ∈ (n.batch cmds).entries, e ∈ n.ownEntries cmds ∨ e ∈ rest := fun e he =>
    List.mem_append.mp (hbatch ▸ he)
  have hterm : ∀ e ∈ (n.batch cmds).entries, e.term = n.currentTerm := fun e he =>
    (hmem e he).elim ((n.prepared_prepares cmds).term e) fun he => (hrest e he).1
  have hmay : ∀ e ∈ (n.batch cmds).entries, n.MayAppend inp e.command := by
    intro e he
    rcases hmem e he with he | he
    · rcases command_of_ownEntries he with h | h
      · exact .inr (.inl h)
      · exact .inr (.inr (.inl ⟨cmds, hinp, .inr h⟩))
    · exact .inr (.inr (.inl ⟨cmds, hinp, .inl (hrest e he).2⟩))
  have hfollows : ({ n with log := (n.log.append (n.batch cmds).entries).2 } :
      Node ι).MembershipFollows inp (n.membership.noteAppendedConfig (n.batch cmds).entries) := by
    rw [Membership.noteAppendedConfig_eq]
    refine .inr ⟨hinp ▸ trivial, ⟨rfl, rfl, rfl, rfl, rfl, rfl, rfl, rfl⟩, id, ?_, .inl rfl⟩
    cases hlast : lastQuorum (n.batch cmds).entries with
    | none => exact .inl rfl
    | some q =>
      obtain ⟨e, he, hset⟩ := exists_of_lastQuorum hlast
      subst hinp
      refine .inr ?_
      rcases hmem e he with he | he
      · rcases command_of_ownEntries he with ⟨c, h⟩ | ⟨h, hzero, hagreed⟩
        · cases h.symm.trans hset
        · cases h.symm.trans hset
          exact .inr ⟨rfl, hzero, hagreed⟩
      · exact .inl (hset ▸ (hrest e he).2)
  obtain ⟨c, q, happend⟩ := n.appendBatch_eq cmds
  have hmoves : Moves inp n (n.appendBatch cmds) := by
    rw [happend]
    exact .head (.append n _ hlead hne hterm hmay (fun h => batch_contiguous (numbersApart_of hinp h))
      (hinp ▸ trivial)) (.head (.member _ _ hfollows)
        (.head (.pend _ _ (hinp ▸ trivial)) (.quiet rfl rfl)))
  exact hmoves.trans (hstays inp).moves

end Node

end Raft
