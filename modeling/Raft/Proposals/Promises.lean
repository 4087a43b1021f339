import Raft.Membership.Turns

/-!
# Proposals and their promises

A call of Propose waits on a promise.  The leader answers it at once when it refuses the
command or knows its result, and files it under the index of the entry it appends otherwise.

Two entries may come in front of the proposals, one for the bound of the client table and
one for the commit quorum.  When both are due, the second repeats the index of the first,
and the proposals continue one index too late.
-/

namespace Raft

variable {ι : Type}

/-- What a caller of Propose is told. -/
inductive Answer (ι : Type)
  | value (result : List UInt8)
  | notLeader (leader : Option ι)
  | leadershipTransferInProgress
  | configChangeInProgress
  | obsoleteSeqNum
  | writeBacklogFull
  | appendFailed
  | applyFailed
  deriving DecidableEq, Repr

structure Proposal (ι : Type) where
  call : Nat
  cmd : Command ι
  deriving DecidableEq, Repr

/-- The calls that wait, under the indices of their entries, and the answers given so far. -/
structure Promises (ι : Type) where
  pending : List (Nat × Nat)
  answers : List (Nat × Answer ι)
  deriving DecidableEq, Repr

namespace Promises

def none : Promises ι := ⟨[], []⟩

variable (d : Promises ι)

def waiting (index : Nat) : Option Nat := d.pending.lookup index

def reply (call : Nat) (a : Answer ι) : Promises ι :=
  { d with answers := d.answers ++ [(call, a)] }

def register (index call : Nat) : Promises ι :=
  { d with pending := d.pending.filter (·.1 ≠ index) ++ [(index, call)] }

def replyAll (ps : List (Proposal ι)) (a : Answer ι) : Promises ι :=
  ps.foldl (fun d p => d.reply p.call a) d

theorem lookup_filter_ne {l : List (Nat × Nat)} {i j : Nat} (h : i ≠ j) :
    (l.filter (·.1 ≠ j)).lookup i = l.lookup i := by
  induction l with
  | nil => rfl
  | cons p l ih =>
    obtain ⟨k, call⟩ := p
    by_cases hk : k = j
    · subst hk
      have hik : (i == k) = false := by simpa using h
      rw [List.filter_cons_of_neg (by simp), ih, List.lookup_cons, hik]
    · rw [List.filter_cons_of_pos (by simpa using hk), List.lookup_cons, List.lookup_cons, ih]

theorem lookup_filter_eq (l : List (Nat × Nat)) (i : Nat) :
    (l.filter (·.1 ≠ i)).lookup i = .none := by
  rw [List.lookup_eq_none_iff]
  intro p hp
  have hne : p.1 ≠ i := by simpa using (List.mem_filter.mp hp).2
  simpa using hne.symm

theorem waiting_register (index call i : Nat) :
    (d.register index call).waiting i = if i = index then some call else d.waiting i := by
  unfold waiting register
  rw [List.lookup_append]
  split_ifs with h
  · subst h
    rw [lookup_filter_eq]
    simp
  · rw [lookup_filter_ne h]
    have hne : (i == index) = false := by simpa using h
    simp [List.lookup_cons, hne]

theorem answers_replyAll (ps : List (Proposal ι)) (a : Answer ι) :
    (d.replyAll ps a).answers = d.answers ++ ps.map fun p => (p.call, a) := by
  induction ps generalizing d with
  | nil => simp [replyAll]
  | cons p ps ih =>
    change ((d.reply p.call a).replyAll ps a).answers = _
    rw [ih]
    simp [reply]

end Promises

namespace Node

def tableAnswer (n : Node ι) (cmd : Command ι) : Option (Answer ι) :=
  cmd.dedup.bind fun d => (n.clientTable.get d.clientID).bind fun cached =>
    if d.seqNum < cached.seqNum then some .obsoleteSeqNum
    else if d.seqNum = cached.seqNum then some (.value cached.result)
    else none

theorem tableAnswer_isSome (n : Node ι) (cmd : Command ι) :
    (n.tableAnswer cmd).isSome = n.answersFromTable cmd := by
  unfold tableAnswer answersFromTable
  cases cmd.dedup with
  | none => rfl
  | some d =>
    simp only [Option.bind_some, Option.any_some]
    cases n.clientTable.get d.clientID with
    | none => rfl
    | some cached =>
      simp only [Option.bind_some, Option.any_some]
      split_ifs with hlt heq
      · simp [hlt.le]
      · simp [heq]
      · have : ¬ d.seqNum ≤ cached.seqNum := by omega
        simp [this]

variable [Sized ι] {n : Node ι}

def refusal (n : Node ι) (b : Batch ι) (cmd : Command ι) : Option (Answer ι) :=
  if cmd.isConfigEntry ∧ b.pendingConfigIndex ≠ 0 then some .configChangeInProgress
  else match n.tableAnswer cmd with
    | some a => some a
    | none =>
      if 0 < n.unstableLimit ∧ 0 < b.backlog ∧ n.unstableLimit < b.backlog + cmd.len then
        some .writeBacklogFull
      else none

/-- Takes one proposal into the batch and files its promise, or answers it. -/
def file (n : Node ι) (s : Batch ι × Promises ι) (p : Proposal ι) : Batch ι × Promises ι :=
  match n.refusal s.1 p.cmd with
  | some a => (s.1, s.2.reply p.call a)
  | none => (n.addToBatch s.1 p.cmd,
      s.2.register (n.log.lastLogIndex + s.1.entries.length + 1) p.call)

def takeProposals (n : Node ι) (ps : List (Proposal ι)) (d : Promises ι) : Promises ι :=
  if n.state ≠ .leader then d.replyAll ps (.notLeader n.leaderID)
  else if n.transferTarget.isSome then d.replyAll ps .leadershipTransferInProgress
  else
    let (capEntries, m) := n.proposeCap (ps.map (·.cmd))
    let (quorumEntries, m) := m.proposeQuorum
    (ps.foldl m.file
      (⟨capEntries ++ quorumEntries, m.pendingConfigIndex, n.log.unstableBytes⟩, d)).2

theorem addToBatch_cases (n : Node ι) (b : Batch ι) (cmd : Command ι) :
    (∃ a, n.refusal b cmd = some a ∧ n.addToBatch b cmd = b) ∨
      n.refusal b cmd = none ∧ (n.addToBatch b cmd).entries =
        b.entries ++ [⟨n.log.lastLogIndex + b.entries.length + 1, n.currentTerm, cmd⟩] := by
  unfold refusal addToBatch
  rw [← tableAnswer_isSome]
  by_cases hconfig : cmd.isConfigEntry ∧ b.pendingConfigIndex ≠ 0
  · rw [if_pos hconfig, if_pos hconfig]
    exact .inl ⟨_, rfl, rfl⟩
  rw [if_neg hconfig, if_neg hconfig]
  cases htable : n.tableAnswer cmd with
  | some a => exact .inl ⟨a, rfl, rfl⟩
  | none =>
    by_cases hfull : 0 < n.unstableLimit ∧ 0 < b.backlog ∧ n.unstableLimit < b.backlog + cmd.len
    · exact .inl ⟨_, if_pos hfull, if_pos hfull⟩
    · exact .inr ⟨if_neg hfull, congrArg Batch.entries (if_neg hfull)⟩

theorem foldl_file_fst (n : Node ι) (ps : List (Proposal ι)) (s : Batch ι × Promises ι) :
    (ps.foldl n.file s).1 = (ps.map (·.cmd)).foldl n.addToBatch s.1 := by
  induction ps generalizing s with
  | nil => rfl
  | cons p ps ih =>
    rw [List.foldl_cons, ih, List.map_cons, List.foldl_cons]
    congr 1
    unfold file
    rcases n.addToBatch_cases s.1 p.cmd with ⟨a, h, hsame⟩ | ⟨h, -⟩ <;> rw [h]
    exact hsame.symm

/-- **Filing** proposals: those taken continue the batch under their indices, others are
answered. -/
theorem foldl_file_spec (n : Node ι) (ps : List (Proposal ι)) (s : Batch ι × Promises ι) :
    ∃ taken : List (Proposal ι × LogEntry ι),
      (ps.foldl n.file s).1.entries = s.1.entries ++ taken.map (·.2) ∧
      (taken.map (·.1)).Sublist ps ∧
      (∀ t ∈ taken, t.2.term = n.currentTerm ∧ t.2.command = t.1.cmd ∧
        (ps.foldl n.file s).2.waiting t.2.index = some t.1.call) ∧
      (∀ i, i ≤ n.log.lastLogIndex + s.1.entries.length →
        (ps.foldl n.file s).2.waiting i = s.2.waiting i) ∧
      (∀ x ∈ s.2.answers, x ∈ (ps.foldl n.file s).2.answers) ∧
      ∀ p ∈ ps, p ∈ taken.map (·.1) ∨ ∃ a, (p.call, a) ∈ (ps.foldl n.file s).2.answers := by
  induction ps generalizing s with
  | nil => exact ⟨[], by simp, .slnil, by simp, fun _ _ => rfl, fun _ h => h, by simp⟩
  | cons p ps ih =>
    rw [List.foldl_cons]
    obtain ⟨taken, hentries, hsub, htaken, hbelow, hkept, hall⟩ := ih (n.file s p)
    rcases n.addToBatch_cases s.1 p.cmd with ⟨a, h, -⟩ | ⟨h, hbatch⟩
    · have hfile : n.file s p = (s.1, s.2.reply p.call a) := by simp only [file, h]
      rw [hfile] at hentries htaken hbelow hkept hall ⊢
      have hanswered : (p.call, a) ∈ (ps.foldl n.file (s.1, s.2.reply p.call a)).2.answers :=
        hkept _ (List.mem_append_right _ (List.mem_singleton.mpr rfl))
      refine ⟨taken, hentries, hsub.cons p, htaken, hbelow,
        fun x hx => hkept x (List.mem_append_left _ hx),
        List.forall_mem_cons.mpr ⟨.inr ⟨a, hanswered⟩, hall⟩⟩
    · set idx := n.log.lastLogIndex + s.1.entries.length + 1 with hidx
      have hfile : n.file s p = (n.addToBatch s.1 p.cmd, s.2.register idx p.call) := by
        simp only [file, h, hidx]
      rw [hfile] at hentries htaken hbelow hkept hall ⊢
      rw [hbatch] at hentries hbelow
      rw [List.length_append, List.length_singleton] at hbelow
      refine ⟨(p, ⟨idx, n.currentTerm, p.cmd⟩) :: taken, ?_, hsub.cons_cons p, ?_, ?_, hkept, ?_⟩
      · simp [hentries]
      · -- the entries that follow have higher indices, so the promise stays where it is
        refine List.forall_mem_cons.mpr ⟨⟨rfl, rfl, ?_⟩, htaken⟩
        rw [hbelow idx (by omega), Promises.waiting_register, if_pos rfl]
      · intro i hi
        rw [hbelow i (by omega), Promises.waiting_register, if_neg (by omega)]
      · exact List.forall_mem_cons.mpr ⟨.inl List.mem_cons_self,
          fun q hq => (hall q hq).imp_left (List.mem_cons_of_mem p)⟩

variable [DecidableEq ι]

def appended (n : Node ι) (cmds : List (Command ι)) : List (LogEntry ι) :=
  ((n.handleProposals cmds).log.segs.drop n.log.segs.length).flatMap (·.entries)

def TakesProposals (n : Node ι) : Prop := n.state = .leader ∧ n.transferTarget = none
  deriving Decidable

def policyEntries (n : Node ι) (cmds : List (Command ι)) : List (LogEntry ι) :=
  if n.TakesProposals then (n.proposeCap cmds).1 ++ (n.proposeCap cmds).2.proposeQuorum.1 else []

omit [DecidableEq ι] in
theorem append_segs (rl : RaftLog ι) (es : List (LogEntry ι)) :
    ((rl.append es).2.segs.drop rl.segs.length).flatMap (·.entries) = es := by
  unfold RaftLog.append
  cases es with
  | nil => simp
  | cons e es =>
    cases hlast : (e :: es).getLast? with
    | none => simp at hlast
    | some e' => simp [RaftLog.enqueue]

theorem appended_eq (n : Node ι) (cmds : List (Command ι)) :
    n.appended cmds = if n.TakesProposals then (n.batch cmds).entries else [] := by
  have hsame : (n.log.segs.drop n.log.segs.length).flatMap (·.entries) =
      ([] : List (LogEntry ι)) := by simp
  unfold appended
  rcases n.handleProposals_cases cmds with ⟨heq, hnone⟩ | ⟨hlead, htransfer, -, hstays⟩
  · rw [heq, hsame]
    split_ifs with htakes
    · exact (hnone htakes.1 htakes.2).symm
    · rfl
  · -- what follows on the entries leaves the segments alone
    obtain ⟨c, q, happend⟩ := n.appendBatch_eq cmds
    rw [if_pos ⟨hlead, htransfer⟩, (hstays .timer).moves.segs_of_timer, happend]
    exact append_segs n.log _

/-- A batch has consecutive indices, the proposals taken wait under theirs, others are
answered. -/
structure FilesBatch (n : Node ι) (ps : List (Proposal ι)) (d : Promises ι) : Prop where
  term : ∀ e ∈ n.appended (ps.map (·.cmd)), e.term = n.currentTerm
  consecutive : Contiguous (n.log.lastLogIndex + 1) (n.appended (ps.map (·.cmd)))
  registered : ∃ taken : List (Proposal ι × LogEntry ι),
    n.appended (ps.map (·.cmd)) = n.policyEntries (ps.map (·.cmd)) ++ taken.map (·.2) ∧
    (taken.map (·.1)).Sublist ps ∧
    (∀ t ∈ taken, t.2.command = t.1.cmd ∧
      (n.takeProposals ps d).waiting t.2.index = some t.1.call) ∧
    ∀ p ∈ ps, p ∈ taken.map (·.1) ∨ ∃ a, (p.call, a) ∈ (n.takeProposals ps d).answers

theorem filesBatch_of_refuses (h : ¬ n.TakesProposals) (ps : List (Proposal ι)) (d : Promises ι) :
    n.FilesBatch ps d := by
  have hnone : n.appended (ps.map (·.cmd)) = [] := by rw [appended_eq, if_neg h]
  have hreply : ∃ a, n.takeProposals ps d = d.replyAll ps a := by
    unfold takeProposals
    split_ifs with hlead htransfer
    · exact ⟨_, rfl⟩
    · exact ⟨_, rfl⟩
    · exact absurd ⟨not_not.mp hlead, by simpa using htransfer⟩ h
  obtain ⟨a, ha⟩ := hreply
  refine ⟨by simp [hnone], hnone ▸ .nil _, [], ?_, List.nil_sublist _, by simp, fun p hp => ?_⟩
  · rw [hnone, policyEntries, if_neg h]
    rfl
  · refine .inr ⟨a, ?_⟩
    rw [ha, Promises.answers_replyAll]
    exact List.mem_append_right _ (List.mem_map.mpr ⟨p, hp, rfl⟩)

/-- **Taking up proposals**: those that are taken wait under the indices of their entries. -/
theorem takeProposals_spec (htakes : n.TakesProposals) (ps : List (Proposal ι)) (d : Promises ι) :
    ∃ taken : List (Proposal ι × LogEntry ι),
      n.appended (ps.map (·.cmd)) = n.policyEntries (ps.map (·.cmd)) ++ taken.map (·.2) ∧
      (taken.map (·.1)).Sublist ps ∧
      (∀ t ∈ taken, t.2.term = n.currentTerm ∧ t.2.command = t.1.cmd ∧
        (n.takeProposals ps d).waiting t.2.index = some t.1.call) ∧
      ∀ p ∈ ps, p ∈ taken.map (·.1) ∨ ∃ a, (p.call, a) ∈ (n.takeProposals ps d).answers := by
  rw [appended_eq, if_pos htakes, policyEntries, if_pos htakes]
  generalize hcmds : ps.map (·.cmd) = cmds
  obtain ⟨c, q, i, hprep⟩ := (n.prepared_prepares cmds).frame
  set m := n.prepared cmds
  set b : Batch ι := ⟨n.ownEntries cmds, m.pendingConfigIndex, n.log.unstableBytes⟩
  have hbatch : n.batch cmds = (ps.foldl m.file (b, d)).1 := by
    rw [foldl_file_fst, hcmds]
    rfl
  have hdesk : n.takeProposals ps d = (ps.foldl m.file (b, d)).2 := by
    unfold takeProposals
    rw [if_neg (not_not.mpr htakes.1), if_neg (by simp [htakes.2]), hcmds]
    rfl
  obtain ⟨taken, hentries, hsub, htaken, -, -, hall⟩ := foldl_file_spec m ps (b, d)
  rw [hbatch, hdesk]
  refine ⟨taken, hentries, hsub, fun t ht => ?_, hall⟩
  obtain ⟨hterm, hrest⟩ := htaken t ht
  exact ⟨hterm.trans (by rw [hprep]), hrest⟩

/-- **The numbering of a batch** is right exactly when the node does not put both an entry for
the client table and one for the commit quorum in front of it. -/
theorem filesBatch_iff (n : Node ι) (ps : List (Proposal ι)) (d : Promises ι) :
    n.FilesBatch ps d ↔ (n.TakesProposals → n.NumbersApart (ps.map (·.cmd))) := by
  by_cases htakes : n.TakesProposals
  swap
  · exact ⟨fun _ h => absurd h htakes, fun _ => filesBatch_of_refuses htakes ps d⟩
  obtain ⟨taken, hsplit, hsub, htaken, hall⟩ := takeProposals_spec htakes ps d
  have happended : n.appended (ps.map (·.cmd)) = (n.batch (ps.map (·.cmd))).entries := by
    rw [appended_eq, if_pos htakes]
  have hpolicy : n.policyEntries (ps.map (·.cmd)) = n.ownEntries (ps.map (·.cmd)) := if_pos htakes
  constructor
  · intro h _
    by_contra hboth
    rw [numbersApart_iff] at hboth
    push Not at hboth
    -- two entries of its own both carry the index behind the log
    rw [hpolicy] at hsplit
    have hcons := h.consecutive
    rw [hsplit] at hcons
    obtain ⟨e, es, hes⟩ := List.exists_cons_of_ne_nil hboth.1
    obtain ⟨e', es', hes'⟩ := List.exists_cons_of_ne_nil hboth.2
    have hat := hcons (es.length + 1) e' (by simp [ownEntries, hes, hes'])
    obtain ⟨c, q, i, hcap⟩ := (proposeCap_spec n (ps.map (·.cmd))).1.frame
    have hidx := (proposeQuorum_spec (n.proposeCap (ps.map (·.cmd))).2).2.1 0 e' (by simp [hes'])
    rw [show (n.proposeCap (ps.map (·.cmd))).2.log = n.log by rw [hcap]] at hidx
    omega
  · intro happly
    refine ⟨?_, happended ▸ batch_contiguous (happly htakes), taken, hsplit, hsub,
      fun t ht => (htaken t ht).2, hall⟩
    rw [hsplit, hpolicy]
    exact List.forall_mem_append.mpr
      ⟨(n.prepared_prepares _).term, List.forall_mem_map.mpr fun t ht => (htaken t ht).1⟩

end Node

namespace Sys

def undecided : Sys (Fin 3) :=
  start (fun i => { Config.ofSize 3 i with commitQuorum := 2 }) fun _ => .empty

def electsFirst : List (Action (Fin 3)) :=
  [.tick 1, .tick 1, .tick 0, .tick 0, .deliver 0 0, .deliver 1 2, .execute 0 none, .complete 0,
    .deliver 0 2, .execute 1 none, .complete 1, .deliver 1 3]

/-- **An index is repeated and one is skipped**: both entries stand in front of a command. -/
theorem policy_entries_collide :
    (undecided.run electsFirst 0).state = .leader ∧
      (undecided.run electsFirst 0).log.lastLogIndex = 1 ∧
      ((undecided.run electsFirst 0).appended
        [.user (Command.encodeDedupCmd ⟨[1], 1, [7]⟩)]).map (·.index) = [2, 2, 4] ∧
      ¬ (undecided.run electsFirst 0).FilesBatch
        [⟨0, .user (Command.encodeDedupCmd ⟨[1], 1, [7]⟩)⟩] .none := by
  have hleads : (undecided.run electsFirst 0).state = .leader ∧
      (undecided.run electsFirst 0).log.lastLogIndex = 1 := by decide +kernel
  have hindices : ((undecided.run electsFirst 0).appended
      [.user (Command.encodeDedupCmd ⟨[1], 1, [7]⟩)]).map (·.index) = [2, 2, 4] := by decide +kernel
  refine ⟨hleads.1, hleads.2, hindices, fun h => ?_⟩
  have hcons := h.consecutive
  have hsecond := congrArg (·[1]?) hindices
  simp only [List.getElem?_map, Option.map_eq_some_iff, List.getElem?_cons_succ,
    List.getElem?_cons_zero] at hsecond
  obtain ⟨e, he, hindex⟩ := hsecond
  have := hcons 1 e he
  omega

end Sys

end Raft
