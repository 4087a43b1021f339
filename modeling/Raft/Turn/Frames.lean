import Raft.Log.Queue
import Raft.Turn.Loop

/-!
# What moves leave alone

A move changes the log only by queueing storage operations, and a term or a vote is
queued only when it changes in memory.

## Main results

* `acceptEntries_frame`: what accepting entries changes.
* `Move.frame`: what every move leaves alone.
-/

namespace Raft

variable {ι : Type}

namespace Node

variable {n n' : Node ι} {seq : Nat} {work : Deferred ι}

theorem mergeEntries_frame [DecidableEq ι] [Sized ι] (h : n.state ≠ .leader) (es : List (LogEntry ι)) :
    (∃ w log m, n.mergeEntries es = .ok (w, { n with log := log, membership := m }) ∧
      n.log.Extends log) ∨
    ∃ log m f, n.mergeEntries es = .error { n with log := log, membership := m, fatalErr := f } ∧
      n.log.Extends log := by
  have hcut : ∀ i, ∃ log m f ok,
      n.truncateConflict i = ({ n with log := log, membership := m, fatalErr := f }, ok) ∧
        (ok = true → f = n.fatalErr) ∧ n.log.Extends log := by
    intro i
    cases hlog : n.log.truncateSuffix i with
    | none =>
      refine ⟨n.log, n.membership, true, false, ?_, by simp, .refl _⟩
      simp only [truncateConflict, hlog]
      rfl
    | some log =>
      obtain ⟨m, ok, heq⟩ := truncateConflict_of_some h hlog
      exact ⟨log, m, n.fatalErr, ok, heq, fun _ => rfl, .truncateSuffix hlog⟩
  rcases mergeEntries_cases n es with ⟨-, hok⟩ | ⟨pre, e, rest, -, -, hcase⟩
  · exact .inl ⟨0, n.log, n.membership, hok, .refl _⟩
  · obtain ⟨log, m, f, ok, hcut, hf, hext⟩ := hcut e.index
    rcases hcase with ⟨-, hok⟩ | ⟨-, ⟨m', htr, herr⟩ | ⟨m', htr, hok⟩⟩
    · exact .inl ⟨_, _, n.membership, hok, .append n.log _⟩
    · rw [hcut, Prod.mk.injEq] at htr
      refine .inr ⟨log, m, f, ?_, hext⟩
      rw [herr, ← htr.1]
    · rw [hcut, Prod.mk.injEq] at htr
      obtain ⟨rfl, rfl⟩ := htr
      obtain rfl := hf rfl
      exact .inl ⟨_, _, m, hok, hext.trans (.append log _)⟩

structure TakesIn (n : Node ι) (src : Asker ι) (req : AppendEntriesRequest ι) (n' : Node ι) :
    Prop where
  core : n'.toCore = { n.toCore with
    membership := n'.membership, log := n'.log, commitIndex := n'.commitIndex, apply := n'.apply
    deferredWrites := n'.deferredWrites, fatalErr := n'.fatalErr, out := n'.out }
  log : n.log.Extends n'.log
  out : n'.out = n.out ∨ ∃ resp, n'.out = n.out ++ [.appendEntriesReply n.cfg.id src req resp]
  deferred : n'.deferredWrites = n.deferredWrites ∨ ∃ seq resp,
    n'.deferredWrites = n.deferredWrites ++ [⟨seq, .appendEntriesReply src req resp⟩]
  shell : n'.shell = n.shell

theorem acceptEntries_frame [DecidableEq ι] [Sized ι] {src : Asker ι} {req : AppendEntriesRequest ι} {es : List (LogEntry ι)}
    (hstate : n.state = .follower) (heq : n' = n.acceptEntries src req es) : n.TakesIn src req n' := by
  subst heq
  rcases mergeEntries_frame (n := n) (by rw [hstate]; decide) es with ⟨w, log, m, hmerge, hext⟩ | ⟨log, m, f, hmerge, hext⟩
  · simp only [acceptEntries, hmerge]
    generalize min req.leaderCommit (req.prevLogIndex + es.length) = newCommit
    generalize m.noteAppendedConfig es = m'
    obtain ⟨log', c, notify, rec, heq, hext'⟩ : ∃ log' c notify rec,
        (if n.commitIndex < newCommit then
          ({ n with log := log, membership := m' }.setCommitIndex newCommit).notifyApply
          else { n with log := log, membership := m' }) =
        { n with
          membership := m', log := log', commitIndex := c, recordedCommit := rec
          apply := { n.apply with commitNotify := notify } } ∧
        n.log.Extends log' := by
      split_ifs with hlt
      · obtain ⟨log', rec, notify, heq, hlog⟩ := setCommitIndex_notifyApply_cases
          { n with log := log, membership := m' } hlt
        refine ⟨log', newCommit, notify, rec, heq, ?_⟩
        rcases hlog with rfl | ⟨i, rfl⟩
        · exact hext
        · exact hext.trans (.enqueue _ rfl)
      · exact ⟨log, n.commitIndex, n.apply.commitNotify, n.recordedCommit, rfl, hext⟩
    rw [heq, replyAppendWhenDurable]
    rcases afterWrite_cases { n with
      membership := m', log := log', commitIndex := c, recordedCommit := rec
      apply := { n.apply with commitNotify := notify } } _ _ _ with ⟨-, hreply⟩ | ⟨-, hreply⟩
    · rw [hreply]
      exact ⟨rfl, hext', .inr ⟨_, rfl⟩, .inl rfl, rfl⟩
    · rw [hreply]
      exact ⟨rfl, hext', .inl rfl, .inr ⟨_, _, rfl⟩, rfl⟩
  · simp only [acceptEntries, hmerge]
    exact ⟨rfl, hext, .inl rfl, .inl rfl, rfl⟩

/-- The term and vote a node acts under. -/
def hardState (n : Node ι) : HardState ι := ⟨n.currentTerm, n.votedFor⟩

theorem Answers.log (h : n.Answers seq work n') : n'.log = n.log :=
  (congrArg Core.log h.core :)

theorem Answers.hardState (h : n.Answers seq work n') : n'.hardState = n.hardState := by
  rw [Node.hardState, h.core]
  rfl

theorem Answers.tenure (h : n.Answers seq work n') : n'.tenure = n.tenure :=
  tenure_of_core h.core h.shell rfl rfl rfl

/-- What every move leaves alone: term and vote stay, or the only operation saves the new ones
and what is sent waits for it. -/
structure Frame (inp : Input ι) (n n' : Node ι) : Prop where
  cfg : n'.cfg = n.cfg
  boot : n'.boot = n.boot
  queues : (n.log.Extends n'.log ∧ n'.hardState = n.hardState ∧
      (n'.unsafeTermSeq = n.unsafeTermSeq ∨
        ∃ d due kept, inp = .written d due kept ∧ n.unsafeTermSeq ≤ d.seq)) ∨
    n'.log = n.log.enqueue (.hardState n'.hardState) ∧ n'.unsafeTermSeq = n.log.nextSeq + 1
  completed : n'.completedWriteSeq = n.completedWriteSeq ∨
    ∃ d due kept, inp = .written d due kept ∧
      n'.completedWriteSeq = max n.completedWriteSeq d.seq
  out : n.out <+: n'.out

namespace Frame

variable {inp : Input ι} {n n' : Node ι}

theorem of_log {log : RaftLog ι} (h : n.log.Extends log) : Frame inp n { n with log := log } :=
  ⟨rfl, rfl, .inl ⟨h, rfl, .inl rfl⟩, .inl rfl, List.prefix_refl _⟩

theorem of_send (msgs : List (Msg ι)) : Frame inp n (n.sendAll msgs) :=
  ⟨rfl, rfl, .inl ⟨.refl _, rfl, .inl rfl⟩, .inl rfl, List.prefix_append ..⟩

theorem of_core {c : Core ι} (hcore : n'.toCore = c) (h : Frame inp n { n with toCore := c }) :
    Frame inp n n' := by
  subst hcore
  exact { h with }

theorem of_answers (h : n.Answers seq work n') : Frame inp n n' := by
  refine .of_core h.core ⟨rfl, rfl, .inl ⟨.refl _, rfl, .inl rfl⟩, .inl rfl, ?_⟩
  rcases h.sent with ⟨-, hout, -⟩ | ⟨-, hout, -⟩
  · exact hout ▸ List.prefix_append ..
  · exact hout ▸ List.prefix_refl _

end Frame

/-- **What every move leaves alone.** -/
theorem Move.frame [DecidableEq ι] [Sized ι] {inp : Input ι} (h : Move inp n n') : Frame inp n n' := by
  have same : Frame inp n n := .of_log (.refl _)
  cases h with
  | quiet h => exact .of_core h same
  | rounds h => exact .of_core h.core { same with }
  | send msgs | sendAppends msgs | sendSnapshots _ msgs => exact .of_send msgs
  | adoptTerm _ _ _ | stand => exact { same with queues := .inr ⟨rfl, rfl⟩ }
  | grant src dst req _ _ _ _ _ h =>
    have hframe : Frame inp _ n' := .of_answers h
    refine { hframe with queues := .inr ⟨?_, (congrArg Core.unsafeTermSeq h.core :)⟩ }
    rw [h.log, h.hardState]
    rfl
  | askVotes d due kept seq => exact .of_send _
  | lead _ _ | append es _ _ _ _ _ _ => exact { Frame.of_log (.append _ _) with }
  | accept src dst req _ _ hstate _ heq =>
    have h := acceptEntries_frame hstate heq
    refine .of_core h.core { Frame.of_log h.log with out := ?_ }
    rcases h.out with hout | ⟨resp, hout⟩
    · exact hout ▸ List.prefix_refl _
    · exact hout ▸ List.prefix_append ..
  | answer h => exact .of_answers h
  | record => exact .of_log (.enqueue _ rfl)
  | compact position => exact .of_log (.compact _ _ _)
  | install snap log _ hlog => exact { Frame.of_log (.installSnapshot hlog) with }
  | written d due kept hinp =>
    exact { same with
      queues := .inl ⟨.stabilize _ _, rfl, (em _).symm.imp (fun hno => if_neg hno)
        fun hle => ⟨d, due, kept, hinp, hle.2⟩⟩
      completed := .inr ⟨d, due, kept, hinp, rfl⟩ }
  | resume d due kept w => exact .of_send _
  | _ => exact { same with }

end Node

/-- Taking up the input leaves the membership alone. -/
def Input.Steady : Input ι → Prop
  | .msg (.appendEntries _ _ _) => False
  | .propose _ => False
  | .applied _ => False
  | .snapshot => False
  | _ => True

theorem Input.Steady.not_adopts {inp : Input ι} (h : inp.Steady) : ¬ inp.Adopts := by
  cases inp <;> first | exact fun hno => hno | exact h.elim

theorem Input.Steady.calm {inp : Input ι} (h : inp.Steady) : inp.Calm := by
  cases inp <;> first | exact trivial | exact h.elim

namespace Node

variable {inp : Input ι} {n n' : Node ι} [DecidableEq ι] [Sized ι]

theorem Move.membership_of_steady (h : Move inp n n') (hs : inp.Steady) :
    n'.membership = n.membership := by
  have hno : ¬ inp.Reconfigures := fun hrec => hs.not_adopts hrec.adopts
  cases h with
  | member m h =>
    rcases h with h | ⟨h, -⟩
    · exact absurd h hno
    · exact absurd h hs.not_adopts
  | accept src dst req hinp =>
    subst hinp
    exact hs.elim
  | quiet h => exact (congrArg Core.membership h :)
  | rounds h _ | grant _ _ _ _ _ _ _ _ h | answer h _ => exact (congrArg Core.membership h.core :)
  | _ => rfl

theorem Moves.membership_of_steady (h : Moves inp n n') (hs : inp.Steady) :
    n'.membership = n.membership :=
  Moves.invariant (P := fun m => m.membership = n.membership)
    (fun _ _ hm hmove => (hmove.membership_of_steady hs).trans hm) h rfl

end Node

end Raft
