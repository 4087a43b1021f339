import Raft.Turn.Frames

/-!
# Steps as sequences of changes

A step of the system happens at one node.  It is a sequence of small changes there:
moves of the event loop over an input the action offers, or one act of the writer, the
apply loop or a goroutine, or a restart.  Completed writes are collected together and
then taken up one by one; the list beside the node holds those still to come.

## Main definitions

* `Action.Offers`: the inputs an action brings to a node.
* `Node.Beside`: what another goroutine of the node does.
* `Node.Change`, `Node.Changes`: one change, and a sequence of them.

## Main results

* `Sys.step_changes`: every step is a sequence of changes at one node.
-/

namespace Raft

variable {ι : Type} [DecidableEq ι] [Sized ι]

/-- The inputs an action brings to the event loop of node `i`. -/
def Action.Offers (σ : Sys ι) (i : ι) : Action ι → Input ι → Prop
  | .deliver j k, inp => ∃ msg, (σ j).out[k]? = some msg ∧ msg.dst = i ∧ inp = .msg msg
  | .dropped j k, inp => j = i ∧ ∃ msg, (σ i).out[k]? = some msg ∧ inp = .lost msg
  | .propose _ cmds, inp => inp = .propose cmds
  | .applyResult j, inp => j = i ∧ ∃ r rest, (σ i).apply.results = r :: rest ∧ inp = .applied r
  | .snapshotResult _, inp => inp = .snapshot
  | .installResult _ _, inp => inp = .snapshot
  | .crash _ _, _ => False
  | _, inp => inp = .timer

def Action.SavesSnapshot : Action ι → Prop
  | .writeSnapshot _ _ | .installSnapshot _ _ _ _ => True
  | _ => False

namespace Node

section Beside

omit [DecidableEq ι] [Sized ι]

/-- Another goroutine has acted.  Of the log it touches at most the snapshot in storage. -/
inductive Beside (saves : Prop) (n : Node ι) : Node ι → Prop
  | intro (apply : ApplyLoop ι) (snapshots : Snapshots ι) (log : RaftLog ι)
      (hlog : log = n.log ∨ saves ∧ ∃ snap, log = n.log.saveSnapshot snap) :
      Beside saves n { n with apply := apply, snapshots := snapshots, log := log }

variable {saves : Prop} (n : Node ι)

theorem applyCommitted_beside (faults : ReadFaults) : n.Beside saves (n.applyCommitted faults) :=
  .intro _ _ _ (.inl rfl)

theorem applyRestore_beside (ok : Bool) : n.Beside saves (n.applyRestore ok) :=
  .intro _ _ _ (.inl rfl)

theorem captureSnapshot_beside : n.Beside saves n.captureSnapshot := by
  unfold captureSnapshot
  split <;> exact .intro _ _ _ (.inl rfl)

theorem writeSnapshot_beside (outcome : SnapshotWrite ι) : n.Beside True (n.writeSnapshot outcome) := by
  unfold writeSnapshot
  split
  · exact .intro _ _ _ (.inl rfl)
  · refine .intro _ _ _ ?_
    cases outcome with
    | saved | cut written => exact .inr ⟨trivial, _, rfl⟩
    | refused => exact .inl rfl

theorem installSnapshot_beside (k : Nat) (saved ok : Bool) :
    n.Beside True (n.installSnapshot k saved ok) := by
  unfold installSnapshot
  split
  · exact .intro _ _ _ (.inl rfl)
  · refine .intro _ _ _ ?_
    split_ifs
    · exact .inr ⟨trivial, _, rfl⟩
    · exact .inl rfl

end Beside

/-- One change at a node while the action `a` takes place there. -/
inductive Change (a : Action ι) (offers : Input ι → Prop) :
    Node ι × List WriteDone → Node ι × List WriteDone → Prop
  | move {n n' : Node ι} {ds : List WriteDone} {inp : Input ι} (hinp : offers inp)
      (h : Move inp n n') : Change a offers (n, ds) (n', ds)
  | written {n n' : Node ι} {ds : List WriteDone} {d : WriteDone} (ha : ∃ i, a = .complete i)
      (hd : d ∈ ds) (hok : d.err = false)
      (h : Moves (.written d (n.deferredWrites.filter (·.seq ≤ d.seq))
        (n.deferredWrites.filter (d.seq < ·.seq))) n n') : Change a offers (n, ds) (n', ds)
  | writeFailed {n n' : Node ι} {ds : List WriteDone} {d : WriteDone} (hd : d ∈ ds)
      (herr : d.err = true) (h : n'.toCore = { n.toCore with
        completedWriteSeq := max n.completedWriteSeq d.seq, fatalErr := true
        deferredWrites := [] }) (hside : n'.side = n.side) (hreads : n'.reads = n.reads) :
      Change a offers (n, ds) (n', ds)
  | collect (n : Node ι) :
      Change a offers (n, [])
        ({ n with log := { n.log with w := n.log.w.takeDone.2 } }, n.log.w.takeDone.1)
  | settle (n : Node ι) (d : WriteDone) (ds : List WriteDone) : Change a offers (n, d :: ds) (n, ds)
  | execute (n : Node ι) (ds : List WriteDone) (i : ι) (fault : Option Nat)
      (ha : a = .execute i fault) :
      Change a offers (n, ds) ({ n with log := n.log.execute fault }, ds)
  | beside {n n' : Node ι} {ds : List WriteDone} (h : n.Beside a.SavesSnapshot n') :
      Change a offers (n, ds) (n', ds)
  | crash {n n' : Node ι} (i : ι) (k : Nat) (ha : a = .crash i k) (h : n.restart k = some n') :
      Change a offers (n, []) (n', [])

def Changes (a : Action ι) (offers : Input ι → Prop) :
    Node ι × List WriteDone → Node ι × List WriteDone → Prop :=
  Relation.ReflTransGen (Change a offers)

section Changes

variable {a : Action ι} {offers : Input ι → Prop} {n n' : Node ι} {ds : List WriteDone}

theorem Moves.changes {inp : Input ι} (h : Moves inp n n') (hinp : offers inp) :
    Changes a offers (n, ds) (n', ds) := by
  induction h with
  | refl => exact .refl
  | tail _ hmove ih => exact ih.tail (.move hinp hmove)

theorem foldl_handleWriteDone_changes (ha : ∃ i, a = .complete i) (n : Node ι)
    (ds : List WriteDone) : Changes a offers (n, ds) (ds.foldl handleWriteDone n, []) := by
  induction ds generalizing n with
  | nil => exact .refl
  | cons d ds ih =>
    have hturn : Change a offers (n, d :: ds) (n.handleWriteDone d, d :: ds) := by
      by_cases herr : d.err = true
      · obtain ⟨hcore, hside, hreads⟩ := handleWriteDone_of_err n d herr
        exact .writeFailed (List.mem_cons_self ..) herr hcore hside hreads
      · have hok : d.err = false := by simpa using herr
        exact .written ha (List.mem_cons_self ..) hok (handleWriteDone_moves n d hok rfl)
    exact .head hturn (.head (.settle _ d ds) (ih _))

theorem handleWriteCompletions_changes (ha : ∃ i, a = .complete i) (n : Node ι)
    (htimer : offers .timer) : Changes a offers (n, []) (n.handleWriteCompletions, []) := by
  simp only [handleWriteCompletions]
  split_ifs
  · exact .refl
  · exact .head (.collect n) ((foldl_handleWriteDone_changes ha _ _).trans
      ((onDurableAdvanced_stays _).moves.changes htimer))

end Changes

end Node

/-- **A step of the system** is a sequence of changes at one node. -/
theorem Sys.step_changes (σ : Sys ι) (a : Action ι)
    (hseq : ∀ i, (σ i).completedWriteSeq ≤ (σ i).log.nextSeq) :
    σ.step a = σ ∨ ∃ i n', σ.step a = assign σ i n' ∧
      Node.Changes a (a.Offers σ i) (σ i, []) (n', []) := by
  have of_effect : ∀ i (f : Node ι → Node ι), a.effect σ = some (i, f) →
      Node.Changes a (a.Offers σ i) (σ i, []) (f (σ i), []) → σ.step a = σ ∨ ∃ i n',
        σ.step a = assign σ i n' ∧ Node.Changes a (a.Offers σ i) (σ i, []) (n', []) := by
    intro i f heff hch
    exact .inr ⟨i, f (σ i), by rw [Sys.step, heff], hch⟩
  -- an action takes place at one node, by a turn of its event loop or beside it
  cases a with
  | deliver j k =>
    cases hmsg : (σ j).out[k]? with
    | none => exact .inl (by simp [Sys.step, Action.effect, hmsg])
    | some msg =>
      refine of_effect msg.dst _ (by simp [Action.effect, hmsg]; rfl) ?_
      exact (Node.receive_moves msg rfl (hseq _)).changes ⟨msg, hmsg, rfl, rfl⟩
  | dropped i k =>
    cases hmsg : (σ i).out[k]? with
    | none => exact .inl (by simp [Sys.step, Action.effect, hmsg])
    | some msg =>
      refine of_effect i _ (by simp [Action.effect, hmsg]; rfl) ?_
      exact (Node.lose_moves _ msg rfl).changes ⟨rfl, msg, hmsg, rfl⟩
  | reachable i peer up => exact of_effect i _ rfl ((Node.reachable_moves _ peer up).changes rfl)
  | tick i => exact of_effect i _ rfl ((Node.tick_moves (hseq i)).changes rfl)
  | propose i cmds =>
    exact of_effect i _ rfl ((Node.handleProposals_moves _ cmds rfl).changes rfl)
  | readIndex i read =>
    exact of_effect i _ rfl ((Node.handleReadIndex_stays _ read).moves.changes rfl)
  | forwardRead i read =>
    exact of_effect i _ rfl ((Node.forwardRead_moves _ read).changes rfl)
  | transfer i target =>
    exact of_effect i _ rfl ((Node.handleLeadershipTransfer_stays _ target).moves.changes rfl)
  | execute i fault => exact of_effect i _ rfl (.single (.execute _ _ i fault rfl))
  | complete i => exact of_effect i _ rfl (Node.handleWriteCompletions_changes ⟨i, rfl⟩ _ rfl)
  | applyCommitted i faults =>
    exact of_effect i _ rfl (.single (.beside (Node.applyCommitted_beside _ faults)))
  | applyRestore i ok => exact of_effect i _ rfl (.single (.beside (Node.applyRestore_beside _ ok)))
  | applyResult i =>
    refine of_effect i _ rfl ?_
    cases hres : (σ i).apply.results with
    | nil =>
      have hnone : (σ i).handleApplyResult = σ i := by simp [Node.handleApplyResult, hres]
      rw [hnone]
      exact .refl
    | cons r rest =>
      exact (Node.handleApplyResult_moves _ hres rfl).changes ⟨rfl, r, rest, hres, rfl⟩
  | captureSnapshot i => exact of_effect i _ rfl (.single (.beside (Node.captureSnapshot_beside _)))
  | writeSnapshot i outcome =>
    exact of_effect i _ rfl (.single (.beside (Node.writeSnapshot_beside _ outcome)))
  | snapshotResult i => exact of_effect i _ rfl ((Node.takeSnapshotResult_moves _ rfl).changes rfl)
  | installSnapshot i k saved ok =>
    exact of_effect i _ rfl (.single (.beside (Node.installSnapshot_beside _ k saved ok)))
  | installResult i k =>
    exact of_effect i _ rfl ((Node.takeInstallResult_moves _ k rfl).changes rfl)
  | crash i k =>
    have hstart : Node.Changes (.crash i k) ((Action.crash i k).Offers σ i) (σ i, [])
        (((σ i).restart k).getD (σ i), []) := by
      cases hn : (σ i).restart k with
      | none => exact .refl
      | some n' => exact .single (.crash i k rfl hn)
    exact of_effect i _ rfl hstart

end Raft
