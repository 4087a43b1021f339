import Raft.Ghost
import Raft.System.Changes

/-!
# Restarts, and the numbering of writes in every run

A node that starts from a store has nothing queued and owes nothing.  In every run the
writes of a node are numbered in the order they are queued and none is reported that
was not queued before; this is what makes every step a sequence of changes.

## Main results

* `Node.new_starts`, `Node.start_starts`: a node as it starts.
* `Change.numbered`: every change keeps the numbering.
* `Sys.run_holds`: the rule for properties of runs.
-/

namespace Raft

open Function (update)

variable {ι : Type} [DecidableEq ι] [Sized ι]

namespace Node

/-- A node just started from the store `s`, after sending `out` in earlier incarnations. -/
structure Starts (cfg : Config ι) (s : Store ι) (boot : Nat) (out : List (Msg ι)) (n : Node ι) :
    Prop where
  core : ∃ log draws sm lastApplied, n.toCore =
    { (fresh cfg s log boot draws out sm lastApplied).toCore with
      membership := n.membership
      apply := { (fresh cfg s log boot draws out sm lastApplied).apply with
        clientTable := n.apply.clientTable } }
  w : n.log.w = .init s cfg.batchWriter cfg.commitRecorder
  nextSeq : n.log.nextSeq = 0

variable {s : Store ι} {boot : Nat} {cfg : Config ι} {n : Node ι} {out : List (Msg ι)}

omit [DecidableEq ι] [Sized ι] in
theorem RaftLog.new_fields {batch commits : Bool} {log : RaftLog ι}
    (h : RaftLog.new s batch commits = some log) :
    log.w = .init s batch commits ∧ log.nextSeq = 0 ∧
      log.snapMeta.lastIncludedIndex = (s.snap.map (·.position.lastIncludedIndex)).getD 0 := by
  simp only [RaftLog.new] at h
  split_ifs at h
  · split at h
    · cases h
    · split at h
      · cases h
      · cases h
        exact ⟨rfl, rfl, by cases s.snap <;> rfl⟩
  · cases h
    exact ⟨rfl, rfl, by cases s.snap <;> rfl⟩

def recoveredSM (cfg : Config ι) (s : Store ι) (log : RaftLog ι) (sm : List (LogEntry ι)) :
    List (LogEntry ι) :=
  if 0 < log.snapMeta.lastIncludedIndex ∧
      durableAppliedIndex cfg sm < log.snapMeta.lastIncludedIndex then (s.snap.map (·.data)).getD []
  else if cfg.durableSM then sm else []

def recovered (cfg : Config ι) (s : Store ι) (log : RaftLog ι) (boot draws : Nat)
    (out : List (Msg ι)) (sm : List (LogEntry ι)) : Node ι :=
  (fresh cfg s log boot draws out (recoveredSM cfg s log sm)
    (max log.snapMeta.lastIncludedIndex (durableAppliedIndex cfg sm))).recoverSnapshot s
      (durableAppliedIndex cfg sm)

/-- **What starting a node does**: the membership is rebuilt from the log. -/
theorem new_cases {draws : Nat} {sm : List (LogEntry ι)} (h : new cfg s boot draws out sm = some n) :
    ∃ log, RaftLog.new s cfg.batchWriter cfg.commitRecorder = some log ∧
      durableAppliedIndex cfg sm ≤ log.lastLogIndex ∧
      (recovered cfg s log boot draws out sm).rebuildMembership.2 = true ∧
      n = (recovered cfg s log boot draws out sm).rebuildMembership.1.resetElectionTimeout := by
  unfold new at h
  cases hlog : RaftLog.new s cfg.batchWriter cfg.commitRecorder with
  | none =>
    rw [hlog] at h
    cases h
  | some log =>
    rw [hlog] at h
    dsimp only at h
    split at h
    · cases h
    · refine ⟨log, rfl, by omega, ?_⟩
      rw [recovered, recoveredSM]
      generalize (recoverSnapshot _ s _).rebuildMembership = p at h ⊢
      obtain ⟨m, - | -⟩ := p
      · cases h
      · dsimp only at h
        split_ifs at h
        exact ⟨rfl, (Option.some.inj h).symm⟩

theorem new_starts {draws : Nat} {sm : List (LogEntry ι)} (h : new cfg s boot draws out sm = some n) :
    Starts cfg s boot out n ∧ RaftLog.new s cfg.batchWriter cfg.commitRecorder = some n.log := by
  obtain ⟨log, hlog, -, -, rfl⟩ := new_cases h
  obtain ⟨m, ok, hm⟩ := rebuildMembership_of_follower
    (n := recovered cfg s log boot draws out sm) (by simp [recovered, fresh, recoverSnapshot])
  rw [hm]
  exact ⟨⟨⟨log, draws, _, _, rfl⟩, (RaftLog.new_fields hlog).1, (RaftLog.new_fields hlog).2.1⟩, hlog⟩

theorem start_starts (cfg : Config ι) (s : Store ι) : Starts cfg s 0 [] (start cfg s) := by
  unfold start
  cases hnew : new cfg s 0 0 [] [] with
  | some n => exact (new_starts hnew).1
  | none => exact ⟨⟨_, 0, [], 0, rfl⟩, rfl, rfl⟩

theorem start_log (cfg : Config ι) :
    RaftLog.new .empty cfg.batchWriter cfg.commitRecorder = some (start cfg .empty).log := by
  unfold start
  cases hnew : new cfg .empty 0 0 [] [] with
  | some n => exact (new_starts hnew).2
  | none => rfl

/-- Writes are numbered as they are queued, and none is reported before. -/
structure Numbered (n : Node ι) (ds : List WriteDone) : Prop where
  log : n.log.Numbered ds
  completed : n.completedWriteSeq ≤ n.log.nextSeq
  reported : ∀ op ∈ n.log.w.queue, n.completedWriteSeq < op.seq

omit [DecidableEq ι] [Sized ι] in
theorem Starts.anew (h : Starts cfg s boot out n) :
    n.state = .follower ∧ n.cfg = cfg ∧ n.out = out ∧ n.deferredWrites = [] := by
  obtain ⟨log, draws, sm, la, hcore⟩ := h.core
  exact ⟨(congrArg Core.state hcore :), (congrArg Core.cfg hcore :), (congrArg Core.out hcore :),
    (congrArg Core.deferredWrites hcore :)⟩

omit [DecidableEq ι] [Sized ι] in
theorem Starts.numbered (h : Starts cfg s boot out n) : n.Numbered [] := by
  obtain ⟨log, draws, sm, la, hcore⟩ := h.core
  have hzero : n.completedWriteSeq = 0 := (congrArg Core.completedWriteSeq hcore :)
  exact ⟨RaftLog.numbered_of_init h.w, by rw [hzero]; exact Nat.zero_le _, by simp [h.w, StorageWriter.init]⟩

omit [DecidableEq ι] [Sized ι] in
theorem Numbered.queues {n' : Node ι} {ds : List WriteDone} {ops : List (WriteOp ι)}
    (h : n.Numbered ds) (hops : n.log.Queues n'.log ops)
    (hmark : n'.completedWriteSeq ≤ n.log.nextSeq ∧
      ∀ op ∈ n.log.w.queue, n'.completedWriteSeq < op.seq) : n'.Numbered ds := by
  have hnext := hops.nextSeq
  refine ⟨h.log.queues hops, hmark.1.trans (by omega), fun op hop => ?_⟩
  rw [hops.w] at hop
  rcases List.mem_append.mp hop with hold | hnew
  · exact hmark.2 op hold
  · exact hmark.1.trans_lt (hops.seq_mem hnew).1

theorem Move.numbered {inp : Input ι} {n' : Node ι} {ds : List WriteDone} (h : Move inp n n')
    (hinp : ∀ d due kept, inp = .written d due kept → d ∈ ds) (hn : n.Numbered ds) :
    n'.Numbered ds := by
  have hframe := h.frame
  obtain ⟨ops, hops⟩ : ∃ ops, n.log.Queues n'.log ops := by
    rcases hframe.queues with ⟨hext, -⟩ | ⟨henq, -⟩
    · obtain ⟨ops, hops, -⟩ := hext hn.log.running
      exact ⟨ops, hops⟩
    · rw [henq]
      exact ⟨_, .of_enqueue hn.log.running _⟩
  -- the mark moves up only to a write that has been reported
  refine hn.queues hops ?_
  rcases hframe.completed with hsame | ⟨d, due, kept, heq, hmax⟩
  · rw [hsame]
    exact ⟨hn.completed, hn.reported⟩
  · obtain ⟨hd, hlt⟩ := hn.log.done d (List.mem_append_right _ (hinp d due kept heq))
    rw [hmax]
    exact ⟨max_le hn.completed hd, fun op hop => max_lt (hn.reported op hop) (hlt op hop)⟩

omit [DecidableEq ι] [Sized ι] in
theorem Numbered.congr {n' : Node ι} {ds : List WriteDone} (hn : n.Numbered ds)
    (hlog : n'.log = n.log) (hdone : n'.completedWriteSeq = n.completedWriteSeq) : n'.Numbered ds :=
  ⟨hlog ▸ hn.log, by rw [hlog, hdone]; exact hn.completed, by rw [hlog, hdone]; exact hn.reported⟩

theorem Change.numbered {a : Action ι} {offers : Input ι → Prop} {p p' : Node ι × List WriteDone}
    (h : Change a offers p p') (hoffers : ∀ d due kept, ¬ offers (.written d due kept))
    (hn : p.1.Numbered p.2) : p'.1.Numbered p'.2 := by
  cases h with
  | move hinp hmove =>
    refine hmove.numbered (fun d due kept heq => ?_) hn
    subst heq
    exact absurd hinp (hoffers d due kept)
  | written _ hd _ hmoves =>
    refine Moves.invariant (fun m m' hm hmove => hmove.numbered (fun d' due' kept' heq => ?_) hm)
      hmoves hn
    cases heq
    exact hd
  | writeFailed hd _ h =>
    have hlog : _ = _ := congrArg Core.log h
    have hdone : _ = _ := congrArg Core.completedWriteSeq h
    dsimp only at hlog hdone
    obtain ⟨hle, hlt⟩ := hn.log.done _ (List.mem_append_right _ hd)
    refine ⟨hlog ▸ hn.log, ?_, fun op hop => ?_⟩ <;> dsimp only at hn ⊢ <;> rw [hdone]
    · rw [hlog]
      exact max_le hn.completed hle
    · rw [hlog] at hop
      exact max_lt (hn.reported op hop) (hlt op hop)
  | collect n => exact ⟨hn.log.collect, hn.completed, hn.reported⟩
  | settle n d ds => exact ⟨hn.log.settle, hn.completed, hn.reported⟩
  | execute n ds i fault =>
    refine ⟨hn.log.execute fault, hn.completed, fun op hop => hn.reported op ?_⟩
    obtain ⟨executed, hex⟩ := StorageWriter.execute_executes n.log.w fault
    have hleft : op ∈ (n.log.w.execute fault).queue := hop
    rw [hex.left] at hleft
    exact List.mem_of_mem_drop hleft
  | beside h =>
    obtain ⟨apply, snapshots, log, rfl | ⟨-, snap, rfl⟩⟩ := h
    · exact hn.congr rfl rfl
    · exact ⟨hn.log.saveSnapshot snap, hn.completed, hn.reported⟩
  | crash i k _ hn' =>
    obtain ⟨s, -, hnew⟩ := Option.bind_eq_some_iff.mp hn'
    exact (new_starts hnew).1.numbered

end Node

omit [DecidableEq ι] [Sized ι] in
theorem Action.not_offers_written (σ : Sys ι) (i : ι) (a : Action ι) (d : WriteDone)
    (due kept : List (DeferredWrite ι)) : ¬ a.Offers σ i (.written d due kept) := by
  cases a <;> simp [Action.Offers]

omit [DecidableEq ι] [Sized ι] in
theorem Action.Offers.msg {σ : Sys ι} {i : ι} {a : Action ι} {m : Msg ι} (h : a.Offers σ i (.msg m)) :
    ∃ j k, a = .deliver j k ∧ (σ j).out[k]? = some m ∧ m.dst = i := by
  cases a with
  | deliver j k =>
    obtain ⟨msg, hmsg, hdst, hm⟩ := h
    cases hm
    exact ⟨j, k, rfl, hmsg, hdst⟩
  | _ => simp [Action.Offers] at h

namespace Sys

/-- A node and the completed writes its event loop has collected: none between steps. -/
def settled (σ : Sys ι) : ι → Node ι × List WriteDone := fun i => (σ i, [])

omit [Sized ι] in
theorem settled_assign (σ : Sys ι) (i : ι) (n : Node ι) :
    settled (assign σ i n) = update σ.settled i (n, []) := by
  funext j
  by_cases hj : j = i
  · subst hj
    simp [settled, assign]
  · simp [settled, assign, hj]

variable {σ : Sys ι}

/-- **The rule for a step**: what every change at a node keeps, the step keeps. -/
theorem step_keeps (hnum : ∀ i, (σ i).Numbered []) (a : Action ι)
    {Q : ι → Node ι × List WriteDone → Prop} (hQ : ∀ i, Q i (σ i, []))
    (hchange : ∀ {i : ι} {p p' : Node ι × List WriteDone}, p.1.Numbered p.2 →
      Node.Change a (a.Offers σ i) p p' → Q i p → Q i p') (i : ι) :
    Q i (σ.step a i, []) ∧ (σ.step a i).Numbered [] := by
  rcases σ.step_changes a fun i => (hnum i).completed with hsame | ⟨j, n', heq, hchanges⟩
  · rw [hsame]
    exact ⟨hQ i, hnum i⟩
  · -- the numbering is carried along, since every change may ask for it
    have hkeeps : ∀ p, Node.Changes a (a.Offers σ j) (σ j, []) p → Q j p ∧ p.1.Numbered p.2 := by
      intro p h
      induction h with
      | refl => exact ⟨hQ j, hnum j⟩
      | tail _ hlast ih =>
        exact ⟨hchange ih.2 hlast ih.1, hlast.numbered (Action.not_offers_written σ j a) ih.2⟩
    rw [heq]
    by_cases hij : i = j
    · subst hij
      simpa [assign] using hkeeps _ hchanges
    · simpa [assign, hij] using And.intro (hQ i) (hnum i)

theorem step_numbered (hnum : ∀ i, (σ i).Numbered []) (a : Action ι) (i : ι) :
    (σ.step a i).Numbered [] :=
  (step_keeps hnum a (Q := fun _ _ => True) (fun _ => trivial) (fun _ _ h => h) i).2

theorem start_numbered (cfg : ι → Config ι) (store : ι → Store ι) (i : ι) :
    (start cfg store i).Numbered [] :=
  (Node.start_starts (cfg i) (store i)).numbered

theorem run_numbered (hnum : ∀ i, (σ i).Numbered []) (as : List (Action ι)) (i : ι) :
    (σ.run as i).Numbered [] := by
  induction as generalizing σ with
  | nil => exact hnum i
  | cons a as ih => exact ih (step_numbered hnum a)

/-- **The rule for properties of runs**: an invariant that every change keeps holds after
every run.  `P` is what is known of every step, and `T` what is known in the course of one. -/
theorem run_holds {δ : Type*} [Preorder δ] (I : Ghost.Invariant ι (Node ι × List WriteDone) δ)
    (P : Sys ι → Action ι → Prop) (T : Sys ι → Action ι → ι → Node ι → Prop)
    (hT : ∀ σ a i, P σ a → T σ a i (σ i))
    (hchange : ∀ {σ : Sys ι} {a : Action ι} {i : ι} {g : ι → δ} {d : δ}
      {p p' : Node ι × List WriteDone}, P σ a → I.Holds g σ.settled → g i ≤ d →
      I.shared (update g i d) → I.component (update g i d) i p →
      p.1.Numbered p.2 → T σ a i p.1 → Node.Change a (a.Offers σ i) p p' →
      ∃ d', d ≤ d' ∧ I.shared (update g i d') ∧
        I.component (update g i d') i p' ∧ T σ a i p'.1) :
    ∀ (as : List (Action ι)) (σ : Sys ι) (g : ι → δ), (∀ i, (σ i).Numbered []) →
      I.Holds g σ.settled → Along P σ as →
      ∃ g', g ≤ g' ∧ I.Holds g' (σ.run as).settled ∧ ∀ i, (σ.run as i).Numbered []
  | [], _, g, hn, hI, _ => ⟨g, le_refl g, hI, hn⟩
  | a :: as, σ, g, hn, hI, ⟨hP, hrest⟩ => by
    suffices hstep : ∃ g', g ≤ g' ∧ I.Holds g' (σ.step a).settled ∧ ∀ i, (σ.step a i).Numbered [] by
      obtain ⟨g', hle, hI', hn'⟩ := hstep
      obtain ⟨g'', hle', h⟩ := run_holds I P T hT hchange as (σ.step a) g' hn' hI' hrest
      exact ⟨g'', hle.trans hle', h⟩
    rcases σ.step_changes a fun i => (hn i).completed with hsame | ⟨i, n', heq, hchanges⟩
    · rw [hsame]
      exact ⟨g, le_refl g, hI, hn⟩
    · obtain ⟨g', hle, hI', -, hn'⟩ := hI.update (T := fun p => T σ a i p.1 ∧ p.1.Numbered p.2)
        (i := i) (s := (n', [])) ⟨hT σ a i hP, hn i⟩
        (fun d s s' hd hg' hs hTs hch => by
          obtain ⟨d', hle, hsh, hcomp, hT'⟩ := hchange hP hI hd hg' hs hTs.2 hTs.1 hch
          exact ⟨d', hle, hsh, hcomp, hT', hch.numbered (Action.not_offers_written σ i a) hTs.2⟩)
        hchanges
      rw [heq, settled_assign]
      refine ⟨g', hle, hI', fun j => ?_⟩
      by_cases hj : j = i
      · subst hj
        simpa [assign] using hn'
      · simpa [assign, hj] using hn j

end Sys

end Raft
