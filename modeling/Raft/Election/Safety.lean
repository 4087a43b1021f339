import Mathlib.Data.Fintype.Basic
import Raft.Election.Turns

/-!
# Election safety

With one set of full voters no term has two leaders, whatever is lost, delayed,
duplicated or reordered, and whenever nodes crash and lose writes that were queued.

## Main results

* `Sys.leader_unique`: two leaders of one term, at any two points of a run, are the same
  node.
-/

namespace Raft

open Function (update update_idem update_self)

variable {ι : Type} [DecidableEq ι] [Sized ι] {a : Action ι} {i : ι} {inp : Input ι} {σ : Sys ι}

open Node

/-- The invariant of votes, for all nodes. -/
def votesInvariant (V : Finset ι) :
    Ghost.Invariant ι (Node ι × List WriteDone) (Nat → ι → Prop) where
  shared voted := OneVote voted
  component voted p s := s.1.Votes V voted p s.2
  mono hle hown h := h.mono hle (by rw [hown]; exact h.kept)

omit [DecidableEq ι] [Sized ι] in
theorem Action.Offers.unique {inp' : Input ι} (h : a.Offers σ i inp) (h' : a.Offers σ i inp') :
    inp = inp' := by
  cases a with
  | deliver j k =>
    obtain ⟨msg, hmsg, -, rfl⟩ := h
    obtain ⟨msg', hmsg', -, rfl⟩ := h'
    rw [Option.some.inj (hmsg.symm.trans hmsg')]
  | dropped j k =>
    obtain ⟨-, msg, hmsg, rfl⟩ := h
    obtain ⟨-, msg', hmsg', rfl⟩ := h'
    rw [Option.some.inj (hmsg.symm.trans hmsg')]
  | applyResult j =>
    obtain ⟨-, r, rest, hr, rfl⟩ := h
    obtain ⟨-, r', rest', hr', rfl⟩ := h'
    rw [(List.cons.inj (hr.symm.trans hr')).1]
  | crash j k => exact h.elim
  | _ => exact h.trans h'.symm

omit [DecidableEq ι] [Sized ι] in
theorem Action.Offers.of_msg {msg : Msg ι} (h : a.Offers σ i (.msg msg)) :
    ∃ j, msg ∈ (σ j).out ∧ msg.dst = i := by
  cases a with
  | deliver j k =>
    obtain ⟨msg', hmsg, hdst, heq⟩ := h
    cases heq
    exact ⟨j, List.mem_of_getElem? hmsg, hdst⟩
  | dropped j k =>
    obtain ⟨-, msg', -, heq⟩ := h
    cases heq
  | applyResult j =>
    obtain ⟨-, r, rest, -, heq⟩ := h
    cases heq
  | crash j k => exact h.elim
  | _ => cases h

omit [DecidableEq ι] [Sized ι] in
theorem Action.Offers.of_lost {msg : Msg ι} (h : a.Offers σ i (.lost msg)) : msg ∈ (σ i).out := by
  cases a with
  | deliver j k =>
    obtain ⟨msg', -, -, heq⟩ := h
    cases heq
  | dropped j k =>
    obtain ⟨-, msg', hmsg, heq⟩ := h
    cases heq
    exact List.mem_of_getElem? hmsg
  | applyResult j =>
    obtain ⟨-, r, rest, -, heq⟩ := h
    cases heq
  | crash j k => exact h.elim
  | _ => cases h

/-- Known in the course of a step that leaves the membership alone: the node counts
under `V`. -/
def CountsSteadily (V : Finset ι) (σ : Sys ι) (a : Action ι) (i : ι) (n : Node ι) : Prop :=
  (∃ inp, a.Offers σ i inp ∧ inp.Steady) → n.CountsUnder V

section Changes

variable {V : Finset ι} {σ : Sys ι} {a : Action ι} {i : ι} {voted : VoteRecord ι}
  {n n' : Node ι} {ds : List WriteDone}

theorem Move.countsSteadily (h : CountsSteadily V σ a i n) (hinp : a.Offers σ i inp)
    (hmove : Move inp n n') : CountsSteadily V σ a i n' := by
  intro hsteady
  obtain ⟨inp', hinp', hs⟩ := hsteady
  obtain rfl := hinp.unique hinp'
  exact (h ⟨inp, hinp, hs⟩).congr hmove.frame.cfg (hmove.membership_of_steady hs)

omit [Sized ι] in
theorem inputVotes_of_offers {mine : Nat → ι → Prop} (hI : (votesInvariant V).Holds voted σ.settled)
    (hle : voted i ≤ mine) (hcounts : CountsSteadily V σ a i n) (hinp : a.Offers σ i inp) :
    InputVotes V (update voted i mine) i n ds inp := by
  refine ⟨fun hs => hcounts ⟨inp, hinp, hs⟩, ?_, ?_, ?_⟩
  · rintro m rfl
    obtain ⟨j, hmsg, hdst⟩ := hinp.of_msg
    have hj : (σ j).Votes V voted j [] := hI.component j
    exact ⟨hdst, j, (hj.out m hmsg).mono (Ghost.le_update hle)⟩
  · rintro d due kept rfl
    exact absurd hinp (Action.not_offers_written σ i a d due kept)
  · rintro d due kept rfl
    exact absurd hinp (Action.not_offers_written σ i a d due kept)

/-- Completed writes are taken up.  `Q` is anything else the moves keep. -/
theorem Moves.along_written {Q : Node ι → Prop} {d : WriteDone} (hn : n.Votes V voted i ds)
    (hnum : n.Numbered ds) (hcounts : n.CountsUnder V) (hd : d ∈ ds) (hok : d.err = false)
    (hQ : ∀ {due kept : List (DeferredWrite ι)} {m m' : Node ι},
      ((∀ w ∈ due, w ∈ n.deferredWrites ∧ w.seq ≤ d.seq) ∧ ∀ w ∈ kept, w ∈ n.deferredWrites) → Q m →
      m.Votes V voted i ds → m.Numbered ds → InputVotes V voted i m ds (.written d due kept) →
      Move (.written d due kept) m m' → Q m')
    (h : Moves (.written d (n.deferredWrites.filter (·.seq ≤ d.seq))
      (n.deferredWrites.filter (d.seq < ·.seq))) n n') (hQn : Q n) :
    n'.Votes V voted i ds ∧ n'.CountsUnder V ∧ Q n' := by
  have hdue : ∀ w ∈ n.deferredWrites.filter (·.seq ≤ d.seq),
      w.work.Vouched V voted i (voted i) := by
    intro w hw
    obtain ⟨hmem, hseq⟩ := List.mem_filter.mp hw
    refine (hn.deferred w hmem).mono (le_refl _) fun term c hc => ?_
    exact hc.voted_of_done hnum.log hd hok (by simpa using hseq)
  have hkept : ∀ w ∈ n.deferredWrites.filter (d.seq < ·.seq),
      w.work.Vouched V voted i (Pending voted i n.log.w ds w.seq) :=
    fun w hw => hn.deferred w (List.mem_filter.mp hw).1
  have hlist : (∀ w ∈ n.deferredWrites.filter (·.seq ≤ d.seq), w ∈ n.deferredWrites ∧ w.seq ≤ d.seq) ∧
      ∀ w ∈ n.deferredWrites.filter (d.seq < ·.seq), w ∈ n.deferredWrites :=
    ⟨by simp, fun w hw => (List.mem_filter.mp hw).1⟩
  generalize n.deferredWrites.filter (·.seq ≤ d.seq) = due at hdue hlist h
  generalize n.deferredWrites.filter (d.seq < ·.seq) = kept at hkept hlist h
  -- The work that still waits goes on waiting for the same writes.
  have hinv := Moves.invariant (P := fun m => m.Votes V voted i ds ∧ m.Numbered ds ∧
      m.CountsUnder V ∧ (∀ w ∈ kept, w.work.Vouched V voted i (Pending voted i m.log.w ds w.seq)) ∧
      Q m) (fun m m' hm hmove => ?_) h ⟨hn, hnum, hcounts, hkept, hQn⟩
  · exact ⟨hinv.1, hinv.2.2.1, hinv.2.2.2.2⟩
  obtain ⟨hm, hmnum, hmcounts, hmkept, hmQ⟩ := hm
  have hnum' : m'.Numbered ds :=
    hmove.numbered (fun d' due' kept' heq => by cases heq; exact hd) hmnum
  have hin : InputVotes V voted i m ds (.written d due kept) := by
    refine ⟨fun _ => hmcounts, fun m hmsg => (by cases hmsg), ?_, ?_⟩
    · intro d' due' kept' heq
      cases heq
      exact hdue
    · intro d' due' kept' heq
      cases heq
      exact hmkept
  refine ⟨hmove.votes hm hmnum hin, hnum',
    hmcounts.congr hmove.frame.cfg (hmove.membership_of_steady trivial), fun w hw => ?_,
    hQ hlist hmQ hm hmnum hin hmove⟩
  refine (hmkept w hw).mono (le_refl _) fun term c hc => ?_
  rcases hmove.frame.queues with ⟨hext, -⟩ | ⟨henq, -⟩
  · obtain ⟨ops, hops, -⟩ := hext hmnum.log.running
    exact hc.queues hops
  · rw [henq]
    exact hc.queues (.of_enqueue hmnum.log.running _)

end Changes

/-- **Every change keeps the invariant of votes.** -/
theorem Change.votes {V : Finset ι} {voted : VoteRecord ι} {mine : Nat → ι → Prop}
    {s s' : Node ι × List WriteDone} (hI : (votesInvariant V).Holds voted σ.settled)
    (hle : voted i ≤ mine) (hone : OneVote (update voted i mine))
    (hn : s.1.Votes V (update voted i mine) i s.2) (hnum : s.1.Numbered s.2)
    (hcounts : CountsSteadily V σ a i s.1) (h : Change a (a.Offers σ i) s s') :
    ∃ mine', mine ≤ mine' ∧ OneVote (update voted i mine') ∧
      s'.1.Votes V (update voted i mine') i s'.2 ∧ CountsSteadily V σ a i s'.1 := by
  -- Only the writer adds to the record.
  have same : s'.1.Votes V (update voted i mine) i s'.2 → CountsSteadily V σ a i s'.1 →
      ∃ mine', mine ≤ mine' ∧ OneVote (update voted i mine') ∧
        s'.1.Votes V (update voted i mine') i s'.2 ∧ CountsSteadily V σ a i s'.1 :=
    fun hn' hcounts' => ⟨mine, le_refl _, hone, hn', hcounts'⟩
  have steady : s'.1.cfg = s.1.cfg → s'.1.membership = s.1.membership →
      CountsSteadily V σ a i s'.1 := fun hcfg hm hs => (hcounts hs).congr hcfg hm
  cases h with
  | move hinp hmove =>
    exact same (hmove.votes hn hnum (inputVotes_of_offers hI hle hcounts hinp))
      (Move.countsSteadily hcounts hinp hmove)
  | written ha hd hok hmoves =>
    obtain ⟨j, rfl⟩ := ha
    have hc := hcounts ⟨.timer, rfl, trivial⟩
    obtain ⟨hvotes, hc', -⟩ := Moves.along_written (Q := fun _ => True) hn hnum hc hd hok
      (fun _ _ _ _ _ _ => trivial) hmoves trivial
    exact same hvotes fun _ => hc'
  | writeFailed hd _ h =>
    refine same (hn.same hnum ⟨(congrArg Core.cfg h :), by rw [hardState, h]; rfl,
      by rw [h]; exact .refl _, .inl (congrArg Core.state h :),
      .inl (congrArg Core.receivedVoteSet h :), fun d hd => ?_, fun msg hmsg => .inl ?_⟩)
      (steady (congrArg Core.cfg h :) (congrArg Core.membership h :))
    · rw [h] at hd
      cases hd
    · rwa [h] at hmsg
  | collect n =>
    exact same (hn.of_writer rfl rfl rfl rfl (by simp [StorageWriter.takeDone])) (steady rfl rfl)
  | settle n d ds =>
    refine same (hn.of_writer rfl rfl rfl rfl fun d' hd' => ?_) (steady rfl rfl)
    rcases List.mem_append.mp hd' with h | h
    · exact List.mem_append_left _ h
    · exact List.mem_append_right _ (List.mem_cons_of_mem _ h)
  | execute n ds j fault =>
    obtain ⟨mine', hle', hone', hn'⟩ := hn.execute hnum hone fault
    rw [update_self] at hle'
    rw [update_idem] at hone' hn'
    exact ⟨mine', hle', hone', hn', steady rfl rfl⟩
  | beside h =>
    obtain ⟨apply, snapshots, log, rfl | ⟨-, snap, rfl⟩⟩ := h <;>
      exact same (hn.of_writer rfl rfl rfl rfl fun d hd => hd) (steady rfl rfl)
  | crash j k ha hn' =>
    subst ha
    refine same (hn.crash hn') ?_
    rintro ⟨inp, hinp, -⟩
    exact hinp.elim

namespace Sys

variable {V : Finset ι} {cfg : ι → Config ι} {store : ι → Store ι}

/-- What every step of the runs considered meets: all nodes count the voters `V`. -/
def CountsUnder (V : Finset ι) (σ : Sys ι) (_ : Action ι) : Prop := ∀ i, (σ i).CountsUnder V

omit [Sized ι] in
instance [Fintype ι] (V : Finset ι) (σ : Sys ι) (a : Action ι) : Decidable (CountsUnder V σ a) :=
  have (i : ι) : Decidable ((σ i).CountsUnder V) := Node.CountsUnder.decidable V (σ i)
  Fintype.decidableForallFintype

theorem start_holds (hid : ∀ i, (cfg i).id = i) :
    (votesInvariant V).Holds (fun _ _ _ => False) (start cfg store).settled :=
  ⟨fun _ _ _ _ h => h.elim, fun i => (start_starts (cfg i) (store i)).votes (hid i)
    (fun _ _ h => h.elim) fun _ h => (by cases h)⟩

theorem run_votes (as : List (Action ι)) {voted : VoteRecord ι} (hn : ∀ i, (σ i).Numbered [])
    (hI : (votesInvariant V).Holds voted σ.settled) (hV : Along (CountsUnder V) σ as) :
    ∃ voted', voted ≤ voted' ∧ (votesInvariant V).Holds voted' (σ.run as).settled ∧
      ∀ i, (σ.run as i).Numbered [] :=
  run_holds (votesInvariant V) (CountsUnder V) (CountsSteadily V) (fun _ _ i h _ => h i)
    (fun _ hI hle hone hn hnum hcounts h => Change.votes hI hle hone hn hnum hcounts h) as σ voted
    hn hI hV

/-- **Election safety**: two leaders of one term, at any two points of a run, are the
same node. -/
theorem leader_unique (cfg : ι → Config ι) (store : ι → Store ι) (hid : ∀ i, (cfg i).id = i) (as bs : List (Action ι))
    (hV : Along (CountsUnder V) (start cfg store) (as ++ bs)) {i j : ι}
    (hi : ((start cfg store).run as i).state = .leader)
    (hj : ((start cfg store).run (as ++ bs) j).state = .leader)
    (hterm : ((start cfg store).run as i).currentTerm =
      ((start cfg store).run (as ++ bs) j).currentTerm) : i = j := by
  obtain ⟨has, hbs⟩ := (along_append _ as bs).mp hV
  rw [run_append] at hj hterm
  obtain ⟨voted, -, hI, hn⟩ := run_votes as (fun i => (start_starts _ _).numbered) (start_holds hid) has
  obtain ⟨voted', hle, hI', -⟩ := run_votes bs hn hI hbs
  -- Both were elected by votes that are on disk by the end of the run.
  have hi' : Elected V voted' _ i := ((hI.component i).leader hi).mono hle
  have hj' : Elected V voted' _ j := (hI'.component j).leader hj
  exact hi'.unique hI'.shared (hterm ▸ hj')

/-- Node 1 of three has heard from no leader and grants node 0 its pre-vote and its
vote. -/
def electsNode0 : List (Action (Fin 3)) :=
  [.tick 1, .tick 1, .tick 0, .tick 0, .deliver 0 0, .deliver 1 2, .execute 0 none, .complete 0,
    .deliver 0 2, .execute 1 none, .complete 1, .deliver 1 3]

/-- Node 0 leads in term 1, and still does after the vote has been delivered once more. -/
theorem leader_unique_of_three :
    ((start (Config.ofSize 3) fun _ => .empty).run electsNode0 0).state = .leader ∧
      (0 : Fin 3) = 0 :=
  ⟨by decide +kernel,
    leader_unique (V := Finset.univ) (Config.ofSize 3) (fun _ => .empty) (fun _ => rfl) electsNode0
      [.deliver 1 3] (by decide +kernel) (by decide +kernel) (by decide +kernel)
      (by decide +kernel)⟩

end Sys

end Raft
