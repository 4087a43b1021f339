import Raft.Election.Votes

/-!
# Votes through every turn

Each move of the event loop, and each change besides, keeps what votes rest on.  The
record of votes grows only when the writer writes.

## Main results

* `Move.votes`: a move keeps the invariant.
* `Change.votes`: every change does, under some growth of the record.
-/

namespace Raft

open Function (update update_of_ne update_self)

variable {ι : Type} [DecidableEq ι]

open HardState

namespace Node

variable {inp : Input ι} {n n' : Node ι}

/-! ## Moves -/

section Votes

variable {V : Finset ι} {voted : VoteRecord ι} {p : ι} {ds : List WriteDone}

/-- What an input rests on: a message on what its sender may say, and work that is due
on votes that are on disk. -/
structure InputVotes (V : Finset ι) (voted : VoteRecord ι) (p : ι) (n : Node ι)
    (ds : List WriteDone) (inp : Input ι) : Prop where
  counts : inp.Steady → n.CountsUnder V
  msg : ∀ m, inp = .msg m → m.dst = p ∧ ∃ q, m.Vouched V voted q
  due : ∀ d due kept, inp = .written d due kept → ∀ w ∈ due, w.work.Vouched V voted p (voted p)
  kept : ∀ d due kept, inp = .written d due kept → ∀ w ∈ kept,
    w.work.Vouched V voted p (Pending voted p n.log.w ds w.seq)

theorem Votes.save (hn : n.Votes V voted p ds) (hnum : n.Numbered ds) (term : Nat)
    (vote : Option ι) (hle : Precedes n.hardState ⟨term, vote⟩)
    (hcore : n'.toCore = { (n.saveTerm term vote).toCore with
      state := n'.state, receivedVoteSet := n'.receivedVoteSet, nextIndex := n'.nextIndex
      matchIndex := n'.matchIndex, deferredWrites := n'.deferredWrites })
    (hdef : ∀ d ∈ n'.deferredWrites, d ∈ n.deferredWrites ∨
      d.work.Vouched V voted p (Pending voted p n'.log.w ds d.seq))
    (hstate : n'.state = .follower ∨ n'.receivedVoteSet = [] ∧ n'.state = .candidate ∨
      term = n.currentTerm ∧ n'.state = n.state ∧ n'.receivedVoteSet = n.receivedVoteSet) :
    n'.Votes V voted p ds := by
  have hlog : n'.log = n.log.enqueue (.hardState ⟨term, vote⟩) := (congrArg Core.log hcore :)
  have hhs : n'.hardState = ⟨term, vote⟩ := by
    rw [hardState, hcore]
    rfl
  have hterm : n'.currentTerm = term := congrArg HardState.currentTerm hhs
  have hq := RaftLog.Queues.of_enqueue hnum.log.running (.hardState ⟨term, vote⟩)
  have hid : n'.cfg.id = n.cfg.id := (congrArg (fun c : Core ι => c.cfg.id) hcore :)
  refine ⟨hid.trans hn.id,
    hn.aligned.enqueue hnum.log.running (by rw [hhs, hlog]) (by rw [hhs]; exact hle), ?_, ?_, ?_, ?_,
    ?_⟩
  · rw [hlog, hq.w]
    exact hn.kept
  · have hout : n'.out = n.out := (congrArg Core.out hcore :)
    rw [hout]
    exact hn.out
  · intro d hd
    rcases hdef d hd with h | h
    · refine (hn.deferred d h).mono (le_refl _) fun term c hc => ?_
      rw [hlog]
      exact hc.queues hq
    · exact h
  · intro hcand q hq'
    rcases hstate with h | ⟨h, -⟩ | ⟨hsame, h, hvotes⟩
    · cases h.symm.trans hcand
    · rw [h] at hq'
      cases hq'
    · rw [hterm, hsame]
      rw [hvotes] at hq'
      exact hn.candidate (h.symm.trans hcand) q hq'
  · intro hlead
    rcases hstate with h | ⟨-, h⟩ | ⟨hsame, h, -⟩
    · cases h.symm.trans hlead
    · cases h.symm.trans hlead
    · rw [hterm, hsame]
      exact hn.leader (h.symm.trans hlead)

omit [DecidableEq ι] in
theorem pending_saveTerm (voted : VoteRecord ι) (p : ι) (hnum : n.Numbered ds) (term : Nat) (c : ι) :
    n.completedWriteSeq < n.log.nextSeq + 1 ∧
      Pending voted p (n.saveTerm term (some c)).log.w ds (n.log.nextSeq + 1) term c := by
  refine ⟨Nat.lt_succ_of_le hnum.completed, .inr (.inl
    ⟨⟨n.log.nextSeq + 1, .hardState ⟨term, some c⟩, n.log.queuedDurable⟩, ?_, le_refl _, rfl⟩)⟩
  have hq := RaftLog.Queues.of_enqueue hnum.log.running (.hardState ⟨term, some c⟩)
  show _ ∈ (n.log.enqueue (.hardState ⟨term, some c⟩)).w.queue
  rw [hq.w]
  exact List.mem_append_right _ (List.mem_singleton_self _)

theorem Votes.grant (hn : n.Votes V voted p ds) (hnum : n.Numbered ds)
    (hin : InputVotes V voted p n ds inp) {src : Asker ι} {dst : ι} {req : RequestVoteRequest ι}
    (hinp : inp = .msg (.requestVote src dst req)) (hpre : req.preVote = false)
    (hvoter : n.membership.voter = true)
    (hterm : n.currentTerm < req.term ∧ n.state = .follower ∨
      n.currentTerm = req.term ∧ (n.votedFor = none ∨ n.votedFor = some req.candidateID))
    (hans : (n.saveTerm req.term (some req.candidateID)).Answers (n.log.nextSeq + 1)
      (.requestVoteReply src req ⟨req.term, true⟩) n') : n'.Votes V voted p ds := by
  obtain ⟨-, q, hmsg⟩ := hin.msg _ hinp
  obtain ⟨hsrc, hcand, hown⟩ := hmsg hpre
  have hV : p ∈ V := by
    have hcounts := hin.counts (by rw [hinp]; trivial)
    exact (hcounts.voters p).mpr (.inl ⟨hn.id.symm, hvoter⟩)
  obtain ⟨hlate, hpending⟩ := pending_saveTerm voted p hnum req.term req.candidateID
  have hlog := hans.log
  have hcore := hans.core
  rcases hans.sent with ⟨hdone, -, -⟩ | ⟨-, hout, hdef⟩
  · have : (n.saveTerm req.term (some req.candidateID)).completedWriteSeq = n.completedWriteSeq := rfl
    omega
  have hstate : n'.state = n.state := (congrArg Core.state hcore :)
  have hvotes : n'.receivedVoteSet = n.receivedVoteSet := (congrArg Core.receivedVoteSet hcore :)
  refine hn.save hnum req.term (some req.candidateID) ?_ ?_ ?_ ?_
  · exact hterm.imp_left And.left
  · rw [hout] at hcore
    rw [hcore]
  · intro d hd
    rw [hdef] at hd
    rcases List.mem_append.mp hd with hd | hd
    · exact .inl hd
    · obtain rfl := List.mem_singleton.mp hd
      refine .inr fun _ _ => ⟨rfl, hsrc.trans hcand.symm, hV, ?_, ?_⟩
      · rw [hlog]
        exact hpending
      · rw [hcand]
        exact hown
  · rcases hterm with ⟨-, h⟩ | ⟨h, -⟩
    · exact .inl (hstate.trans h)
    · exact .inr (.inr ⟨h.symm, hstate, hvotes⟩)

theorem Votes.tally (hn : n.Votes V voted p ds) (hnum : n.Numbered ds)
    (hin : InputVotes V voted p n ds inp) {peer : ι} {dst : Asker ι} {req : RequestVoteRequest ι}
    {resp : RequestVoteResponse} (hinp : inp = .msg (.requestVoteReply peer dst req resp))
    (hgranted : resp.voteGranted = true)
    (hstate : n.state = .preCandidate ∧ req.preVote = true ∨
      n.state = .candidate ∧ req.preVote = false ∧ resp.term = n.currentTerm) :
    (n.recordVote peer).Votes V voted p ds := by
  rcases hstate with ⟨hstate, -⟩ | ⟨hstate, hpre, hterm⟩
  · exact hn.same hnum { SameVotes.refl with votes := .inr (by simp [recordVote, hstate]) }
  · obtain ⟨hdst, q, hmsg⟩ := hin.msg _ hinp
    obtain ⟨hsrc, hreq, hcand, hV, hvote, hown⟩ := hmsg hpre hgranted
    have hdst : req.candidateID = p := hcand.symm.trans hdst
    rw [hdst, ← hreq, hterm, ← hsrc] at hvote
    rw [hdst, ← hreq, hterm] at hown
    refine { hn with candidate := fun _ q' hq' => ?_ }
    rcases List.mem_cons.mp hq' with rfl | hq'
    · exact ⟨hsrc ▸ hV, hvote, hown⟩
    · exact hn.candidate hstate q' hq'

theorem Votes.term_le (hn : n.Votes V voted p ds) {term : Nat} {c : ι} (h : voted p term c) :
    term ≤ n.currentTerm :=
  ((hn.kept term c h).trans hn.aligned.disk_precedes).term_le

theorem Votes.own_vote (hn : n.Votes V voted p ds) (hin : InputVotes V voted p n ds inp)
    (hstate : n.state = .candidate) (hwon : n.Wins inp) : voted p n.currentTerm p := by
  rcases hwon with ⟨hne, -, -⟩ | ⟨-, d, due, kept, seq, hinp, hdue⟩
  · obtain ⟨q, hq⟩ := List.exists_mem_of_ne_nil _ hne
    exact (hn.candidate hstate q hq).2.2
  · exact hin.due d due kept hinp _ hdue

theorem Votes.elected (hn : n.Votes V voted p ds) (hin : InputVotes V voted p n ds inp)
    (hstate : n.state = .candidate) (hwon : n.Wins inp) : Elected V voted n.currentTerm p := by
  rcases hwon with ⟨hne, hwon, peer, dst, req, resp, hinp⟩ | ⟨hsingle, d, due, kept, seq, hinp, hdue⟩
  · have hcounts := hin.counts (by rw [hinp]; trivial)
    obtain ⟨q, hq⟩ := List.exists_mem_of_ne_nil _ hne
    refine ⟨⟨q, (hn.candidate hstate q hq).1⟩, _, _, _, hcounts.reaches hwon, fun q' hq' => ?_⟩
    rcases Finset.mem_insert.mp hq' with rfl | hq'
    · rw [hn.id]
      exact (hn.candidate hstate q hq).2.2
    · exact (hn.candidate hstate q' (List.mem_toFinset.mp hq')).2.1
  · have hcounts := hin.counts (by rw [hinp]; trivial)
    have hown : voted p n.currentTerm p := hin.due d due kept hinp _ hdue
    have hvoter : n.membership.voter = true := by
      simp only [Membership.isSingleVoter, Bool.and_eq_true] at hsingle
      exact hsingle.1
    refine ⟨⟨p, (hcounts.voters p).mpr (.inl ⟨hn.id.symm, hvoter⟩)⟩, _, _, _,
      hcounts.reaches_of_single hsingle, fun q hq => ?_⟩
    rw [Finset.mem_singleton.mp hq, hn.id]
    exact hown

/-- **A move keeps what votes rest on.** -/
theorem Move.votes [Sized ι] (h : Move inp n n') (hn : n.Votes V voted p ds) (hnum : n.Numbered ds)
    (hin : InputVotes V voted p n ds inp) : n'.Votes V voted p ds := by
  have same : SameVotes V voted n n ds := .refl
  cases h with
  | quiet h => exact hn.same hnum (.of_core h same)
  | rounds h => exact hn.same hnum (.of_core h.core { same with })
  | send msgs h => exact hn.same hnum (.of_send msgs fun msg hmsg => (h msg hmsg).vouched)
  | hold d h =>
    refine hn.same hnum { same with deferred := List.forall_mem_append.mpr ⟨fun _ => .inl, ?_⟩ }
    exact List.forall_mem_singleton.mpr (.inr h.vouched)
  | demote leaderID => exact hn.same hnum { same with state := .inr (.inl rfl), votes := .inl rfl }
  | adoptTerm term hterm hstate =>
    exact hn.save hnum term none (.inl hterm) rfl (fun d hd => .inl hd) (.inl hstate)
  | grant src dst req hinp hpre hvoter _ hterm h =>
    exact hn.grant hnum hin hinp hpre hvoter hterm h
  | prestand =>
    exact hn.same hnum { same with state := .inr (.inr rfl), votes := .inr State.noConfusion }
  | stand =>
    obtain ⟨-, hpending⟩ := pending_saveTerm voted p hnum (n.currentTerm + 1) n.cfg.id
    refine hn.save hnum (n.currentTerm + 1) (some n.cfg.id)
      (.inl (Nat.lt_succ_self _)) rfl (List.forall_mem_append.mpr ⟨fun _ => .inl, ?_⟩)
      (.inr (.inl ⟨rfl, rfl⟩))
    refine List.forall_mem_singleton.mpr (.inr ?_)
    simpa only [Deferred.Vouched, hn.id] using hpending
  | tally peer dst req resp hinp _ hgranted hstate => exact hn.tally hnum hin hinp hgranted hstate
  | askVotes d due kept seq hinp hdue =>
    have hown : voted p n.currentTerm p := hin.due d due kept hinp _ hdue
    refine hn.same hnum (.of_send _ fun msg hmsg => ?_)
    obtain ⟨peer, -, rfl⟩ := List.mem_map.mp hmsg
    rw [hn.id]
    exact fun _ => ⟨hn.id, rfl, hown⟩
  | lead hstate hwon =>
    -- But for the role, nothing that votes rest on has changed.
    have hsame : ({ n with
        log := (n.log.append [⟨n.log.lastLogIndex + 1, n.currentTerm, .noop⟩]).2
        state := .follower } : Node ι).Votes V voted p ds :=
      hn.same hnum { SameVotes.of_log (.append _ _) with
        state := .inr (.inl rfl), votes := .inl rfl }
    exact { hsame with
      candidate := State.noConfusion
      leader := fun _ => hn.elected hin hstate hwon }
  | append es => exact hn.same hnum (.of_log (.append _ _))
  | sendAppends msgs _ h =>
    refine hn.same hnum (.of_send msgs fun msg hmsg => ?_)
    obtain ⟨peer, req, -, rfl⟩ := h msg hmsg
    exact trivial
  | sendSnapshots snap msgs _ h =>
    refine hn.same hnum (.of_send msgs fun msg hmsg => ?_)
    obtain ⟨peer, req, rfl, -⟩ := h msg hmsg
    exact trivial
  | accept src dst req _ _ hstate _ heq =>
    obtain ⟨hcore, hext, hout, hdef, -⟩ := acceptEntries_frame hstate heq
    refine hn.same hnum ⟨(congrArg Core.cfg hcore :), by rw [hardState, hcore]; rfl, hext,
      .inl (congrArg Core.state hcore :), .inl (congrArg Core.receivedVoteSet hcore :),
      fun d hd => ?_, fun msg hmsg => ?_⟩
    · rcases hdef with hdef | ⟨seq, resp, hdef⟩ <;> rw [hdef] at hd
      · exact .inl hd
      · refine (List.mem_append.mp hd).imp_right fun hd => ?_
        obtain rfl := List.mem_singleton.mp hd
        exact trivial
    · rcases hout with hout | ⟨resp, hout⟩ <;> rw [hout] at hmsg
      · exact .inl hmsg
      · refine (List.mem_append.mp hmsg).imp_right fun hmsg => ?_
        obtain rfl := List.mem_singleton.mp hmsg
        exact trivial
  | @answer _ seq work h hinp =>
    have hvouched : work.Vouched V voted n.cfg.id (Pending voted n.cfg.id n.log.w ds seq) ∧
        ∀ msg ∈ work.answer n.cfg.id, msg.Vouched V voted n.cfg.id := by
      cases work with
      | appendEntriesReply src req resp | installSnapshotReply src req resp =>
        exact ⟨trivial, by simp [Deferred.answer, Msg.Vouched]⟩
      | _ => exact hinp.elim
    exact hn.same hnum (.of_answers h hvouched.2 hvouched.1)
  | record => exact hn.same hnum (.of_log (.enqueue _ rfl))
  | compact position => exact hn.same hnum (.of_log (.compact _ _ _))
  | install snap log _ hlog => exact hn.same hnum { SameVotes.of_log (.installSnapshot hlog) with }
  | written d due kept => exact hn.same hnum { same with
      log := .stabilize _ _, deferred := List.forall_mem_nil _ }
  | resume d due kept w hinp hdue =>
    refine hn.same hnum (.of_send _ fun msg hmsg => ?_)
    rw [hn.id] at hmsg ⊢
    exact (hin.due d due kept hinp w hdue).answer msg hmsg
  | keep d due kept hinp =>
    refine hn.same hnum { same with deferred := fun w hw => ?_ }
    rcases List.mem_append.mp hw with hw | hw
    · rw [hn.id]
      exact .inr (hin.kept d due kept hinp w hw)
    · exact .inl hw
  | _ => exact hn.same hnum { same with }

end Votes

/-! ## Other changes -/

section Changes

variable {V : Finset ι} {voted voted' : VoteRecord ι} {p : ι} {ds ds' : List WriteDone}

theorem Votes.mono (hn : n.Votes V voted p ds) (hle : voted ≤ voted')
    (hkept : ∀ term c, voted' p term c → Precedes ⟨term, some c⟩ n.log.w.storage.hs) :
    n.Votes V voted' p ds := by
  refine ⟨hn.id, hn.aligned, hkept, fun msg hmsg => (hn.out msg hmsg).mono hle, fun d hd => ?_,
    fun hcand q hq => ?_, fun hlead => (hn.leader hlead).mono hle⟩
  · exact (hn.deferred d hd).mono hle fun term c hc => hc.mono hle
  · obtain ⟨hV, hvote, hown⟩ := hn.candidate hcand q hq
    exact ⟨hV, hle _ _ _ hvote, hle _ _ _ hown⟩

theorem Votes.of_writer (hn : n.Votes V voted p ds)
    (hcore : { n'.toCore with log := n.log, apply := n.apply } = n.toCore)
    (hhs : n'.log.w.storage.hs = n.log.w.storage.hs) (hqueue : n'.log.w.queue = n.log.w.queue)
    (hfailed : n'.log.w.failed = n.log.w.failed)
    (hdone : ∀ d ∈ n'.log.w.done ++ ds', d ∈ n.log.w.done ++ ds) : n'.Votes V voted p ds' := by
  have hstate : n'.state = n.state := (congrArg Core.state hcore :)
  have hterm : n'.currentTerm = n.currentTerm := (congrArg Core.currentTerm hcore :)
  have hvote : n'.votedFor = n.votedFor := (congrArg Core.votedFor hcore :)
  have hset : n'.receivedVoteSet = n.receivedVoteSet := (congrArg Core.receivedVoteSet hcore :)
  have hout : n'.out = n.out := (congrArg Core.out hcore :)
  have hdef : n'.deferredWrites = n.deferredWrites := (congrArg Core.deferredWrites hcore :)
  have hcfg : n'.cfg = n.cfg := (congrArg Core.cfg hcore :)
  refine ⟨by rw [hcfg]; exact hn.id, ?_, ?_, ?_, ?_, ?_, ?_⟩
  · unfold Aligned hardState
    rw [hhs, hqueue, hterm, hvote]
    exact hn.aligned
  · rw [hhs]
    exact hn.kept
  · rw [hout]
    exact hn.out
  · intro d hd
    rw [hdef] at hd
    refine (hn.deferred d hd).mono (le_refl _) fun term c hc => ?_
    rcases hc with hc | ⟨op, hop, hle, hk⟩ | ⟨hf, hnone⟩
    · exact .inl hc
    · exact .inr (.inl ⟨op, by rw [hqueue]; exact hop, hle, hk⟩)
    · exact .inr (.inr ⟨hfailed.trans hf, fun d hd => hnone d (hdone d hd)⟩)
  · rw [hstate, hset, hterm]
    exact hn.candidate
  · rw [hstate, hterm]
    exact hn.leader

/-- **The writer writes**: votes that take effect go into the record, and nobody has voted
twice. -/
theorem Votes.execute (hn : n.Votes V voted p ds) (hnum : n.Numbered ds) (hone : OneVote voted)
    (fault : Option Nat) : ∃ mine, voted p ≤ mine ∧
      OneVote (update voted p mine) ∧
      ({ n with log := n.log.execute fault } : Node ι).Votes V (update voted p mine) p ds := by
  obtain ⟨executed, hex⟩ := StorageWriter.execute_executes n.log.w fault
  obtain ⟨unexecuted, hops⟩ := hex.initial
  have hqueue : n.log.w.queue =
      executed ++ (unexecuted ++ n.log.w.queue.drop n.log.w.takeCount) := by
    rw [← List.append_assoc, hops]
    exact hex.queue
  obtain ⟨haligned, hprec⟩ := hn.aligned.execAll hqueue hex.exec
  -- The record gets every vote that took effect.
  let mine : Nat → ι → Prop := fun term c =>
    voted p term c ∨ ⟨term, some c⟩ ∈ queuedHardStates executed
  have hle : voted ≤ update voted p mine := Ghost.le_update fun term c h => .inl h
  have hself : update voted p mine p = mine := update_self ..
  have hkept : ∀ term c, mine term c →
      Precedes ⟨term, some c⟩ (n.log.w.execute fault).storage.hs := by
    rintro term c (h | h)
    · exact (hn.kept term c h).trans (hprec _ (List.mem_cons_self ..))
    · exact hprec _ (List.mem_cons_of_mem _ h)
  refine ⟨mine, fun term c h => .inl h, ?_, ?_⟩
  · -- Old votes come before new ones, and new ones come in order.
    have hpair := List.pairwise_append.mp (List.pairwise_cons.mp hn.aligned).2
    rw [hqueue, queuedHardStates_append] at hpair
    have hnew := List.pairwise_append.mp hpair.1
    have hold : ∀ term c c', voted p term c → ⟨term, some c'⟩ ∈ queuedHardStates executed → c = c' := by
      intro term c c' h h'
      refine ((hn.kept term c h).trans ?_).vote_eq
      refine (List.pairwise_cons.mp hn.aligned).1 _ (List.mem_append_left _ ?_)
      rw [hqueue, queuedHardStates_append]
      exact List.mem_append_left _ h'
    intro q term c c' h h'
    by_cases hq : q = p
    · subst hq
      rw [hself] at h h'
      rcases h with h | h <;> rcases h' with h' | h'
      · exact hone _ term c c' h h'
      · exact hold term c c' h h'
      · exact (hold term c' c h' h).symm
      · exact vote_unique hnew.1 h h'
    · rw [update_of_ne hq] at h h'
      exact hone q term c c' h h'
  · refine ⟨hn.id, ?_, ?_, fun msg hmsg => (hn.out msg hmsg).mono hle, fun d hd => ?_,
      fun hcand q hq => ?_, fun hlead => (hn.leader hlead).mono hle⟩
    · show List.Pairwise Precedes ((n.log.w.execute fault).storage.hs ::
        queuedHardStates (n.log.w.execute fault).queue ++ [n.hardState])
      rw [hex.left]
      refine haligned.sublist ?_
      rw [queuedHardStates_append]
      simp
    · rw [hself]
      exact hkept
    · refine (hn.deferred d hd).mono hle fun term c hc => ?_
      exact hc.executes n.log (n.log.execute fault) hex hnum.log hle
        fun term c h => by rw [hself]; exact .inr h
    · obtain ⟨hV, hvote, hown⟩ := hn.candidate hcand q hq
      exact ⟨hV, hle _ _ _ hvote, hle _ _ _ hown⟩

theorem Starts.votes {cfg : Config ι} {s : Store ι} {boot : Nat} {out : List (Msg ι)}
    (h : Starts cfg s boot out n) (hid : cfg.id = p)
    (hkept : ∀ term c, voted p term c → Precedes ⟨term, some c⟩ s.hs)
    (hout : ∀ msg ∈ out, msg.Vouched V voted p) : n.Votes V voted p [] := by
  obtain ⟨hstate, hcfg, hsent, hheld⟩ := h.anew
  have hhs : n.hardState = s.hs := by
    obtain ⟨log, draws, sm, la, hcore⟩ := h.core
    rw [hardState, hcore]
    rfl
  refine ⟨?_, ?_, ?_, ?_, ?_, ?_, ?_⟩
  · rwa [hcfg]
  · unfold Aligned
    rw [h.w, hhs]
    simp [StorageWriter.init, queuedHardStates, Precedes.refl]
  · rw [h.w]
    exact hkept
  · rwa [hsent]
  · rw [hheld]
    simp
  · rw [hstate]
    simp
  · rw [hstate]
    simp

theorem Votes.crash [Sized ι] (hn : n.Votes V voted p ds) {k : Nat} (h : n.restart k = some n') :
    n'.Votes V voted p [] := by
  obtain ⟨s, hs, hnew⟩ := Option.bind_eq_some_iff.mp h
  refine (new_starts hnew).1.votes hn.id (fun term c hc => (hn.kept term c hc).trans ?_) hn.out
  unfold RaftLog.survives at hs
  split_ifs at hs
  · cases hs
    exact .refl _
  · have hqueue : n.log.w.queue = n.log.w.queue.take k ++ n.log.w.queue.drop k :=
      (List.take_append_drop ..).symm
    exact (hn.aligned.execAll hqueue hs).2 _ (List.mem_cons_self ..)

end Changes

end Node

end Raft
