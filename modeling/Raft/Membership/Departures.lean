import Raft.Election.Safety
import Raft.Replication.Acknowledgements
import Raft.Replication.FollowerCommit

/-!
# Telling a removed peer

A leader that has removed a peer goes on sending to it until the peer has acknowledged a
request whose commit index covers the removal, and then takes the peer to know.  A follower,
however, commits no further than what the request vouches for.  A heartbeat is sent with the
previous entry the leader believes the peer has, and with the leader's own commit index; so
a peer that lags behind acknowledges it and has never seen its removal.
-/

namespace Raft

variable {ι : Type} {histL : List Nat} {idx : Nat}

namespace Node

def Told (n : Node ι) (histL : List Nat) (idx : Nat) : Prop :=
  idx ≤ n.commitIndex ∧ n.log.Has histL idx

/-- The request reaches the index, or it is committed; and its previous entry is known or
agrees. -/
def Covered (n : Node ι) (hist : List Nat) (req : AppendEntriesRequest ι) (histL : List Nat)
    (idx : Nat) : Prop :=
  (idx ≤ n.commitIndex ∨ idx ≤ req.prevLogIndex + req.entries.length) ∧
    (req.prevLogIndex = 0 ∨ req.prevLogTerm ≠ 0 ∨
      idx ≤ max n.commitIndex n.log.snapMeta.lastIncludedIndex ∨
      ∃ t, histTerm hist idx = some t ∧ histTerm histL idx = some t)

/-- What the node has committed it keeps, in its log or under its snapshot. -/
def KeepsCommitted (n n' : Node ι) : Prop :=
  n.log.snapMeta.lastIncludedIndex ≤ n'.log.snapMeta.lastIncludedIndex ∧
    ∀ e ∈ n.log.contents, e.index ≤ n.commitIndex →
      e.index ≤ n'.log.snapMeta.lastIncludedIndex ∨ e ∈ n'.log.contents

instance [DecidableEq ι] (n n' : Node ι) : Decidable (n.KeepsCommitted n') :=
  inferInstanceAs (Decidable (_ ∧ _))

theorem Told.keep {n n' : Node ι} (h : n.Told histL idx) (hcommit : n.commitIndex ≤ n'.commitIndex)
    (hkeeps : n.KeepsCommitted n') : n'.Told histL idx := by
  obtain ⟨hle, hhas⟩ := h
  refine ⟨hle.trans hcommit, ?_⟩
  rcases hhas with hsnap | ⟨e, he, rfl, hterm⟩
  · exact .inl (hsnap.trans hkeeps.1)
  · exact (hkeeps.2 e he hle).imp_right fun he' => ⟨e, he', rfl, hterm⟩

variable [DecidableEq ι] [Sized ι]

section Peer

variable {n : Node ι} {hist histL : List Nat} {src : Asker ι} {req : AppendEntriesRequest ι}

theorem handleAppendEntries_commit (hack : n.Acks (n.handleAppendEntries src req) src req) :
    (n.handleAppendEntries src req).commitIndex =
      max n.commitIndex (min req.leaderCommit (req.prevLogIndex + req.entries.length)) := by
  rcases handleAppendEntries_cases n src req with ⟨-, -, heq⟩ | ⟨-, href⟩
  · obtain ⟨-, hcommit, -, hstate, hout, hdef⟩ :=
      becomeFollower_frame n req.term (some req.leaderID)
    rw [heq] at hack ⊢
    generalize n.becomeFollower req.term (some req.leaderID) = m at *
    rcases mergeEntries_frame (n := m) (by rw [hstate]; decide) (m.received req) with
      ⟨w, log, mem, hmerge, -⟩ | ⟨log, mem, f, hmerge, -⟩
    · obtain ⟨n', hn', hci, -⟩ := acceptEntries_ok src req hmerge
      rw [hn', hci, received_length, ← hcommit]
    · -- A merge that is given up is not acknowledged.
      have hgiven : m.acceptEntries src req (m.received req) =
          { m with log := log, membership := mem, fatalErr := f } := by
        simp only [acceptEntries, hmerge]
      rw [hgiven] at hack
      obtain ⟨resp, -, ho | ⟨seq, hd⟩⟩ := hack
      · simp [hout] at ho
      · simp [hdef] at hd
  · exact absurd hack href.silent

theorem handleAppendEntries_empty_has (h : n.Receives hist req histL)
    (hack : n.Acks (n.handleAppendEntries src req) src req) (hnil : req.entries = []) (idx : Nat) :
    (n.handleAppendEntries src req).log.Has histL idx ↔ n.log.Has histL idx := by
  rcases handleAppendEntries_cases n src req with ⟨-, -, heq⟩ | ⟨-, href⟩
  · obtain ⟨hlog, -⟩ := becomeFollower_frame n req.term (some req.leaderID)
    rw [heq]
    generalize n.becomeFollower req.term (some req.leaderID) = m at *
    have hmerge : m.mergeEntries (m.received req) = .ok (0, m) := by
      rw [m.received_eq_nil hnil]
      rfl
    obtain ⟨n', hn', -, hlog', -⟩ := acceptEntries_ok src req hmerge
    -- at most a term has been saved on the way
    have hm : m.log.contents = n.log.contents ∧ m.log.snapMeta = n.log.snapMeta ∧ m.log.Wf := by
      rw [hlog]
      split_ifs
      · exact ⟨(h.tail.wf.enqueue_hardState _).2, rfl, (h.tail.wf.enqueue_hardState _).1⟩
      · exact ⟨rfl, rfl, h.tail.wf⟩
    rw [hn', RaftLog.Has, RaftLog.Has]
    rcases hlog' with hl | ⟨i, hl⟩
    · rw [hl, hm.1, hm.2.1]
    · have hsnap : (m.log.enqueue (.commitIndex i)).snapMeta = m.log.snapMeta := rfl
      rw [hl, (hm.2.2.enqueue_commitIndex i).2, hsnap, hm.1, hm.2.1]
  · exact absurd hack href.silent

/-- **Which requests tell a peer** of an entry the leader had committed when it sent them. -/
theorem told_iff (h : n.Receives hist req histL) (hmatch : LogMatching hist histL)
    (hack : n.Acks (n.handleAppendEntries src req) src req) (hcommit : idx ≤ req.leaderCommit) :
    (n.handleAppendEntries src req).Told histL idx ↔ n.Covered hist req histL idx := by
  have hreach : idx ≤ (n.handleAppendEntries src req).commitIndex ↔
      idx ≤ n.commitIndex ∨ idx ≤ req.prevLogIndex + req.entries.length := by
    rw [handleAppendEntries_commit hack]
    omega
  rw [Told, Covered, hreach]
  refine and_congr_right fun hin => ?_
  by_cases hdesc : req.prevLogIndex = 0 ∨ req.prevLogTerm ≠ 0
  · -- What is committed on the word of a leader that could describe the previous entry is right.
    refine iff_of_true ?_ (hdesc.imp_right .inl)
    have hsound := (commitSound_handled h hmatch hack).mpr (hdesc.imp_right .inl)
    rcases Nat.eq_zero_or_pos idx with rfl | hpos
    · exact .inl (Nat.zero_le _)
    · exact hsound idx hpos (hreach.mpr hin)
  · obtain ⟨hprev, hterm⟩ := not_or.mp hdesc
    have hnil : req.entries = [] := by
      rcases h.sentFrom.described (Nat.pos_of_ne_zero hprev) with hsome | ⟨-, hnil⟩
      · exact absurd (h.positive _ (mem_of_histTerm hsome)).ne' hterm
      · exact hnil
    have hbound := h.commit
    have hsnap := h.tail.snap_le
    rw [handleAppendEntries_empty_has h hack hnil]
    constructor
    · rintro (hle | ⟨e, he, rfl, hL⟩)
      · exact .inr (.inr (.inl (hle.trans (le_max_right ..))))
      · exact .inr (.inr (.inr ⟨e.term, h.tail.terms e he, hL⟩))
    · rintro (hz | hne | hle | ⟨t, ht, hL⟩)
      · exact absurd hz hprev
      · exact absurd hne hterm
      · exact h.tail.has (by omega) (h.agree idx hle)
      · exact h.tail.has (histTerm_bounds ht).2 (ht.trans hL.symm)

end Peer

def EndsTold (n : Node ι) (peer : ι) (dst : Asker ι) (req : AppendEntriesRequest ι)
    (resp : AppendEntriesResponse) (d : Departure ι) : Prop :=
  n.boot = dst.boot ∧ resp.term ≤ n.currentTerm ∧ n.state = .leader ∧ resp.success = true ∧
    n.departing.find? (·.peer = peer) = some d ∧ d.index ≤ req.leaderCommit
  deriving Decidable

theorem EndsTold.receive {n : Node ι} {peer : ι} {dst : Asker ι} {req : AppendEntriesRequest ι}
    {resp : AppendEntriesResponse} {d : Departure ι} (h : n.EndsTold peer dst req resp d) :
    n.receive (.appendEntriesReply peer dst req resp) =
      ((n.releaseInflight peer).markPeerUp peer).endDeparture peer := by
  obtain ⟨hboot, hterm, hlead, hok, hfind, htold⟩ := h
  have hdeparting : ((n.releaseInflight peer).markPeerUp peer).departingPeer peer req =
      some (((n.releaseInflight peer).markPeerUp peer).endDeparture peer) := by
    have hfind' : ((n.releaseInflight peer).markPeerUp peer).departing.find? (·.peer = peer) =
        some d := hfind
    rw [departingPeer, hfind', Option.map_some, if_pos htold]
  have hterm' : ¬ ((n.releaseInflight peer).markPeerUp peer).currentTerm < resp.term :=
    Nat.not_lt.mpr hterm
  have hlead' : ¬ ((n.releaseInflight peer).markPeerUp peer).state ≠ .leader := not_not_intro hlead
  simp only [Node.receive, if_pos hboot, handleAppendResult, if_neg hterm', if_neg hlead', hok,
    Bool.not_true, Bool.false_eq_true, if_false, hdeparting]

end Node

def Action.Restarts (p : ι) : Action ι → Prop
  | .crash i _ => i = p
  | _ => False

instance [DecidableEq ι] (p : ι) (a : Action ι) : Decidable (a.Restarts p) := by
  apply a.casesOn (motive := (Decidable <| ·.Restarts p)) <;> intros <;>
    dsimp only [Action.Restarts] <;> infer_instance

namespace Sys

variable [DecidableEq ι] [Sized ι]

def Keeps (p : ι) (σ : Sys ι) (a : Action ι) : Prop :=
  ¬ a.Restarts p ∧ (σ p).KeepsCommitted (σ.step a p)
  deriving Decidable

theorem told_along {σ : Sys ι} {p : ι} {as : List (Action ι)} (hnum : ∀ i, (σ i).Numbered [])
    (has : Along (Keeps p) σ as) (h : (σ p).Told histL idx) : (σ.run as p).Told histL idx := by
  induction as generalizing σ with
  | nil => exact h
  | cons a as ih =>
    obtain ⟨⟨hcrash, hkeeps⟩, has⟩ := has
    have hcommit : (σ p).commitIndex ≤ (σ.step a p).commitIndex :=
      step_commit_le hnum fun k heq => hcrash (by rw [heq]; exact rfl)
    exact ih (step_numbered hnum a) has (h.keep hcommit hkeeps)

/-- **When a departure ends because the peer was told**, the peer has accepted the request
before, and was told exactly if the request covers the removal. -/
theorem departure_told (cfg : ι → Config ι) (store : ι → Store ι) (as : List (Action ι)) {m k : Nat}
    {p : ι} {dst : Asker ι} {req : AppendEntriesRequest ι} {resp : AppendEntriesResponse}
    {d : Departure ι} (hstep : as[m]? = some (.deliver p k))
    (hmsg : ((start cfg store).run (as.take m) p).out[k]? = some (.appendEntriesReply p dst req resp))
    (hends : ((start cfg store).run (as.take m) dst.id).EndsTold p dst req resp d) :
    (∀ d' ∈ ((start cfg store).run (as.take (m + 1)) dst.id).departing, d'.peer ≠ p) ∧
    (∃ j < m, ∃ a, as[j]? = some a ∧ ((start cfg store).run (as.take j)).Accepts a p dst req) ∧
    ∀ j < m, ∀ a, as[j]? = some a → ((start cfg store).run (as.take j)).Accepts a p dst req →
      ∀ hist histL, ((start cfg store).run (as.take j) p).Receives hist req histL →
        LogMatching hist histL →
        (((start cfg store).run (as.take (j + 1)) p).Told histL d.index ↔
          ((start cfg store).run (as.take j) p).Covered hist req histL d.index) ∧
        (((start cfg store).run (as.take j) p).Covered hist req histL d.index →
          Along (Keeps p) ((start cfg store).run (as.take (j + 1))) ((as.take m).drop (j + 1)) →
          ((start cfg store).run (as.take m) p).Told histL d.index) := by
  have hforgets : (start cfg store).run (as.take (m + 1)) dst.id =
      ((start cfg store).run (as.take m) dst.id).receive (.appendEntriesReply p dst req resp) := by
    rw [run_take_succ _ hstep]
    simp [step, Action.effect, hmsg, Msg.dst, assign]
  rw [hends.receive] at hforgets
  obtain ⟨-, -, -, hok, -, hcommit⟩ := hends
  refine ⟨fun d' hd' => ?_, exists_accepts cfg store (.inl ⟨_, List.mem_of_getElem? hmsg, rfl, rfl, hok⟩), ?_⟩
  · rw [hforgets] at hd'
    exact of_decide_eq_true (List.mem_filter.mp hd').2
  intro j hj a ha hacc hist histL hreceives hmatch
  obtain ⟨⟨i, k', rfl, hreq⟩, hacks⟩ := hacc
  have hturn : (start cfg store).run (as.take (j + 1)) p =
      ((start cfg store).run (as.take j) p).handleAppendEntries dst req := by
    rw [run_take_succ _ ha]
    simp [step, Action.effect, hreq, Msg.dst, assign, Node.receive]
  rw [← run_take_succ _ ha, hturn] at hacks
  have hiff := Node.told_iff hreceives hmatch hacks hcommit
  rw [← hturn] at hiff
  refine ⟨hiff, fun hcovered hkeeps => ?_⟩
  -- from the acceptance to the answer the peer keeps what it was told
  have hsplit : as.take m = as.take (j + 1) ++ (as.take m).drop (j + 1) := by
    conv_lhs => rw [← List.take_append_drop (j + 1) (as.take m)]
    rw [List.take_take, Nat.min_eq_left hj]
  rw [hsplit, run_append]
  exact told_along (run_numbered (start_numbered cfg store) _) hkeeps (hiff.mpr hcovered)

def removes : List (Action (Fin 3)) :=
  electsNode0 ++ [.propose 0 [.config (.remove 2)], .execute 0 none, .complete 0, .deliver 0 6,
    .execute 1 none, .complete 1, .deliver 1 4, .applyCommitted 0 .healthy, .applyResult 0,
    .applyResult 0]

def tells : List (Action (Fin 3)) :=
  removes ++ [.deliver 0 8, .execute 2 none, .execute 2 none, .complete 2, .deliver 2 0]

def overlooks : List (Action (Fin 3)) :=
  removes ++ [.tick 0, .deliver 0 10, .execute 2 none, .complete 2, .deliver 2 0]

/-- The last request to node 2 before heartbeats. -/
def removal : AppendEntriesRequest (Fin 3) :=
  ⟨1, 0, 0, 0, [⟨1, 1, .noop⟩, ⟨2, 1, .config (.remove 2)⟩], 2, 0⟩

def remover : Node (Fin 3) :=
  { Node.start (Config.ofSize 3 0) ⟨⟨1, some 0⟩, removal.entries, none, 0⟩ with
    state := .leader
    nextIndex := fun _ => some 1
    commitIndex := 2 }

theorem removal_received :
    ((start (Config.ofSize 3) fun _ => .empty).run (tells.take 22) 2).Receives [] removal [1, 1] := by
  have hfresh : RaftLog.Fresh remover.log.w.storage remover.log :=
    .of_new ⟨(Contiguous.singleton _).append (Contiguous.singleton _), by decide⟩ rfl
  have hfresh' : RaftLog.Fresh .empty
      ((start (Config.ofSize 3) fun _ => .empty).run (tells.take 22) 2).log :=
    .of_new Store.empty_wf (by decide +kernel : RaftLog.new .empty false false = some _)
  have hb : remover.Builds 2 removal := .entries removal.entries (by decide) (by decide)
  refine ⟨.of_fresh hfresh' ?_ ?_ ?_ ?_ ?_, ?_, ⟨remover, 2, [1, 1], hb,
    .of_fresh hfresh ?_ ?_ ?_ ?_ ?_, .of_fresh hfresh, List.prefix_refl _, ?_⟩, ?_, ?_⟩
  all_goals decide

/-- Node 2 has the entry when node 0 ends its departure. -/
theorem departure_told_entries :
    (∀ d ∈ ((start (Config.ofSize 3) fun _ => .empty).run (tells.take 27) 0).departing, d.peer ≠ 2) ∧
      ((start (Config.ofSize 3) fun _ => .empty).run (tells.take 26) 2).Told [1, 1] 2 := by
  obtain ⟨hforgets, -, htold⟩ := @departure_told (Fin 3) _ _ (Config.ofSize 3) (fun _ => .empty) tells
    26 0 2 ⟨0, 0⟩ removal ⟨1, true, 0, 0⟩ ⟨2, 2, 0⟩ rfl (by decide +kernel) (by decide +kernel)
  have hacc : ((start (Config.ofSize 3) fun _ => .empty).run (tells.take 22)).Accepts (.deliver 0 8) 2
      ⟨0, 0⟩ removal :=
    ⟨⟨0, 8, rfl, by decide +kernel⟩, ⟨1, true, 0, 0⟩, rfl, .inr ⟨2, by decide +kernel⟩⟩
  have hkeeps : Along (Keeps 2) ((start (Config.ofSize 3) fun _ => .empty).run (tells.take 23))
      ((tells.take 26).drop 23) := by
    decide +kernel
  have hmatch : LogMatching [] [1, 1] := by
    rintro i t hi -
    cases mem_of_histTerm hi
  exact ⟨hforgets, (htold 22 (by decide) _ rfl hacc [] [1, 1] removal_received hmatch).2
    ⟨.inr (by decide), .inl rfl⟩ hkeeps⟩

/-- **A heartbeat tells nothing**: node 2 acknowledges it, is forgotten, and has nothing in
its log. -/
theorem departure_overlooked : ∃ dst req resp d,
    overlooks[26]? = some (.deliver 2 0) ∧
      ((start (Config.ofSize 3) fun _ => .empty).run (overlooks.take 26) 2).out[0]? =
        some (.appendEntriesReply 2 dst req resp) ∧
      ((start (Config.ofSize 3) fun _ => .empty).run (overlooks.take 26) dst.id).EndsTold 2 dst req
        resp d ∧
      ((start (Config.ofSize 3) fun _ => .empty).run overlooks 0).departing = [] ∧
      ((start (Config.ofSize 3) fun _ => .empty).run overlooks 2).log.contents = [] ∧
      ((start (Config.ofSize 3) fun _ => .empty).run overlooks 2).log.snapMeta.lastIncludedIndex <
        d.index ∧
      ((start (Config.ofSize 3) fun _ => .empty).run overlooks 2).commitIndex < d.index := by
  refine ⟨⟨0, 0⟩, ⟨1, 0, 0, 0, [], 2, 0⟩, ⟨1, true, 0, 0⟩, ⟨2, 2, 1⟩, rfl, ?_⟩
  decide +kernel

end Sys

end Raft
