import Raft.Election.Safety
import Raft.System.Logs
import Raft.Turn.Roles

/-!
# Who stands for election

The election timer of a node runs only while the node has a vote, and a witness never calls an
election.  A request to take over at once and the reply to a vote request are taken up without
asking for a vote: the leader has asked before it sent the one, and the node had a vote when it
sent the request for the other.

## Main results

* `Sys.fullVoter_of_rises`: only a full voter moves up, in a run in which such messages find a
  node that has a vote.
* `Sys.removed_stands`: a request that comes late lets a removed node stand.
-/

namespace Raft

variable {ι : Type}

namespace Node

/-- The node has a vote and may lead. -/
def FullVoter (n : Node ι) : Prop := n.membership.voter = true ∧ n.cfg.witness = false

/-- The node takes up the role of a pre-candidate, of a candidate or of the leader. -/
def Rises (n n' : Node ι) : Prop := n'.state ≠ n.state ∧ n'.state ≠ .follower

def Inert (n : Node ι) : Prop := n.cfg.witness = true → n.state = .follower

end Node

/-- The message finds a node with a vote, or one that does not act on it. -/
def Msg.FindsVoter (n : Node ι) : Msg ι → Prop
  | .timeoutNow _ req => req.term < n.currentTerm ∨ n.membership.voter = true
  | .requestVoteReply _ _ _ _ => n.state = .follower ∨ n.membership.voter = true
  | _ => True

instance (n : Node ι) (msg : Msg ι) : Decidable (msg.FindsVoter n) := by
  apply msg.casesOn (motive := (Decidable <| ·.FindsVoter n)) <;> intros <;>
    dsimp only [Msg.FindsVoter] <;> infer_instance

namespace Input

/-- The input is taken up without asking for a vote. -/
def Elects : Input ι → Prop
  | .msg (.requestVoteReply _ _ _ _) => True
  | .msg (.timeoutNow _ _) => True
  | _ => False

def AsksVoter : Input ι → Prop
  | .timer => True
  | .written _ _ _ => True
  | _ => False

end Input

variable [DecidableEq ι] [Sized ι]

def Action.FindsVoters (σ : Sys ι) : Action ι → Prop
  | .deliver j k => ∀ msg ∈ (σ j).out[k]?, msg.FindsVoter (σ msg.dst)
  | _ => True

instance (σ : Sys ι) (a : Action ι) : Decidable (a.FindsVoters σ) := by
  apply a.casesOn (motive := (Decidable <| ·.FindsVoters σ)) <;> intros <;>
    dsimp only [Action.FindsVoters] <;> infer_instance

namespace Node

variable {inp : Input ι} {n n' : Node ι}

omit [DecidableEq ι] [Sized ι] in
theorem MayStand.elects_or_voter (h : n.MayStand inp) :
    inp.Elects ∨ inp.AsksVoter ∧ n.membership.voter = true := by
  obtain ⟨-, hcalls⟩ := h
  cases inp with
  | timer => exact .inr ⟨trivial, hcalls⟩
  | msg msg => cases msg <;> first | exact .inl trivial | exact absurd hcalls not_false
  | _ => exact absurd hcalls not_false

omit [Sized ι] in
theorem Wins.elects_or_voter (h : n.Wins inp) :
    inp.Elects ∨ inp.AsksVoter ∧ n.membership.voter = true := by
  rcases h with ⟨-, -, peer, dst, req, resp, rfl⟩ | ⟨hsingle, d, due, kept, seq, rfl, -⟩
  · exact .inl trivial
  · have hboth := hsingle
    rw [Membership.isSingleVoter, Bool.and_eq_true] at hboth
    exact .inr ⟨trivial, hboth.1⟩

/-- **A move up** is for a message that does not ask for a vote, or the node has one. -/
theorem RoleChange.elects_or_voter (h : RoleChange inp n n') :
    (n'.state = n.state ∨ n'.state = .follower) ∨
      inp.Elects ∨ inp.AsksVoter ∧ n.membership.voter = true := by
  cases h with
  | same hstate _ => exact .inl (.inl hstate)
  | follow hstate _ => exact .inl (.inr hstate)
  | prestand hstands _ _ | stand hstands _ _ => exact .inr hstands.elects_or_voter
  | lead _ hwon _ _ _ => exact .inr hwon.elects_or_voter

theorem Move.voter (h : Move inp n n') (hasks : inp.AsksVoter) :
    n'.membership.voter = n.membership.voter := by
  have of_core : ∀ {c : Core ι}, n'.toCore = c → c.membership = n.membership →
      n'.membership.voter = n.membership.voter := by
    rintro c rfl hm
    rw [hm]
  cases h with
  | member m h =>
    rcases h with h | ⟨-, hsame, -⟩
    · cases inp <;> first | exact absurd h not_false | exact absurd hasks not_false
    · exact hsame.voter
  | accept src dst req hinp _ _ _ _ => exact absurd hasks (hinp ▸ not_false)
  | quiet h => exact of_core h rfl
  | rounds h _ | grant _ _ _ _ _ _ _ _ h | answer h _ => exact of_core h.core rfl
  | _ => rfl

/-- What holds of `m` while a turn of the node `n`, which has no vote, is under way. -/
def StaysDown (n : Node ι) (asks : Prop) (m : Node ι) : Prop :=
  (m.state = n.state ∨ m.state = .follower) ∧ (asks → m.membership.voter = false)

theorem Move.staysDown {m m' : Node ι} {asks : Prop} (h : Move inp m m') (hno : ¬ inp.Elects)
    (hasks : inp.AsksVoter ↔ asks) (hm : n.StaysDown asks m) : n.StaysDown asks m' := by
  refine ⟨?_, fun ha => (h.voter (hasks.mpr ha)).trans (hm.2 ha)⟩
  rcases h.roleChange.elects_or_voter with (hsame | hdown) | helects | ⟨ha, hvoter⟩
  · rw [hsame]
    exact hm.1
  · exact .inr hdown
  · exact absurd helects hno
  · exact absurd (hm.2 (hasks.mp ha)) (by simp [hvoter])

theorem handleVoteResult_follower (h : n.state = .follower) (peer : ι) (req : RequestVoteRequest ι)
    (resp : RequestVoteResponse) : (n.handleVoteResult peer req resp).state = .follower := by
  have hpre : n.state ≠ .preCandidate ∨ req.term ≠ n.currentTerm + 1 := .inl (by rw [h]; decide)
  have hreal : n.state ≠ .candidate ∨ resp.term < n.currentTerm := .inl (by rw [h]; decide)
  unfold handleVoteResult
  rw [if_pos hpre, if_pos hreal]
  split_ifs
  · exact h
  · rfl
  · exact h

/-- **A message** that finds a voter, or is not acted on, lets no node without a vote move up. -/
theorem receive_staysDown (hseq : n.completedWriteSeq ≤ n.log.nextSeq)
    (hvoter : n.membership.voter = false) {msg : Msg ι} (hfinds : msg.FindsVoter n) :
    (n.receive msg).state = n.state ∨ (n.receive msg).state = .follower := by
  have hmoves : Moves (.msg msg) n (n.receive msg) := receive_moves msg rfl hseq
  have of_moves (hno : ¬ (Input.msg msg).Elects) : (n.receive msg).state = n.state ∨
      (n.receive msg).state = .follower :=
    (hmoves.invariant (P := n.StaysDown False) (fun _ _ hm hmove => hmove.staysDown hno .rfl hm)
      ⟨.inl rfl, fun ha => ha.elim⟩).1
  cases msg with
  | timeoutNow dst req =>
    have hstale : req.term < n.currentTerm := hfinds.resolve_right (by simp [hvoter])
    exact .inl (by rw [receive, handleTimeoutNow, if_pos hstale])
  | requestVoteReply src dst req resp =>
    have hfollower : n.state = .follower := hfinds.resolve_right (by simp [hvoter])
    dsimp only [receive]
    split_ifs
    · exact .inr (handleVoteResult_follower hfollower _ _ _)
    · exact .inl rfl
  | _ => exact of_moves not_false

theorem restart_follower {k : Nat} (h : n.restart k = some n') : n'.state = .follower := by
  obtain ⟨store, -, hnew⟩ := Option.bind_eq_some_iff.mp h
  exact (new_starts hnew).1.anew.1

theorem Move.inert (h : Move inp n n') (hn : n.Inert) : n'.Inert := by
  intro hwitness
  rw [h.frame.cfg] at hwitness
  have hstate := hn hwitness
  cases h.roleChange with
  | same hsame _ => exact hsame.trans hstate
  | follow hdown _ => exact hdown
  | prestand hstands _ _ | stand hstands _ _ =>
    rcases hstands.1 with hfull | hup
    · exact absurd (hfull.symm.trans hwitness) (by decide)
    · exact absurd hstate hup
  | lead hcandidate _ _ _ _ => cases hcandidate.symm.trans hstate

theorem Change.inert {a : Action ι} {offers : Input ι → Prop} {p p' : Node ι × List WriteDone}
    (h : Change a offers p p') (hp : p.1.Inert) : p'.1.Inert := by
  cases h with
  | move _ hmove => exact hmove.inert hp
  | written _ _ _ hmoves => exact hmoves.invariant (fun _ _ hn hmove => hmove.inert hn) hp
  | writeFailed _ _ hcore =>
    intro hwitness
    rw [hcore] at hwitness ⊢
    exact hp hwitness
  | beside h =>
    cases h
    exact hp
  | crash i k _ hn => exact fun _ => restart_follower hn
  | _ => exact hp

/-- **A change** does not let a node without a vote move up, messages that elect apart. -/
theorem Change.staysDown {a : Action ι} {offers : Input ι → Prop} {p p' : Node ι × List WriteDone}
    (h : Change a offers p p') (hno : ∀ inp, offers inp → ¬ inp.Elects)
    (hasks : ∀ inp, offers inp → (inp.AsksVoter ↔ offers .timer))
    (hcomplete : (∃ i, a = .complete i) → offers .timer)
    (hcrash : (∃ i k, a = .crash i k) → ¬ offers .timer)
    (hp : n.StaysDown (offers .timer) p.1) : n.StaysDown (offers .timer) p'.1 := by
  cases h with
  | move hinp hmove => exact hmove.staysDown (hno _ hinp) (hasks _ hinp) hp
  | written ha _ _ hmoves =>
    refine hmoves.invariant (fun _ _ hm hmove => hmove.staysDown ?_ ?_ hm) hp
    · exact not_false
    · exact ⟨fun _ => hcomplete ha, fun _ => trivial⟩
  | writeFailed _ _ hcore =>
    unfold StaysDown
    rw [hcore]
    exact hp
  | beside h =>
    cases h
    exact hp
  | crash i k ha hn =>
    exact ⟨.inr (restart_follower hn), fun ht => absurd ht (hcrash ⟨i, k, ha⟩)⟩
  | _ => exact hp

end Node

omit [DecidableEq ι] [Sized ι] in
/-- The timer is offered alone, and no other input asks for a vote. -/
theorem Action.Offers.asksVoter {σ : Sys ι} {i : ι} {a : Action ι} {inp : Input ι}
    (h : a.Offers σ i inp) : inp.AsksVoter ↔ a.Offers σ i .timer := by
  cases a with
  | deliver j k =>
    obtain ⟨msg, -, -, rfl⟩ := h
    exact iff_of_false not_false (fun ⟨_, _, _, ht⟩ => nomatch ht)
  | dropped j k =>
    obtain ⟨-, msg, -, rfl⟩ := h
    exact iff_of_false not_false (fun ⟨_, _, _, ht⟩ => nomatch ht)
  | applyResult j =>
    obtain ⟨-, r, rest, -, rfl⟩ := h
    exact iff_of_false not_false (fun ⟨_, _, _, _, ht⟩ => nomatch ht)
  | propose _ _ | snapshotResult _ | installResult _ _ =>
    cases h
    exact iff_of_false not_false (fun ht => nomatch ht)
  | crash _ _ => exact h.elim
  | _ =>
    cases h
    exact iff_of_true trivial rfl

namespace Sys

theorem step_inert {σ : Sys ι} (hnum : ∀ i, (σ i).Numbered []) (h : ∀ i, (σ i).Inert)
    (a : Action ι) (i : ι) : (σ.step a i).Inert :=
  (step_keeps hnum a (Q := fun _ p => p.1.Inert) h (fun _ hch hp => hch.inert hp) i).1

/-- **A step** does not let a node without a vote move up, if the messages it takes up find one
that has a vote. -/
theorem step_staysDown {σ : Sys ι} {a : Action ι} (hnum : ∀ i, (σ i).Numbered [])
    (ha : a.FindsVoters σ) {i : ι} (hvoter : (σ i).membership.voter = false) :
    (σ.step a i).state = (σ i).state ∨ (σ.step a i).state = .follower := by
  by_cases hmsg : ∃ j k msg, a = .deliver j k ∧ (σ j).out[k]? = some msg
  · obtain ⟨j, k, msg, rfl, hmsg⟩ := hmsg
    rw [Sys.step, Action.effect, hmsg]
    dsimp only [assign, Option.map_some]
    split_ifs with hdst
    · subst hdst
      exact (σ msg.dst).receive_staysDown (hnum _).completed hvoter (ha msg hmsg)
    · exact .inl rfl
  · have hdown := (step_keeps hnum a
      (Q := fun i p => (σ i).membership.voter = false → (σ i).StaysDown (a.Offers σ i .timer) p.1)
      (fun i hv => ⟨.inl rfl, fun _ => hv⟩) (fun {i _ _} _ hch hp hv => ?_) i).1
    · exact (hdown hvoter).1
    · refine hch.staysDown ?_ ?_ ?_ ?_ (hp hv)
      · intro inp hinp helects
        cases inp with
        | msg m =>
          obtain ⟨j, k, hdeliver, hout, -⟩ := hinp.msg
          exact hmsg ⟨j, k, m, hdeliver, hout⟩
        | _ => exact helects
      · exact fun inp hinp => hinp.asksVoter
      · rintro ⟨j, rfl⟩
        rfl
      · rintro ⟨j, k, rfl⟩
        exact not_false

/-- **Only full voters move up** in a run in which a request to take over, and the reply to a
vote request, find a node that has a vote. -/
theorem fullVoter_of_rises (cfg : ι → Config ι) (store : ι → Store ι) (as : List (Action ι))
    (has : Along (fun σ a => a.FindsVoters σ) (start cfg store) as) {k : Nat} {a : Action ι}
    (ha : as[k]? = some a) {i : ι}
    (hrises : ((start cfg store).run (as.take k) i).Rises
      (((start cfg store).run (as.take k)).step a i)) :
    ((start cfg store).run (as.take k) i).FullVoter := by
  obtain ⟨hnum, hinert⟩ := has.invariant
    (I := fun σ => (∀ i, (σ i).Numbered []) ∧ ∀ i, (σ i).Inert)
    (fun h _ => ⟨step_numbered h.1 _, step_inert h.1 h.2 _⟩)
    ⟨start_numbered cfg store, fun i _ => (Node.start_starts (cfg i) (store i)).anew.1⟩ k
  have hfinds := has.get ha
  generalize (start cfg store).run (as.take k) = σ at hnum hinert hfinds hrises ⊢
  refine ⟨?_, ?_⟩
  · by_contra hvoter
    rcases step_staysDown hnum hfinds (Bool.eq_false_of_not_eq_true hvoter) with hsame | hdown
    · exact hrises.1 hsame
    · exact hrises.2 hdown
  · by_contra hwitness
    have hwitness : (σ i).cfg.witness = true := by simpa using hwitness
    have hdown : (σ.step a i).state = .follower :=
      step_inert hnum hinert a i (by rw [step_cfg hnum a i]; exact hwitness)
    exact hrises.2 hdown

/-- Node 0 is elected by a reply that finds it with a vote. -/
theorem fullVoter_of_rises_electsNode0 :
    Along (fun σ a => a.FindsVoters σ) (start (Config.ofSize 3) fun _ => .empty) electsNode0 ∧
      ((start (Config.ofSize 3) fun _ => .empty).run (electsNode0.take 11) 0).FullVoter := by
  have hfinds : Along (fun σ a => a.FindsVoters σ) (start (Config.ofSize 3) fun _ => .empty)
      electsNode0 := by decide +kernel
  refine ⟨hfinds, fullVoter_of_rises (Config.ofSize 3) (fun _ => .empty) electsNode0 hfinds (k := 11)
    (a := .deliver 1 3) rfl ⟨?_, ?_⟩⟩
  · decide +kernel
  · decide +kernel

/-- Node 0 hands over to node 1, and then removes it.  The removal is applied first. -/
def removesTarget : List (Action (Fin 3)) :=
  electsNode0 ++ [.execute 0 none, .complete 0, .deliver 0 4, .execute 1 none, .complete 1,
    .deliver 1 4, .deliver 0 6, .execute 1 none, .complete 1, .deliver 1 5, .transfer 0 1,
    .propose 0 [.config (.remove 1)], .execute 0 none, .complete 0, .deliver 0 8, .execute 1 none,
    .complete 1, .deliver 1 6, .applyCommitted 0 .healthy, .applyResult 0, .applyResult 0,
    .deliver 0 10, .execute 1 none, .complete 1, .applyCommitted 1 .healthy, .applyResult 1,
    .applyResult 1]

/-- **A removed node stands for election** when the request to take over comes late. -/
theorem removed_stands :
    ((start (Config.ofSize 3) fun _ => .empty).run removesTarget 1).membership.voter = false ∧
      ((start (Config.ofSize 3) fun _ => .empty).run removesTarget 1).state = .follower ∧
      (((start (Config.ofSize 3) fun _ => .empty).run removesTarget).step (.deliver 0 7) 1).state =
        .candidate := by
  decide +kernel

end Sys

end Raft
