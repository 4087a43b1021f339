import Raft.Turn.Frames

/-!
# Roles

What a move does to the role and the term of a node, and to the peers it counts with.

## Main results

* `Move.roleChange`: a node only moves up one role at a time, and for a reason.
* `Move.peers`: the peers a node counts with change only in turns about the membership.
-/

namespace Raft

variable {ι : Type} [DecidableEq ι] [Sized ι]

namespace Node

/-- What a move does to the role and the term. -/
inductive RoleChange (inp : Input ι) (n n' : Node ι) : Prop
  | same (hstate : n'.state = n.state) (hterm : n'.currentTerm = n.currentTerm)
  | follow (hstate : n'.state = .follower) (hterm : n.currentTerm ≤ n'.currentTerm)
  | prestand (hstands : n.MayStand inp) (hstate : n'.state = .preCandidate)
      (hterm : n'.currentTerm = n.currentTerm)
  | stand (hstands : n.MayStand inp) (hstate : n'.state = .candidate)
      (hterm : n'.currentTerm = n.currentTerm + 1)
  | lead (hstate : n.state = .candidate) (hwon : n.Wins inp) (hlead : n'.state = .leader)
      (hterm : n'.currentTerm = n.currentTerm)
      (hlog : n'.log = (n.log.append [⟨n.log.lastLogIndex + 1, n.currentTerm, .noop⟩]).2)

variable {inp : Input ι} {n n' : Node ι}

/-- **Every move** leaves the role alone, steps down, or moves up for a reason. -/
theorem Move.roleChange (h : Move inp n n') : RoleChange inp n n' := by
  have of_core : ∀ {c : Core ι}, n'.toCore = c → c.state = n.state →
      c.currentTerm = n.currentTerm → RoleChange inp n n' := by
    rintro c rfl hstate hterm
    exact .same hstate hterm
  cases h with
  | quiet h => exact of_core h rfl rfl
  | rounds h => exact of_core h.core rfl rfl
  | demote leaderID => exact .follow rfl le_rfl
  | adoptTerm term hterm hstate => exact .follow hstate hterm.le
  | grant src dst req _ _ _ _ hterm h =>
    have hstate : n'.state = n.state := (congrArg Core.state h.core :)
    have hnew : n'.currentTerm = req.term := (congrArg Core.currentTerm h.core :)
    rcases hterm with ⟨hlt, hfollower⟩ | ⟨heq, -⟩
    · exact .follow (hstate.trans hfollower) (by rw [hnew]; exact hlt.le)
    · exact .same hstate (hnew.trans heq.symm)
  | prestand hstands => exact .prestand hstands rfl rfl
  | stand hstands => exact .stand hstands rfl rfl
  | lead hstate hwon => exact .lead hstate hwon rfl rfl rfl
  | accept src dst req _ _ hstate _ heq => exact of_core (acceptEntries_frame hstate heq).core rfl rfl
  | answer h => exact of_core h.core rfl rfl
  | _ => exact .same rfl rfl

theorem RoleChange.of_leader (h : RoleChange inp n n') (hlead : n'.state = .leader) :
    n'.currentTerm = n.currentTerm ∧ (n.state = .leader ∨ n.state = .candidate ∧ n.Wins inp ∧
      n'.log = (n.log.append [⟨n.log.lastLogIndex + 1, n.currentTerm, .noop⟩]).2) := by
  cases h with
  | same hstate hterm => exact ⟨hterm, .inl (hstate.symm.trans hlead)⟩
  | lead hstate hwon _ hterm hlog => exact ⟨hterm, .inr ⟨hstate, hwon, hlog⟩⟩
  | follow hstate _ | prestand _ hstate _ | stand _ hstate _ => cases hstate.symm.trans hlead

theorem Move.peers (h : Move inp n n') (hno : ¬ inp.Reconfigures) :
    n'.membership.peers = n.membership.peers ∨
      n'.state = .follower ∧ ∃ src dst req, inp = .msg (.appendEntries src dst req) := by
  have of_core : ∀ {c : Core ι}, n'.toCore = c → c.membership = n.membership →
      n'.membership.peers = n.membership.peers ∨
        n'.state = .follower ∧ ∃ src dst req, inp = .msg (.appendEntries src dst req) := by
    rintro c rfl hm
    exact .inl (by rw [hm])
  cases h with
  | member m h =>
    rcases h with h | ⟨-, hsame, -⟩
    · exact absurd h hno
    · exact .inl hsame.peers
  | accept src dst req hinp _ hstate _ heq =>
    have hsame : n'.state = n.state := (congrArg Core.state (acceptEntries_frame hstate heq).core :)
    exact .inr ⟨hsame.trans hstate, src, dst, req, hinp⟩
  | quiet h => exact of_core h rfl
  | rounds h _ | grant _ _ _ _ _ _ _ _ h | answer h _ => exact of_core h.core rfl
  | _ => exact .inl rfl

end Node

end Raft
