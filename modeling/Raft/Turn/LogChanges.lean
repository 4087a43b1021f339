import Raft.Log.StableIndex
import Raft.Turn.Frames

/-!
# What a move does to the log

Most moves leave the log alone.  The others make one call: a term, a vote or a commit
index is queued, a leader appends entries that continue the log, a follower merges a
request, or a completed write is taken up.

## Main results

* `Move.logChange`: every move makes one of them, if any.
* `Move.ordinary`: where no entries are brought and no write has completed, a call is made
  as the log expects it.
-/

namespace Raft

variable {ι : Type}

/-- The calls that have nothing to do with snapshots. -/
def LogCall.Ordinary : LogCall ι → Prop
  | .append _ | .truncateSuffix _ | .hardState _ | .commitIndex _ | .execute | .complete => True
  | .truncatePrefix _ | .localSnapshot _ _ | .installSnapshot _ | .saveSnapshot _ => False

instance (call : LogCall ι) : Decidable call.Ordinary := by
  cases call <;> unfold LogCall.Ordinary <;> infer_instance

def Input.BringsNone : Input ι → Prop
  | .msg (.appendEntries _ _ _) => False
  | .propose _ => False
  | .snapshot => False
  | _ => True

theorem Input.BringsNone.plain {inp : Input ι} (h : inp.BringsNone) : inp.Plain := by
  cases inp <;> trivial

namespace Node

variable [DecidableEq ι] [Sized ι]

/-- What a move does to the log. -/
inductive LogChange (inp : Input ι) (n n' : Node ι) : Prop
  | same (h : n'.log = n.log)
  | hardState (hs : HardState ι) (h : n'.log = n.log.enqueue (.hardState hs))
  | commitIndex (i : Nat) (h : n'.log = n.log.enqueue (.commitIndex i))
  | append (es : List (LogEntry ι)) (hne : es ≠ []) (hterm : ∀ e ∈ es, e.term = n.currentTerm)
      (hindex : inp.Plain → Contiguous (n.log.lastLogIndex + 1) es)
      (hstate : n.state = .leader ∨ n.state = .candidate ∧ n.Wins inp) (hlead : n'.state = .leader)
      (hcurrent : n'.currentTerm = n.currentTerm) (h : n'.log = (n.log.append es).2)
      (hcmd : ∀ e ∈ es, n.MayAppend inp e.command) (hinp : inp.Appends)
  | accept (src : Asker ι) (dst : ι) (req : AppendEntriesRequest ι)
      (hinp : inp = .msg (.appendEntries src dst req)) (hterm : n.currentTerm = req.term)
      (hstate : n.state = .follower) (hadm : n.Admits req)
      (h : n' = n.acceptEntries src req (n.received req))
  | snapshot (hinp : inp = .snapshot)
  | written (d : WriteDone) (due kept : List (DeferredWrite ι)) (hinp : inp = .written d due kept)
      (h : n'.log = n.log.stabilize d)

variable {inp : Input ι} {n n' : Node ι}

/-- **Every move** makes one call to the log, if any. -/
theorem Move.logChange (h : Move inp n n') : LogChange inp n n' := by
  cases h with
  | adoptTerm term => exact .hardState ⟨term, none⟩ rfl
  | grant src dst req _ _ _ _ _ h => exact .hardState ⟨req.term, some req.candidateID⟩ h.log
  | stand => exact .hardState ⟨n.currentTerm + 1, some n.cfg.id⟩ rfl
  | lead hstate hwon =>
    exact .append [⟨n.log.lastLogIndex + 1, n.currentTerm, .noop⟩] (by simp) (by simp)
      (fun _ => Contiguous.singleton _) (.inr ⟨hstate, hwon⟩) rfl rfl rfl
      (fun e he => .inl (by rw [List.mem_singleton.mp he])) hwon.appends
  | append es hstate hne hterm hcmd hindex hinp =>
    exact .append es hne hterm (fun hplain => hindex (.inr (.inr hplain))) (.inl hstate) hstate
      rfl rfl hcmd hinp
  | accept src dst req hinp hterm hstate hadm h => exact .accept src dst req hinp hterm hstate hadm h
  | record => exact .commitIndex _ rfl
  | compact position hinp | install snap log hinp _ => exact .snapshot hinp
  | written d due kept hinp => exact .written d due kept hinp rfl
  | quiet h => exact .same (congrArg Core.log h :)
  | rounds h => exact .same (congrArg Core.log h.core :)
  | answer h => exact .same h.log
  | _ => exact .same rfl

theorem Move.ordinary (h : Move inp n n') (hs : inp.BringsNone)
    (hdone : ∀ d due kept, inp ≠ .written d due kept) :
    n'.log = n.log ∨ ∃ call : LogCall ι, call.Ordinary ∧ call.Made n.log ∧
      n'.log = call.step n.log := by
  cases h.logChange with
  | same h => exact .inl h
  | hardState hs h => exact .inr ⟨.hardState hs, trivial, trivial, h⟩
  | commitIndex i h => exact .inr ⟨.commitIndex i, trivial, trivial, h⟩
  | append es hne _ hindex _ _ _ h =>
    exact .inr ⟨.append es, trivial, ⟨hne, hindex hs.plain⟩, h⟩
  | accept src dst req hinp _ _ _ _ | snapshot hinp => exact absurd hs (hinp ▸ id)
  | written d due kept hinp => exact absurd hinp (hdone d due kept)

theorem Moves.segs_of_timer (h : Moves .timer n n') : n'.log.segs = n.log.segs := by
  refine h.invariant (P := fun m => m.log.segs = n.log.segs) (fun m m' hm hmove => hm ▸ ?_) rfl
  cases hmove.logChange with
  | same h => rw [h]
  | hardState save h | commitIndex i h => rw [h, RaftLog.enqueue_segs]
  | append _ _ _ _ _ _ _ _ _ hinp => exact hinp.elim
  | accept _ _ _ hinp _ _ _ _ | snapshot hinp | written _ _ _ hinp _ => cases hinp

end Node

end Raft
