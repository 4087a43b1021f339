import Raft.System.Logs
import Raft.Turn.Words

/-!
# What an acknowledgement goes back to

An acknowledgement that a node has sent, or holds back until a write has completed, goes
back to a step in which the node accepted the request: no other step brings one about,
and a restart only loses those that were held back.  A node's commit index does not go
back but for a restart.
-/

namespace Raft

variable {ι : Type} {work : Deferred ι} {dst : Asker ι} {req : AppendEntriesRequest ι}

/-- The message confirms the request. -/
def Msg.Confirms (dst : Asker ι) (req : AppendEntriesRequest ι) : Msg ι → Prop
  | .appendEntriesReply _ d r resp => d = dst ∧ r = req ∧ resp.success = true
  | _ => False

def Deferred.Confirms (dst : Asker ι) (req : AppendEntriesRequest ι) : Deferred ι → Prop
  | .appendEntriesReply d r resp => d = dst ∧ r = req ∧ resp.success = true
  | _ => False

theorem Msg.Harmless.not_confirms {msg : Msg ι} (h : msg.Harmless) (dst : Asker ι)
    (req : AppendEntriesRequest ι) : ¬ msg.Confirms dst req := by
  cases msg <;> first | exact h.elim | exact id

theorem Deferred.confirms_iff (self : ι) :
    work.Confirms dst req ↔ ∃ msg ∈ work.answer self, msg.Confirms dst req := by
  cases work <;> simp [Confirms, answer, Msg.Confirms]

def Input.Confirms (dst : Asker ι) (req : AppendEntriesRequest ι) : Input ι → Prop
  | .written _ due kept => ∃ w ∈ due ++ kept, w.work.Confirms dst req
  | _ => False

def Input.NoAppend : Input ι → Prop
  | .msg (.appendEntries _ _ _) => False
  | _ => True

namespace Node

/-- The node has confirmed the request, or will when a write has completed. -/
def Acknowledges (n : Node ι) (dst : Asker ι) (req : AppendEntriesRequest ι) : Prop :=
  (∃ msg ∈ n.out, msg.Confirms dst req) ∨ ∃ w ∈ n.deferredWrites, w.work.Confirms dst req

variable {n n' : Node ι} {dst : Asker ι} {req : AppendEntriesRequest ι}

theorem Acknowledges.of_added (h : n'.Acknowledges dst req)
    (hout : ∀ msg ∈ n'.out, msg ∈ n.out ∨ ¬ msg.Confirms dst req)
    (hdef : ∀ w ∈ n'.deferredWrites, w ∈ n.deferredWrites ∨ ¬ w.work.Confirms dst req) :
    n.Acknowledges dst req := by
  rcases h with ⟨msg, hmsg, h⟩ | ⟨w, hw, h⟩
  · exact .inl ⟨msg, (hout msg hmsg).resolve_right (not_not_intro h), h⟩
  · exact .inr ⟨w, (hdef w hw).resolve_right (not_not_intro h), h⟩

theorem acknowledges_iff :
    n.Acknowledges dst req ↔ ∃ seq msg, n.Says [] seq msg ∧ msg.Confirms dst req := by
  constructor
  · rintro (⟨msg, hmsg, hcon⟩ | ⟨w, hw, hcon⟩)
    · exact ⟨0, msg, .inl ⟨rfl, hmsg⟩, hcon⟩
    · obtain ⟨msg, hmsg, hcon⟩ := (Deferred.confirms_iff n.cfg.id).mp hcon
      exact ⟨w.seq, msg, .inr ⟨w, by simpa using hw, rfl, hmsg⟩, hcon⟩
  · rintro ⟨seq, msg, ⟨-, hmsg⟩ | ⟨w, hw, -, hmsg⟩, hcon⟩
    · exact .inl ⟨msg, hmsg, hcon⟩
    · exact .inr ⟨w, by simpa using hw, (Deferred.confirms_iff n.cfg.id).mpr ⟨msg, hmsg, hcon⟩⟩

variable [DecidableEq ι] [Sized ι] {inp : Input ι}

/-- A move over anything but a request brings none about, but for work that was held back. -/
theorem Move.acknowledges (h : Move inp n n') (hno : inp.NoAppend)
    (hack : n'.Acknowledges dst req) : n.Acknowledges dst req ∨ inp.Confirms dst req := by
  obtain ⟨seq, msg, hspoken, hcon⟩ := acknowledges_iff.mp hack
  rcases h.utters hspoken with hold | hnew
  · exact .inl (acknowledges_iff.mpr ⟨seq, msg, hold, hcon⟩)
  · cases hnew with
    | harmless hh => exact absurd hcon (hh.not_confirms dst req)
    | refuse src dst' req' resp hinp | ack src dst' req' resp wm s hinp =>
      subst hinp
      exact hno.elim
    | resume d due kept w hinp hmem hmsg =>
      subst hinp
      exact .inr ⟨w, hmem, (Deferred.confirms_iff n.cfg.id).mpr ⟨msg, hmsg, hcon⟩⟩
    | _ =>
      subst msg
      exact hcon.elim

theorem Moves.acknowledges (h : Moves inp n n') (hno : inp.NoAppend)
    (hack : n'.Acknowledges dst req) : n.Acknowledges dst req ∨ inp.Confirms dst req := by
  induction h with
  | refl => exact .inl hack
  | tail _ hmove ih =>
    rcases hmove.acknowledges hno hack with hbefore | hheld
    · exact ih hbefore
    · exact .inr hheld

theorem Change.acknowledges {a : Action ι} {σ : Sys ι} {i : ι} {p p' : Node ι × List WriteDone}
    (h : Change a (a.Offers σ i) p p') (hno : ∀ inp, a.Offers σ i inp → inp.NoAppend)
    (hack : p'.1.Acknowledges dst req) : p.1.Acknowledges dst req := by
  cases h with
  | @move n n' ds inp hinp hmove =>
    refine (hmove.acknowledges (hno inp hinp) hack).resolve_right fun hheld => ?_
    cases inp with
    | written d due kept => exact Action.not_offers_written σ i a d due kept hinp
    | _ => exact hheld
  | @written n n' ds d _ _ _ hmoves =>
    rcases hmoves.acknowledges trivial hack with hbefore | ⟨w, hw, hcon⟩
    · exact hbefore
    · -- Due or not, the work was on the list.
      refine .inr ⟨w, ?_, hcon⟩
      rcases List.mem_append.mp hw with hdue | hkept
      · exact List.mem_of_mem_filter hdue
      · exact List.mem_of_mem_filter hkept
  | writeFailed _ _ h =>
    refine hack.of_added (fun msg hmsg => .inl ?_) fun w hw => ?_
    · rwa [h] at hmsg
    · rw [h] at hw
      cases hw
  | beside h =>
    cases h
    exact hack
  | crash j k _ hrestart =>
    -- What was held back is lost, and nothing is sent.
    obtain ⟨s, -, hnew⟩ := Option.bind_eq_some_iff.mp hrestart
    obtain ⟨-, -, hout, hheld⟩ := (new_starts hnew).1.anew
    refine hack.of_added (fun msg hmsg => .inl (hout ▸ hmsg)) fun w hw => ?_
    rw [hheld] at hw
    cases hw
  | _ => exact hack

/-- The request has been answered at most once, at once or later. -/
structure AnswersOnce (n n' : Node ι) (src : Asker ι) (req : AppendEntriesRequest ι) : Prop where
  out : n'.out = n.out ∨ ∃ resp, n'.out = n.out ++ [.appendEntriesReply n.cfg.id src req resp]
  held : n'.deferredWrites = n.deferredWrites ∨ ∃ seq resp,
    n'.deferredWrites = n.deferredWrites ++ [⟨seq, .appendEntriesReply src req resp⟩]

theorem handleAppendEntries_answersOnce (n : Node ι) (src : Asker ι) (req : AppendEntriesRequest ι) :
    n.AnswersOnce (n.handleAppendEntries src req) src req := by
  obtain ⟨-, -, hcfg, hstate, hout, hdef⟩ := becomeFollower_frame n req.term (some req.leaderID)
  have rejected : ∀ (m : Node ι) resp, m.cfg = n.cfg → m.out = n.out →
      m.deferredWrites = n.deferredWrites →
      n.AnswersOnce (m.replyAppendWhenDurable src req resp 0) src req := by
    intro m resp hcfg hout hdef
    rcases (replyAppendWhenDurable_answers m src req resp 0).sent with
      ⟨-, hout', hdef'⟩ | ⟨-, hout', hdef'⟩
    · exact ⟨.inr ⟨resp, by rw [hout', hout, hcfg]; rfl⟩, .inl (hdef'.trans hdef)⟩
    · exact ⟨.inl (hout'.trans hout), .inr ⟨_, resp, by rw [hdef', hdef]⟩⟩
  simp only [handleAppendEntries]
  generalize n.becomeFollower req.term (some req.leaderID) = m at hcfg hstate hout hdef ⊢
  by_cases hterm : req.term < n.currentTerm
  · rw [if_pos hterm]
    exact rejected n _ rfl rfl rfl
  · rw [if_neg hterm]
    cases m.prevConflict req with
    | some c => exact rejected m _ hcfg hout hdef
    | none =>
      by_cases hfull : m.backlogFull req.entries = true
      · rw [if_pos hfull]
        exact ⟨.inl hout, .inl hdef⟩
      · rw [if_neg hfull]
        have h := acceptEntries_frame hstate (Eq.refl (m.acceptEntries src req (m.received req)))
        exact ⟨hout ▸ hcfg ▸ h.out, hdef ▸ h.deferred⟩

theorem acknowledges_of_handleAppendEntries {src : Asker ι} {req' : AppendEntriesRequest ι}
    (hack : (n.handleAppendEntries src req').Acknowledges dst req) :
    n.Acknowledges dst req ∨
      src = dst ∧ req' = req ∧ n.Acks (n.handleAppendEntries src req') src req' := by
  obtain ⟨hout, hdef⟩ := handleAppendEntries_answersOnce n src req'
  rcases hack with ⟨msg, hmsg, hcon⟩ | ⟨w, hw, hcon⟩
  · rcases hout with heq | ⟨resp, heq⟩ <;> rw [heq] at hmsg
    · exact .inl (.inl ⟨msg, hmsg, hcon⟩)
    · rcases List.mem_append.mp hmsg with hold | hlast
      · exact .inl (.inl ⟨msg, hold, hcon⟩)
      · obtain rfl := List.mem_singleton.mp hlast
        exact .inr ⟨hcon.1, hcon.2.1, resp, hcon.2.2, .inl heq⟩
  · rcases hdef with heq | ⟨seq, resp, heq⟩ <;> rw [heq] at hw
    · exact .inl (.inr ⟨w, hw, hcon⟩)
    · rcases List.mem_append.mp hw with hold | hlast
      · exact .inl (.inr ⟨w, hold, hcon⟩)
      · obtain rfl := List.mem_singleton.mp hlast
        exact .inr ⟨hcon.1, hcon.2.1, resp, hcon.2.2, .inr ⟨seq, heq⟩⟩

theorem acceptEntries_commit_le (h : n.state ≠ .leader) (src : Asker ι)
    (req : AppendEntriesRequest ι) (es : List (LogEntry ι)) :
    n.commitIndex ≤ (n.acceptEntries src req es).commitIndex := by
  rcases mergeEntries_frame h es with ⟨w, log, m, hmerge, -⟩ | ⟨log, m, f, hmerge, -⟩
  · obtain ⟨n', hn', hcommit, -⟩ := acceptEntries_ok src req hmerge
    rw [hn', hcommit]
    exact le_max_left ..
  · simp only [acceptEntries, hmerge]
    exact le_rfl

theorem Move.commit_le (h : Move inp n n') : n.commitIndex ≤ n'.commitIndex := by
  have of_core : ∀ {c : Core ι}, n'.toCore = c → c.commitIndex = n.commitIndex →
      n.commitIndex ≤ n'.commitIndex := by
    rintro c rfl hcommit
    exact hcommit.ge
  cases h with
  | commit idx _ _ _ hgt _ _ | snapshotCommit idx _ hgt => exact hgt.le
  | accept src dst req _ _ hstate _ heq =>
    rw [heq]
    exact acceptEntries_commit_le (by rw [hstate]; decide) ..
  | grant _ _ _ _ _ _ _ _ h | answer h _ => exact of_core h.core rfl
  | quiet h => exact of_core h rfl
  | rounds h => exact of_core h.core rfl
  | _ => exact of_core rfl rfl

/-- **The commit index does not go back** but for a restart. -/
theorem Change.commit_le {a : Action ι} {offers : Input ι → Prop} {p p' : Node ι × List WriteDone}
    (h : Change a offers p p') (ha : ∀ i k, a ≠ .crash i k) :
    p.1.commitIndex ≤ p'.1.commitIndex := by
  cases h with
  | move _ hmove => exact hmove.commit_le
  | @written n n' ds d _ _ _ hmoves =>
    exact Moves.invariant (P := fun m => n.commitIndex ≤ m.commitIndex)
      (fun _ _ hm hmove => hm.trans hmove.commit_le) hmoves le_rfl
  | writeFailed _ _ h => exact (congrArg Core.commitIndex h :).ge
  | beside h =>
    cases h
    exact le_rfl
  | crash j k heq => exact absurd heq (ha j k)
  | _ => exact le_rfl

end Node

namespace Sys

variable [DecidableEq ι] [Sized ι] {σ : Sys ι} {a : Action ι} {p : ι}

/-- In this step node `p` accepts a request. -/
structure Accepts (σ : Sys ι) (a : Action ι) (p : ι) (src : Asker ι)
    (req : AppendEntriesRequest ι) : Prop where
  delivers : ∃ i k, a = .deliver i k ∧ (σ i).out[k]? = some (.appendEntries src p req)
  acks : (σ p).Acks (σ.step a p) src req

theorem step_commit_le (hnum : ∀ i, (σ i).Numbered []) (ha : ∀ k, a ≠ .crash p k) :
    (σ p).commitIndex ≤ (σ.step a p).commitIndex := by
  by_cases hcrash : ∃ j k, a = .crash j k
  · obtain ⟨j, k, rfl⟩ := hcrash
    have hother : p ≠ j := fun heq => ha k (heq ▸ rfl)
    simp [step, Action.effect, assign, hother]
  · exact (step_keeps hnum a (Q := fun i q => (σ i).commitIndex ≤ q.1.commitIndex) (fun _ => le_rfl)
      (fun _ hch h => h.trans (hch.commit_le fun j k heq => hcrash ⟨j, k, heq⟩)) p).1

theorem step_acknowledges (hnum : ∀ i, (σ i).Numbered []) (hack : (σ.step a p).Acknowledges dst req) :
    (σ p).Acknowledges dst req ∨ σ.Accepts a p dst req := by
  by_cases hreq : ∃ i k src req', a = .deliver i k ∧ (σ i).out[k]? = some (.appendEntries src p req')
  · obtain ⟨i, k, src, req', rfl, hmsg⟩ := hreq
    have hstep : σ.step (.deliver i k) p = (σ p).handleAppendEntries src req' := by
      simp [step, Action.effect, hmsg, Msg.dst, assign, Node.receive]
    rw [hstep] at hack
    refine (Node.acknowledges_of_handleAppendEntries hack).imp_right ?_
    rintro ⟨rfl, rfl, hacks⟩
    exact ⟨⟨i, k, rfl, hmsg⟩, hstep ▸ hacks⟩
  · have hno : ∀ inp, a.Offers σ p inp → inp.NoAppend := by
      intro inp hinp
      cases inp with
      | msg m =>
        cases m with
        | appendEntries src dst' req' =>
          obtain ⟨i, k, rfl, hmsg, hdst⟩ := hinp.msg
          obtain rfl : dst' = p := hdst
          exact absurd ⟨i, k, src, req', rfl, hmsg⟩ hreq
        | _ => trivial
      | _ => trivial
    refine .inl ((step_keeps hnum a (Q := fun i q => i = p → q.1.Acknowledges dst req →
      (σ p).Acknowledges dst req) (fun i hi h => hi ▸ h) (fun _ hch ih hi hq => ?_) p).1 rfl hack)
    subst hi
    exact ih rfl (hch.acknowledges hno hq)

/-- **Where an acknowledgement comes from**: the node has accepted the request in an earlier
step. -/
theorem exists_accepts (cfg : ι → Config ι) (store : ι → Store ι) {as : List (Action ι)} {m : Nat}
    (hack : ((start cfg store).run (as.take m) p).Acknowledges dst req) :
    ∃ j < m, ∃ a, as[j]? = some a ∧ ((start cfg store).run (as.take j)).Accepts a p dst req := by
  induction m with
  | zero =>
    obtain ⟨-, -, hout, hheld⟩ := (Node.start_starts (cfg p) (store p)).anew
    have hstart : (start cfg store p).Acknowledges dst req := hack
    rw [Node.Acknowledges, start, hout, hheld] at hstart
    rcases hstart with ⟨msg, hmsg, -⟩ | ⟨w, hw, -⟩
    · cases hmsg
    · cases hw
  | succ m ih =>
    cases ha : as[m]? with
    | none =>
      rw [List.take_add_one, ha, Option.toList_none, List.append_nil] at hack
      obtain ⟨j, hj, hacc⟩ := ih hack
      exact ⟨j, by omega, hacc⟩
    | some a =>
      rw [run_take_succ _ ha] at hack
      rcases step_acknowledges (run_numbered (start_numbered cfg store) _) hack with hbefore | hacc
      · obtain ⟨j, hj, hacc⟩ := ih hbefore
        exact ⟨j, by omega, hacc⟩
      · exact ⟨m, by omega, a, ha, hacc⟩

end Sys

end Raft
