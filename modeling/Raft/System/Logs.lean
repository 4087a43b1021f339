import Raft.Membership.Adopt
import Raft.System.Numbering
import Raft.Turn.LogChanges
import Raft.Turn.Roles

/-!
# The log of every node through every step

While no write fails and requests continue the log they are merged into, the overlay of
every node shows a plain log: its snapshot base and a contiguous list of entries.  Most steps
leave the membership alone and only let that list grow by entries of the leader's own making.

## Main results

* `Sys.step_steady`: such a step lets the log grow and leaves the membership alone.
-/

namespace Raft

variable {ι : Type} {inp : Input ι}

/-! ## Plain logs -/

namespace PlainLog

def lastIndex (p : PlainLog ι) : Nat :=
  match p.entries.getLast? with
  | some e => e.index
  | none => p.base.lastIncludedIndex

def below (p : PlainLog ι) (i : Nat) : PlainLog ι :=
  { p with entries := p.entries.filter (·.index < i) }

/-- The first of some entries that contradicts the log. -/
def conflict (p : PlainLog ι) : List (LogEntry ι) → Option (LogEntry ι)
  | [] => none
  | e :: rest =>
    match p.termAt e.index with
    | none => none
    | some t => if t = e.term then p.conflict rest else some e

/-- What is left of the log once it has given way to some entries. -/
def kept (p : PlainLog ι) (es : List (LogEntry ι)) : PlainLog ι :=
  match p.conflict es with
  | none => p
  | some e => p.below e.index

/-- The entries that are new to the log. -/
def missing (p : PlainLog ι) : List (LogEntry ι) → List (LogEntry ι)
  | [] => []
  | e :: rest => if p.termAt e.index = some e.term then p.missing rest else e :: rest

def merge (p : PlainLog ι) (es : List (LogEntry ι)) : PlainLog ι :=
  { p with entries := (p.kept es).entries ++ p.missing es }

/-- The entries that are new continue what is left of the log, and what contradicts it does so in
the log itself. -/
structure Takes (p : PlainLog ι) (es : List (LogEntry ι)) : Prop where
  continues : Contiguous ((p.kept es).lastIndex + 1) (p.missing es)
  inside : ∀ e ∈ p.conflict es, ∃ e' ∈ p.entries, e'.index = e.index ∧ e'.term ≠ e.term

theorem mem_le_lastIndex {p : PlainLog ι} {f : Nat} (h : Contiguous f p.entries) {e : LogEntry ι}
    (he : e ∈ p.entries) : e.index ≤ p.lastIndex := by
  have hbounds := h.index_of_mem he
  unfold lastIndex
  cases hlast : p.entries.getLast? with
  | none =>
    rw [List.getLast?_eq_none_iff.mp hlast] at he
    cases he
  | some e' =>
    have := h.getLast?_index hlast
    change e.index ≤ e'.index
    omega

end PlainLog

namespace RaftLog

def plain (rl : RaftLog ι) : PlainLog ι := ⟨rl.snapMeta, rl.contents⟩

def Sound (rl : RaftLog ι) : Prop := rl.Refines rl.plain

variable {p : PlainLog ι} {rl : RaftLog ι}

theorem Refines.plain_eq (h : rl.Refines p) : rl.plain = p := by
  exact congrArg₂ PlainLog.mk h.base h.contents

theorem Refines.sound (h : rl.Refines p) : rl.Sound := by
  rw [Sound, h.plain_eq]
  exact h

theorem Refines.lastLogIndex_eq (h : rl.Refines p) : rl.lastLogIndex = p.lastIndex := by
  rw [lastLogIndex, PlainLog.lastIndex]
  cases hlast : p.entries.getLast? with
  | none =>
    rw [List.getLast?_eq_none_iff, ← h.contents] at hlast
    rw [if_neg (by rw [h.wf.last_eq_zero hlast]; exact Nat.lt_irrefl 0), h.base]
  | some e =>
    have hne : rl.contents ≠ [] := h.contents ▸ List.ne_nil_of_mem (List.mem_of_getLast? hlast)
    have hidx := h.wf.last_add_one hne
    have hpos := h.wf.first_pos hne
    have hlen := List.length_pos_of_ne_nil hne
    have hc : Contiguous rl.first p.entries := h.contents ▸ h.wf.contiguous
    have heq := hc.getLast?_index hlast
    rw [h.contents] at hidx hlen
    rw [if_pos (by omega)]
    change rl.last = e.index
    omega

theorem Sound.index_le (h : rl.Sound) {e : LogEntry ι} (he : e ∈ rl.plain.entries) :
    e.index ≤ rl.lastLogIndex := by
  rw [Refines.lastLogIndex_eq h]
  exact PlainLog.mem_le_lastIndex h.wf.contiguous he

theorem Refines.reads (h : rl.Refines p) : rl.Reads p.entries := by
  unfold Reads
  by_cases hnil : rl.contents = []
  · rw [if_pos (.inl (h.wf.first_eq_zero.mpr hnil)), ← h.contents, hnil]
  · have hf : rl.first ≠ 0 := (h.wf.first_pos hnil).ne'
    have hle := h.wf.first_le_last hnil
    have hlast := h.wf.last_add_one hnil
    rw [if_neg (by omega), h.segmented.entries_eq h.wf hf le_rfl (by omega) le_rfl, Nat.sub_self,
      List.drop_zero, List.take_of_length_le (by omega), h.contents]

end RaftLog

/-! ## Growing logs -/

namespace RaftLog

theorem Refines.lastLogIndex_of_append {rl rl' : RaftLog ι} {p : PlainLog ι} {es : List (LogEntry ι)}
    (h : rl.Refines p) (h' : rl'.Refines { p with entries := p.entries ++ es })
    (hc : Contiguous (rl.lastLogIndex + 1) es) :
    rl'.lastLogIndex = rl.lastLogIndex + es.length := by
  rw [h'.lastLogIndex_eq, PlainLog.lastIndex, List.getLast?_append]
  cases hlast : es.getLast? with
  | none =>
    rw [List.getLast?_eq_none_iff.mp hlast, h.lastLogIndex_eq]
    rfl
  | some e =>
    have hidx := hc.getLast?_index hlast
    change e.index = _
    omega

/-- The log has grown by entries that do not set the commit quorum. -/
def Grows (rl rl' : RaftLog ι) : Prop :=
  ∃ es, rl'.Refines { rl.plain with entries := rl.plain.entries ++ es } ∧
    Contiguous (rl.lastLogIndex + 1) es ∧ ∀ e ∈ es, e.command.quorum = none

namespace Grows

variable {rl rl' rl'' : RaftLog ι}

theorem of_same (h : rl'.Refines rl.plain) : rl.Grows rl' := by
  refine ⟨[], ?_, .nil _, by simp⟩
  rw [List.append_nil]
  exact h

theorem sound (h : rl.Grows rl') : rl'.Sound := by
  obtain ⟨es, hlog, -⟩ := h
  exact hlog.sound

theorem trans (hn : rl.Sound) (h : rl.Grows rl') (h' : rl'.Grows rl'') : rl.Grows rl'' := by
  obtain ⟨es, hlog, hc, hes⟩ := h
  obtain ⟨es', hlog', hc', hes'⟩ := h'
  rw [hlog.plain_eq, List.append_assoc] at hlog'
  rw [hn.lastLogIndex_of_append hlog hc, Nat.add_right_comm] at hc'
  exact ⟨es ++ es', hlog', hc.append hc', List.forall_mem_append.mpr ⟨hes, hes'⟩⟩

theorem refines_of_lastLogIndex (hn : rl.Sound) (h : rl.Grows rl')
    (hlast : rl'.lastLogIndex = rl.lastLogIndex) : rl'.Refines rl.plain := by
  obtain ⟨es, hlog, hc, -⟩ := h
  have hlen := hn.lastLogIndex_of_append hlog hc
  obtain rfl : es = [] := List.length_eq_zero_iff.mp (by omega)
  rw [List.append_nil] at hlog
  exact hlog

end Grows

end RaftLog

theorem Input.Steady.bringsNone (h : inp.Steady) : inp.BringsNone := by
  cases inp with
  | msg m => cases m <;> trivial
  | _ => trivial

namespace Node

variable [DecidableEq ι] [Sized ι] {inp : Input ι} {n n' : Node ι}

omit [DecidableEq ι] [Sized ι] in
theorem MayAppend.quorum_none {cmd : Command ι} (h : n.MayAppend inp cmd) (hs : inp.BringsNone) :
    cmd.quorum = none := by
  rcases h with rfl | ⟨c, rfl⟩ | ⟨cmds, rfl, -⟩ | ⟨-, members, rfl⟩
  · rfl
  · rfl
  · exact hs.elim
  · rfl

/-- **A move** that brings no entries leaves the log as it is, or appends what a leader may append.
-/
theorem Move.log_cases (h : Move inp n n') (hs : inp.BringsNone)
    (hdone : ∀ d due kept, inp = .written d due kept → ∀ op ∈ n.log.w.queue, d.seq < op.seq)
    (hn : n.log.Sound) : n'.log.Refines n.log.plain ∨ n'.state = .leader ∧
      ∃ es, n'.log.Refines { n.log.plain with entries := n.log.plain.entries ++ es } ∧
        Contiguous (n.log.lastLogIndex + 1) es ∧ ∀ e ∈ es, n.MayAppend inp e.command := by
  have queued : ∀ call : LogCall ι, call.Made n.log → call.plainStep n.log.plain = n.log.plain →
      n'.log = call.step n.log → n'.log.Refines n.log.plain := by
    intro call hmade hplain hlog
    rw [hlog, ← hplain]
    exact hn.step hmade
  have hplain := hs.plain
  -- all but an append leave the plain log as it is
  cases h.logChange with
  | same h =>
    rw [h]
    exact .inl hn
  | hardState save h => exact .inl (queued (.hardState save) trivial rfl h)
  | commitIndex i h => exact .inl (queued (.commitIndex i) trivial rfl h)
  | append es hne _ hindex _ hlead _ h hcmd =>
    rw [h]
    exact .inr ⟨hlead, es, hn.append hne (hindex hplain), hindex hplain, hcmd⟩
  | accept src dst req hinp _ _ _ _ | snapshot hinp => exact absurd hs (hinp ▸ id)
  | written d due kept hinp h =>
    rw [h]
    exact .inl (hn.stabilize (hdone d due kept hinp))

theorem Move.grows (h : Move inp n n') (hs : inp.BringsNone)
    (hdone : ∀ d due kept, inp = .written d due kept → ∀ op ∈ n.log.w.queue, d.seq < op.seq)
    (hn : n.log.Sound) : n.log.Grows n'.log := by
  rcases h.log_cases hs hdone hn with hsame | ⟨-, es, hlog, hc, hcmd⟩
  · exact .of_same hsame
  · exact ⟨es, hlog, hc, fun e he => (hcmd e he).quorum_none hs⟩

/-- The first entry a node appends that does not lead is the one that opens its term. -/
def OpensTerm (n n' : Node ι) : Prop :=
  n.state ≠ .leader → n'.state ≠ .leader ∧ n'.log.Refines n.log.plain ∨
    ∃ e es, e.command = .noop ∧
      n'.log.Refines { n.log.plain with entries := n.log.plain.entries ++ e :: es }

omit [DecidableEq ι] [Sized ι] in
theorem OpensTerm.of_same (hstate : n'.state = n.state) (hlog : n'.log.Refines n.log.plain) :
    n.OpensTerm n' :=
  fun hno => .inl ⟨by rwa [hstate], hlog⟩

omit [DecidableEq ι] [Sized ι] in
theorem OpensTerm.trans {m : Node ι} (h : n.OpensTerm m) (hgrows : m.log.Grows n'.log)
    (h' : m.OpensTerm n') : n.OpensTerm n' := by
  intro hno
  rcases h hno with ⟨hm, hlog⟩ | ⟨e, es, hnoop, hlog⟩
  · have := h' hm
    rwa [hlog.plain_eq] at this
  · obtain ⟨es', hlog', -⟩ := hgrows
    rw [hlog.plain_eq] at hlog'
    refine .inr ⟨e, es ++ es', hnoop, ?_⟩
    rw [← List.cons_append, ← List.append_assoc]
    exact hlog'

theorem Move.opensTerm (h : Move inp n n') (hs : inp.BringsNone)
    (hdone : ∀ d due kept, inp = .written d due kept → ∀ op ∈ n.log.w.queue, d.seq < op.seq)
    (hn : n.log.Sound) : n.OpensTerm n' := by
  intro hno
  have stays : n'.state ≠ .leader → n'.state ≠ .leader ∧ n'.log.Refines n.log.plain := by
    intro hno'
    exact ⟨hno', (h.log_cases hs hdone hn).resolve_right fun hlead => hno' hlead.1⟩
  cases h.roleChange with
  | same hstate => exact .inl (stays (by rwa [hstate]))
  | follow hstate _ | prestand _ hstate _ | stand _ hstate _ =>
    exact .inl (stays (by rw [hstate]; decide))
  | lead _ _ _ _ hlog =>
    refine .inr ⟨⟨n.log.lastLogIndex + 1, n.currentTerm, .noop⟩, [], rfl, ?_⟩
    rw [hlog]
    exact hn.append (by simp) (Contiguous.singleton _)

theorem Moves.grows_opens (h : Moves inp n n') (hs : inp.BringsNone) {ds : List WriteDone}
    (hnum : n.Numbered ds) (hdone : ∀ d due kept, inp = .written d due kept → d ∈ ds)
    (hn : n.log.Sound) : n.log.Grows n'.log ∧ n.OpensTerm n' := by
  have hall : n.log.Grows n'.log ∧ n.OpensTerm n' ∧ n'.Numbered ds := by
    refine Moves.invariant (P := fun m => n.log.Grows m.log ∧ n.OpensTerm m ∧ m.Numbered ds) ?_ h
      ⟨.of_same hn, .of_same rfl hn, hnum⟩
    rintro m m' ⟨hm, hopens, hmnum⟩ hmove
    have hqueue : ∀ d due kept, inp = .written d due kept → ∀ op ∈ m.log.w.queue, d.seq < op.seq :=
      fun d due kept hinp =>
        (hmnum.log.done d (List.mem_append_right _ (hdone d due kept hinp))).2
    have hgrows := hmove.grows hs hqueue hm.sound
    exact ⟨hm.trans hn hgrows, hopens.trans hgrows (hmove.opensTerm hs hqueue hm.sound),
      hmove.numbered hdone hmnum⟩
  exact ⟨hall.1, hall.2.1⟩

theorem Moves.grows (h : Moves inp n n') (hs : inp.BringsNone) {ds : List WriteDone}
    (hnum : n.Numbered ds) (hdone : ∀ d due kept, inp = .written d due kept → d ∈ ds)
    (hn : n.log.Sound) :
    n.log.Grows n'.log := (h.grows_opens hs hnum hdone hn).1

end Node

/-! ## Steady steps -/

variable [DecidableEq ι] [Sized ι] {a : Action ι}

/-- The step is about neither the membership nor another's entries, and no write fails. -/
def Action.Steady (σ : Sys ι) : Action ι → Prop
  | .deliver j k => ∀ src dst req, (σ j).out[k]? ≠ some (.appendEntries src dst req)
  | .propose _ _ => False
  | .execute _ fault => fault = none
  | .applyResult _ => False
  | .snapshotResult _ => False
  | .installResult _ _ => False
  | .crash _ _ => False
  | _ => True

omit [DecidableEq ι] [Sized ι] in
theorem Action.Steady.offers {σ : Sys ι} {i : ι} (h : a.Steady σ) (hinp : a.Offers σ i inp) :
    inp.Steady := by
  cases a with
  | deliver j k =>
    obtain ⟨msg, hmsg, -, rfl⟩ := hinp
    cases msg with
    | appendEntries src dst req => exact absurd hmsg (h src dst req)
    | _ => trivial
  | dropped j k =>
    obtain ⟨-, msg, -, rfl⟩ := hinp
    trivial
  | propose j cmds | applyResult j | snapshotResult j | installResult j k | crash j k =>
    exact h.elim
  | _ =>
    obtain rfl := hinp
    trivial

namespace Node

structure Grows (n n' : Node ι) : Prop where
  membership : n'.membership = n.membership
  log : n.log.Grows n'.log
  opens : n.OpensTerm n'

omit [DecidableEq ι] [Sized ι] in
theorem Grows.of_same {n n' : Node ι} (hmem : n'.membership = n.membership)
    (hstate : n'.state = n.state) (hlog : n'.log.Refines n.log.plain) : n.Grows n' :=
  ⟨hmem, .of_same hlog, .of_same hstate hlog⟩

theorem Change.grows {σ : Sys ι} {i : ι} {p p' : Node ι × List WriteDone}
    (h : Change a (a.Offers σ i) p p') (ha : a.Steady σ) (hnum : p.1.Numbered p.2)
    (hn : p.1.log.Sound) : Grows p.1 p'.1 := by
  cases h with
  | @move n n' ds inp hinp hmove =>
    have hs := ha.offers hinp
    have hqueue : ∀ d due kept, inp = .written d due kept → ∀ op ∈ n.log.w.queue, d.seq < op.seq :=
      fun d due kept heq => absurd (heq ▸ hinp) (Action.not_offers_written σ i a d due kept)
    exact ⟨hmove.membership_of_steady hs, hmove.grows hs.bringsNone hqueue hn,
      hmove.opensTerm hs.bringsNone hqueue hn⟩
  | written _ hd _ hmoves =>
    have hboth := Moves.grows_opens hmoves trivial hnum (fun d' due' kept' heq => ?_) hn
    · exact ⟨hmoves.membership_of_steady trivial, hboth.1, hboth.2⟩
    · cases heq
      exact hd
  | writeFailed _ _ h =>
    refine .of_same (congrArg Core.membership h :) (congrArg Core.state h :) ?_
    rw [show _ = _ from (congrArg Core.log h :)]
    exact hn
  | collect n => exact .of_same rfl rfl (hn.collect (by simp))
  | settle n d ds => exact .of_same rfl rfl hn
  | execute n ds j fault heq =>
    subst heq
    obtain rfl : fault = none := ha
    exact .of_same rfl rfl (RaftLog.Refines.step hn (show LogCall.execute.Made _ from trivial))
  | beside h =>
    obtain ⟨apply, snapshots, log, rfl | ⟨-, snap, rfl⟩⟩ := h
    · exact .of_same rfl rfl hn
    · exact .of_same rfl rfl
        (RaftLog.Refines.step hn (show (LogCall.saveSnapshot snap).Made _ from trivial))
  | crash j k heq =>
    subst heq
    exact ha.elim

theorem Change.cfg_eq {offers : Input ι → Prop} {p p' : Node ι × List WriteDone}
    (h : Change a offers p p') : p'.1.cfg = p.1.cfg := by
  cases h with
  | move _ hmove => exact hmove.frame.cfg
  | written _ _ _ hmoves =>
    exact Moves.invariant (P := fun m => m.cfg = _) (fun _ _ hm hmove => hmove.frame.cfg.trans hm)
      hmoves rfl
  | writeFailed _ _ h => exact (congrArg Core.cfg h :)
  | beside h =>
    cases h
    rfl
  | crash j k _ hrestart =>
    obtain ⟨s, -, hnew⟩ := Option.bind_eq_some_iff.mp hrestart
    exact (new_starts hnew).1.anew.2.1
  | _ => rfl

end Node

namespace Sys

variable {σ : Sys ι}

theorem step_cfg (hnum : ∀ i, (σ i).Numbered []) (a : Action ι) (i : ι) :
    (σ.step a i).cfg = (σ i).cfg :=
  (step_keeps hnum a (Q := fun i p => p.1.cfg = (σ i).cfg) (fun _ => rfl)
    (fun _ hch h => hch.cfg_eq.trans h) i).1

/-- **A steady step** lets every log grow and leaves every membership alone. -/
theorem step_steady (hnum : ∀ i, (σ i).Numbered []) (hn : ∀ i, (σ i).log.Sound) (ha : a.Steady σ)
    (i : ι) : (σ i).Grows (σ.step a i) := by
  refine (step_keeps hnum a (Q := fun i p => (σ i).Grows p.1) (fun i => .of_same rfl rfl (hn i))
    (fun {i p p'} hp hch h => ?_) i).1
  have hgrows := hch.grows ha hp h.log.sound
  exact ⟨hgrows.membership.trans h.membership, h.log.trans (hn i) hgrows.log,
    h.opens.trans hgrows.log hgrows.opens⟩

end Sys

end Raft
