import Mathlib.Data.Fintype.Basic
import Raft.Membership.PrefixFold
import Raft.Turn.Tenure

/-!
# One configuration change at a time

A leader takes up a configuration change only while `pendingConfigIndex` says that none is in
flight.  The index covers the changes the leader has appended itself: in every run whose steps
meet `Action.KeepsOne` a leader has at most one change in its log that it has not applied.
It does not cover changes the leader found in its log when it was elected, and a leader that
has one takes up another.
-/

namespace Raft

variable {ι : Type}

def Command.isChange : Command ι → Bool
  | .user _ => false
  | .config (.clientTableCap _) => false
  | .config _ => true

def ConfigOp.isJoint : ConfigOp ι → Bool
  | .joint _ _ => true
  | _ => false

theorem Command.isConfigEntry_of_isChange {cmd : Command ι} (h : cmd.isChange = true) :
    cmd.isConfigEntry = true := by
  cases cmd with
  | user payload => cases h
  | config op => rfl

def changesOf (es : List (LogEntry ι)) : List (LogEntry ι) := es.filter (·.command.isChange)

theorem changesOf_append (es es' : List (LogEntry ι)) :
    changesOf (es ++ es') = changesOf es ++ changesOf es' := List.filter_append ..

theorem changesOf_singleton (e : LogEntry ι) :
    changesOf [e] = if e.command.isChange then [e] else [] := by
  simp [changesOf, List.filter_singleton]

namespace Node

/-- The configuration changes in the log that the node has not applied. -/
def unapplied (n : Node ι) : List (LogEntry ι) :=
  (changesOf n.log.plain.entries).filter (n.lastApplied < ·.index)

/-- At most one change is not applied, and if it is of the leader's term, it is the one in flight.
-/
structure OneChange (n : Node ι) : Prop where
  le_one : n.unapplied.length ≤ 1
  own : ∀ e ∈ n.unapplied, n.termStartIndex ≤ e.index → e.index = n.pendingConfigIndex

def InOffice (n : Node ι) : Prop := n.state = .leader → n.OneChange

/-- The node finds one change to apply at most, and none if it will close a joint stage. -/
structure FitToLead (n : Node ι) : Prop where
  le_one : n.unapplied.length ≤ 1
  joint : n.membership.jointOld.isSome = true → n.unapplied = []

instance (n : Node ι) : Decidable n.FitToLead :=
  decidable_of_iff (n.unapplied.length ≤ 1 ∧ (n.membership.jointOld.isSome = true → n.unapplied.length = 0))
    ⟨fun h => ⟨h.1, fun hjoint => List.length_eq_zero_iff.mp (h.2 hjoint)⟩,
      fun h => ⟨h.le_one, fun hjoint => by rw [h.joint hjoint]; rfl⟩⟩

variable {n n' : Node ι}

theorem unapplied_of_refines {p : PlainLog ι} (h : n.log.Refines p) :
    n.unapplied = (changesOf p.entries).filter (n.lastApplied < ·.index) := by
  rw [unapplied, h.plain_eq]

theorem unapplied_sublist {p : PlainLog ι} (h : n'.log.Refines p)
    (hentries : p.entries.Sublist n.log.plain.entries) (happlied : n.lastApplied ≤ n'.lastApplied) :
    n'.unapplied.Sublist n.unapplied := by
  rw [unapplied_of_refines h]
  refine (List.monotone_filter_right _ fun e he => ?_).trans ((hentries.filter _).filter _)
  simp only [decide_eq_true_eq] at he ⊢
  omega

theorem unapplied_append {es : List (LogEntry ι)}
    (h : n'.log.Refines { n.log.plain with entries := n.log.plain.entries ++ es })
    (happlied : n'.lastApplied = n.lastApplied) :
    n'.unapplied = n.unapplied ++ (changesOf es).filter (n.lastApplied < ·.index) := by
  rw [unapplied_of_refines h, changesOf_append, List.filter_append, happlied, unapplied]

theorem mem_of_unapplied {e : LogEntry ι} (he : e ∈ n.unapplied) :
    e ∈ n.log.plain.entries ∧ n.lastApplied < e.index := by
  obtain ⟨hmem, happlied⟩ := List.mem_filter.mp he
  exact ⟨List.mem_of_mem_filter hmem, by simpa using happlied⟩

theorem OneChange.eq_of_mem (h : n.OneChange) {e e' : LogEntry ι} (he : e ∈ n.unapplied)
    (he' : e' ∈ n.unapplied) : e = e' := by
  obtain ⟨e₁, he₁⟩ := List.length_eq_one_iff.mp (le_antisymm h.le_one (List.length_pos_of_mem he))
  rw [he₁, List.mem_singleton] at he he'
  rw [he, he']

/-- What turns without proposals leave alone. -/
structure Retains (n n' : Node ι) : Prop where
  state : n'.state = n.state
  termStartIndex : n'.termStartIndex = n.termStartIndex
  pendingConfigIndex : n'.pendingConfigIndex = n.pendingConfigIndex
  lastApplied : n.lastApplied ≤ n'.lastApplied

theorem Retains.of_office (h : n'.office = n.office) : n.Retains n' :=
  ⟨congrArg Office.state h, congrArg Office.termStartIndex h, congrArg Office.pendingConfigIndex h,
    (congrArg Office.lastApplied h).ge⟩

theorem Retains.of_tenure (h : n'.tenure = n.tenure) : n.Retains n' := .of_office (office_of_tenure h)

theorem Retains.trans {m : Node ι} (h : n.Retains m) (h' : m.Retains n') : n.Retains n' :=
  ⟨h'.state.trans h.state, h'.termStartIndex.trans h.termStartIndex,
    h'.pendingConfigIndex.trans h.pendingConfigIndex, h.lastApplied.trans h'.lastApplied⟩

theorem InOffice.of_retains (h : n.InOffice) (hkeeps : n'.state = .leader → n.Retains n')
    {p : PlainLog ι} (hlog : n'.log.Refines p) (hsub : p.entries.Sublist n.log.plain.entries) :
    n'.InOffice := by
  intro hlead
  have hretains := hkeeps hlead
  have hbefore := h (hretains.state.symm.trans hlead)
  have hfewer := unapplied_sublist hlog hsub hretains.lastApplied
  refine ⟨hfewer.length_le.trans hbefore.le_one, fun e he hown => ?_⟩
  rw [hretains.termStartIndex] at hown
  rw [hretains.pendingConfigIndex]
  exact hbefore.own e (hfewer.subset he) hown

/-! ## Starting to lead, and leading on -/

theorem Begins.oneChange (h : n.Begins n') (hn : n.log.Sound) (hgrows : n.log.Grows n'.log)
    (hopens : n.OpensTerm n') (hfit : n.FitToLead) : n'.OneChange := by
  obtain ⟨es₁, hlog, hc, -⟩ := hgrows
  obtain ⟨e, es, hnoop, hlog'⟩ := (hopens h.idle).resolve_left fun hno => hno.1 h.leads
  obtain rfl : es₁ = e :: es := by
    have heq := congrArg PlainLog.entries (hlog.plain_eq.symm.trans hlog'.plain_eq)
    exact List.append_cancel_left heq
  have hlen := hn.lastLogIndex_of_append hlog hc
  have hafter := unapplied_append hlog h.lastApplied
  have hopening : changesOf (e :: es) = changesOf es := by
    simp [changesOf, hnoop, Command.isChange, Command.noop]
  have hbefore : ∀ e ∈ n.unapplied, ¬ n'.termStartIndex ≤ e.index := fun e he => by
    have := hn.index_le (mem_of_unapplied he).1
    have := h.termStart
    omega
  rw [hopening] at hafter
  rw [List.length_cons] at hlen
  rcases h.ends with hlast | ⟨hjoint, hlast, hpending⟩
  · -- only the opening entry: what is left to apply was there before
    obtain rfl : es = [] := List.length_eq_zero_iff.mp (by omega)
    rw [show changesOf ([] : List (LogEntry ι)) = [] from rfl, List.filter_nil, List.append_nil] at hafter
    refine ⟨hafter ▸ hfit.le_one, fun e he hown => ?_⟩
    rw [hafter] at he
    exact absurd hown (hbefore e he)
  · -- the closing change is the only one, and the leader's own
    rw [hfit.joint hjoint, List.nil_append] at hafter
    have hlen₁ : es.length = 1 := by omega
    obtain ⟨e', rfl⟩ := List.length_eq_one_iff.mp hlen₁
    have hsub : n'.unapplied.Sublist [e'] := by
      rw [hafter]
      exact (List.filter_sublist).trans List.filter_sublist
    refine ⟨hsub.length_le, fun e₁ he₁ _ => ?_⟩
    obtain rfl := List.mem_singleton.mp (hsub.subset he₁)
    have hidx := hc 1 _ rfl
    omega

theorem InOffice.leadsOn (h : n.InOffice) (hn : n.log.Sound) (hgrows : n.log.Grows n'.log)
    (hopens : n.OpensTerm n') (hleads : n.LeadsOn n')
    (hfit : n.state ≠ .leader → n'.state = .leader → n.FitToLead) : n'.InOffice := by
  intro hlead
  rcases hleads hlead with hoffice | hbegins
  · have hlog := hgrows.refines_of_lastLogIndex hn (congrArg Office.lastLogIndex hoffice)
    exact h.of_retains (fun _ => .of_office hoffice) hlog (List.Sublist.refl _) hlead
  · exact hbegins.oneChange hn hgrows hopens (hfit hbegins.idle hlead)

/-! ## Proposals -/

structure OneInBatch (b : Batch ι) : Prop where
  le_one : (changesOf b.entries).length ≤ 1
  pending : ∀ e ∈ changesOf b.entries, e.index = b.pendingConfigIndex
  none : b.pendingConfigIndex = 0 → changesOf b.entries = []

variable [Sized ι]

theorem addToBatch_changes (n : Node ι) (b : Batch ι) (cmd : Command ι) :
    changesOf (n.addToBatch b cmd).entries = changesOf b.entries ∧
        ((n.addToBatch b cmd).pendingConfigIndex = b.pendingConfigIndex ∨
          b.pendingConfigIndex = 0) ∨
      cmd.isChange = true ∧ b.pendingConfigIndex = 0 ∧
        ∃ e, changesOf (n.addToBatch b cmd).entries = changesOf b.entries ++ [e] ∧
          e.index = (n.addToBatch b cmd).pendingConfigIndex ∧ e.index ≠ 0 := by
  unfold addToBatch
  split_ifs with hgate htable hfull hconfig
  · exact .inl ⟨rfl, .inl rfl⟩
  · exact .inl ⟨rfl, .inl rfl⟩
  · exact .inl ⟨rfl, .inl rfl⟩
  · have hopen : b.pendingConfigIndex = 0 := by
      by_contra hne
      exact hgate ⟨hconfig, hne⟩
    rw [changesOf_append, changesOf_singleton]
    by_cases hchange : cmd.isChange = true
    · exact .inr ⟨hchange, hopen, _, by rw [if_pos hchange], rfl, Nat.succ_ne_zero _⟩
    · exact .inl ⟨by rw [if_neg hchange, List.append_nil], .inr hopen⟩
  · have hchange : ¬ cmd.isChange = true := fun h => hconfig (Command.isConfigEntry_of_isChange h)
    rw [changesOf_append, changesOf_singleton, if_neg hchange, List.append_nil]
    exact .inl ⟨rfl, .inl rfl⟩

theorem foldl_addToBatch_changes (n : Node ι) (cmds : List (Command ι)) (b : Batch ι) :
    (OneInBatch b → OneInBatch (cmds.foldl n.addToBatch b)) ∧
      (b.pendingConfigIndex ≠ 0 →
        changesOf (cmds.foldl n.addToBatch b).entries = changesOf b.entries ∧
          (cmds.foldl n.addToBatch b).pendingConfigIndex = b.pendingConfigIndex) ∧
      ((∀ cmd ∈ cmds, cmd.isChange = false) →
        changesOf (cmds.foldl n.addToBatch b).entries = changesOf b.entries) := by
  induction cmds generalizing b with
  | nil => exact ⟨id, fun _ => ⟨rfl, rfl⟩, fun _ => rfl⟩
  | cons cmd cmds ih =>
    obtain ⟨hone, hgate, hnone⟩ := ih (n.addToBatch b cmd)
    rcases n.addToBatch_changes b cmd with ⟨hsame, hpending⟩ | ⟨hchange, hopen, e, hadd, hidx, hpos⟩
    · refine ⟨fun hb => hone ⟨hsame ▸ hb.le_one, fun e he => ?_, fun hzero => ?_⟩, fun hne => ?_,
        fun hno => ?_⟩
      · rw [hsame] at he
        rcases hpending with heq | hzero
        · rw [heq]
          exact hb.pending e he
        · rw [hb.none hzero] at he
          cases he
      · rw [hsame]
        rcases hpending with heq | hzero'
        · exact hb.none (heq.symm.trans hzero)
        · exact hb.none hzero'
      · have heq := hpending.resolve_right hne
        obtain ⟨hchanges, hstill⟩ := hgate (heq.symm ▸ hne)
        exact ⟨hchanges.trans hsame, hstill.trans heq⟩
      · exact (hnone fun c hc => hno c (List.mem_cons_of_mem cmd hc)).trans hsame
    · refine ⟨fun hb => hone ?_, fun hne => absurd hopen hne, fun hno => ?_⟩
      · rw [hb.none hopen, List.nil_append] at hadd
        refine ⟨by simp [hadd], fun e' he' => ?_, fun hzero => absurd (hidx.trans hzero) hpos⟩
        rw [hadd] at he'
        rw [List.mem_singleton.mp he', hidx]
      · rw [hno cmd List.mem_cons_self] at hchange
        cases hchange

def OffersChange (n : Node ι) (cmds : List (Command ι)) : Prop :=
  (∃ cmd ∈ cmds, cmd.isChange = true) ∨ n.QuorumDue

omit [Sized ι] in
theorem proposeQuorum_changes (n : Node ι) :
    n.proposeQuorum.1 = [] ∧ n.proposeQuorum.2.pendingConfigIndex = n.pendingConfigIndex ∨
      n.pendingConfigIndex = 0 ∧ ∃ e, n.proposeQuorum.1 = [e] ∧
        e.index = n.proposeQuorum.2.pendingConfigIndex ∧ e.index ≠ 0 := by
  unfold proposeQuorum
  split_ifs with hadd
  · exact .inr ⟨hadd.2.2.2.2, _, rfl, rfl, Nat.succ_ne_zero _⟩
  · exact .inl ⟨rfl, rfl⟩

omit [Sized ι] in
theorem proposeCap_changes (n : Node ι) (cmds : List (Command ι)) :
    changesOf (n.proposeCap cmds).1 = [] ∧
      (n.proposeCap cmds).2.pendingConfigIndex = n.pendingConfigIndex := by
  unfold proposeCap
  split_ifs <;> exact ⟨rfl, rfl⟩

theorem batch_changes (n : Node ι) (cmds : List (Command ι)) :
    OneInBatch (n.batch cmds) ∧
      (n.pendingConfigIndex ≠ 0 → changesOf (n.batch cmds).entries = [] ∧
        (n.batch cmds).pendingConfigIndex = n.pendingConfigIndex) ∧
      (¬ n.OffersChange cmds → changesOf (n.batch cmds).entries = []) := by
  obtain ⟨hcap, hcapPending⟩ := n.proposeCap_changes cmds
  have hquorum := (n.proposeCap cmds).2.proposeQuorum_changes
  have hdue : n.QuorumDue ↔ (n.proposeCap cmds).2.proposeQuorum.1 ≠ [] := by
    rw [proposeQuorum_proposeCap, Ne, proposeQuorum_eq_nil, not_not]
  unfold batch OffersChange
  rw [hdue]
  rw [hcapPending] at hquorum
  generalize n.proposeCap cmds = p at hcap hquorum ⊢
  obtain ⟨capEntries, n₁⟩ := p
  dsimp only at hcap hquorum ⊢
  generalize n₁.proposeQuorum = q at hquorum ⊢
  obtain ⟨quorumEntries, n₂⟩ := q
  obtain ⟨hone, hgate, hnone⟩ := n₂.foldl_addToBatch_changes cmds
    ⟨capEntries ++ quorumEntries, n₂.pendingConfigIndex, n.log.unstableBytes⟩
  generalize cmds.foldl n₂.addToBatch
    ⟨capEntries ++ quorumEntries, n₂.pendingConfigIndex, n.log.unstableBytes⟩ = b at hone hgate hnone ⊢
  rw [changesOf_append, hcap, List.nil_append] at hgate hnone
  rcases hquorum with ⟨rfl, hpending⟩ | ⟨hopen, e, rfl, hidx, hpos⟩
  · refine ⟨hone ⟨?_, ?_, ?_⟩, fun hne => ?_, fun hno => hnone fun cmd hcmd => ?_⟩
    · simp [hcap]
    · simp [hcap]
    · simp [hcap]
    · rw [hpending] at hgate
      exact hgate hne
    · by_contra hchange
      exact hno (.inl ⟨cmd, hcmd, by simpa using hchange⟩)
  · refine ⟨hone ⟨?_, fun e' he' => ?_, fun hzero => absurd (hidx.trans hzero) hpos⟩,
      fun hne => absurd hopen hne, fun hno => absurd (.inr (by simp)) hno⟩
    · rw [changesOf_append, hcap, List.nil_append]
      exact List.length_filter_le _ _
    · rw [changesOf_append, hcap, List.nil_append] at he'
      rw [List.mem_singleton.mp (List.mem_of_mem_filter he'), hidx]

variable [DecidableEq ι]

def KnowsOfChanges (n : Node ι) (cmds : List (Command ι)) : Prop :=
  (∀ e ∈ n.unapplied, n.termStartIndex ≤ e.index) ∨ ¬ n.OffersChange cmds

instance (n : Node ι) (cmds : List (Command ι)) : Decidable (n.KnowsOfChanges cmds) :=
  inferInstanceAs (Decidable (_ ∨ ¬ ((∃ cmd ∈ cmds, _) ∨ _)))

/-- **Proposals**: a change is taken up only if none is in flight. -/
theorem handleProposals_oneChange (h : n.InOffice) (hn : n.log.Sound) (hnum : n.Numbered [])
    {cmds : List (Command ι)} (hapart : n.NumbersApart cmds) (hknows : n.KnowsOfChanges cmds) :
    (n.handleProposals cmds).InOffice ∧
      (n.unapplied = [] ∨ (n.handleProposals cmds).unapplied = n.unapplied) := by
  obtain ⟨es, hlog, -, -, htaken⟩ := handleProposals_plain hn hnum hapart
  rcases htaken with ⟨rfl, htenure⟩ | ⟨hlead, rfl, htenure⟩
  · have happlied : (n.handleProposals cmds).lastApplied = n.lastApplied :=
      congrArg (fun t : Tenure ι => t.side.lastApplied) htenure
    have hsame : (n.handleProposals cmds).unapplied = n.unapplied := by
      rw [unapplied_append hlog happlied]
      exact List.append_nil _
    exact ⟨h.of_retains (fun _ => .of_tenure htenure) hlog (by simp), .inr hsame⟩
  · have hbefore := h hlead
    have happlied : (n.handleProposals cmds).lastApplied = n.lastApplied :=
      congrArg (fun t : Tenure ι => t.side.lastApplied) htenure
    have hstart : (n.handleProposals cmds).termStartIndex = n.termStartIndex :=
      congrArg Tenure.termStartIndex htenure
    have hpending : (n.handleProposals cmds).pendingConfigIndex = (n.batch cmds).pendingConfigIndex :=
      congrArg Tenure.pendingConfigIndex htenure
    have hafter := unapplied_append hlog happlied
    obtain ⟨hone, hgate, hnone⟩ := n.batch_changes cmds
    by_cases hopen : n.unapplied = []
    · -- what is in flight afterwards is what the batch brought
      rw [hopen, List.nil_append] at hafter
      refine ⟨fun _ => ⟨?_, fun e he _ => ?_⟩, .inl hopen⟩
      · rw [hafter]
        exact (List.length_filter_le _ _).trans hone.le_one
      · rw [hafter] at he
        rw [hpending]
        exact hone.pending e (List.mem_of_mem_filter he)
    · obtain ⟨e, he⟩ := List.exists_mem_of_ne_nil _ hopen
      have hclosed : changesOf (n.batch cmds).entries = [] ∧
          (n.termStartIndex ≤ e.index → (n.batch cmds).pendingConfigIndex = n.pendingConfigIndex) := by
        by_cases hown : n.termStartIndex ≤ e.index
        · -- the gate is shut
          have hidx := hbefore.own e he hown
          have hpos := (mem_of_unapplied he).2
          obtain ⟨hchanges, hstill⟩ := hgate (by omega)
          exact ⟨hchanges, fun _ => hstill⟩
        · refine ⟨hnone (hknows.resolve_left fun hall => hown (hall e he)), fun h => absurd h hown⟩
      rw [hclosed.1, List.filter_nil, List.append_nil] at hafter
      refine ⟨fun _ => ⟨hafter ▸ hbefore.le_one, fun e' he' hown => ?_⟩, .inr hafter⟩
      rw [hafter] at he'
      obtain rfl := hbefore.eq_of_mem he he'
      rw [hstart] at hown
      rw [hpending, hclosed.2 hown]
      exact hbefore.own _ he' hown

/-! ## Applied entries -/

/-- An applied entry opens a joint stage only if it is in the log and has not been applied. -/
def OpensJointInOrder (n : Node ι) : Prop :=
  ∀ r ∈ n.apply.results.head?, ∀ op ∈ r.configCmd, op.isJoint = true →
    ∃ e ∈ n.unapplied, e.index = r.index

theorem applyConfigChange_office (n : Node ι) (op : ConfigOp ι) (index : Nat) :
    (n.applyConfigChange op index).state ≠ .leader ∨
      (n.applyConfigChange op index).office = n.office ∨
      op.isJoint = true ∧ (n.applyConfigChange op index).office = { n.office with
        pendingConfigIndex := n.log.lastLogIndex + 1, lastLogIndex := n.log.lastLogIndex + 1 } := by
  have hadopt : (n.adoptConfigEntry op index).checkWitness.office = n.office :=
    office_of_tenure (adoptConfigEntry_tenure n op index)
  unfold applyConfigChange
  generalize (n.adoptConfigEntry op index).checkWitness = m at hadopt
  have hlast : m.log.lastLogIndex = n.log.lastLogIndex := congrArg Office.lastLogIndex hadopt
  have steps : (m.becomeFollower m.currentTerm none).state ≠ .leader := by
    obtain ⟨-, -, -, hstate, -⟩ := becomeFollower_frame m m.currentTerm none
    rw [hstate]
    decide
  cases op with
  | clientTableCap capacity => exact .inr (.inl hadopt)
  | commitQuorum q =>
    have hrecount : Stays .timer _ _ := recount_stays { m with membership := m.membership.adoptCommitQuorum q }
    exact .inr (.inl ((office_of_tenure hrecount.tenure).trans hadopt))
  | add peer => exact .inr (.inl hadopt)
  | remove id =>
    dsimp only
    split_ifs
    · exact .inl steps
    · exact .inr (.inl hadopt)
  | joint old new =>
    dsimp only
    split_ifs with hlead
    · rw [appendFinaliseEntry_office hlead.1, hlast, hadopt]
      exact .inr (.inr ⟨rfl, rfl⟩)
    · exact .inr (.inl hadopt)
  | finalise members =>
    dsimp only
    split_ifs
    · exact .inr (.inl hadopt)
    · exact .inl steps

omit [DecidableEq ι] [Sized ι] in
theorem noteOutcome_office (n : Node ι) (r : ApplyResult ι) :
    ((n.recordOutcome r).maybeSnapshot).office = n.office := by
  obtain ⟨t, s, a, heq⟩ := n.noteOutcome_eq r
  rw [heq]
  rfl

theorem handleApplyResult_office {r : ApplyResult ι} {rest : List (ApplyResult ι)}
    (hres : n.apply.results = r :: rest) :
    n.handleApplyResult.state ≠ .leader ∨
      (∃ pending, (pending = n.pendingConfigIndex ∨ n.pendingConfigIndex = r.index) ∧
        n.handleApplyResult.office = { n.office with
          lastApplied := max n.lastApplied r.index, pendingConfigIndex := pending }) ∨
      (∃ op ∈ r.configCmd, op.isJoint = true) ∧ n.handleApplyResult.office = { n.office with
        lastApplied := max n.lastApplied r.index
        lastLogIndex := n.log.lastLogIndex + 1
        pendingConfigIndex := if n.log.lastLogIndex + 1 = r.index then 0
          else n.log.lastLogIndex + 1 } := by
  unfold handleApplyResult
  rw [hres]
  dsimp only
  set n₀ : Node ι := { n with
    apply := { n.apply with results := rest }, lastApplied := max n.lastApplied r.index } with hn₀
  cases r.configCmd with
  | none =>
    rw [noteOutcome_office]
    exact .inr (.inl ⟨_, .inl rfl, rfl⟩)
  | some op =>
    dsimp only
    have hstate : ∀ m : Node ι, ((m.recordOutcome r).maybeSnapshot).state = m.state := fun m =>
      congrArg Office.state (m.noteOutcome_office r)
    rw [hstate, noteOutcome_office]
    have happly := n₀.applyConfigChange_office op r.index
    generalize n₀.applyConfigChange op r.index = m at happly
    rcases happly with hends | hoffice | ⟨hjoint, hoffice⟩
    · exact .inl hends
    · have hpending : m.pendingConfigIndex = n.pendingConfigIndex :=
        congrArg Office.pendingConfigIndex hoffice
      refine .inr (.inl ⟨if m.pendingConfigIndex = r.index then 0 else m.pendingConfigIndex, ?_, ?_⟩)
      · split_ifs with heq
        · exact .inr (hpending ▸ heq)
        · exact .inl hpending
      · exact congrArg (fun o : Office => { o with
          pendingConfigIndex := if m.pendingConfigIndex = r.index then 0 else m.pendingConfigIndex })
          hoffice
    · have hpending : m.pendingConfigIndex = n.log.lastLogIndex + 1 :=
        congrArg Office.pendingConfigIndex hoffice
      refine .inr (.inr ⟨⟨op, rfl, hjoint⟩, ?_⟩)
      refine (congrArg (fun o : Office => { o with
        pendingConfigIndex := if m.pendingConfigIndex = r.index then 0 else m.pendingConfigIndex })
        hoffice).trans ?_
      rw [hpending]
      rfl

theorem InOffice.applyResult (h : n.InOffice) (hn : n.log.Sound) (hnum : n.Numbered [])
    (hjoint : n.state = .leader → n.OpensJointInOrder) : n.handleApplyResult.InOffice := by
  intro hlead
  cases hres : n.apply.results with
  | nil =>
    have hsame : n.handleApplyResult = n := by simp only [handleApplyResult, hres]
    rw [hsame] at hlead ⊢
    exact h hlead
  | cons r rest =>
    obtain ⟨hgrows, -⟩ := handleApplyResult_plain hn hnum hres
    have hturn := (handleApplyResult_office hres).resolve_left fun hno => hno hlead
    generalize n.handleApplyResult = n' at hlead hgrows hturn
    rcases hturn with ⟨pending, hpending, hoffice⟩ | ⟨⟨op, hop, hisJoint⟩, hoffice⟩
    · have hstate : n'.state = n.state := congrArg Office.state hoffice
      have happlied : n'.lastApplied = max n.lastApplied r.index := congrArg Office.lastApplied hoffice
      have hbefore := h (hstate.symm.trans hlead)
      have hlog := hgrows.refines_of_lastLogIndex hn (congrArg Office.lastLogIndex hoffice)
      have hsub : n'.unapplied.Sublist n.unapplied :=
        unapplied_sublist hlog (List.Sublist.refl _) (by omega)
      refine ⟨hsub.length_le.trans hbefore.le_one, fun e he hown => ?_⟩
      have hidx := hbefore.own e (hsub.subset he)
        ((congrArg Office.termStartIndex hoffice :).symm.le.trans hown)
      have hnow : n'.pendingConfigIndex = pending := congrArg Office.pendingConfigIndex hoffice
      rcases hpending with heq | heq
      · rw [hnow, heq]
        exact hidx
      · -- the change in flight is the one that was applied
        have := (mem_of_unapplied he).2
        omega
    · have hstate : n'.state = n.state := congrArg Office.state hoffice
      have happlied : n'.lastApplied = max n.lastApplied r.index := congrArg Office.lastApplied hoffice
      have hlast : n'.log.lastLogIndex = n.log.lastLogIndex + 1 := congrArg Office.lastLogIndex hoffice
      have hpending : n'.pendingConfigIndex =
          if n.log.lastLogIndex + 1 = r.index then 0 else n.log.lastLogIndex + 1 :=
        congrArg Office.pendingConfigIndex hoffice
      have hbefore := h (hstate.symm.trans hlead)
      obtain ⟨e, he, hidx⟩ := hjoint (hstate.symm.trans hlead) r (by rw [hres]; rfl) op hop hisJoint
      have hinside := hn.index_le (mem_of_unapplied he).1
      rw [if_neg (by omega)] at hpending
      obtain ⟨es, hlog, hc, -⟩ := hgrows
      have hlen := hn.lastLogIndex_of_append hlog hc
      obtain ⟨e', rfl⟩ := List.length_eq_one_iff.mp (show es.length = 1 by omega)
      have hidx' := hc 0 e' rfl
      -- the joint change was the one in flight, so only the closing change can be now
      have hnone : (changesOf n.log.plain.entries).filter (n'.lastApplied < ·.index) = [] := by
        refine List.filter_eq_nil_iff.mpr fun e₁ he₁ => ?_
        intro hlt
        simp only [decide_eq_true_eq] at hlt
        have hmem : e₁ ∈ n.unapplied := by
          refine List.mem_filter.mpr ⟨he₁, ?_⟩
          simp only [decide_eq_true_eq]
          omega
        obtain rfl := hbefore.eq_of_mem he hmem
        omega
      have hsub : n'.unapplied.Sublist [e'] := by
        rw [unapplied_of_refines hlog, changesOf_append, List.filter_append, hnone, List.nil_append]
        exact List.filter_sublist.trans List.filter_sublist
      refine ⟨hsub.length_le, fun e₁ he₁ _ => ?_⟩
      rw [List.mem_singleton.mp (hsub.subset he₁)]
      omega

/-! ## Snapshots, requests and restarts -/

theorem Move.retains {inp : Input ι} (h : Move inp n n') (hno : ¬ inp.Appends)
    (hlead : n'.state = .leader) : n.Retains n' := by
  cases h with
  | quiet h hs => exact .of_tenure (tenure_of_core h hs rfl rfl rfl)
  | rounds h => exact .of_tenure h.tenure
  | demote leaderID => exact nomatch hlead
  | grant _ _ _ _ _ _ _ _ h => exact .of_tenure (h.tenure.trans rfl)
  | prestand _ | stand _ => exact nomatch hlead
  | lead _ hwon => exact absurd hwon.appends hno
  | append _ _ _ _ _ _ hinp | pend _ hinp => exact absurd hinp hno
  | accept src dst req _ _ hstate _ heq =>
    -- only a follower takes entries in
    have hsame : n'.state = n.state := (congrArg Core.state (acceptEntries_frame hstate heq).core :)
    rw [hsame, hstate] at hlead
    cases hlead
  | answer h => exact .of_tenure h.tenure
  | takeResult r rest _ _ | restore snap _ => exact ⟨rfl, rfl, rfl, le_max_left _ _⟩
  | _ => exact ⟨rfl, rfl, rfl, le_rfl⟩

theorem Moves.retains {inp : Input ι} (h : Moves inp n n') (hno : ¬ inp.Appends) :
    n'.state = .leader → n.Retains n' := by
  refine h.invariant (P := fun m => m.state = .leader → n.Retains m) (fun m m' hm hmove hlead => ?_)
    fun _ => .of_tenure rfl
  have hlast := hmove.retains hno hlead
  exact (hm (hlast.state.symm.trans hlead)).trans hlast

theorem InOffice.snapshotResult (h : n.InOffice) (hn : n.log.Sound) : n.takeSnapshotResult.InOffice := by
  have hkeeps := (takeSnapshotResult_moves n rfl).retains id
  rcases takeSnapshotResult_plain hn with ⟨hlog, -⟩ | ⟨r, rest, -, -, hlog, -⟩
  · exact h.of_retains hkeeps hlog (List.Sublist.refl _)
  · exact h.of_retains hkeeps hlog List.filter_sublist

theorem InOffice.installResult (h : n.InOffice) (hn : n.log.Sound) (hnum : n.Numbered []) (k : Nat) :
    (n.takeInstallResult k).InOffice := by
  have hkeeps := (takeInstallResult_moves n k rfl).retains id
  rcases takeInstallResult_plain hn hnum k with ⟨snap, -, hlog, -⟩ | ⟨-, hlog, -⟩
  · refine h.of_retains hkeeps hlog ?_
    unfold PlainLog.install
    split_ifs
    · exact List.filter_sublist
    · exact List.nil_sublist _
  · exact h.of_retains hkeeps hlog (List.Sublist.refl _)

theorem InOffice.appendEntries (h : n.InOffice) (hn : n.log.Sound) (src : Asker ι)
    (req : AppendEntriesRequest ι) (htakes : n.Accepts req → n.log.plain.Takes (n.received req)) :
    (n.handleAppendEntries src req).InOffice := by
  rcases handleAppendEntries_plain hn src req htakes with ⟨-, -, -, hrole⟩ | ⟨-, hlog, -⟩
  · intro hlead
    rw [hrole] at hlead
    cases hlead
  · exact h.of_retains ((handleAppendEntries_moves n src n.cfg.id req rfl).retains id) hlog
      (List.Sublist.refl _)

theorem new_state {cfg : Config ι} {s : Store ι} {boot draws : Nat} {out : List (Msg ι)}
    {sm : List (LogEntry ι)} (hnew : new cfg s boot draws out sm = some n) : n.state ≠ .leader := by
  rw [(new_starts hnew).1.anew.1]
  decide

end Node

/-! ## Runs -/

variable [DecidableEq ι] [Sized ι]

def Action.ElectsFit (σ : Sys ι) (a : Action ι) : Prop :=
  ∀ i, (σ i).state ≠ .leader → (σ.step a i).state = .leader → (σ i).FitToLead

instance [Fintype ι] (σ : Sys ι) (a : Action ι) : Decidable (a.ElectsFit σ) :=
  have (i : ι) : Decidable ((σ i).state ≠ .leader → (σ.step a i).state = .leader → (σ i).FitToLead) :=
    inferInstance
  Fintype.decidableForallFintype

/-- A leader knows of the changes in its log when it takes up another, and no write has failed. -/
def Action.TakesInOrder (σ : Sys ι) : Action ι → Prop
  | .propose i cmds => (σ i).KnowsOfChanges cmds
  | .applyResult i => (σ i).state = .leader → (σ i).OpensJointInOrder
  | .complete i => ∀ d ∈ (σ i).log.w.done, d.err = false
  | _ => True

omit [DecidableEq ι] [Sized ι] in
theorem Node.Beside.leadsOn {n n' : Node ι} (h : n.Beside True n') : n.LeadsOn n' := by
  obtain ⟨apply, snapshots, log, rfl | ⟨-, snap, rfl⟩⟩ := h <;> exact .of_office rfl

/-- What a step has to meet for leaders to go on having one change in flight. -/
def Action.KeepsOne (σ : Sys ι) (a : Action ι) : Prop := a.ElectsFit σ ∧ a.TakesInOrder σ

namespace Sys

variable {σ : Sys ι} {a : Action ι}

theorem step_leadsOn (hnum : ∀ i, (σ i).Numbered []) (hs : a.Steady σ) (horder : a.TakesInOrder σ)
    (i : ι) : (σ i).LeadsOn (σ.step a i) := by
  have same : ∀ i : ι, (σ i).LeadsOn (σ i) := fun i => .of_office rfl
  have hseq : ∀ i, (σ i).completedWriteSeq ≤ (σ i).log.nextSeq := fun i => (hnum i).completed
  have at_node : ∀ {j f}, a.effect σ = some (j, f) → (σ j).LeadsOn (f (σ j)) →
      (σ i).LeadsOn (σ.step a i) := fun {j f} heff hj =>
    step_of_effect (P := fun i n => (σ i).LeadsOn n) heff hj same i
  have timer : ∀ {j f}, a.effect σ = some (j, f) → Node.Moves .timer (σ j) (f (σ j)) →
      (σ i).LeadsOn (σ.step a i) := fun heff hmoves =>
    at_node heff (hmoves.keeps trivial id).leadsOn
  cases a with
  | deliver j k =>
    cases hmsg : (σ j).out[k]? with
    | none =>
      have hnone : (Action.deliver j k).effect σ = none := by simp [Action.effect, hmsg]
      rw [step, hnone]
      exact same i
    | some msg => exact at_node (effect_deliver hmsg) (Node.receive_leadsOn (hseq _) msg)
  | dropped j k =>
    cases hmsg : (σ j).out[k]? with
    | none =>
      have hnone : (Action.dropped j k).effect σ = none := by simp [Action.effect, hmsg]
      rw [step, hnone]
      exact same i
    | some msg =>
      have hsome : (Action.dropped j k).effect σ = some (j, (·.lose msg)) := by
        simp [Action.effect, hmsg]
      exact at_node hsome ((Node.lose_moves _ msg rfl).keeps trivial id).leadsOn
  | reachable j peer up => exact timer rfl (Node.reachable_moves _ peer up)
  | tick j => exact timer rfl (Node.tick_moves (hseq j))
  | readIndex j read => exact timer rfl (Node.handleReadIndex_stays _ read).moves
  | forwardRead j read => exact timer rfl (Node.forwardRead_moves _ read)
  | transfer j target => exact timer rfl (Node.handleLeadershipTransfer_stays _ target).moves
  | execute j fault =>
    refine at_node rfl (.of_office ?_)
    rfl
  | complete j => exact at_node rfl (Node.handleWriteCompletions_leadsOn horder)
  | applyCommitted j faults => exact at_node rfl (Node.applyCommitted_beside _ faults).leadsOn
  | applyRestore j ok => exact at_node rfl (Node.applyRestore_beside _ ok).leadsOn
  | captureSnapshot j => exact at_node rfl (Node.captureSnapshot_beside _).leadsOn
  | writeSnapshot j outcome => exact at_node rfl (Node.writeSnapshot_beside _ outcome).leadsOn
  | installSnapshot j k saved ok =>
    exact at_node rfl (Node.installSnapshot_beside _ k saved ok).leadsOn
  | propose j cmds | applyResult j | snapshotResult j | installResult j k | crash j k =>
    exact hs.elim

theorem step_inOffice (hnum : ∀ i, (σ i).Numbered []) (hn : ∀ i, (σ i).log.Sound)
    (h : ∀ i, (σ i).InOffice) (ha : a.KeepsLog σ) (hkeep : a.KeepsOne σ) (i : ι) :
    (σ.step a i).InOffice := by
  have steady : a.Steady σ → (σ.step a i).InOffice := fun hs => by
    have hgrows := step_steady hnum hn hs i
    exact (h i).leadsOn (hn i) hgrows.log hgrows.opens (step_leadsOn hnum hs hkeep.2 i) (hkeep.1 i)
  have at_node : ∀ {j f}, a.effect σ = some (j, f) → (f (σ j)).InOffice → (σ.step a i).InOffice :=
    fun heff hj => step_of_effect (P := fun _ n => n.InOffice) heff hj h i
  cases a with
  | deliver j k =>
    rcases deliver_cases σ j k with ⟨src, dst, req, hmsg⟩ | hs
    · exact at_node (effect_deliver hmsg)
        ((h dst).appendEntries (hn dst) src req (ha src dst req hmsg))
    · exact steady hs
  | propose j cmds =>
    exact at_node rfl (Node.handleProposals_oneChange (h j) (hn j) (hnum j) ha hkeep.2).1
  | applyResult j => exact at_node rfl ((h j).applyResult (hn j) (hnum j) hkeep.2)
  | snapshotResult j => exact at_node rfl ((h j).snapshotResult (hn j))
  | installResult j k => exact at_node rfl ((h j).installResult (hn j) (hnum j) k)
  | crash j k =>
    refine at_node rfl ?_
    cases hrestart : (σ j).restart k with
    | none => exact h j
    | some n' =>
      obtain ⟨s, -, hnew⟩ := Option.bind_eq_some_iff.mp hrestart
      exact fun hlead => absurd hlead (Node.new_state hnew)
  | execute j fault => exact steady ha
  | _ => exact steady trivial

structure Regular (σ : Sys ι) : Prop where
  numbered : ∀ i, (σ i).Numbered []
  sound : ∀ i, (σ i).log.Sound
  inOffice : ∀ i, (σ i).InOffice

theorem Regular.step (h : σ.Regular) (ha : a.KeepsLog σ ∧ a.KeepsOne σ) : (σ.step a).Regular :=
  ⟨step_numbered h.numbered a, step_sound h.numbered h.sound ha.1,
    step_inOffice h.numbered h.sound h.inOffice ha.1 ha.2⟩

theorem start_regular (cfg : ι → Config ι) : (start cfg fun _ => .empty).Regular :=
  ⟨fun i => (Node.start_starts (cfg i) .empty).numbered,
    fun i => (Node.start_plain (cfg i)).1.sound,
    fun i hlead => absurd hlead (Node.new_state (Node.new_empty (cfg i)))⟩

/-- **One configuration change at a time**: throughout a run, a leader has one change at most
that it has not applied, and takes up another only when it has none. -/
theorem oneChange_along (cfg : ι → Config ι) (as : List (Action ι))
    (has : Along (fun σ a => a.KeepsLog σ ∧ a.KeepsOne σ) (start cfg fun _ => .empty) as)
    (k : Nat) (i : ι) :
    (((start cfg fun _ => .empty).run (as.take k) i).state = .leader →
      ((start cfg fun _ => .empty).run (as.take k) i).unapplied.length ≤ 1) ∧
    ∀ cmds, as[k]? = some (.propose i cmds) →
      ((start cfg fun _ => .empty).run (as.take k) i).unapplied = [] ∨
        ((start cfg fun _ => .empty).run (as.take (k + 1)) i).unapplied =
          ((start cfg fun _ => .empty).run (as.take k) i).unapplied := by
  have hregular : ((start cfg fun _ => .empty).run (as.take k)).Regular :=
    has.invariant (fun h ha => h.step ha) (start_regular cfg) k
  refine ⟨fun hlead => (hregular.inOffice i hlead).le_one, fun cmds hk => ?_⟩
  obtain ⟨hapart, hkeep⟩ := has.get hk
  rw [run_take_succ _ hk, step_at (a := .propose i cmds) rfl]
  exact (Node.handleProposals_oneChange (hregular.inOffice i) (hregular.sound i)
    (hregular.numbered i) hapart hkeep.2).2

/-! ### A change that was found in the log -/

def leavesOne : List (Action (Fin 3)) :=
  leads ++ [.propose 0 [.config (.add ⟨1, false, false⟩)], .crash 0 1]

def appliesFirst : List (Action (Fin 3)) :=
  leavesOne ++ leads ++ [.applyResult 0, .propose 0 [.config (.add ⟨2, false, false⟩)]]

theorem oneChange_along_appliesFirst :
    Along (fun σ a => a.KeepsLog σ ∧ a.KeepsOne σ) apart appliesFirst ∧ ∀ k i,
      ((apart.run (appliesFirst.take k) i).state = .leader →
        (apart.run (appliesFirst.take k) i).unapplied.length ≤ 1) ∧
      ∀ cmds, appliesFirst[k]? = some (.propose i cmds) →
        (apart.run (appliesFirst.take k) i).unapplied = [] ∨
          (apart.run (appliesFirst.take (k + 1)) i).unapplied =
            (apart.run (appliesFirst.take k) i).unapplied := by
  have hfit : Along (fun σ a => a.ElectsFit σ) apart appliesFirst := by decide +kernel
  have hlog : Along (fun σ a => a.KeepsLog σ) apart appliesFirst := by
    have hfirst : (apart.run (appliesFirst.take 8) 0).NumbersApart
        [.config (.add ⟨1, false, false⟩)] := by decide +kernel
    have hsecond : (apart.run (appliesFirst.take 19) 0).NumbersApart
        [.config (.add ⟨2, false, false⟩)] := by decide +kernel
    exact ⟨trivial, trivial, rfl, trivial, rfl, trivial, trivial, trivial, hfirst, trivial,
      trivial, trivial, rfl, trivial, rfl, trivial, trivial, trivial, trivial, hsecond, trivial⟩
  have horder : Along (fun σ a => a.TakesInOrder σ) apart appliesFirst := by
    have hdone : ∀ k ∈ [3, 5, 13, 15], ∀ d ∈ (apart.run (appliesFirst.take k) 0).log.w.done,
        d.err = false := by decide +kernel
    have hjoint : ∀ k ∈ [7, 17, 18], ∀ r ∈ (apart.run (appliesFirst.take k) 0).apply.results,
        ∀ op ∈ r.configCmd, op.isJoint = false := by decide +kernel
    have hknows : (apart.run (appliesFirst.take 8) 0).KnowsOfChanges
          [.config (.add ⟨1, false, false⟩)] ∧
        (apart.run (appliesFirst.take 19) 0).KnowsOfChanges [.config (.add ⟨2, false, false⟩)] := by
      decide +kernel
    have happlies : ∀ k ∈ [7, 17, 18], (apart.run (appliesFirst.take k) 0).state = .leader →
        (apart.run (appliesFirst.take k) 0).OpensJointInOrder := by
      intro k hk _ r hr op hop hisJoint
      rw [hjoint k hk r (List.mem_of_mem_head? hr) op hop] at hisJoint
      cases hisJoint
    exact ⟨trivial, trivial, trivial, hdone 3 (by simp), trivial, hdone 5 (by simp), trivial,
      happlies 7 (by simp), hknows.1, trivial, trivial, trivial, trivial, hdone 13 (by simp), trivial,
      hdone 15 (by simp), trivial, happlies 17 (by simp), happlies 18 (by simp), hknows.2, trivial⟩
  have hkeeps := hlog.and (hfit.and horder)
  exact ⟨hkeeps, oneChange_along (fun i => .ofPeers i []) appliesFirst hkeeps⟩

def takesSecond : List (Action (Fin 3)) :=
  leavesOne ++ leads.take 4 ++ [.propose 0 [.config (.add ⟨2, false, false⟩)]]

/-- **A change that was found in the log is ignored**: the leader takes up another beside it. -/
theorem inherited_change_ignored :
    (apart.run (takesSecond.take 14) 0).state = .leader ∧
      (apart.run (takesSecond.take 14) 0).unapplied.map (·.index) = [2] ∧
      (apart.run takesSecond 0).state = .leader ∧ (apart.run takesSecond 0).commitIndex = 0 ∧
      (apart.run takesSecond 0).unapplied.map (·.index) = [2, 4] := by
  decide +kernel

end Sys

end Raft
