import Raft.Node.Apply

/-!
# Runs of entries

What the apply loop does with one entry, by cases, and with a run of them.  A run can
be handed over in one piece or in two without a difference.
-/

namespace Raft

variable {ι : Type} {e : LogEntry ι} {op : ConfigOp ι}

/-- The state machine's view of an entry, and what to note about it. -/
def LogEntry.queued (e : LogEntry ι) : PendingEntry ι :=
  match e.command.dedup with
  | some d => ⟨{ e with command := .user d.payload }, e, some (d.clientID, d.seqNum)⟩
  | none => ⟨e, e, none⟩

def LogEntry.configOp (e : LogEntry ι) : Option (ConfigOp ι) :=
  match e.command with
  | .config op => some op
  | .user _ => none

def ConfigOp.adjust (op : ConfigOp ι) (t : ClientLRU) : ClientLRU :=
  match op with
  | .clientTableCap capacity => t.setCap capacity
  | _ => t

/-- The result the table has for exactly this command. -/
def known (t : ClientLRU) (e : LogEntry ι) : Option ClientEntry :=
  e.command.dedup.bind fun d => (t.get d.clientID).filter (·.seqNum = d.seqNum)

theorem LogEntry.queued_raw (e : LogEntry ι) : e.queued.raw = e := by
  unfold queued
  split <;> rfl

theorem LogEntry.queued_index (e : LogEntry ι) : e.queued.entry.index = e.index := by
  unfold queued
  split <;> rfl

theorem command_of_configOp (h : e.configOp = some op) : e.command = .config op := by
  unfold LogEntry.configOp at h
  split at h
  · rename_i hc
    rw [hc, Option.some.inj h]
  · cases h

theorem known_of_config {t : ClientLRU} (h : e.configOp = some op) : known t e = none := by
  rw [known, command_of_configOp h]
  rfl

theorem configOp_of_dedup {d : DedupCmd} (h : e.command.dedup = some d) : e.configOp = none := by
  unfold LogEntry.configOp
  split
  · rename_i hc
    rw [hc] at h
    cases h
  · rfl

theorem known_eq_some {t : ClientLRU} {c : ClientEntry} (h : known t e = some c) :
    ∃ d, e.command.dedup = some d ∧ t.get d.clientID = some c ∧ c.seqNum = d.seqNum := by
  obtain ⟨d, hd, hc⟩ := Option.bind_eq_some_iff.mp h
  obtain ⟨hget, hseq⟩ := Option.filter_eq_some_iff.mp hc
  exact ⟨d, hd, hget, by simpa using hseq⟩

namespace ApplyLoop

/-! ## One entry -/

section Entry

variable (machine : List (LogEntry ι) → LogEntry ι → ApplyOutcome)
  (s : ApplyLoop ι × List (PendingEntry ι)) {e : LogEntry ι}

def flushed : ApplyLoop ι := s.1.applyPending machine s.2

theorem applyEntry_config (h : e.configOp = some op) :
    applyEntry machine s e =
      ({ flushed machine s with clientTable := op.adjust (flushed machine s).clientTable }.report
        ⟨e.index, [], false, some op, some e.command⟩, []) := by
  unfold applyEntry
  rw [command_of_configOp h]
  cases op <;> rfl

theorem applyEntry_known {c : ClientEntry} (h : known s.1.clientTable e = some c) :
    applyEntry machine s e =
      ((flushed machine s).report ⟨e.index, c.result, false, none, some e.command⟩, []) := by
  obtain ⟨d, hd, hget, hseq⟩ := known_eq_some h
  unfold applyEntry
  cases hc : e.command with
  | config op =>
    rw [hc] at hd
    cases hd
  | user payload =>
    rw [hc] at hd
    simp only [hd, hget, if_pos hseq.symm]
    rfl

theorem applyEntry_queued (hop : e.configOp = none) (h : known s.1.clientTable e = none) :
    applyEntry machine s e = (s.1, s.2 ++ [e.queued]) := by
  unfold applyEntry LogEntry.queued
  unfold LogEntry.configOp at hop
  cases hc : e.command with
  | config op =>
    rw [hc] at hop
    cases hop
  | user payload =>
    cases hd : (Command.user payload : Command ι).dedup with
    | none => rfl
    | some d =>
      rw [known, hc, hd] at h
      dsimp only [Option.bind_some] at h ⊢
      cases hget : s.1.clientTable.get d.clientID with
      | none => rfl
      | some c =>
        rw [hget, Option.filter_eq_none_iff] at h
        have hne : ¬ d.seqNum = c.seqNum := by
          have := h c rfl
          simp only [decide_eq_true_eq] at this
          exact fun heq => this heq.symm
        dsimp only
        rw [if_neg hne]

end Entry

/-! ## Runs -/

section Runs

variable (machine : List (LogEntry ι) → LogEntry ι → ApplyOutcome)

theorem outcomes_append (given es es' : List (LogEntry ι)) :
    outcomes machine given (es ++ es') =
      outcomes machine given es ++ outcomes machine (given ++ es) es' := by
  induction es generalizing given with
  | nil => simp [outcomes]
  | cons e es ih => simp only [List.cons_append, outcomes, ih, List.append_assoc, List.nil_append]

theorem outcomes_length (given es : List (LogEntry ι)) :
    (outcomes machine given es).length = es.length := by
  induction es generalizing given with
  | nil => rfl
  | cons e es ih => simp only [outcomes, List.length_cons, ih]

def settleAll (a : ApplyLoop ι) (outs : List (PendingEntry ι × ApplyOutcome)) : ApplyLoop ι :=
  outs.foldl (fun a p => a.settle p.1 p.2) a

section

variable (a : ApplyLoop ι)

theorem settleAll_sm (sm : List (LogEntry ι)) (outs : List (PendingEntry ι × ApplyOutcome)) :
    settleAll { a with sm := sm } outs = { settleAll a outs with sm := sm } := by
  induction outs generalizing a with
  | nil => rfl
  | cons p outs ih => exact ih (a.settle p.1 p.2)

theorem settleAll_append (outs outs' : List (PendingEntry ι × ApplyOutcome)) :
    settleAll a (outs ++ outs') = settleAll (settleAll a outs) outs' :=
  List.foldl_append ..

variable (run : List (PendingEntry ι))

theorem applyPending_eq :
    a.applyPending machine run =
      { settleAll a (run.zip (outcomes machine a.sm (run.map (·.entry)))) with
        sm := a.sm ++ run.map (·.entry) } :=
  settleAll_sm a _ _

theorem applyPending_nil : a.applyPending machine [] = a := by
  simp [applyPending]

theorem applyPending_sm : (a.applyPending machine run).sm = a.sm ++ run.map (·.entry) := by
  rw [applyPending_eq]

theorem applyPending_append (run run' : List (PendingEntry ι)) :
    a.applyPending machine (run ++ run') =
      (a.applyPending machine run).applyPending machine run' := by
  have hzip : (run ++ run').zip (outcomes machine a.sm ((run ++ run').map (·.entry))) =
      run.zip (outcomes machine a.sm (run.map (·.entry))) ++
        run'.zip (outcomes machine (a.sm ++ run.map (·.entry)) (run'.map (·.entry))) := by
    rw [List.map_append, outcomes_append, List.zip_append]
    rw [outcomes_length, List.length_map]
  have hsettle := settleAll_sm (settleAll a (run.zip (outcomes machine a.sm (run.map (·.entry)))))
    (a.sm ++ run.map (·.entry))
    (run'.zip (outcomes machine (a.sm ++ run.map (·.entry)) (run'.map (·.entry))))
  rw [applyPending_eq machine a (run ++ run'), hzip, settleAll_append, List.map_append,
    ← List.append_assoc, applyPending_eq machine (a.applyPending machine run) run',
    applyPending_sm, applyPending_eq machine a run, hsettle]

theorem flushed_nil : flushed machine (a, []) = a := applyPending_nil machine a

theorem applyEntries_nil : a.applyEntries machine [] = a :=
  applyPending_nil machine a

theorem applyEntries_eq (es : List (LogEntry ι)) :
    a.applyEntries machine es = flushed machine (es.foldl (applyEntry machine) (a, [])) := rfl

end

def applyRanges (a : ApplyLoop ι) (ranges : List (List (LogEntry ι))) : ApplyLoop ι :=
  ranges.foldl (applyEntries machine) a

def applySingly (a : ApplyLoop ι) (es : List (LogEntry ι)) : ApplyLoop ι :=
  applyRanges machine a (es.map ([·]))

theorem applyRanges_append (a : ApplyLoop ι) (rs rs' : List (List (LogEntry ι))) :
    applyRanges machine a (rs ++ rs') = applyRanges machine (applyRanges machine a rs) rs' :=
  List.foldl_append ..

end Runs

def idle : ApplyLoop Nat := ⟨none, none, none, 0, .empty 0, [], []⟩

def ofClient (client : UInt8) (index seqNum : Nat) : LogEntry Nat :=
  ⟨index, 1, .user (Command.encodeDedupCmd ⟨[client], seqNum, [1]⟩)⟩

end ApplyLoop

end Raft
