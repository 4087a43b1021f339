import Raft.Apply.Runs

/-!
# The reports of the apply loop

What the apply loop does to its state is one report after the other.  Each report
belongs to one entry of the log: the outcome of an entry handed to the state machine,
the result on record for a duplicate, or a configuration change.

## Main results

* `applyRanges_eq`: the apply loop makes its reports.
* `reportsOf_entries`: every entry has one report, in the order of the log.
* `applyRanges_sm`: what the state machine is given.
-/

namespace Raft

variable {ι : Type}

/-- An entry as it waits in a run. -/
def PendingEntry.Waits (p : PendingEntry ι) : Prop :=
  ∃ e : LogEntry ι, p = e.queued ∧ e.configOp = none

/-- One report of the apply loop: an entry handed to the state machine, a duplicate, or a
configuration change. -/
inductive Report (ι : Type)
  | handed (p : PendingEntry ι) (out : ApplyOutcome)
  | known (e : LogEntry ι) (cached : ClientEntry)
  | config (e : LogEntry ι) (op : ConfigOp ι)
  deriving DecidableEq

namespace Report

def result : Report ι → ApplyResult ι
  | handed p out => ⟨p.raw.index, out.value, out.err, none, some p.raw.command⟩
  | known e cached => ⟨e.index, cached.result, false, none, some e.command⟩
  | config e op => ⟨e.index, [], false, some op, some e.command⟩

def entry : Report ι → LogEntry ι
  | handed p _ => p.raw
  | known e _ => e
  | config e _ => e

def given : Report ι → Option (LogEntry ι)
  | handed p _ => some p.entry
  | known _ _ => none
  | config _ _ => none

theorem result_index (r : Report ι) : r.result.index = r.entry.index := by
  cases r <;> rfl

def update (t : ClientLRU) : Report ι → ClientLRU
  | handed p out =>
    match p.note with
    | some (client, seq) => if out.err then t else t.put client ⟨seq, out.value⟩
    | none => t
  | known _ _ => t
  | config _ op => op.adjust t

/-- A report the apply loop can make. -/
def Genuine : Report ι → Prop
  | handed p _ => p.Waits
  | known e cached => ∃ d, e.command.dedup = some d ∧ cached.seqNum = d.seqNum
  | config e op => e.command = .config op

theorem configCmd_eq {r : Report ι} (hr : r.Genuine) : r.result.configCmd = r.entry.configOp := by
  cases r with
  | handed p out =>
    obtain ⟨e, rfl, hop⟩ := hr
    rw [entry, LogEntry.queued_raw, hop]
    rfl
  | known e cached =>
    obtain ⟨d, hd, -⟩ := hr
    exact (configOp_of_dedup hd).symm
  | config e op =>
    have hcmd : e.command = .config op := hr
    rw [entry, LogEntry.configOp, hcmd]
    rfl

theorem given_of_plain {r : Report ι} (hr : r.Genuine) (hop : r.entry.configOp = none)
    (hd : r.entry.command.dedup = none) : r.given = some r.entry := by
  cases r with
  | handed p out =>
    obtain ⟨e, rfl, -⟩ := hr
    rw [entry, LogEntry.queued_raw] at hd
    simp [given, entry, LogEntry.queued, hd]
  | known e cached =>
    obtain ⟨d, hd', -⟩ := hr
    cases hd.symm.trans hd'
  | config e op =>
    have hcmd : e.command = .config op := hr
    simp [entry, LogEntry.configOp, hcmd] at hop

end Report

namespace ApplyLoop

def perform (a : ApplyLoop ι) (r : Report ι) : ApplyLoop ι :=
  { a with clientTable := r.update a.clientTable }.report r.result

def performAll (a : ApplyLoop ι) (rs : List (Report ι)) : ApplyLoop ι := rs.foldl perform a

section Reports

variable (machine : List (LogEntry ι) → LogEntry ι → ApplyOutcome)

variable (sm : List (LogEntry ι))

variable (run : List (PendingEntry ι))

/-- The reports of a run handed to the state machine. -/
def reportsPending : List (Report ι) :=
  (run.zip (outcomes machine sm (run.map (·.entry)))).map fun p => .handed p.1 p.2

/-- The reports an entry brings about, with the run collected before it. -/
def reportsEntry (s : ApplyLoop ι × List (PendingEntry ι)) (e : LogEntry ι) : List (Report ι) :=
  match e.configOp with
  | some op => reportsPending machine s.1.sm s.2 ++ [.config e op]
  | none =>
    match Raft.known s.1.clientTable e with
    | some cached => reportsPending machine s.1.sm s.2 ++ [.known e cached]
    | none => []

def reportsRange : ApplyLoop ι × List (PendingEntry ι) → List (LogEntry ι) → List (Report ι)
  | s, [] => reportsPending machine s.1.sm s.2
  | s, e :: es => reportsEntry machine s e ++ reportsRange (applyEntry machine s e) es

/-- The reports of a log handed over in ranges. -/
def reportsOf : ApplyLoop ι → List (List (LogEntry ι)) → List (Report ι)
  | _, [] => []
  | a, es :: ranges => reportsRange machine (a, []) es ++ reportsOf (a.applyEntries machine es) ranges

theorem performAll_append (a : ApplyLoop ι) (rs rs' : List (Report ι)) :
    a.performAll (rs ++ rs') = (a.performAll rs).performAll rs' :=
  List.foldl_append ..

theorem performAll_sm (a : ApplyLoop ι) (sm : List (LogEntry ι)) (rs : List (Report ι)) :
    performAll { a with sm := sm } rs = { a.performAll rs with sm := sm } := by
  induction rs generalizing a with
  | nil => rfl
  | cons r rs ih => exact ih (a.perform r)

theorem settle_eq_perform (a : ApplyLoop ι) (p : PendingEntry ι) (out : ApplyOutcome) :
    a.settle p out = a.perform (.handed p out) := by
  obtain ⟨entry, raw, note⟩ := p
  cases note <;> rfl

section

variable (s : ApplyLoop ι × List (PendingEntry ι))

theorem flushed_eq :
    flushed machine s = { s.1.performAll (reportsPending machine s.1.sm s.2) with
      sm := (flushed machine s).sm } := by
  have hsettle : ∀ (a : ApplyLoop ι) (outs : List (PendingEntry ι × ApplyOutcome)),
      settleAll a outs = a.performAll (outs.map fun p => .handed p.1 p.2) := by
    intro a outs
    rw [settleAll, performAll, List.foldl_map]
    simp only [settle_eq_perform]
  unfold flushed
  rw [applyPending_sm, applyPending_eq, hsettle]
  rfl

theorem applyEntry_cases (e : LogEntry ι) :
    (∃ r : Report ι, r.Genuine ∧ r.entry = e ∧ r.given = none ∧
      (e.configOp.isNone && (Raft.known s.1.clientTable e).isNone) = false ∧
      reportsEntry machine s e = reportsPending machine s.1.sm s.2 ++ [r] ∧
      applyEntry machine s e = ((flushed machine s).perform r, [])) ∨
    e.configOp = none ∧ Raft.known s.1.clientTable e = none ∧ reportsEntry machine s e = [] ∧
      applyEntry machine s e = (s.1, s.2 ++ [e.queued]) := by
  unfold reportsEntry
  cases hop : e.configOp with
  | some op =>
    exact .inl ⟨.config e op, command_of_configOp hop, rfl, rfl, rfl, rfl,
      applyEntry_config machine s hop⟩
  | none =>
    cases hknown : Raft.known s.1.clientTable e with
    | some cached =>
      obtain ⟨d, hd, -, hseq⟩ := known_eq_some hknown
      exact .inl ⟨.known e cached, ⟨d, hd, hseq⟩, rfl, rfl, rfl, rfl,
        applyEntry_known machine s hknown⟩
    | none => exact .inr ⟨rfl, rfl, rfl, applyEntry_queued machine s hop hknown⟩

theorem applyEntry_eq (e : LogEntry ι) :
    (applyEntry machine s e).1 = { s.1.performAll (reportsEntry machine s e) with
      sm := (applyEntry machine s e).1.sm } := by
  rcases applyEntry_cases machine s e with ⟨r, -, -, -, -, hreports, happly⟩ | ⟨-, -, hreports, happly⟩ <;>
    rw [hreports, happly]
  · simp only [performAll_append]
    rw [flushed_eq machine s]
    rfl
  · rfl

theorem flushed_foldl_eq (es : List (LogEntry ι)) :
    flushed machine (es.foldl (applyEntry machine) s) =
      { s.1.performAll (reportsRange machine s es) with
        sm := (flushed machine (es.foldl (applyEntry machine) s)).sm } := by
  induction es generalizing s with
  | nil => exact flushed_eq machine s
  | cons e es ih =>
    rw [List.foldl_cons, reportsRange, performAll_append]
    have hrest := ih (applyEntry machine s e)
    rw [applyEntry_eq machine s e, performAll_sm] at hrest
    exact hrest

end

/-- **The apply loop makes its reports**, and hands entries to the state machine. -/
theorem applyRanges_eq (a : ApplyLoop ι) (ranges : List (List (LogEntry ι))) :
    applyRanges machine a ranges = { a.performAll (reportsOf machine a ranges) with
      sm := (applyRanges machine a ranges).sm } := by
  induction ranges generalizing a with
  | nil => rfl
  | cons es ranges ih =>
    have hfirst := flushed_foldl_eq machine (a, []) es
    rw [← applyEntries_eq] at hfirst
    rw [reportsOf, performAll_append]
    generalize hm : a.applyEntries machine es = m at hfirst
    -- performing reports does not touch the state machine, so it can be set afterwards
    have hmore : m.performAll (reportsOf machine m ranges) =
        { (a.performAll (reportsRange machine (a, []) es)).performAll (reportsOf machine m ranges) with
          sm := m.sm } := by
      rw [← performAll_sm, ← hfirst]
    have hrest := ih m
    rw [hmore] at hrest
    rw [applyRanges, List.foldl_cons, hm]
    exact hrest

theorem reportsPending_genuine {run : List (PendingEntry ι)} (hrun : ∀ p ∈ run, p.Waits) :
    ∀ r ∈ reportsPending machine sm run, r.Genuine := by
  intro r hr
  obtain ⟨⟨p, out⟩, hp, rfl⟩ := List.mem_map.mp hr
  exact hrun p (List.of_mem_zip hp).1

theorem reportsEntry_genuine {s : ApplyLoop ι × List (PendingEntry ι)} (e : LogEntry ι)
    (hrun : ∀ p ∈ s.2, p.Waits) :
    (∀ r ∈ reportsEntry machine s e, r.Genuine) ∧
      ∀ p ∈ (applyEntry machine s e).2, p.Waits := by
  have hpending := reportsPending_genuine machine s.1.sm hrun
  rcases applyEntry_cases machine s e with ⟨r, hgenuine, -, -, -, hreports, happly⟩ |
    ⟨hop, -, hreports, happly⟩ <;> rw [hreports, happly]
  · exact ⟨List.forall_mem_append.mpr ⟨hpending, List.forall_mem_singleton.mpr hgenuine⟩, by simp⟩
  · exact ⟨by simp, List.forall_mem_append.mpr
      ⟨hrun, List.forall_mem_singleton.mpr ⟨e, rfl, hop⟩⟩⟩

theorem reportsRange_genuine {s : ApplyLoop ι × List (PendingEntry ι)} (es : List (LogEntry ι))
    (hrun : ∀ p ∈ s.2, p.Waits) :
    ∀ r ∈ reportsRange machine s es, r.Genuine := by
  induction es generalizing s with
  | nil => exact reportsPending_genuine machine _ hrun
  | cons e es ih =>
    obtain ⟨hentry, hrun'⟩ := reportsEntry_genuine machine e hrun
    exact List.forall_mem_append.mpr ⟨hentry, ih hrun'⟩

theorem reportsOf_genuine (a : ApplyLoop ι) (ranges : List (List (LogEntry ι))) :
    ∀ r ∈ reportsOf machine a ranges, r.Genuine := by
  induction ranges generalizing a with
  | nil => simp [reportsOf]
  | cons es ranges ih =>
    exact List.forall_mem_append.mpr ⟨reportsRange_genuine machine es (by simp), ih _⟩

theorem reportsPending_entries :
    (reportsPending machine sm run).map Report.entry = run.map (·.raw) ∧
      (reportsPending machine sm run).filterMap Report.given = run.map (·.entry) := by
  -- there is an outcome for every entry
  have hlen : run.length ≤ (outcomes machine sm (run.map (·.entry))).length := by
    rw [outcomes_length, List.length_map]
  have hfst : (run.zip (outcomes machine sm (run.map (·.entry)))).map Prod.fst = run :=
    List.map_fst_zip hlen
  constructor
  · calc (reportsPending machine sm run).map Report.entry
        = ((run.zip (outcomes machine sm (run.map (·.entry)))).map Prod.fst).map (·.raw) := by
          simp [reportsPending, Report.entry]
      _ = run.map (·.raw) := by rw [hfst]
  · calc (reportsPending machine sm run).filterMap Report.given
        = ((run.zip (outcomes machine sm (run.map (·.entry)))).map Prod.fst).map (·.entry) := by
          rw [reportsPending]
          generalize run.zip (outcomes machine sm (run.map (·.entry))) = outs
          rw [List.filterMap_map, List.map_map, ← List.filterMap_eq_map]
          rfl
      _ = run.map (·.entry) := by rw [hfst]

theorem reportsRange_entries (s : ApplyLoop ι × List (PendingEntry ι)) (es : List (LogEntry ι)) :
    (reportsRange machine s es).map Report.entry = s.2.map (·.raw) ++ es := by
  induction es generalizing s with
  | nil => simpa [reportsRange] using (reportsPending_entries machine s.1.sm s.2).1
  | cons e es ih =>
    have hpending := (reportsPending_entries machine s.1.sm s.2).1
    rw [reportsRange, List.map_append, ih]
    rcases applyEntry_cases machine s e with ⟨r, -, hentry, -, -, hreports, happly⟩ |
      ⟨-, -, hreports, happly⟩ <;> rw [hreports, happly]
    · simp [hpending, hentry]
    · simp [e.queued_raw]

theorem reportsRange_given (s : ApplyLoop ι × List (PendingEntry ι)) (es : List (LogEntry ι)) :
    (flushed machine (es.foldl (applyEntry machine) s)).sm =
      s.1.sm ++ (reportsRange machine s es).filterMap Report.given := by
  have hpending (s : ApplyLoop ι × List (PendingEntry ι)) :
      (flushed machine s).sm = s.1.sm ++ (reportsPending machine s.1.sm s.2).filterMap Report.given := by
    rw [flushed, applyPending_sm, (reportsPending_entries machine s.1.sm s.2).2]
  induction es generalizing s with
  | nil => exact hpending s
  | cons e es ih =>
    rw [List.foldl_cons, ih, reportsRange, List.filterMap_append, ← List.append_assoc]
    congr 1
    rcases applyEntry_cases machine s e with ⟨r, -, -, hgiven, -, hreports, happly⟩ |
      ⟨-, -, hreports, happly⟩ <;> rw [hreports, happly]
    · rw [List.filterMap_append, ← List.append_assoc, ← hpending s]
      simp [hgiven, perform, report]
    · simp

section

variable (a : ApplyLoop ι)

section

variable (ranges : List (List (LogEntry ι)))

/-- **Every entry has one report**, in the order of the log. -/
theorem reportsOf_entries : (reportsOf machine a ranges).map Report.entry = ranges.flatten := by
  induction ranges generalizing a with
  | nil => rfl
  | cons es ranges ih =>
    rw [reportsOf, List.map_append, reportsRange_entries, ih]
    rfl

theorem applyRanges_sm :
    (applyRanges machine a ranges).sm =
      a.sm ++ (reportsOf machine a ranges).filterMap Report.given := by
  induction ranges generalizing a with
  | nil => simp [applyRanges, reportsOf]
  | cons es ranges ih =>
    have hfirst := reportsRange_given machine (a, []) es
    rw [← applyEntries_eq] at hfirst
    rw [applyRanges, List.foldl_cons, ← applyRanges, ih, reportsOf, List.filterMap_append, hfirst,
      List.append_assoc]

theorem applyRanges_sm_length :
    (applyRanges machine a ranges).sm.length ≤ a.sm.length + ranges.flatten.length := by
  rw [applyRanges_sm, List.length_append, ← reportsOf_entries machine a ranges, List.length_map]
  exact Nat.add_le_add_left (List.length_filterMap_le ..) _

end

variable (rs : List (Report ι))

theorem performAll_results : (a.performAll rs).results = a.results ++ rs.map Report.result := by
  induction rs generalizing a with
  | nil => simp [performAll]
  | cons r rs ih =>
    change ((a.perform r).performAll rs).results = _
    rw [ih]
    simp [perform, report]

theorem performAll_channels :
    (a.performAll rs).commitNotify = a.commitNotify ∧ (a.performAll rs).restore = a.restore ∧
      (a.performAll rs).snapshotTrigger = a.snapshotTrigger := by
  induction rs generalizing a with
  | nil => exact ⟨rfl, rfl, rfl⟩
  | cons r rs ih => exact ih (a.perform r)

theorem performAll_localLastApplied :
    (a.performAll rs).localLastApplied =
      ((rs.map Report.entry).getLast?.map (·.index)).getD a.localLastApplied := by
  induction rs using List.reverseRecOn with
  | nil => rfl
  | append_singleton rs r =>
    rw [performAll_append]
    simp only [List.map_append, List.map_cons, List.map_nil, List.getLast?_concat, Option.map_some,
      Option.getD_some]
    exact r.result_index

theorem applyRanges_results (ranges : List (List (LogEntry ι))) :
    (applyRanges machine a ranges).results =
      a.results ++ (reportsOf machine a ranges).map Report.result := by
  rw [applyRanges_eq]
  exact performAll_results a _

theorem applyRanges_localLastApplied (ranges : List (List (LogEntry ι))) :
    (applyRanges machine a ranges).localLastApplied =
      (ranges.flatten.getLast?.map (·.index)).getD a.localLastApplied := by
  rw [applyRanges_eq, ← reportsOf_entries machine a ranges]
  exact performAll_localLastApplied a _

theorem applyEntries_eq_performAll (es : List (LogEntry ι)) :
    a.applyEntries machine es = { a.performAll (reportsOf machine a [es]) with
      sm := (a.applyEntries machine es).sm } :=
  applyRanges_eq machine a [es]

end

end Reports

end ApplyLoop

end Raft
