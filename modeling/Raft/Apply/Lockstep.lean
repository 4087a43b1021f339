import Raft.Apply.Reports
import Raft.Turn.Tenure

/-!
# The two tables of clients

The apply loop and the event loop each keep a table of clients.  The apply loop writes its
own when a run has been applied, the event loop when it takes up a result, and not under the
same condition.  A duplicate that is answered from the table moves the client to the front
of the event loop's only, and a number below the one on record is written by the apply loop
only.
-/

namespace Raft

variable {ι : Type} {t : ClientLRU}

/-- The entry a command makes in the table: none when it failed, or a higher number is on record. -/
def ApplyResult.note (t : ClientLRU) (r : ApplyResult ι) : ClientLRU :=
  match r.cmd.bind (·.dedup) with
  | none => t
  | some d =>
    if r.err ∨ (t.get d.clientID).any (fun cached => d.seqNum < cached.seqNum) then t
    else t.put d.clientID ⟨d.seqNum, r.val⟩

/-- What the event loop does to its table with a result. -/
def ApplyResult.record (t : ClientLRU) (r : ApplyResult ι) : ClientLRU :=
  match r.configCmd with
  | some op => r.note (op.adjust t)
  | none => r.note t

namespace Node

variable [DecidableEq ι] [Sized ι]

omit [DecidableEq ι] [Sized ι] in
theorem recordOutcome_clientTable (n : Node ι) (r : ApplyResult ι) :
    (n.recordOutcome r).clientTable = r.note n.clientTable := by
  unfold recordOutcome ApplyResult.note
  cases r.cmd.bind (·.dedup) with
  | none => rfl
  | some d =>
    dsimp only
    split_ifs <;> rfl

omit [DecidableEq ι] [Sized ι] in
theorem maybeSnapshot_clientTable (n : Node ι) : n.maybeSnapshot.clientTable = n.clientTable := by
  unfold maybeSnapshot
  split_ifs
  · rfl
  · rfl
  · cases n.log.termAt n.lastApplied <;> rfl

theorem applyConfigChange_clientTable (n : Node ι) (op : ConfigOp ι) (index : Nat) :
    (n.applyConfigChange op index).clientTable = op.adjust n.clientTable :=
  (congrArg Side.clientTable (applyConfigChange_side n op index)).trans (by cases op <;> rfl)

theorem handleApplyResult_clientTable {n : Node ι} {r : ApplyResult ι}
    {rest : List (ApplyResult ι)} (h : n.apply.results = r :: rest) :
    n.handleApplyResult.clientTable = r.record n.clientTable := by
  unfold handleApplyResult ApplyResult.record
  rw [h]
  dsimp only
  cases r.configCmd with
  | none => rw [maybeSnapshot_clientTable, recordOutcome_clientTable]
  | some op =>
    rw [maybeSnapshot_clientTable, recordOutcome_clientTable]
    exact congrArg r.note (applyConfigChange_clientTable _ op r.index)

end Node

namespace Report

/-- A report both tables take up alike: of a number not below the record, or a duplicate that
moves nothing. -/
def Harmless (t : ClientLRU) : Report ι → Prop
  | handed p out => out.err = false → ∀ client seq, p.note = some (client, seq) →
      ∀ r, t.get client = some r → r.seqNum ≤ seq
  | known e cached => ∀ d, e.command.dedup = some d →
      t.items.head? = some (d.clientID, cached) ∨ ∃ r, t.get d.clientID = some r ∧ d.seqNum < r.seqNum
  | config _ _ => True

instance (t : ClientLRU) : (r : Report ι) → Decidable (r.Harmless t)
  | handed p out => decidable_of_iff
      (out.err = false → ∀ x ∈ p.note, ∀ r ∈ t.get x.1, r.seqNum ≤ x.2) (by simp [Harmless, Prod.forall])
  | known e cached => decidable_of_iff
      (∀ d ∈ e.command.dedup, t.items.head? = some (d.clientID, cached) ∨
        ∃ r ∈ t.get d.clientID, d.seqNum < r.seqNum) (by simp [Harmless])
  | config _ _ => .isTrue trivial

theorem note_of_dedup {r : ApplyResult ι} {d : DedupCmd} (hd : r.cmd.bind (·.dedup) = some d)
    (herr : r.err = false) :
    r.note t = if ∃ c, t.get d.clientID = some c ∧ d.seqNum < c.seqNum then t
      else t.put d.clientID ⟨d.seqNum, r.val⟩ := by
  have hiff : (r.err = true ∨ (t.get d.clientID).any (fun c => d.seqNum < c.seqNum) = true) ↔
      ∃ c, t.get d.clientID = some c ∧ d.seqNum < c.seqNum := by
    simp [herr, Option.any_eq_true]
  unfold ApplyResult.note
  rw [hd]
  exact if_congr hiff rfl rfl

theorem put_eq_iff (t : ClientLRU) (client : ClientID) (seq : Nat) (val : List UInt8) :
    (if ∃ c, t.get client = some c ∧ seq < c.seqNum then t else t.put client ⟨seq, val⟩) =
        t.put client ⟨seq, val⟩ ↔ ∀ c, t.get client = some c → c.seqNum ≤ seq := by
  split_ifs with hhigher
  · obtain ⟨c, hget, hlt⟩ := hhigher
    constructor
    · -- The write would have put the lower number in front.
      intro heq
      have hown := Recency.get_of_head ((Recency.put_eq_self_iff t client ⟨seq, val⟩).mp heq.symm)
      cases hget.symm.trans hown
      exact absurd hlt (Nat.lt_irrefl _)
    · intro h
      exact absurd (h c hget) (Nat.not_le.mpr hlt)
  · refine iff_of_true rfl fun c hget => ?_
    exact Nat.not_lt.mp fun hlt => hhigher ⟨c, hget, hlt⟩

/-- **The two tables take up a report alike** exactly when it is harmless. -/
theorem record_eq_update_iff (t : ClientLRU) {r : Report ι} (hr : r.Genuine) :
    r.result.record t = r.update t ↔ r.Harmless t := by
  cases r with
  | handed p out =>
    obtain ⟨e, rfl, -⟩ := hr
    obtain ⟨value, err⟩ := out
    change (⟨e.queued.raw.index, value, err, none, some e.queued.raw.command⟩ :
      ApplyResult ι).note t = _ ↔ _
    simp only [update, Harmless, LogEntry.queued]
    cases hd : e.command.dedup with
    | none => simp [ApplyResult.note, hd]
    | some d =>
      cases err with
      | true => simp [ApplyResult.note, hd]
      | false =>
        rw [note_of_dedup (r := ⟨e.index, value, false, none, some e.command⟩) hd rfl]
        simp only [Bool.false_eq_true, if_false, put_eq_iff, Option.some.injEq, Prod.mk.injEq]
        constructor
        · rintro h - client seq ⟨rfl, rfl⟩
          exact h
        · intro h
          exact h trivial d.clientID d.seqNum ⟨rfl, rfl⟩
  | known e cached =>
    obtain ⟨d, hd, hseq⟩ := hr
    have hcached : (⟨d.seqNum, cached.result⟩ : ClientEntry) = cached := by rw [← hseq]
    change (⟨e.index, cached.result, false, none, some e.command⟩ : ApplyResult ι).note t = t ↔ _
    -- the event loop writes the answer again, unless a higher number is on record
    rw [note_of_dedup (r := ⟨e.index, cached.result, false, none, some e.command⟩) hd rfl, hcached]
    constructor
    · intro h d' hd'
      cases hd.symm.trans hd'
      split_ifs at h with hhigher
      · exact .inr hhigher
      · exact .inl ((Recency.put_eq_self_iff t d.clientID cached).mp h)
    · intro h
      split_ifs with hhigher
      · rfl
      · exact (Recency.put_eq_self_iff t d.clientID cached).mpr ((h d hd).resolve_right hhigher)
  | config e op =>
    have hcmd : e.command = .config op := hr
    refine iff_of_true ?_ trivial
    change ApplyResult.note (op.adjust t) ⟨e.index, [], false, some op, some e.command⟩ = op.adjust t
    rw [hcmd]
    rfl

end Report

namespace ApplyLoop

/-- A table that takes up the results on their way becomes the apply loop's. -/
structure InStep (t : ClientLRU) (a : ApplyLoop ι) : Prop where
  same : a.results.foldl ApplyResult.record t = a.clientTable
  restored : (Recency.empty (a.results.foldl ApplyResult.record t).bound).loadFrom
    (a.results.foldl ApplyResult.record t).items = a.clientTable

theorem inStep_iff_same (t : ClientLRU) (a : ApplyLoop ι) :
    InStep t a ↔ a.results.foldl ApplyResult.record t = a.clientTable :=
  ⟨InStep.same, fun h => ⟨h, (Recency.loadFrom_items _).trans h⟩⟩

theorem inStep_perform_iff {a : ApplyLoop ι} (h : InStep t a) {r : Report ι} (hr : r.Genuine) :
    InStep t (a.perform r) ↔ r.Harmless a.clientTable := by
  rw [inStep_iff_same, ← Report.record_eq_update_iff a.clientTable hr, ← h.same]
  change (a.results ++ [r.result]).foldl ApplyResult.record t = r.update a.clientTable ↔ _
  rw [List.foldl_append, List.foldl_cons, List.foldl_nil, h.same]

theorem inStep_performAll_iff {a : ApplyLoop ι} (h : InStep t a) {rs : List (Report ι)}
    (hrs : ∀ r ∈ rs, r.Genuine) :
    (∀ k, InStep t (a.performAll (rs.take k))) ↔
      ∀ (k : Nat) (r : Report ι), rs[k]? = some r →
        r.Harmless (a.performAll (rs.take k)).clientTable := by
  induction rs generalizing a with
  | nil => simpa [performAll] using h
  | cons r rs ih =>
    have hr : r.Genuine := hrs r List.mem_cons_self
    have hstep := inStep_perform_iff h hr
    have hrest : ∀ r' ∈ rs, r'.Genuine := fun r' hr' => hrs r' (List.mem_cons_of_mem r hr')
    -- only behind a harmless report are the tables the same for the rest
    constructor
    · intro hall k r' hk
      have hharmless : r.Harmless a.clientTable := hstep.mp (hall 1)
      cases k with
      | zero =>
        obtain rfl : r = r' := Option.some.inj hk
        exact hharmless
      | succ k => exact (ih (hstep.mpr hharmless) hrest).mp (fun k => hall (k + 1)) k r' hk
    · intro hall k
      have hharmless : r.Harmless a.clientTable := hall 0 r rfl
      cases k with
      | zero => exact h
      | succ k =>
        exact (ih (hstep.mpr hharmless) hrest).mpr (fun k r' hk => hall (k + 1) r' hk) k

section Main

variable (machine : List (LogEntry ι) → LogEntry ι → ApplyOutcome)

/-- The loop after the first `k` reports of a log handed over in ranges. -/
def afterReports (a : ApplyLoop ι) (ranges : List (List (LogEntry ι))) (k : Nat) : ApplyLoop ι :=
  a.performAll ((reportsOf machine a ranges).take k)

/-- **The two tables stay in step** exactly when every report finds a table it is harmless
for. -/
theorem inStep_iff {t : ClientLRU} {a : ApplyLoop ι} (h : InStep t a)
    (ranges : List (List (LogEntry ι))) :
    (∀ k, InStep t (afterReports machine a ranges k)) ↔
      ∀ (k : Nat) (r : Report ι), (reportsOf machine a ranges)[k]? = some r →
        r.Harmless (afterReports machine a ranges k).clientTable :=
  inStep_performAll_iff h (reportsOf_genuine machine a ranges)

/-- Two clients take turns in a table with one place, and the second number 1 of client 7 is new
again, its retry is not. -/
theorem inStep_turns :
    let a := { idle with clientTable := .empty 1 }
    InStep (.empty 1) a ∧ ∀ k, InStep (.empty 1) (afterReports (fun _ _ => ⟨[], false⟩) a
      [[ofClient 7 1 1], [ofClient 8 2 1], [ofClient 7 3 1], [ofClient 7 4 1]] k) := by
  intro a
  have hstart : InStep (.empty 1) a := (inStep_iff_same _ _).mpr rfl
  have hall : ∀ x ∈ (reportsOf (fun _ _ => ⟨[], false⟩) a
      [[ofClient 7 1 1], [ofClient 8 2 1], [ofClient 7 3 1], [ofClient 7 4 1]]).zipIdx,
      x.1.Harmless (afterReports (fun _ _ => ⟨[], false⟩) a
        [[ofClient 7 1 1], [ofClient 8 2 1], [ofClient 7 3 1], [ofClient 7 4 1]] x.2).clientTable := by
    decide +kernel
  exact ⟨hstart, (inStep_iff _ hstart _).mpr fun k r hk =>
    hall (r, k) (List.mem_zipIdx_iff_getElem?.mpr hk)⟩

/-- A duplicate moves its client to the front of one table only; a number below the record is
written to the other only. -/
theorem not_inStep_duplicate :
    ¬ InStep (.empty 0) (applyRanges (fun _ _ => ⟨[], false⟩) idle
        [[ofClient 7 1 1], [ofClient 8 2 1], [ofClient 7 3 1]]) ∧
      ¬ InStep (.empty 0) (applyRanges (fun _ _ => ⟨[], false⟩) idle
        [[ofClient 7 1 2], [ofClient 7 2 1]]) := by
  simp only [inStep_iff_same]
  decide +kernel

end Main

end ApplyLoop

end Raft
