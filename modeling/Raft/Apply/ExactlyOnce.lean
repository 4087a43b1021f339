import Raft.Apply.Runs

/-!
# Exactly-once commands

The apply loop asks the client table about a command when it reaches the entry, and
writes the table when the run the entry waits in is handed over.  Where a range of
entries ends decides how far the table lags behind, and with it what the question
finds.  This module says for which logs the ranges do not matter.
-/

namespace Raft

variable {ι : Type}

/-- What the state machine has been given, and the table that goes with it. -/
structure Applied (ι : Type) where
  given : List (LogEntry ι)
  table : ClientLRU

namespace Applied

variable (machine : List (LogEntry ι) → LogEntry ι → ApplyOutcome)

variable (m : Applied ι)

/-- An entry goes to the state machine, and a success of an exactly-once command is
noted. -/
def hand (p : PendingEntry ι) : Applied ι :=
  let out := machine m.given p.entry
  { given := m.given ++ [p.entry]
    table := match p.note with
      | some (client, seq) => if out.err then m.table else m.table.put client ⟨seq, out.value⟩
      | none => m.table }

def take (e : LogEntry ι) : Applied ι :=
  match e.configOp with
  | some op => { m with table := op.adjust m.table }
  | none => if (known m.table e).isSome then m else m.hand machine e.queued

def takeAll (es : List (LogEntry ι)) : Applied ι := es.foldl (take machine) m

theorem takeAll_append (es es' : List (LogEntry ι)) :
    m.takeAll machine (es ++ es') = (m.takeAll machine es).takeAll machine es' :=
  List.foldl_append ..

theorem exists_foldl_added {σ : Type} (f : σ → LogEntry ι → σ) (given : σ → List (LogEntry ι))
    (hstep : ∀ s e, ∃ ys, given (f s e) = given s ++ ys ∧ ∀ y ∈ ys, y.index = e.index)
    (s : σ) (es : List (LogEntry ι)) :
    ∃ xs, given (es.foldl f s) = given s ++ xs ∧ ∀ x ∈ xs, ∃ e ∈ es, x.index = e.index := by
  induction es generalizing s with
  | nil => exact ⟨[], by simp, by simp⟩
  | cons e es ih =>
    obtain ⟨xs, hxs, hidx⟩ := ih (f s e)
    obtain ⟨ys, hys, hyidx⟩ := hstep s e
    refine ⟨ys ++ xs, by rw [List.foldl_cons, hxs, hys, List.append_assoc], fun x hx => ?_⟩
    rcases List.mem_append.mp hx with hx | hx
    · exact ⟨e, List.mem_cons_self .., hyidx x hx⟩
    · obtain ⟨e', he', hx'⟩ := hidx x hx
      exact ⟨e', List.mem_cons_of_mem _ he', hx'⟩

theorem exists_given_takeAll (es : List (LogEntry ι)) :
    ∃ xs, (m.takeAll machine es).given = m.given ++ xs ∧ ∀ x ∈ xs, ∃ e ∈ es, x.index = e.index := by
  refine exists_foldl_added (take machine) given (fun m e => ?_) m es
  unfold take
  split
  · exact ⟨[], by simp, by simp⟩
  · split_ifs
    · exact ⟨[], by simp, by simp⟩
    · exact ⟨[e.queued.entry], rfl, by simp [e.queued_index]⟩

theorem exists_given_split (pre post : List (LogEntry ι)) {e : LogEntry ι}
    (hop : e.configOp = none) :
    ∃ xs, (m.takeAll machine (pre ++ e :: post)).given = (m.takeAll machine pre).given ++
        (if (known (m.takeAll machine pre).table e).isSome then [] else [e.queued.entry]) ++ xs ∧
      ∀ x ∈ xs, ∃ e' ∈ post, x.index = e'.index := by
  obtain ⟨xs, hxs, hxidx⟩ :=
    ((m.takeAll machine pre).take machine e).exists_given_takeAll machine post
  refine ⟨xs, ?_, hxidx⟩
  have hsplit : m.takeAll machine (pre ++ e :: post) =
      ((m.takeAll machine pre).take machine e).takeAll machine post := by
    rw [takeAll_append]
    rfl
  have htake : ((m.takeAll machine pre).take machine e).given = (m.takeAll machine pre).given ++
      if (known (m.takeAll machine pre).table e).isSome then [] else [e.queued.entry] := by
    rw [take, hop]
    split_ifs
    · rw [List.append_nil]
    · rfl
  rw [hsplit, hxs, htake]

end Applied

namespace ApplyLoop

variable (machine : List (LogEntry ι) → LogEntry ι → ApplyOutcome) {e : LogEntry ι}
  {post : List (LogEntry ι)}

def applied (a : ApplyLoop ι) : Applied ι := ⟨a.sm, a.clientTable⟩

section

variable (a : ApplyLoop ι)

theorem applied_applyPending (run : List (PendingEntry ι)) :
    (a.applyPending machine run).applied = run.foldl (Applied.hand machine) a.applied := by
  induction run generalizing a with
  | nil => rw [applyPending_nil, List.foldl_nil]
  | cons p run ih =>
    rw [← List.singleton_append, applyPending_append, ih, List.foldl_append]
    rfl

theorem applied_applyEntries_singleton (e : LogEntry ι) :
    (a.applyEntries machine [e]).applied = a.applied.take machine e := by
  rw [applyEntries_eq, List.foldl_cons, List.foldl_nil, Applied.take]
  cases hop : e.configOp with
  | some op =>
    rw [applyEntry_config machine _ hop, flushed_nil, flushed_nil]
    rfl
  | none =>
    cases hk : known a.clientTable e with
    | some c =>
      rw [applyEntry_known machine (a, []) hk, flushed_nil, flushed_nil, if_pos (by simp [applied, hk])]
      rfl
    | none =>
      rw [applyEntry_queued machine (a, []) hop hk, if_neg (by simp [applied, hk])]
      exact applied_applyPending machine a [e.queued]

theorem applied_applySingly (es : List (LogEntry ι)) :
    (applySingly machine a es).applied = a.applied.takeAll machine es := by
  induction es generalizing a with
  | nil => rfl
  | cons e es ih =>
    have hstep : applySingly machine a (e :: es) =
        applySingly machine (a.applyEntries machine [e]) es := rfl
    rw [hstep, ih, applied_applyEntries_singleton]
    rfl

theorem applySingly_sm (es : List (LogEntry ι)) :
    (applySingly machine a es).sm = (a.applied.takeAll machine es).given :=
  congrArg Applied.given (applied_applySingly machine a es)

end

/-! ## What is promised, and when it is kept -/

def tableAfter (a : ApplyLoop ι) (es : List (LogEntry ι)) : ClientLRU :=
  (applySingly machine a es).clientTable

/-- The state machine sees what it would see entry by entry, exactly-once commands once. -/
structure AppliedOnce (a : ApplyLoop ι) (ranges : List (List (LogEntry ι))) : Prop where
  sequence : (applyRanges machine a ranges).sm = (applySingly machine a ranges.flatten).sm
  once : ∀ pre e post d r, ranges.flatten = pre ++ e :: post → e.command.dedup = some d →
    (∃ x ∈ (applyRanges machine a ranges).sm.drop a.sm.length, x.index = e.index) →
    (tableAfter machine a pre).get d.clientID = some r → r.seqNum < d.seqNum

/-- None of the entries `mid` after `pre` makes the loop hand over what waits. -/
def Quiet (a : ApplyLoop ι) (pre mid : List (LogEntry ι)) : Prop :=
  ∀ m e m', mid = m ++ e :: m' → e.configOp = none ∧
    known (tableAfter machine a (pre ++ m)) e = none

/-- Whether the table has the result of an entry does not depend on how many before it wait. -/
def Unhurried (a : ApplyLoop ι) (es : List (LogEntry ι)) : Prop :=
  ∀ pre mid e post, es = pre ++ mid ++ e :: post → Quiet machine a pre mid →
    (known (tableAfter machine a pre) e).isSome =
      (known (tableAfter machine a (pre ++ mid)) e).isSome

/-- No command comes with a number below the one on record for its client. -/
def Ascending (a : ApplyLoop ι) (es : List (LogEntry ι)) : Prop :=
  ∀ pre e post d r, es = pre ++ e :: post → e.command.dedup = some d →
    (tableAfter machine a pre).get d.clientID = some r → r.seqNum ≤ d.seqNum

/-- The same for the first `k` entries. -/
def UnhurriedTo (k : Nat) (a : ApplyLoop ι) (es : List (LogEntry ι)) : Prop :=
  ∀ pre mid e post, es = pre ++ mid ++ e :: post → (pre ++ mid).length < k →
    Quiet machine a pre mid →
      (known (tableAfter machine a pre) e).isSome =
        (known (tableAfter machine a (pre ++ mid)) e).isSome

section Lag

variable {machine} {a b : ApplyLoop ι} {es done mid : List (LogEntry ι)} {k : Nat}
  {s : ApplyLoop ι × List (PendingEntry ι)}

theorem applied_table (pre : List (LogEntry ι)) :
    (a.applied.takeAll machine pre).table = tableAfter machine a pre := by
  rw [← applied_applySingly]
  rfl

/-- The loop has reached the end of `pre`; the part `mid` still waits. -/
structure Lag (machine : List (LogEntry ι) → LogEntry ι → ApplyOutcome) (a : ApplyLoop ι)
    (s : ApplyLoop ι × List (PendingEntry ι)) (done mid : List (LogEntry ι)) : Prop where
  handed : s.1.applied = a.applied.takeAll machine done
  waiting : s.2 = mid.map (·.queued)
  reached : (flushed machine s).applied = a.applied.takeAll machine (done ++ mid)
  quiet : Quiet machine a done mid

theorem Lag.of_applied (h : b.applied = a.applied.takeAll machine done) :
    Lag machine a (b, []) done [] := by
  refine ⟨h, rfl, by rw [flushed_nil, List.append_nil, h], fun m e m' hm => ?_⟩
  simp at hm

section

variable (h : Lag machine a s done mid)

include h

theorem Lag.table : s.1.clientTable = tableAfter machine a done := by
  rw [← applied_table, ← h.handed]
  rfl

theorem Lag.interrupt (hb : b.applied = (flushed machine s).applied.take machine e) :
    ∃ done' mid', done' ++ mid' = done ++ mid ++ [e] ∧ Lag machine a (b, []) done' mid' := by
  refine ⟨done ++ mid ++ [e], [], by simp, .of_applied ?_⟩
  rw [Applied.takeAll_append, ← h.reached]
  exact hb

theorem Lag.queue (hop : e.configOp = none) (hk : known (tableAfter machine a done) e = none)
    (hk' : known (tableAfter machine a (done ++ mid)) e = none) :
    Lag machine a (applyEntry machine s e) done (mid ++ [e]) := by
  rw [applyEntry_queued machine s hop (h.table ▸ hk)]
  refine ⟨h.handed, by simp [h.waiting], ?_, ?_⟩
  · rw [flushed, applyPending_append, applied_applyPending, ← List.append_assoc,
      Applied.takeAll_append, ← h.reached]
    -- what is handed over last is what the entry by itself would be
    show Applied.hand machine (flushed machine s).applied e.queued =
      (flushed machine s).applied.take machine e
    have hnone : known (flushed machine s).applied.table e = none := by
      rw [h.reached, applied_table]
      exact hk'
    rw [Applied.take, hop]
    simp [hnone]
  · intro m x m' hm
    rcases List.eq_nil_or_concat m' with rfl | ⟨m', y, rfl⟩
    · obtain ⟨rfl, hx⟩ := List.append_inj' hm rfl
      obtain rfl : e = x := by simpa using hx
      exact ⟨hop, hk'⟩
    · refine h.quiet m x m' ?_
      rw [List.concat_eq_append, ← List.cons_append, ← List.append_assoc] at hm
      exact (List.append_inj' hm rfl).1

theorem Lag.step (hcond : UnhurriedTo machine k a es) (e : LogEntry ι) (post : List (LogEntry ι))
    (hes : es = done ++ mid ++ e :: post) (hlen : (done ++ mid).length < k) :
    ∃ done' mid', done' ++ mid' = done ++ mid ++ [e] ∧
      Lag machine a (applyEntry machine s e) done' mid' := by
  have hsame := hcond done mid e post hes hlen h.quiet
  cases hop : e.configOp with
  | some op =>
    rw [applyEntry_config machine s hop]
    refine h.interrupt ?_
    rw [Applied.take, hop]
    rfl
  | none =>
    cases hk : known (tableAfter machine a done) e with
    | some c =>
      rw [applyEntry_known machine s (h.table ▸ hk)]
      refine h.interrupt ?_
      have hsome : (known (flushed machine s).applied.table e).isSome = true := by
        rw [h.reached, applied_table, ← hsame, hk]
        rfl
      rw [Applied.take, hop]
      simp only [hsome, if_true]
      rfl
    | none =>
      have hk' : known (tableAfter machine a (done ++ mid)) e = none := by
        rw [hk] at hsame
        simpa using hsame.symm
      exact ⟨done, mid ++ [e], by simp, h.queue hop hk hk'⟩

theorem Lag.feed (hcond : UnhurriedTo machine k a es) (next post : List (LogEntry ι))
    (hes : es = done ++ mid ++ next ++ post) (hlen : (done ++ mid ++ next).length ≤ k) :
    ∃ done' mid', done' ++ mid' = done ++ mid ++ next ∧
      Lag machine a (next.foldl (applyEntry machine) s) done' mid' := by
  induction next generalizing s done mid with
  | nil => exact ⟨done, mid, by simp, h⟩
  | cons e next ih =>
    simp only [List.length_append, List.length_cons] at hlen
    obtain ⟨done', mid', heq, h'⟩ := h.step hcond e (next ++ post) (by simp [hes])
      (by simp only [List.length_append]; omega)
    obtain ⟨done'', mid'', heq', h''⟩ := ih h' (by rw [heq, hes]; simp) (by
      rw [heq]
      simp only [List.length_append, List.length_cons, List.length_nil]
      omega)
    exact ⟨done'', mid'', by rw [heq', heq]; simp, h''⟩

end

theorem Lag.feed_quiet (h : b.applied = a.applied.takeAll machine done)
    (hcond : UnhurriedTo machine k a es) (hquiet : Quiet machine a done mid)
    (hes : es = done ++ mid ++ post) (hlen : (done ++ mid).length ≤ k) :
    Lag machine a (mid.foldl (applyEntry machine) (b, [])) done mid := by
  induction mid using List.reverseRecOn generalizing post with
  | nil => exact .of_applied h
  | append_singleton mid e ih =>
    simp only [List.length_append, List.length_singleton] at hlen
    have hmid : Quiet machine a done mid := by
      intro m x m' hm
      exact hquiet m x (m' ++ [e]) (by rw [hm]; simp)
    have hes' : es = done ++ mid ++ e :: post := by
      rw [hes]
      simp
    have hlag := ih hmid hes' (by simp only [List.length_append]; omega)
    obtain ⟨hop, hk'⟩ := hquiet mid e [] rfl
    have hsame := hcond done mid e post hes' (by simp only [List.length_append]; omega) hmid
    rw [hk'] at hsame
    rw [List.foldl_append]
    exact hlag.queue hop (by simpa using hsame) hk'

theorem applied_applyRanges (ranges : List (List (LogEntry ι))) (hcond : UnhurriedTo machine k a es)
    (h : b.applied = a.applied.takeAll machine done) (hes : es = done ++ ranges.flatten ++ post)
    (hlen : (done ++ ranges.flatten).length ≤ k) :
    (applyRanges machine b ranges).applied =
      a.applied.takeAll machine (done ++ ranges.flatten) := by
  induction ranges generalizing b done with
  | nil => simpa [applyRanges] using h
  | cons range ranges ih =>
    simp only [List.flatten_cons, List.length_append] at hlen
    obtain ⟨done', mid', heq, h'⟩ := (Lag.of_applied h).feed hcond range
      (ranges.flatten ++ post) (by simp [hes])
      (by simp only [List.length_append, List.append_nil]; omega)
    have hrange : (b.applyEntries machine range).applied =
        a.applied.takeAll machine (done ++ range) := by
      rw [applyEntries_eq, h'.reached, heq, List.append_nil]
    have hall := ih hrange (by simp [hes]) (by simp only [List.length_append]; omega)
    rw [List.flatten_cons, ← List.append_assoc]
    exact hall

end Lag

/-! ## What a range adds to the state machine's sequence -/

section Added

theorem exists_sm_feed (s : ApplyLoop ι × List (PendingEntry ι)) (es : List (LogEntry ι)) :
    ∃ xs, (flushed machine (es.foldl (applyEntry machine) s)).sm = (flushed machine s).sm ++ xs ∧
      ∀ x ∈ xs, ∃ e ∈ es, x.index = e.index := by
  refine Applied.exists_foldl_added _ (fun s => (flushed machine s).sm) (fun s e => ?_) s es
  cases hop : e.configOp with
  | some op =>
    rw [applyEntry_config machine s hop, flushed_nil]
    exact ⟨[], by simp [report], by simp⟩
  | none =>
    cases hk : known s.1.clientTable e with
    | some c =>
      rw [applyEntry_known machine s hk, flushed_nil]
      exact ⟨[], by simp [report], by simp⟩
    | none =>
      rw [applyEntry_queued machine s hop hk]
      refine ⟨[e.queued.entry], ?_, by simp [e.queued_index]⟩
      simp [flushed, applyPending_sm]

def times (i : Nat) (sm : List (LogEntry ι)) : Nat := sm.countP (·.index = i)

theorem times_append (i : Nat) (sm sm' : List (LogEntry ι)) :
    times i (sm ++ sm') = times i sm + times i sm' := List.countP_append

theorem times_eq_zero {i : Nat} {xs es : List (LogEntry ι)}
    (h : ∀ x ∈ xs, ∃ e ∈ es, x.index = e.index) (hi : ∀ e ∈ es, e.index ≠ i) : times i xs = 0 := by
  unfold times
  rw [List.countP_eq_zero]
  intro x hx
  obtain ⟨e, he, hidx⟩ := h x hx
  simp only [decide_eq_true_eq]
  exact fun h => hi e he (hidx ▸ h)

theorem times_feed {s : ApplyLoop ι × List (PendingEntry ι)} (hop : e.configOp = none)
    (hpost : ∀ e' ∈ post, e'.index ≠ e.index) :
    times e.index (flushed machine ((e :: post).foldl (applyEntry machine) s)).sm =
      times e.index (flushed machine s).sm +
        if (known s.1.clientTable e).isSome then 0 else 1 := by
  rw [List.foldl_cons]
  obtain ⟨xs, hxs, hidx⟩ := exists_sm_feed machine (applyEntry machine s e) post
  rw [hxs, times_append, times_eq_zero hidx hpost, Nat.add_zero]
  cases hk : known s.1.clientTable e with
  | some c =>
    rw [applyEntry_known machine s hk, flushed_nil]
    simp [report]
  | none =>
    rw [applyEntry_queued machine s hop hk]
    simp [flushed, applyPending_append, applyPending_sm, times, e.queued_index, Nat.add_assoc]

end Added

/-! ## When the ranges do not matter -/

section Once

variable {machine} {a : ApplyLoop ι} {es : List (LogEntry ι)}

theorem applyRanges_sm_of_unhurried (hcond : Unhurried machine a es) {ranges : List (List (LogEntry ι))}
    (hflat : ranges.flatten = es) :
    (applyRanges machine a ranges).sm = (a.applied.takeAll machine es).given := by
  have hto : UnhurriedTo machine es.length a es :=
    fun pre mid e post hes _ hquiet => hcond pre mid e post hes hquiet
  have hes : es = [] ++ ranges.flatten ++ [] := by simp [hflat]
  have happlied := applied_applyRanges (b := a) ranges hto rfl hes (by rw [← hflat]; rfl)
  rw [List.nil_append, hflat] at happlied
  exact congrArg Applied.given happlied

theorem index_ne_of_nodup {pre : List (LogEntry ι)} (h : ((pre ++ e :: post).map (·.index)).Nodup) :
    (∀ e' ∈ pre, e'.index ≠ e.index) ∧ ∀ e' ∈ post, e'.index ≠ e.index := by
  rw [List.map_append, List.map_cons, List.nodup_append] at h
  obtain ⟨-, hpost, hdisj⟩ := h
  refine ⟨fun e' he' => hdisj _ (List.mem_map_of_mem he') _ (List.mem_cons_self ..),
    fun e' he' heq => ?_⟩
  exact (List.nodup_cons.mp hpost).1 (heq ▸ List.mem_map_of_mem he')

theorem appliedOnce_of_unhurried (hidx : (es.map (·.index)).Nodup)
    (hcond : Unhurried machine a es) (hasc : Ascending machine a es)
    {ranges : List (List (LogEntry ι))} (hflat : ranges.flatten = es) :
    AppliedOnce machine a ranges := by
  have hsm := applyRanges_sm_of_unhurried hcond hflat
  refine ⟨?_, ?_⟩
  · rw [hsm, hflat, applySingly_sm]
  · rintro pre e post d r hes hd ⟨x, hx, hxidx⟩ hr
    rw [hflat] at hes
    have hle := hasc pre e post d r hes hd hr
    have hop := configOp_of_dedup hd
    obtain ⟨ys, hgiven', hys⟩ := a.applied.exists_given_takeAll machine pre
    obtain ⟨xs, hgiven, hxs⟩ := a.applied.exists_given_split machine pre post hop
    obtain ⟨hpre, hpost⟩ := index_ne_of_nodup (hes ▸ hidx)
    have hdrop : ∀ l : List (LogEntry ι), (a.applied.given ++ l).drop a.sm.length = l :=
      fun l => List.drop_left
    rw [hsm, hes, hgiven, hgiven', applied_table, List.append_assoc, List.append_assoc, hdrop] at hx
    -- Were the result on record, nothing with this index would be given.
    have hnot : (known (tableAfter machine a pre) e).isSome ≠ true := by
      intro hsome
      rw [if_pos hsome, List.nil_append] at hx
      rcases List.mem_append.mp hx with hx | hx
      · obtain ⟨e', he', h'⟩ := hys x hx
        exact hpre e' he' (h'.symm.trans hxidx)
      · obtain ⟨e', he', h'⟩ := hxs x hx
        exact hpost e' he' (h'.symm.trans hxidx)
    have hne : r.seqNum ≠ d.seqNum := by
      intro heq
      refine hnot ?_
      simp [known, hd, hr, heq]
    omega

theorem unhurriedTo_of_appliedOnce (hidx : (es.map (·.index)).Nodup)
    (hall : ∀ ranges : List (List (LogEntry ι)), ranges.flatten = es → AppliedOnce machine a ranges)
    (k : Nat) : UnhurriedTo machine k a es := by
  induction k with
  | zero => exact fun _ _ _ _ _ hlen => absurd hlen (Nat.not_lt_zero _)
  | succ k ih =>
    intro pre mid e post hes hlen hquiet
    cases hop : e.configOp with
    | some op => rw [known_of_config hop, known_of_config hop]
    | none =>
      -- Everything before `pre` comes entry by entry, the rest in one range.
      have hflat : (pre.map ([·]) ++ [mid ++ e :: post]).flatten = es := by
        rw [List.flatten_append, ← List.flatMap_def, List.flatMap_singleton', hes]
        simp
      have hseq := (hall _ hflat).sequence
      rw [hflat, applyRanges_append] at hseq
      have hpre : (applyRanges machine a (pre.map ([·]))).applied =
          a.applied.takeAll machine pre := applied_applySingly machine a pre
      have hlag := Lag.feed_quiet hpre ih hquiet hes (Nat.le_of_lt_succ hlen)
      have hnodup : ((pre ++ mid ++ e :: post).map (·.index)).Nodup := hes ▸ hidx
      obtain ⟨-, hpost⟩ := index_ne_of_nodup hnodup
      obtain ⟨xs, hgiven, hxs⟩ := a.applied.exists_given_split machine (pre ++ mid) post hop
      have hsingly : times e.index (applySingly machine a es).sm =
          times e.index (a.applied.takeAll machine (pre ++ mid)).given +
            if (known (tableAfter machine a (pre ++ mid)) e).isSome then 0 else 1 := by
        rw [applySingly_sm, hes, hgiven, applied_table, times_append, times_append, times_eq_zero hxs hpost]
        split_ifs <;> simp [times, e.queued_index]
      have hranges : times e.index (applyRanges machine (applyRanges machine a (pre.map ([·])))
          [mid ++ e :: post]).sm =
          times e.index (a.applied.takeAll machine (pre ++ mid)).given +
            if (known (tableAfter machine a pre) e).isSome then 0 else 1 := by
        have hrange : applyRanges machine (applyRanges machine a (pre.map ([·])))
            [mid ++ e :: post] = flushed machine ((e :: post).foldl (applyEntry machine)
              (mid.foldl (applyEntry machine) (applyRanges machine a (pre.map ([·])), []))) := by
          rw [← List.foldl_append]
          rfl
        rw [hrange, times_feed machine hop hpost, hlag.table, ← hlag.reached]
        rfl
      rw [hseq, hsingly] at hranges
      revert hranges
      cases (known (tableAfter machine a pre) e).isSome <;>
        cases (known (tableAfter machine a (pre ++ mid)) e).isSome <;> simp

theorem ascending_of_appliedOnce (h : AppliedOnce machine a (es.map ([·]))) :
    Ascending machine a es := by
  intro pre e post d r hes hd hr
  have hflat : (es.map ([·])).flatten = es := by
    rw [← List.flatMap_def, List.flatMap_singleton']
  by_cases heq : r.seqNum = d.seqNum
  · exact heq.le
  -- The table does not have the result, so the state machine is given the entry.
  have hnone : known (tableAfter machine a pre) e = none := by
    simp [known, hd, hr, heq]
  obtain ⟨ys, hgiven', -⟩ := a.applied.exists_given_takeAll machine pre
  obtain ⟨xs, hgiven, -⟩ := a.applied.exists_given_split machine pre post (configOp_of_dedup hd)
  refine (h.once pre e post d r (hflat.trans hes) hd ⟨e.queued.entry, ?_, e.queued_index⟩ hr).le
  have hsm : (applyRanges machine a (es.map ([·]))).sm = (a.applied.takeAll machine es).given :=
    applySingly_sm machine a es
  rw [hsm, hes, hgiven, hgiven', applied_table, List.append_assoc, List.append_assoc, hnone]
  simp [applied]

/-- **The ranges do not matter** exactly when the log is unhurried and ascending. -/
theorem appliedOnce_iff (machine : List (LogEntry ι) → LogEntry ι → ApplyOutcome) (a : ApplyLoop ι)
    (es : List (LogEntry ι)) (hidx : (es.map (·.index)).Nodup) :
    (∀ ranges : List (List (LogEntry ι)), ranges.flatten = es → AppliedOnce machine a ranges) ↔
      Unhurried machine a es ∧ Ascending machine a es := by
  constructor
  · intro hall
    have hflat : (es.map ([·])).flatten = es := by
      rw [← List.flatMap_def, List.flatMap_singleton']
    refine ⟨fun pre mid e post hes hquiet => ?_, ascending_of_appliedOnce (hall _ hflat)⟩
    exact unhurriedTo_of_appliedOnce hidx hall _ pre mid e post hes (Nat.lt_succ_self _) hquiet
  · rintro ⟨hcond, hasc⟩ ranges hflat
    exact appliedOnce_of_unhurried hidx hcond hasc hflat

/-- A client's first two commands are applied once, in one range or in two. -/
theorem appliedOnce_two_numbers :
    AppliedOnce (fun _ _ => ⟨[], false⟩) idle [[ofClient 7 1 1, ofClient 7 2 2]] ∧
      AppliedOnce (fun _ _ => ⟨[], false⟩) idle [[ofClient 7 1 1], [ofClient 7 2 2]] := by
  have hall := (appliedOnce_iff (fun _ _ => ⟨[], false⟩) idle [ofClient 7 1 1, ofClient 7 2 2]
    (by decide)).mpr ?_
  · exact ⟨hall _ rfl, hall _ rfl⟩
  refine ⟨fun pre mid e post hes _ => ?_, fun pre e post d r hes hd hr => ?_⟩
  · cases mid with
    | nil => simp
    | cons m mid =>
      have hlen := congrArg List.length hes
      simp only [List.length_append, List.length_cons, List.length_nil] at hlen
      obtain rfl : pre = [] := List.eq_nil_of_length_eq_zero (by omega)
      obtain rfl : mid = [] := List.eq_nil_of_length_eq_zero (by omega)
      obtain rfl : post = [] := List.eq_nil_of_length_eq_zero (by omega)
      obtain ⟨rfl, rfl⟩ : ofClient 7 1 1 = m ∧ ofClient 7 2 2 = e := by simpa using hes
      decide +kernel
  · cases pre with
    | nil => cases hr
    | cons m pre =>
      have hlen := congrArg List.length hes
      simp only [List.length_append, List.length_cons, List.length_nil] at hlen
      obtain rfl : pre = [] := List.eq_nil_of_length_eq_zero (by omega)
      obtain rfl : post = [] := List.eq_nil_of_length_eq_zero (by omega)
      obtain ⟨rfl, rfl⟩ : ofClient 7 1 1 = m ∧ ofClient 7 2 2 = e := by simpa using hes
      have hd' : (ofClient 7 2 2).command.dedup = some ⟨[7], 2, [1]⟩ := by decide +kernel
      have hr' : (tableAfter (fun _ _ => ⟨[], false⟩) idle [ofClient 7 1 1]).get [7] =
          some ⟨1, []⟩ := by decide +kernel
      cases hd.symm.trans hd'
      cases hr.symm.trans hr'
      decide

/-- A command and its retry in one range are both applied, and so is a number below the
record. -/
theorem not_appliedOnce_retry :
    ¬ AppliedOnce (fun _ _ => ⟨[], false⟩) idle [[ofClient 7 1 1, ofClient 7 2 1]] ∧
      ¬ AppliedOnce (fun _ _ => ⟨[], false⟩) idle [[ofClient 7 1 2], [ofClient 7 2 1]] := by
  constructor
  · intro h
    exact absurd h.sequence (by decide +kernel)
  · intro h
    have hlow := h.once [ofClient 7 1 2] (ofClient 7 2 1) [] ⟨[7], 1, [1]⟩ ⟨2, []⟩ rfl
      (by decide +kernel) (by decide +kernel) (by decide +kernel)
    exact absurd hlow (by decide)

end Once

end ApplyLoop

end Raft
