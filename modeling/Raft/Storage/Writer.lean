import Raft.Storage

/-!
# The storage writer against its queue

The writer goroutine takes a run of operations off the queue, makes the storage call for
it without holding the lock, and records the completions.  In between, operations may be
queued, completions collected and the writer closed.  Here these are separate events in
any order, so that a run of events stands for one way in which the goroutine happened to
be scheduled, and a failing storage call may leave anything behind.
-/

namespace Raft

variable {ι : Type}

namespace StorageWriter

def reports (err : Bool) (ops : List (WriteOp ι)) : List WriteDone :=
  ops.map fun op => ⟨op.seq, op.durableAfter, err⟩

/-- Makes the storage call for a run.  With `left = some s` the call fails and leaves `s`
behind. -/
def finish (w : StorageWriter ι) (ops : List (WriteOp ι)) (left : Option (Store ι)) :
    StorageWriter ι :=
  if w.failed then { w with done := w.done ++ reports true ops }
  else
    match left with
    | some s => { w with storage := s, failed := true, done := w.done ++ reports true ops }
    | none =>
      match run w.commits w.storage ops with
      | some s => { w with storage := s, done := w.done ++ reports false ops }
      -- storage refused
      | none => { w with failed := true, done := w.done ++ reports true ops }

theorem take_fst_ne_nil {w : StorageWriter ι} (h : w.queue ≠ []) : w.take.1 ≠ [] := by
  have hpos := takeCount_pos h
  intro hnil
  rcases List.take_eq_nil_iff.mp hnil with hzero | hnone
  · omega
  · exact h hnone

theorem execute_eq_finish (w : StorageWriter ι) (fault : Option Nat) (h : w.queue ≠ []) :
    w.execute fault = w.take.2.finish w.take.1
      (fault.map fun k => (execAll w.commits w.storage (w.take.1.take k)).getD w.storage) := by
  have hne : w.take.1.isEmpty = false := List.isEmpty_eq_false_iff.mpr (take_fst_ne_nil h)
  simp only [take] at hne
  cases hf : w.failed with
  | true => cases fault <;> simp [execute, finish, take, reports, hf]
  | false =>
    cases fault with
    | some k => simp [execute, finish, take, reports, hf, hne]
    | none =>
      cases hrun : run w.commits w.storage (w.queue.take w.takeCount) <;>
        simp [execute, finish, take, reports, hf, hne, hrun]

end StorageWriter

open StorageWriter (reports execAll)

/-- The writer with its goroutine, and what has been accepted, collected and called for. -/
structure Writing (ι : Type) where
  w : StorageWriter ι
  executing : List (WriteOp ι)
  exited : Bool
  accepted : List (WriteOp ι)
  collected : List WriteDone
  calls : List (List (WriteOp ι))
  /-- A storage call has failed that storage would have carried out. -/
  faulted : Bool

/-- What can happen to the writer; `take` and `finish` are the halves of a round. -/
inductive WriterEvent (ι : Type)
  | enqueue (op : WriteOp ι)
  | take
  | finish (left : Option (Store ι))
  | collect
  | close

namespace Writing

def start (s : Store ι) (batch commits : Bool) (maxBatchEntries : Nat) : Writing ι :=
  { w := { StorageWriter.init s batch commits with maxBatchEntries := maxBatchEntries }
    executing := []
    exited := false
    accepted := []
    collected := []
    calls := []
    faulted := false }

def step (r : Writing ι) : WriterEvent ι → Writing ι
  | .enqueue op =>
    { r with
      w := r.w.enqueue op
      accepted := if r.w.closed then r.accepted else r.accepted ++ [op] }
  | .take =>
    if r.exited ∨ r.executing ≠ [] then r
    -- an empty queue ends the goroutine only once the writer is closed
    else if r.w.queue = [] then { r with exited := r.w.closed }
    else { r with w := r.w.take.2, executing := r.w.take.1 }
  | .finish left =>
    if r.executing = [] then r
    else { r with
      w := r.w.finish r.executing left
      executing := []
      calls := if r.w.failed then r.calls else r.calls ++ [r.executing]
      faulted := r.faulted || !r.w.failed && left.isSome }
  | .collect => { r with w := r.w.takeDone.2, collected := r.collected ++ r.w.takeDone.1 }
  | .close => { r with w := { r.w with closed := true } }

def run (r : Writing ι) (evs : List (WriterEvent ι)) : Writing ι := evs.foldl step r

theorem run_append (r : Writing ι) (evs evs' : List (WriterEvent ι)) :
    r.run (evs ++ evs') = (r.run evs).run evs' := List.foldl_append ..

def completions (r : Writing ι) : List WriteDone := r.collected ++ r.w.done

/-- The account of a writer: `ok` are the operations reported as written, `bad` those reported as
failed. -/
structure Accounts (s : Store ι) (commits : Bool) (r : Writing ι) (ok bad : List (WriteOp ι)) :
    Prop where
  /-- Each accepted operation is reported, being executed or queued, in this order. -/
  accepted : r.accepted = ok ++ bad ++ r.executing ++ r.w.queue
  completions : r.completions = reports false ok ++ reports true bad
  /-- What is reported as written has been executed, one operation after the other. -/
  executed : ∃ s', execAll commits s ok = some s' ∧ (r.w.failed = false → r.w.storage = s')
  healthy : r.w.failed = false → bad = [] ∧ r.calls.flatten = ok
  /-- The last storage call is the one that failed, by a fault or because storage refused it. -/
  broken : r.w.failed = true → ∃ good last, r.calls = good ++ [last] ∧ good.flatten = ok ∧
    (last <+: bad ∧ last ≠ []) ∧ (r.faulted = true ∨ execAll commits s (ok ++ last) = none)
  exited : r.exited = true → r.w.closed = true ∧ r.executing = [] ∧ r.w.queue = []
  /-- The run being executed is one the writer takes. -/
  shape : ∀ s, StorageWriter.run commits s r.executing = execAll commits s r.executing
  commits_eq : r.w.commits = commits

theorem start_accounts (s : Store ι) (batch commits : Bool) (limit : Nat) :
    Accounts s commits (start s batch commits limit) [] [] :=
  ⟨rfl, rfl, ⟨s, rfl, fun _ => rfl⟩, fun _ => ⟨rfl, rfl⟩, fun h => (by cases h), fun h => (by cases h),
    fun _ => rfl, rfl⟩

theorem reports_append (err : Bool) (ops ops' : List (WriteOp ι)) :
    reports err (ops ++ ops') = reports err ops ++ reports err ops' := List.map_append

section Steps

variable {s : Store ι} {commits : Bool} {r : Writing ι} {ok bad : List (WriteOp ι)}

namespace Accounts

section

variable (h : Accounts s commits r ok bad)

include h

theorem enqueue (op : WriteOp ι) : Accounts s commits (r.step (.enqueue op)) ok bad := by
  simp only [step, StorageWriter.enqueue]
  cases hc : r.w.closed with
  | true => exact { h with }
  | false =>
    refine { h with accepted := ?_, exited := ?_ }
    · simp [h.accepted]
    · intro hex
      exact absurd (h.exited hex).1 (by simp [hc])

theorem take : Accounts s commits (r.step .take) ok bad := by
  simp only [step]
  split_ifs with hbusy hempty
  · exact h
  · obtain ⟨-, hidle⟩ := not_or.mp hbusy
    exact { h with exited := fun hclosed => ⟨hclosed, not_not.mp hidle, hempty⟩ }
  · obtain ⟨hrunning, hidle⟩ := not_or.mp hbusy
    refine { h with
      accepted := ?_
      exited := fun hex => absurd hex hrunning
      shape := fun s => r.w.run_take commits s }
    -- what is taken was at the front of the queue
    rw [h.accepted, not_not.mp hidle, List.append_nil, List.append_assoc _ r.w.take.1]
    exact congrArg _ (List.take_append_drop r.w.takeCount r.w.queue).symm

theorem finish_failed (hne : r.executing ≠ []) {left : Store ι} {w : StorageWriter ι} (fault : Bool)
    (hw : w = { r.w with
      storage := left, failed := true, done := r.w.done ++ reports true r.executing })
    (hwhy : r.w.failed = true ∨ fault = true ∨
      StorageWriter.run r.w.commits r.w.storage r.executing = none) :
    Accounts s commits { r with
      w := w
      executing := []
      calls := if r.w.failed then r.calls else r.calls ++ [r.executing]
      faulted := r.faulted || !r.w.failed && fault } ok (bad ++ r.executing) := by
  subst hw
  obtain ⟨s', hexec, hstore⟩ := h.executed
  refine ⟨?_, ?_, ⟨s', hexec, fun hno => (by cases hno)⟩, fun hno => (by cases hno), fun _ => ?_, ?_,
    fun _ => rfl, h.commits_eq⟩
  · simp [h.accepted]
  · have hdone : r.collected ++ r.w.done = reports false ok ++ reports true bad := h.completions
    rw [Writing.completions, ← List.append_assoc, hdone, reports_append, List.append_assoc]
  · cases hprev : r.w.failed with
    | true =>
      obtain ⟨good, last, hcalls, hgood, ⟨hlast, hlne⟩, hcause⟩ := h.broken hprev
      exact ⟨good, last, by simpa using hcalls, hgood, ⟨hlast.trans (List.prefix_append ..), hlne⟩,
        by simpa using hcause⟩
    | false =>
      -- this was the first call to fail
      obtain ⟨rfl, hflat⟩ := h.healthy hprev
      refine ⟨r.calls, r.executing, by simp, hflat, by simp [hne], ?_⟩
      rcases hwhy with hno | rfl | hrefused
      · simp [hprev] at hno
      · simp
      · rw [hstore hprev, h.commits_eq, h.shape] at hrefused
        simp [StorageWriter.execAll_append, hexec, hrefused]
  · intro hex
    obtain ⟨hclosed, -, hqueue⟩ := h.exited hex
    exact ⟨hclosed, rfl, hqueue⟩

theorem finish (left : Option (Store ι)) :
    ∃ ok' bad', Accounts s commits (r.step (.finish left)) ok' bad' := by
  simp only [step]
  split_ifs with hidle hfailed
  · exact ⟨ok, bad, h⟩
  · refine ⟨ok, bad ++ r.executing, ?_⟩
    have hw : r.w.finish r.executing left = { r.w with
        failed := true, done := r.w.done ++ reports true r.executing } := by
      simp [StorageWriter.finish, hfailed]
    simpa [hfailed] using h.finish_failed hidle left.isSome hw (.inl hfailed)
  · have hok : r.w.failed = false := Bool.eq_false_of_not_eq_true hfailed
    cases left with
    | some s' =>
      refine ⟨ok, bad ++ r.executing, ?_⟩
      have hw : r.w.finish r.executing (some s') = { r.w with
          storage := s', failed := true, done := r.w.done ++ reports true r.executing } := by
        simp [StorageWriter.finish, hok]
      simpa [hok] using h.finish_failed hidle true hw (.inr (.inl rfl))
    | none =>
      cases hrun : StorageWriter.run r.w.commits r.w.storage r.executing with
      | none =>
        refine ⟨ok, bad ++ r.executing, ?_⟩
        have hw : r.w.finish r.executing none = { r.w with
            failed := true, done := r.w.done ++ reports true r.executing } := by
          simp [StorageWriter.finish, hok, hrun]
        simpa [hok] using h.finish_failed hidle false hw (.inr (.inr hrun))
      | some s'' =>
        -- the call went through: everything in the run has been executed
        obtain ⟨rfl, hflat⟩ := h.healthy hok
        obtain ⟨s', hexec, hstore⟩ := h.executed
        have hfin : r.w.finish r.executing none =
            { r.w with storage := s'', done := r.w.done ++ reports false r.executing } := by
          simp [StorageWriter.finish, hok, hrun]
        have hone : execAll commits s' r.executing = some s'' := by
          rw [← h.shape, ← hstore hok, ← h.commits_eq]
          exact hrun
        refine ⟨ok ++ r.executing, [], ?_⟩
        rw [hfin]
        refine ⟨?_, ?_, ⟨s'', ?_, fun _ => rfl⟩, fun _ => ⟨rfl, ?_⟩, fun hno => absurd hno hfailed,
          fun hex => ?_, fun _ => rfl, h.commits_eq⟩
        · simp [h.accepted]
        · have hdone : r.collected ++ r.w.done = reports false ok ++ reports true [] := h.completions
          simp only [Writing.completions]
          rw [← List.append_assoc, hdone, reports_append]
          simp [reports]
        · rw [StorageWriter.execAll_append, hexec]
          exact hone
        · simp [hflat]
        · exact absurd (h.exited hex).2.1 hidle

theorem collect : Accounts s commits (r.step .collect) ok bad := by
  refine { h with completions := ?_ }
  rw [← h.completions]
  simp [step, Writing.completions, StorageWriter.takeDone]

theorem close : Accounts s commits (r.step .close) ok bad :=
  { h with exited := fun hex => ⟨rfl, (h.exited hex).2⟩ }

end

end Accounts

theorem step_accounts (h : Accounts s commits r ok bad) (ev : WriterEvent ι) :
    ∃ ok' bad', Accounts s commits (r.step ev) ok' bad' := by
  cases ev with
  | enqueue op => exact ⟨ok, bad, h.enqueue op⟩
  | take => exact ⟨ok, bad, h.take⟩
  | finish left => exact h.finish left
  | collect => exact ⟨ok, bad, h.collect⟩
  | close => exact ⟨ok, bad, h.close⟩

theorem run_accounts (h : Accounts s commits r ok bad) (evs : List (WriterEvent ι)) :
    ∃ ok' bad', Accounts s commits (r.run evs) ok' bad' := by
  induction evs generalizing r ok bad with
  | nil => exact ⟨ok, bad, h⟩
  | cons ev evs ih =>
    obtain ⟨ok', bad', h'⟩ := step_accounts h ev
    exact ih h'

end Steps

/-! ## After a failure -/

variable {r : Writing ι}

theorem step_of_failed (hf : r.w.failed = true) (ev : WriterEvent ι) :
    (r.step ev).w.failed = true ∧ (r.step ev).calls = r.calls ∧
      (r.step ev).w.storage = r.w.storage := by
  cases ev with
  | enqueue op =>
    have hw : (r.w.enqueue op).failed = r.w.failed ∧ (r.w.enqueue op).storage = r.w.storage := by
      unfold StorageWriter.enqueue
      split_ifs <;> exact ⟨rfl, rfl⟩
    exact ⟨hw.1.trans hf, rfl, hw.2⟩
  | take =>
    simp only [step]
    split_ifs <;> exact ⟨hf, rfl, rfl⟩
  | finish left =>
    by_cases hidle : r.executing = []
    · simp only [step, if_pos hidle]
      exact ⟨hf, trivial, trivial⟩
    · simp only [step, if_neg hidle, StorageWriter.finish, hf, if_true]
      exact ⟨trivial, trivial, trivial⟩
  | collect | close => exact ⟨hf, rfl, rfl⟩

theorem run_of_failed (hf : r.w.failed = true) (evs : List (WriterEvent ι)) :
    (r.run evs).w.failed = true ∧ (r.run evs).calls = r.calls ∧
      (r.run evs).w.storage = r.w.storage := by
  induction evs generalizing r with
  | nil => exact ⟨hf, rfl, rfl⟩
  | cons ev evs ih =>
    obtain ⟨hf', hcalls, hstore⟩ := step_of_failed hf ev
    obtain ⟨hf'', hcalls', hstore'⟩ := ih hf'
    exact ⟨hf'', hcalls'.trans hcalls, hstore'.trans hstore⟩

theorem faulted_run {evs : List (WriterEvent ι)} (hf : r.faulted = false)
    (h : ∀ left, WriterEvent.finish (some left) ∉ evs) : (r.run evs).faulted = false := by
  induction evs generalizing r with
  | nil => exact hf
  | cons ev evs ih =>
    refine ih ?_ fun left hmem => h left (List.mem_cons_of_mem _ hmem)
    cases ev with
    | finish left =>
      cases left with
      | some s => exact absurd List.mem_cons_self (h s)
      | none =>
        simp only [step]
        split_ifs <;> simp [hf]
    | take =>
      simp only [step]
      split_ifs <;> exact hf
    | _ => exact hf

theorem Accounts.not_failed {s : Store ι} {commits : Bool} {ok bad : List (WriteOp ι)}
    (h : Accounts s commits r ok bad) (hf : r.faulted = false)
    (hsome : execAll commits s r.accepted ≠ none) : r.w.failed = false := by
  by_contra hfailed
  obtain ⟨good, last, -, -, ⟨⟨rest, rfl⟩, -⟩, hcause⟩ := h.broken (by simpa using hfailed)
  rw [hf] at hcause
  have hsplit : r.accepted = (ok ++ last) ++ (rest ++ r.executing ++ r.w.queue) := by
    simp [h.accepted]
  exact hsome (by rw [hsplit, StorageWriter.execAll_append, hcause.resolve_left Bool.false_ne_true,
    Option.bind_none])

/-! ## Draining -/

def rounds (lefts : List (Option (Store ι))) : List (WriterEvent ι) :=
  lefts.flatMap fun left => [.finish left, .take]

theorem accepted_run_rounds (r : Writing ι) (lefts : List (Option (Store ι))) :
    (r.run (rounds lefts)).accepted = r.accepted := by
  induction lefts generalizing r with
  | nil => rfl
  | cons left lefts ih =>
    have hround : ((r.step (.finish left)).step .take).accepted = r.accepted := by
      by_cases hidle : r.executing = []
      · simp only [step, if_pos hidle]
        split_ifs <;> rfl
      · simp only [step, if_neg hidle]
        split_ifs <;> rfl
    exact (ih _).trans hround

def Idle (r : Writing ι) : Prop := r.executing = [] ∧ r.w.queue = []

@[simp] theorem queue_finish (w : StorageWriter ι) (ops : List (WriteOp ι)) (left : Option (Store ι)) :
    (w.finish ops left).queue = w.queue := by
  unfold StorageWriter.finish
  split_ifs
  · rfl
  · cases left with
    | some s => rfl
    | none => cases StorageWriter.run w.commits w.storage ops <;> rfl

theorem round_shortens (r : Writing ι) (hex : r.exited = true → r.Idle) (left : Option (Store ι)) :
    (((r.step (.finish left)).step .take).exited = true →
        ((r.step (.finish left)).step .take).Idle) ∧
      (r.w.queue = [] → ((r.step (.finish left)).step .take).Idle) ∧
      ((r.step (.finish left)).step .take).w.queue.length ≤ r.w.queue.length - 1 := by
  have hfin : (r.step (.finish left)).executing = [] ∧ (r.step (.finish left)).w.queue = r.w.queue ∧
      (r.step (.finish left)).exited = r.exited := by
    by_cases hidle : r.executing = []
    · simp only [step, if_pos hidle]
      exact ⟨hidle, trivial, trivial⟩
    · simp only [step, if_neg hidle]
      exact ⟨trivial, queue_finish .., trivial⟩
  generalize r.step (.finish left) = r' at hfin ⊢
  obtain ⟨hidle, hqueue, hexited⟩ := hfin
  rw [← hqueue]
  simp only [step]
  split_ifs with hbusy hempty
  · -- the goroutine has returned
    have hgone : r'.exited = true := hbusy.resolve_right fun h => h hidle
    obtain ⟨-, hq⟩ := hex (hexited ▸ hgone)
    rw [← hqueue] at hq
    exact ⟨fun _ => ⟨hidle, hq⟩, fun hq => ⟨hidle, hq⟩, by simp [hq]⟩
  · exact ⟨fun _ => ⟨hidle, hempty⟩, fun hq => ⟨hidle, hq⟩, by simp [hempty]⟩
  · refine ⟨fun hgone => ?_, fun hq => absurd hq hempty, ?_⟩
    · exact absurd (.inl hgone) hbusy
    · have hpos := StorageWriter.takeCount_pos hempty
      simp only [StorageWriter.take, List.length_drop]
      omega

theorem Idle.round (h : r.Idle) (left : Option (Store ι)) :
    ((r.step (.finish left)).step .take).Idle := by
  have hfin : r.step (.finish left) = r := by simp only [step, if_pos h.1]
  rw [hfin]
  simp only [step]
  split_ifs with hbusy hempty
  · exact h
  · exact h
  · exact absurd h.2 hempty

theorem drains (r : Writing ι) (hex : r.exited = true → r.Idle) (lefts : List (Option (Store ι)))
    (hlong : r.w.queue.length < lefts.length) : (r.run (rounds lefts)).Idle := by
  have hkeep : ∀ (lefts : List (Option (Store ι))) (r : Writing ι), r.Idle →
      (r.run (rounds lefts)).Idle := by
    intro lefts
    induction lefts with
    | nil => exact fun r h => h
    | cons left lefts ih => exact fun r h => ih _ (h.round left)
  induction lefts generalizing r with
  | nil => exact absurd hlong (Nat.not_lt_zero _)
  | cons left lefts ih =>
    obtain ⟨hex', hidle, hshort⟩ := round_shortens r hex left
    by_cases hempty : r.w.queue = []
    · exact hkeep lefts _ (hidle hempty)
    · have hpos : 0 < r.w.queue.length := List.length_pos_iff.mpr hempty
      rw [List.length_cons] at hlong
      exact ih _ hex' (by omega)

end Writing

open Writing in
/-- **The writer does what its queue says**, however it is scheduled: every accepted operation is
reported once, in order, or is on its way; those reported as written have been executed; the first
storage call to fail is the last one made; and none fails but by a fault or a refusal. -/
theorem writer_refines_queue (s : Store ι) (batch commits : Bool) (maxBatchEntries : Nat)
    (evs : List (WriterEvent ι)) :
    (∃ ok bad, Accounts s commits ((start s batch commits maxBatchEntries).run evs) ok bad) ∧
    (∀ more, ((start s batch commits maxBatchEntries).run evs).w.failed = true →
      ((start s batch commits maxBatchEntries).run (evs ++ more)).calls =
        ((start s batch commits maxBatchEntries).run evs).calls ∧
      ((start s batch commits maxBatchEntries).run (evs ++ more)).w.storage =
        ((start s batch commits maxBatchEntries).run evs).w.storage) ∧
    (∀ lefts : List (Option (Store ι)),
      ((start s batch commits maxBatchEntries).run evs).w.queue.length < lefts.length →
      ∃ ok bad, ((start s batch commits maxBatchEntries).run evs).accepted = ok ++ bad ∧
        ((start s batch commits maxBatchEntries).run (evs ++ rounds lefts)).completions =
          reports false ok ++ reports true bad) ∧
    ((∀ left, WriterEvent.finish (some left) ∉ evs) →
      execAll commits s ((start s batch commits maxBatchEntries).run evs).accepted ≠ none →
      ((start s batch commits maxBatchEntries).run evs).w.failed = false) := by
  obtain ⟨ok, bad, hacc⟩ := run_accounts (start_accounts s batch commits maxBatchEntries) evs
  refine ⟨⟨ok, bad, hacc⟩, fun more hfailed => ?_, fun lefts hlong => ?_,
    fun hevs => hacc.not_failed (faulted_run rfl hevs)⟩
  · rw [run_append]
    exact (run_of_failed hfailed more).2
  · rw [run_append]
    obtain ⟨ok', bad', hacc'⟩ := run_accounts hacc (rounds lefts)
    obtain ⟨hidle, hqueue⟩ := drains _ (fun hex => (hacc.exited hex).2) lefts hlong
    refine ⟨ok', bad', ?_, hacc'.completions⟩
    have hsame := hacc'.accepted
    rw [hidle, hqueue, List.append_nil, List.append_nil, accepted_run_rounds] at hsame
    exact hsame

/-- The second storage call fails, and the writer is closed with a truncation still queued. -/
def closesAfterFault : List (WriterEvent Nat) :=
  [.enqueue ⟨1, .hardState ⟨1, none⟩, 0⟩, .take, .enqueue ⟨2, .append [⟨1, 1, .noop⟩], 1⟩,
    .enqueue ⟨3, .append [⟨2, 1, .noop⟩], 2⟩, .finish none, .take, .enqueue ⟨4, .truncateSuffix 2, 1⟩,
    .close, .finish (some .empty), .collect]

/-- The truncation is reported as failed as well, without a further storage call. -/
theorem writer_refines_queue_of_fault :
    ((Writing.start .empty true false 8).run closesAfterFault).calls.length = 2 ∧
    ((Writing.start .empty true false 8).run (closesAfterFault ++ [.take, .finish none])).calls =
      ((Writing.start .empty true false 8).run closesAfterFault).calls ∧
    ∃ ok bad, ((Writing.start .empty true false 8).run closesAfterFault).accepted = ok ++ bad ∧
      ((Writing.start .empty true false 8).run
        (closesAfterFault ++ Writing.rounds [none, none])).completions =
          reports false ok ++ reports true bad :=
  ⟨by decide +kernel,
    ((writer_refines_queue .empty true false 8 closesAfterFault).2.1 [.take, .finish none]
      (by decide +kernel)).1,
    (writer_refines_queue .empty true false 8 closesAfterFault).2.2.1 [none, none] (by decide +kernel)⟩

end Raft
