import Raft.ClientTable

/-!
# Stable storage and the storage writer

The event loop never waits on a disk: every mutating storage call is queued and
a writer executes the queue in order.  `Store` is the reference implementation
of the storage contract, `StorageWriter` the queue in front of it together with
the completions the event loop has not collected yet.

## Main results

* `run_take`: a run is executed as its operations one after the other.
* `execute_ok`, `execute_executes`: what a round of the writer does without a fault, and
  in general.
-/

namespace Raft

variable {ι : Type}

/-- The membership in effect at a point in the log; every list includes the
node that holds it. -/
structure MembershipState (ι : Type) where
  joint : Bool
  members : List (PeerConfig ι)
  old : List (PeerConfig ι)
  new : List (PeerConfig ι)
  commitQuorum : Nat
  deriving DecidableEq, Repr

/-- A snapshot: its position, what it records, and the entries whose effect it contains. -/
structure Snapshot (ι : Type) where
  position : SnapshotMeta
  table : List ClientRecord
  membership : Option (MembershipState ι)
  clientTableCap : Option Nat
  data : List (LogEntry ι)
  deriving DecidableEq, Repr

/-- What a node keeps across restarts. -/
structure Store (ι : Type) where
  hs : HardState ι
  entries : List (LogEntry ι)
  snap : Option (Snapshot ι)
  commitIndex : Nat
  deriving DecidableEq, Repr

namespace Store

def empty : Store ι := ⟨⟨0, none⟩, [], none, 0⟩

variable (s : Store ι)

def saveHardState (hs : HardState ι) : Store ι := { s with hs := hs }

/-- The recorded commit index only moves forward. -/
def saveCommitIndex (i : Nat) : Store ι :=
  { s with commitIndex := max s.commitIndex i }

def saveSnapshot (snap : Snapshot ι) : Store ι := { s with snap := some snap }

def appendLogEntries (es : List (LogEntry ι)) : Store ι :=
  { s with entries := s.entries ++ es }

def saveState (hs : HardState ι) (es : List (LogEntry ι)) : Store ι :=
  { s with hs := hs, entries := s.entries ++ es }

def firstIndex : Nat :=
  match s.entries.head? with
  | none => 0
  | some e => e.index

def lastIndex : Nat :=
  match s.entries.getLast? with
  | none => 0
  | some e => e.index

/-- The entries in `[lo, hi)`, or `none` when the range is not within the log. -/
def getLogEntries (lo hi : Nat) : Option (List (LogEntry ι)) :=
  if hi ≤ lo then some []
  else if s.entries = [] then none
  else if lo < s.firstIndex ∨ s.lastIndex + 1 < hi then none
  else some ((s.entries.drop (lo - s.firstIndex)).take (hi - lo))

def truncateSuffix (i : Nat) : Option (Store ι) :=
  if s.entries = [] then some s
  else if i < s.firstIndex then none
  else if i = s.firstIndex then some { s with entries := [] }
  else if s.lastIndex < i then some s
  else some { s with entries := s.entries.take (i - s.firstIndex) }

def truncatePrefix (i : Nat) : Store ι :=
  if s.entries = [] then s
  else if i ≤ s.firstIndex then s
  else if s.lastIndex < i then { s with entries := [] }
  else { s with entries := s.entries.drop (i - s.firstIndex) }

end Store

/-- What a queued storage operation does. -/
inductive WriteKind (ι : Type)
  | append (entries : List (LogEntry ι))
  | truncateSuffix (index : Nat)
  | truncatePrefix (index : Nat)
  | hardState (hs : HardState ι)
  | commitIndex (index : Nat)
  deriving DecidableEq, Repr

/-- One unit of durable work, with the highest log index on stable storage once it is done. -/
structure WriteOp (ι : Type) where
  seq : Nat
  kind : WriteKind ι
  durableAfter : Nat
  deriving DecidableEq, Repr

structure WriteDone where
  seq : Nat
  durableAfter : Nat
  err : Bool
  deriving DecidableEq, Repr

namespace WriteKind

def isAppend : WriteKind ι → Bool
  | append _ => true
  | _ => false

def isHardState : WriteKind ι → Bool
  | hardState _ => true
  | _ => false

def entries : WriteKind ι → List (LogEntry ι)
  | append es => es
  | _ => []

end WriteKind

/-- The effect of one operation; `none` is a refusal.  A store may ignore commit indices. -/
def Store.exec (commits : Bool) (s : Store ι) : WriteKind ι → Option (Store ι)
  | .append es => some (s.appendLogEntries es)
  | .truncateSuffix i => s.truncateSuffix i
  | .truncatePrefix i => some (s.truncatePrefix i)
  | .hardState hs => some (s.saveHardState hs)
  | .commitIndex i => some (if commits then s.saveCommitIndex i else s)

/-- The writer.  `batch` and `commits` say which optional interfaces the store implements. -/
structure StorageWriter (ι : Type) where
  storage : Store ι
  batch : Bool
  commits : Bool
  maxBatchEntries : Nat
  queue : List (WriteOp ι)
  done : List WriteDone
  failed : Bool
  closed : Bool
  deriving DecidableEq, Repr

namespace StorageWriter

def init (s : Store ι) (batch commits : Bool) : StorageWriter ι :=
  { storage := s, batch := batch, commits := commits, maxBatchEntries := 4096, queue := [],
    done := [], failed := false, closed := false }

variable (w : StorageWriter ι)

/-- Hands over one operation; a closed writer drops it. -/
def enqueue (op : WriteOp ι) : StorageWriter ι :=
  if w.closed then w else { w with queue := w.queue ++ [op] }

/-- How many appends at the front of the queue fit into one; the first always does. -/
def appendRun (limit : Nat) : Bool → Nat → List (WriteOp ι) → Nat
  | _, _, [] => 0
  | started, entries, op :: rest =>
    if op.kind.isAppend then
      let next := entries + op.kind.entries.length
      if started ∧ limit < next then 0 else 1 + appendRun limit true next rest
    else 0

/-- How many operations the next run takes: a hard state with appends, appends, or one other. -/
def takeCount : Nat :=
  match w.queue with
  | [] => 0
  | op :: rest =>
    let first := if w.batch ∧ op.kind.isHardState ∧ rest.head?.any (·.kind.isAppend) then 1 else 0
    if first = 0 ∧ ¬ op.kind.isAppend then 1
    else first + appendRun w.maxBatchEntries false 0 (w.queue.drop first)

def take (w : StorageWriter ι) : List (WriteOp ι) × StorageWriter ι :=
  (w.queue.take w.takeCount, { w with queue := w.queue.drop w.takeCount })

variable (commits : Bool)

def run (s : Store ι) (ops : List (WriteOp ι)) : Option (Store ι) :=
  match ops with
  | [] => some s
  | [op] => s.exec commits op.kind
  | op :: rest =>
    match op.kind with
    | .hardState hs => some (s.saveState hs (rest.flatMap (·.kind.entries)))
    | _ => some (s.appendLogEntries ((op :: rest).flatMap (·.kind.entries)))

def execAll (s : Store ι) (ops : List (WriteOp ι)) : Option (Store ι) :=
  ops.foldlM (fun s op => s.exec commits op.kind) s

/-- Executes one run.  With `fault = some k` storage fails after the first `k` operations. -/
def execute (fault : Option Nat) : StorageWriter ι :=
  let (ops, w) := w.take
  let outcome := if w.failed then none else
    match fault with
    | none => run w.commits w.storage ops
    | some _ => none
  let storage := match outcome, fault with
    | some s, _ => s
    | none, some k =>
      if w.failed then w.storage else (execAll w.commits w.storage (ops.take k)).getD w.storage
    | none, none => w.storage
  { w with
    storage := storage
    failed := w.failed || (outcome.isNone && !ops.isEmpty)
    done := w.done ++ ops.map fun op => ⟨op.seq, op.durableAfter, outcome.isNone⟩ }

def takeDone : List WriteDone × StorageWriter ι :=
  (w.done, { w with done := [] })

/-! ## Runs are executed operation by operation -/

@[simp] theorem execAll_nil (s : Store ι) : execAll commits s [] = some s := rfl

theorem execAll_cons (s : Store ι) (op : WriteOp ι) (ops : List (WriteOp ι)) :
    execAll commits s (op :: ops) =
      (s.exec commits op.kind).bind fun s' => execAll commits s' ops := rfl

theorem execAll_append (s : Store ι) (ops ops' : List (WriteOp ι)) :
    execAll commits s (ops ++ ops') =
      (execAll commits s ops).bind fun s' => execAll commits s' ops' :=
  List.foldlM_append

theorem isAppend_of_mem_appendRun {limit entries : Nat} {started : Bool}
    {ops : List (WriteOp ι)} :
    ∀ op ∈ ops.take (appendRun limit started entries ops), op.kind.isAppend = true := by
  induction ops generalizing started entries with
  | nil => simp
  | cons op rest ih =>
    simp only [appendRun]
    split_ifs with happ hfull
    · simp
    · intro op' hop'
      rw [Nat.add_comm, List.take_succ_cons, List.mem_cons] at hop'
      rcases hop' with rfl | hop'
      · exact happ
      · exact ih op' hop'
    · simp

theorem execAll_appends {ops : List (WriteOp ι)} (s : Store ι)
    (h : ∀ op ∈ ops, op.kind.isAppend = true) :
    execAll commits s ops = some (s.appendLogEntries (ops.flatMap (·.kind.entries))) := by
  induction ops generalizing s with
  | nil => simp [Store.appendLogEntries]
  | cons op rest ih =>
    obtain ⟨es, hes⟩ : ∃ es, op.kind = .append es := by
      cases hk : op.kind <;> simp_all [WriteKind.isAppend]
    rw [execAll_cons, hes]
    simp only [Store.exec, Option.bind_some]
    rw [ih _ fun op' hop' => h op' (List.mem_cons_of_mem _ hop')]
    simp [Store.appendLogEntries, hes, WriteKind.entries]

theorem take_shape :
    (∃ op, w.take.1 = [op]) ∨ (∀ op ∈ w.take.1, op.kind.isAppend = true) ∨
      ∃ op hs rest, w.take.1 = op :: rest ∧ op.kind = .hardState hs ∧
        ∀ op ∈ rest, op.kind.isAppend = true := by
  unfold take takeCount
  cases hq : w.queue with
  | nil => exact .inr (.inl (by simp))
  | cons op rest =>
    simp only
    -- appends may follow a hard state; anything else goes by itself
    split_ifs with hfirst hone hone
    · simp at hone
    · obtain ⟨hs, hk⟩ : ∃ hs, op.kind = .hardState hs := by
        cases hk : op.kind <;> simp_all [WriteKind.isHardState]
      rw [Nat.add_comm, List.take_succ_cons, List.drop_succ_cons, List.drop_zero]
      exact .inr (.inr ⟨op, hs, _, rfl, hk, isAppend_of_mem_appendRun⟩)
    · exact .inl ⟨op, by simp⟩
    · refine .inr (.inl ?_)
      rw [Nat.zero_add, List.drop_zero]
      exact isAppend_of_mem_appendRun

/-- **A run is executed as its operations one after the other.** -/
theorem run_take (s : Store ι) : run commits s w.take.1 = execAll commits s w.take.1 := by
  rcases take_shape w with ⟨op, h⟩ | h | ⟨op, hs, rest, h, hk, hrest⟩
  · rw [h, execAll_cons]
    simp [run]
  · rw [execAll_appends commits s h]
    rcases hl : w.take.1 with - | ⟨op, - | ⟨op', rest⟩⟩
    · simp [run, Store.appendLogEntries]
    · cases hk : op.kind <;> simp_all [run, Store.exec, WriteKind.isAppend, WriteKind.entries]
    · cases hk : op.kind <;> simp_all [run, WriteKind.isAppend]
  · rw [h, execAll_cons, hk]
    simp only [Store.exec, Option.bind_some]
    rw [execAll_appends commits _ hrest]
    cases rest with
    | nil => simp [run, hk, Store.exec, Store.appendLogEntries]
    | cons op' rest => simp [run, hk, Store.saveState, Store.saveHardState, Store.appendLogEntries]

theorem takeCount_pos {w : StorageWriter ι} (h : w.queue ≠ []) : 0 < w.takeCount := by
  unfold takeCount
  cases hq : w.queue with
  | nil => exact absurd hq h
  | cons op rest =>
    simp only
    split_ifs with hfirst hone hone
    · simp at hone
    · omega
    · omega
    · have happ : op.kind.isAppend = true := by
        by_contra hcon
        exact hone ⟨rfl, hcon⟩
      simp only [List.drop_zero, appendRun, happ, if_true, Bool.false_eq_true, false_and,
        if_false]
      omega

/-- Either the operations are in effect and reported so, or storage refused and all are reported as
failed. -/
theorem execute_ok (hf : w.failed = false) :
    (∃ s, execAll w.commits w.storage w.take.1 = some s ∧
      w.execute none = { w with
        storage := s
        queue := w.queue.drop w.takeCount
        done := w.done ++ w.take.1.map fun op => ⟨op.seq, op.durableAfter, false⟩ }) ∨
    execAll w.commits w.storage w.take.1 = none ∧
      w.execute none = { w with
        queue := w.queue.drop w.takeCount
        failed := true
        done := w.done ++ w.take.1.map fun op => ⟨op.seq, op.durableAfter, true⟩ } := by
  have hrun := run_take w w.commits w.storage
  have hnil : execAll w.commits w.storage w.take.1 = none → w.take.1 ≠ [] := by
    intro h hnil
    simp [hnil] at h
  cases hr : execAll w.commits w.storage w.take.1 with
  | some s =>
    refine .inl ⟨s, rfl, ?_⟩
    rw [hr] at hrun
    simp only [take] at hrun
    simp [execute, take, hf, hrun]
  | none =>
    refine .inr ⟨rfl, ?_⟩
    have hne := hnil hr
    rw [hr] at hrun
    simp only [take] at hrun hne
    simp [execute, take, hf, hrun, List.isEmpty_eq_false_iff.mpr hne]

/-- It takes operations off the queue, and all are reported as written or all as failed. -/
structure Executes (w w' : StorageWriter ι) (ops rest executed : List (WriteOp ι)) : Prop where
  queue : w.queue = ops ++ rest
  left : w'.queue = rest
  exec : execAll w.commits w.storage executed = some w'.storage
  initial : executed <+: ops
  failed : w.failed = true → w'.failed = true
  outcome : (w.failed = false ∧ executed = ops ∧
      w'.done = w.done ++ ops.map fun op => ⟨op.seq, op.durableAfter, false⟩) ∨
    (w'.failed = true ∨ ops = []) ∧
      w'.done = w.done ++ ops.map fun op => ⟨op.seq, op.durableAfter, true⟩

theorem execute_executes (fault : Option Nat) :
    ∃ executed, Executes w (w.execute fault) w.take.1 (w.queue.drop w.takeCount) executed := by
  have hqueue : w.queue = w.take.1 ++ w.queue.drop w.takeCount := (List.take_append_drop ..).symm
  have hfail : ∀ ops : List (WriteOp ι), (w.failed || !ops.isEmpty) = true ∨ ops = [] := by
    rintro (- | ⟨op, ops⟩)
    · exact .inr rfl
    · exact .inl (by simp)
  -- no call is made, storage accepts or refuses the run, or a fault cuts it short
  cases hf : w.failed with
  | true =>
    refine ⟨[], hqueue, ?_, ?_, List.nil_prefix, ?_, .inr ⟨.inl ?_, ?_⟩⟩ <;>
      cases fault <;> simp [execute, take, hf]
  | false =>
    cases fault with
    | none =>
      rcases execute_ok w hf with ⟨s, hexec, heq⟩ | ⟨hexec, heq⟩ <;> rw [heq]
      · exact ⟨w.take.1, hqueue, rfl, hexec, List.prefix_refl _, by simp [hf], .inl ⟨hf, rfl, rfl⟩⟩
      · exact ⟨[], hqueue, rfl, rfl, List.nil_prefix, fun _ => rfl, .inr ⟨.inl rfl, rfl⟩⟩
    | some k =>
      have hdone : (w.execute (some k)).done =
          w.done ++ w.take.1.map fun op => ⟨op.seq, op.durableAfter, true⟩ := by
        simp [execute, take, hf]
      have hfailed : (w.execute (some k)).failed = !w.take.1.isEmpty := by
        simp [execute, take, hf]
      have hstate : (w.execute (some k)).failed = true ∨ w.take.1 = [] := by
        rw [hfailed]
        simpa [hf] using hfail w.take.1
      cases hexec : execAll w.commits w.storage (w.take.1.take k) with
      | some s =>
        have hstore : (w.execute (some k)).storage = s := by
          simp only [take] at hexec
          simp [execute, take, hf, hexec]
        exact ⟨w.take.1.take k, hqueue, rfl, by rw [hexec, hstore], List.take_prefix .., by simp [hf],
          .inr ⟨hstate, hdone⟩⟩
      | none =>
        have hstore : (w.execute (some k)).storage = w.storage := by
          simp only [take] at hexec
          simp [execute, take, hf, hexec]
        exact ⟨[], hqueue, rfl, by rw [hstore]; rfl, List.nil_prefix, by simp [hf],
          .inr ⟨hstate, hdone⟩⟩

end StorageWriter

end Raft
