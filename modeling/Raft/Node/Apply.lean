import Raft.Node.State

/-!
# The apply loop

Committed entries are read back from storage, in whatever ranges the event loop names,
and handed to the state machine.  Entries the state machine can be given in one call
are collected into a run.  Anything the apply loop answers by itself, a configuration
entry or a duplicate whose result is known, interrupts the run, so that results leave
in the order of the log.

The table of clients is consulted when an entry is reached and written when the run it
is in has been handed over.
-/

namespace Raft

variable {ι : Type}

/-- An entry in a run: as the state machine will see it, and the client and number to record. -/
structure PendingEntry (ι : Type) where
  entry : LogEntry ι
  raw : LogEntry ι
  note : Option (ClientID × Nat)
  deriving DecidableEq, Repr

/-- The storage reads of the apply loop that fail. -/
structure ReadFaults where
  range : Bool
  entry : Nat → Bool

def ReadFaults.healthy : ReadFaults := ⟨false, fun _ => false⟩

namespace ApplyLoop

def report (a : ApplyLoop ι) (r : ApplyResult ι) : ApplyLoop ι :=
  { a with results := a.results ++ [r], localLastApplied := r.index }

section Machine

variable (machine : List (LogEntry ι) → LogEntry ι → ApplyOutcome)

/-- What the state machine answers to a run, one entry after the other. -/
def outcomes : List (LogEntry ι) → List (LogEntry ι) → List ApplyOutcome
  | _, [] => []
  | given, e :: es => machine given e :: outcomes (given ++ [e]) es

variable (a : ApplyLoop ι)

/-- Takes note of one outcome: a success of an exactly-once command goes into the
table. -/
def settle (p : PendingEntry ι) (out : ApplyOutcome) : ApplyLoop ι :=
  let table := match p.note with
    | some (client, seq) => if out.err then a.clientTable else a.clientTable.put client ⟨seq, out.value⟩
    | none => a.clientTable
  { a with clientTable := table }.report ⟨p.raw.index, out.value, out.err, none, some p.raw.command⟩

def applyPending (run : List (PendingEntry ι)) : ApplyLoop ι :=
  let es := run.map (·.entry)
  let outs := outcomes machine a.sm es
  (run.zip outs).foldl (fun a p => a.settle p.1 p.2) { a with sm := a.sm ++ es }

/-- One entry of a range, with the run collected before it. -/
def applyEntry (s : ApplyLoop ι × List (PendingEntry ι)) (e : LogEntry ι) :
    ApplyLoop ι × List (PendingEntry ι) :=
  match e.command with
  | .config op =>
    let a := s.1.applyPending machine s.2
    let a := match op with
      | .clientTableCap capacity => { a with clientTable := a.clientTable.setCap capacity }
      | _ => a
    (a.report ⟨e.index, [], false, some op, some e.command⟩, [])
  | .user _ =>
    match e.command.dedup with
    | none => (s.1, s.2 ++ [⟨e, e, none⟩])
    | some d =>
      -- the table is asked before the run is flushed
      match s.1.clientTable.get d.clientID with
      | some cached =>
        if d.seqNum = cached.seqNum then
          let a := s.1.applyPending machine s.2
          (a.report ⟨e.index, cached.result, false, none, some e.command⟩, [])
        else
          (s.1, s.2 ++ [⟨{ e with command := .user d.payload }, e, some (d.clientID, d.seqNum)⟩])
      | none =>
        (s.1, s.2 ++ [⟨{ e with command := .user d.payload }, e, some (d.clientID, d.seqNum)⟩])

def applyEntries (es : List (LogEntry ι)) : ApplyLoop ι :=
  let s := es.foldl (applyEntry machine) (a, [])
  s.1.applyPending machine s.2

/-- Reads entries one by one, and reports missing ones ahead of the others. -/
def applyOneByOne (s : Store ι) (faults : ReadFaults) (a : ApplyLoop ι) (lo hi : Nat) :
    ApplyLoop ι :=
  let entryAt := fun i =>
    if faults.entry i then none else (s.getLogEntries i (i + 1)).bind (·.head?)
  let range := List.range' lo (hi + 1 - lo)
  -- a missing entry is passed over, whatever the reason
  let a := (range.filter fun i => (entryAt i).isNone).foldl
    (fun a i => a.report ⟨i, [], true, none, none⟩) a
  a.applyEntries machine (range.filterMap entryAt)

def commit (s : Store ι) (faults : ReadFaults) (a : ApplyLoop ι) : ApplyLoop ι :=
  match a.commitNotify with
  | none => a
  | some commitIdx =>
    let a := { a with commitNotify := none }
    let lo := a.localLastApplied + 1
    if commitIdx < lo then a
    else
      match if faults.range then none else s.getLogEntries lo (commitIdx + 1) with
      | some es => a.applyEntries machine es
      | none => a.applyOneByOne machine s faults lo commitIdx

end Machine

/-- Restores the state machine; position and table are taken over even when that fails. -/
def restoreFrom (ok : Bool) (a : ApplyLoop ι) : ApplyLoop ι :=
  match a.restore with
  | none => a
  | some snap =>
    let a := { a with restore := none }
    if snap.position.lastIncludedIndex ≤ a.localLastApplied then a
    else
      let bound := snap.clientTableCap.getD a.clientTable.bound
      { a with
        sm := if ok then snap.data else a.sm
        localLastApplied := snap.position.lastIncludedIndex
        clientTable := (Recency.empty bound).loadFrom snap.table }

end ApplyLoop

end Raft
