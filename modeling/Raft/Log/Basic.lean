import Mathlib.Data.List.DropRight
import Raft.Storage

/-!
# The log overlay

The in-memory view of the log: cached positions, the entries that are in the
log but not yet known to be on stable storage, and the index of term runs that
answers every term lookup.  Mutating operations take effect here at once and
queue the storage operation that makes them durable.

The source keeps the storage handle and the writer side by side; here the store
is the one inside the writer.  An operation that returns a sequence number
returns it beside the new log, and a failed lookup is `none`.
-/

namespace Raft

variable {ι : Type}

/-- The entries from `start` to the start of the next run carry this term. -/
structure TermRun where
  start : Nat
  term : Nat
  deriving DecidableEq, Repr

/-- One queued append: its entries and the write that will persist them. -/
structure UnstableSeg (ι : Type) where
  seq : Nat
  entries : List (LogEntry ι)
  deriving DecidableEq, Repr

/-- The log overlay. -/
structure RaftLog (ι : Type) where
  w : StorageWriter ι
  snapMeta : SnapshotMeta
  first : Nat
  last : Nat
  lastTerm : Nat
  segs : List (UnstableSeg ι)
  unstableBytes : Int
  runs : List TermRun
  durable : Nat
  queuedDurable : Nat
  nextSeq : Nat
  deriving DecidableEq, Repr

def commandBytes [Sized ι] (es : List (LogEntry ι)) : Nat :=
  (es.map fun e => Sized.len e.command).sum

namespace RaftLog

variable (runs : List TermRun)

/-- Records the terms of newly appended entries. -/
def extendRuns (es : List (LogEntry ι)) : List TermRun :=
  es.foldl (fun runs e =>
    if runs.getLast?.any (·.term = e.term) then runs else runs ++ [⟨e.index, e.term⟩]) runs

/-- The last run that starts at or below an index. -/
def runFor (index : Nat) : Option TermRun :=
  (runs.rdropWhile fun r => index < r.start).getLast?

def truncateRunsFrom (fromIndex : Nat) : List TermRun :=
  runs.rdropWhile fun r => fromIndex ≤ r.start

def truncateRunsBelow (toIndex : Nat) : List TermRun :=
  match runFor runs toIndex with
  | none => []
  | some r => ⟨toIndex, r.term⟩ :: runs.rtakeWhile fun r => toIndex < r.start

/-- The last index of the newest run of a term, of runs listed newest first. -/
def lastOfTerm (term : Nat) : Nat → List TermRun → Option Nat
  | _, [] => none
  | last, r :: older => if r.term = term then some last else lastOfTerm term (r.start - 1) older

/-- The part of `[lo, hi)` held in segments. -/
def sliceSegs (lo hi : Nat) : List (UnstableSeg ι) → List (LogEntry ι)
  | [] => []
  | s :: rest =>
    match s.entries.head?, s.entries.getLast? with
    | some e, some e' =>
      if e'.index < lo then sliceSegs lo hi rest
      else if hi ≤ e.index then []
      else
        let lower := max lo e.index
        let upper := min hi (e'.index + 1)
        (s.entries.take (upper - e.index)).drop (lower - e.index) ++ sliceSegs lo hi rest
    | _, _ => sliceSegs lo hi rest

def dropSegsFrom (fromIndex : Nat) : List (UnstableSeg ι) → List (UnstableSeg ι)
  | [] => []
  | s :: older =>
    match s.entries.head?, s.entries.getLast? with
    | some e, some e' =>
      if fromIndex ≤ e.index then dropSegsFrom fromIndex older
      else if fromIndex ≤ e'.index then
        { s with entries := s.entries.take (fromIndex - e.index) } :: older
      else s :: older
    | _, _ => dropSegsFrom fromIndex older

def dropSegsBelow (upto : Nat) : List (UnstableSeg ι) → List (UnstableSeg ι)
  | [] => []
  | s :: newer =>
    match s.entries.head?, s.entries.getLast? with
    | some e, some e' =>
      if e'.index < upto then dropSegsBelow upto newer
      else if e.index < upto then { s with entries := s.entries.drop (upto - e.index) } :: newer
      else s :: newer
    | _, _ => dropSegsBelow upto newer

def segBytes [Sized ι] (segs : List (UnstableSeg ι)) : Nat :=
  (segs.map fun s => commandBytes s.entries).sum

variable (rl : RaftLog ι)

/-- Replaces the segments by what is left of them, and reduces the running total. -/
def shrinkSegs [Sized ι] (segs : List (UnstableSeg ι)) : RaftLog ι :=
  { rl with segs := segs, unstableBytes := rl.unstableBytes - (segBytes rl.segs - segBytes segs) }

def dropUnstableFrom [Sized ι] (fromIndex : Nat) : RaftLog ι :=
  rl.shrinkSegs (dropSegsFrom fromIndex rl.segs.reverse).reverse

def dropUnstableBelow [Sized ι] (upto : Nat) : RaftLog ι :=
  rl.shrinkSegs (dropSegsBelow upto rl.segs)

/-- The first entry not yet known to be on stable storage, or 0. -/
def unstableFirst : Nat :=
  match rl.segs.findSome? fun s => s.entries.head? with
  | some e => e.index
  | none => 0

def lastLogIndex : Nat :=
  if 0 < rl.last then rl.last else rl.snapMeta.lastIncludedIndex

def lastLogTerm : Nat := rl.lastTerm

/-- The highest index at which storage holds this log's own entry. -/
def stableIndex : Nat :=
  let d := max rl.durable rl.snapMeta.lastIncludedIndex
  let us := rl.unstableFirst
  let d := if us ≠ 0 ∧ us ≤ d then us - 1 else d
  min d rl.lastLogIndex

/-- The term at an index, consulting the snapshot boundary first. -/
def termAt (index : Nat) : Option Nat :=
  if index = 0 then some 0
  else if index = rl.snapMeta.lastIncludedIndex then some rl.snapMeta.lastIncludedTerm
  else if rl.first = 0 ∨ index < rl.first ∨ rl.last < index then none
  else (runFor rl.runs index).map (·.term)

/-- The first index of the run of the term at `index`, or 0. -/
def termRunStart (index : Nat) : Nat :=
  match runFor rl.runs index with
  | none => 0
  | some r => if rl.last < index then 0 else r.start

/-- The highest index whose entry carries `term`. -/
def lastIndexOfTerm (term : Nat) : Option Nat :=
  match lastOfTerm term rl.last rl.runs.reverse with
  | some i => some i
  | none =>
    if rl.first = 0 ∧ rl.snapMeta.lastIncludedIndex ≠ 0 ∧ rl.snapMeta.lastIncludedTerm = term then
      some rl.snapMeta.lastIncludedIndex
    else none

/-- The entry is present, or the snapshot boundary, or the position before a log that starts at 1.
-/
def canDescribe (index : Nat) : Bool :=
  if index = rl.snapMeta.lastIncludedIndex then true
  else if index = 0 then rl.first = 1 ∨ rl.first = 0 ∧ rl.snapMeta.lastIncludedIndex = 0
  else rl.first ≠ 0 ∧ rl.first ≤ index ∧ index ≤ rl.last

/-- The entries in `[lo, hi)`, from storage and from memory as needed. -/
def entries (lo hi : Nat) : Option (List (LogEntry ι)) :=
  let hi := min hi (rl.last + 1)
  if hi ≤ lo then some []
  else if rl.first = 0 ∨ lo < rl.first then none
  else
    let us := rl.unstableFirst
    if us ≠ 0 ∧ us ≤ lo then some (sliceSegs lo hi rl.segs)
    else
      let storageHi := if us ≠ 0 ∧ us < hi then us else hi
      (rl.w.storage.getLogEntries lo storageHi).map fun out =>
        if storageHi < hi then out ++ sliceSegs storageHi hi rl.segs else out

/-- The write that will put the entry at `index` on stable storage, or 0. -/
def writeSeqCovering (index : Nat) : Nat :=
  if index = 0 ∨ index ≤ rl.stableIndex then 0
  else
    match rl.segs.find? fun s =>
        s.entries.head?.any (·.index ≤ index) && s.entries.getLast?.any (index ≤ ·.index) with
    | some s => s.seq
    | none => rl.nextSeq

/-- Whether a candidate's log is at least as up to date as this one. -/
def isUpToDate (candidateLastIndex : Nat) (candidateLastTerm : Nat) : Bool :=
  if candidateLastTerm ≠ rl.lastLogTerm then rl.lastLogTerm < candidateLastTerm
  else rl.lastLogIndex ≤ candidateLastIndex

/-- Queues an operation under the next sequence number. -/
def enqueue (rl : RaftLog ι) (kind : WriteKind ι) : RaftLog ι :=
  { rl with
    nextSeq := rl.nextSeq + 1
    w := rl.w.enqueue ⟨rl.nextSeq + 1, kind, rl.queuedDurable⟩ }

/-- Reads storage at startup; `none` when the log cannot be read. -/
def new (s : Store ι) (batch commits : Bool) : Option (RaftLog ι) :=
  let snapMeta := match s.snap with
    | some snap => snap.position
    | none => ⟨0, 0⟩
  let rl : RaftLog ι :=
    { w := .init s batch commits, snapMeta := snapMeta, first := s.firstIndex,
      last := s.lastIndex, lastTerm := snapMeta.lastIncludedTerm, segs := [], unstableBytes := 0,
      runs := [], durable := s.lastIndex, queuedDurable := s.lastIndex, nextSeq := 0 }
  if 0 < s.lastIndex then
    match s.getLogEntries s.firstIndex (s.lastIndex + 1) with
    | none => none
    | some es =>
      match (extendRuns [] es).getLast? with
      | none => none
      | some r => some { rl with runs := extendRuns [] es, lastTerm := r.term }
  else some rl

/-- Adds entries and queues the write, whose sequence number it returns. -/
def append [Sized ι] (rl : RaftLog ι) (es : List (LogEntry ι)) : Nat × RaftLog ι :=
  match es.head?, es.getLast? with
  | some e, some e' =>
    let seq := rl.nextSeq + 1
    let rl' : RaftLog ι := { rl with
      segs := rl.segs ++ [⟨seq, es⟩]
      unstableBytes := rl.unstableBytes + commandBytes es
      first := if rl.first = 0 then e.index else rl.first
      runs := extendRuns rl.runs es
      last := e'.index
      lastTerm := e'.term
      queuedDurable := e'.index }
    (seq, rl'.enqueue (.append es))
  | _, _ => (0, rl)

/-- Removes the entries from `fromIndex` on; `none` when the term of the new last entry cannot be
described. -/
def truncateSuffix [Sized ι] (rl : RaftLog ι) (fromIndex : Nat) : Option (RaftLog ι) :=
  let newLast := fromIndex - 1
  let newLastTerm :=
    if rl.first < fromIndex ∧ 0 < newLast then rl.termAt newLast
    else some rl.snapMeta.lastIncludedTerm
  newLastTerm.map fun newLastTerm =>
    let rl' := ({ rl with
      runs := truncateRunsFrom rl.runs fromIndex
      queuedDurable := if 0 < fromIndex ∧ fromIndex - 1 < rl.queuedDurable then fromIndex - 1
        else rl.queuedDurable }.dropUnstableFrom fromIndex).enqueue (.truncateSuffix fromIndex)
    if fromIndex ≤ rl.first then
      { rl' with first := 0, last := 0, lastTerm := rl.snapMeta.lastIncludedTerm, runs := [] }
    else { rl' with last := newLast, lastTerm := newLastTerm }

def truncatePrefix [Sized ι] (rl : RaftLog ι) (toIndex : Nat) : RaftLog ι :=
  if rl.first ≠ 0 ∧ toIndex ≤ rl.first then rl
  else
    let rl' := ({ rl with
      queuedDurable :=
        if rl.last < toIndex ∧ 0 < toIndex ∧ toIndex - 1 < rl.queuedDurable then toIndex - 1
        else rl.queuedDurable }.dropUnstableBelow toIndex).enqueue (.truncatePrefix toIndex)
    if rl.last < toIndex then
      { rl' with first := 0, last := 0, lastTerm := rl.snapMeta.lastIncludedTerm, runs := [] }
    else { rl' with runs := truncateRunsBelow rl.runs toIndex, first := toIndex }

/-- Makes a snapshot the base of the log, keeping only entries of the same history. -/
def installSnapshot [Sized ι] (position : SnapshotMeta) : Option (RaftLog ι) :=
  let agrees := rl.termAt position.lastIncludedIndex = some position.lastIncludedTerm
  let kept :=
    if agrees then some (rl.truncatePrefix (position.lastIncludedIndex + 1))
    else if rl.first ≠ 0 then rl.truncateSuffix rl.first
    else some rl
  kept.map fun rl' =>
    let rl' := { rl' with snapMeta := position }
    if rl'.last = 0 then
      { rl' with first := 0, lastTerm := position.lastIncludedTerm, runs := [] }
    else rl'

def stabilize [Sized ι] (d : WriteDone) : RaftLog ι :=
  if d.err then rl
  else { rl with durable := d.durableAfter }.shrinkSegs (rl.segs.dropWhile (·.seq ≤ d.seq))

/-- Where the log is cut after a snapshot when `trailing` entries are kept. -/
def keepFrom (index trailing : Nat) : Nat :=
  if 0 < trailing then if index + 1 ≤ trailing then 1 else index + 1 - trailing
  else index + 1

/-- A local snapshot is complete: the prefix goes first, and only then the snapshot becomes the
base. -/
def compact [Sized ι] (position : SnapshotMeta) (trailing : Nat) : RaftLog ι :=
  { rl.truncatePrefix (keepFrom position.lastIncludedIndex trailing) with snapMeta := position }

/-- One round of the writer behind the log. -/
def execute (rl : RaftLog ι) (fault : Option Nat) : RaftLog ι :=
  { rl with w := rl.w.execute fault }

def saveSnapshot (rl : RaftLog ι) (snap : Snapshot ι) : RaftLog ι :=
  { rl with w := { rl.w with storage := rl.w.storage.saveSnapshot snap } }

end RaftLog

end Raft
