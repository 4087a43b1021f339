import Mathlib.Algebra.Ring.Int.Defs
import Raft.Nested

/-!
# The key-value store

A state machine that holds collections of JSON values.  Every key carries the revision at
which it was written, which is the index of the log entry that wrote it, and may be attached
to a lease, with which it disappears.  A batch is one entry that applies all of its operations
or none: each write journals the key it is about to change, and when an operation fails the
journal is played back.
-/

namespace Raft.Easyraft

open Std

abbrev Name := String

/-- The text of a JSON value, empty where there is none. -/
abbrev Value := List UInt8

/-- A key and the collection it is in. -/
structure KeyRef where
  collection : Name
  key : Name
  deriving DecidableEq, Repr

instance : Ord KeyRef := ⟨compareLex (compareOn KeyRef.collection) (compareOn KeyRef.key)⟩

instance : TransOrd KeyRef := inferInstanceAs (TransCmp (compareLex _ _))

instance : LawfulEqOrd KeyRef where
  eq_of_compare := by
    rintro ⟨c, k⟩ ⟨c', k'⟩ h
    have h' : (compare c c').then (compare k k') = .eq := h
    rw [Ordering.then_eq_eq] at h'
    rw [LawfulEqOrd.eq_of_compare h'.1, LawfulEqOrd.eq_of_compare h'.2]

/-- A live lease: how long it lives, when it falls due, and its keys. -/
structure LeaseState where
  ttlMillis : UInt64
  expiresAtMillis : Int64
  keys : ExtTreeSet KeyRef
  deriving DecidableEq

structure LeaseSnapshot where
  id : Nat
  ttlMillis : UInt64
  expiresAtMillis : Int64
  keys : List KeyRef
  deriving DecidableEq

structure ImportChunk where
  token : String
  seq : Int
  data : List UInt8
  final : Bool
  abort : Bool
  deriving DecidableEq

/-- A backup that has arrived in part. -/
structure ImportState where
  token : String
  seq : Int
  buf : List UInt8
  deriving DecidableEq

structure SnapshotContents where
  collections : Nested Name Name Value
  revisions : Nested Name Name Nat
  revision : Nat
  leases : List LeaseSnapshot
  staged : Option ImportState

/-- What an operation does; unknown names are kept. -/
inductive OpType
  | create | update | delete | upsert | mutate | check
  | importChunk | leaseGrant | leaseKeepAlive | leaseRevoke
  | other (name : String)
  deriving DecidableEq, Repr

/-- One operation, conditional on a revision or not; `lease` is 0 when it names none. -/
structure Operation where
  op : OpType
  ref : KeyRef
  value : Value
  mutateName : String
  mutateArgs : Value
  ifRev : Option Nat
  lease : Nat
  leaseTTLMillis : UInt64
  leaseNowMillis : Int64
  chunk : Option ImportChunk
  deriving DecidableEq

/-- An operation, or a batch of commands. -/
inductive Command
  | single (o : Operation)
  | batch (cmds : List Command)

/-- What a command answers. -/
inductive Response
  | none
  | text (b : Value)
  | number (n : Int)
  | list (rs : List Response)

inductive StoreError
  | keyExists
  | keyNotFound
  | revisionMismatch
  | leaseNotFound
  | leaseNeedsTTL
  | leaseInTransaction (op : OpType)
  | unknownMutationCollection (collection : Name)
  | unknownMutation (name : String) (collection : Name)
  | mutation (reason : String)
  | checkWithoutRevision (ref : KeyRef)
  | unknownOp (op : OpType)
  | importInTransaction
  | noChunk
  | noSuchImport (token : String)
  | chunkOutOfOrder (token : String) (seq expected : Int)
  | importFailed (token : String) (reason : String)
  | encode
  | decode
  deriving DecidableEq, Repr

/-- A registered mutation: from the value and the arguments to the new value and a response, if any.
-/
abbrev Mutation := Value → Value → Except String (Value × Option Value)

/-- What a store is built with. -/
structure Env where
  mutations : Name → Option (String → Option Mutation)
  decodeSnapshot : List UInt8 → Except String SnapshotContents
  valid : Value → Bool

structure ChangeEvent where
  ref : KeyRef
  value : Value
  deleted : Bool
  deriving DecidableEq, Repr

/-- The state machine: the highest revision, who owns which key, and the changes of the entry
at hand. -/
@[ext] structure Store where
  collections : Nested Name Name Value
  revisions : Nested Name Name Nat
  revision : Nat
  leases : ExtTreeMap Nat LeaseState
  keyLeases : ExtTreeMap KeyRef Nat
  stateBytes : Int
  keyCount : Int
  importing : Option ImportState
  pendingEvents : List ChangeEvent
  deriving DecidableEq

namespace Store

def empty : Store := ⟨∅, ∅, 0, ∅, ∅, 0, 0, none, []⟩

variable (s : Store)

variable (ref : KeyRef)

def valueAt : Option Value := s.collections.lookup ref.collection ref.key

def revAt : Option Nat := s.revisions.lookup ref.collection ref.key

/-- Writes a key and keeps the running size and count in step. -/
def setKey (value : Value) : Store :=
  let s := match s.valueAt ref with
    | some previous => { s with stateBytes := s.stateBytes - previous.length }
    | none => { s with
        keyCount := s.keyCount + 1, stateBytes := s.stateBytes + ref.key.utf8ByteSize }
  { s with
    collections := s.collections.set ref.collection ref.key value
    stateBytes := s.stateBytes + value.length }

/-- Removes a key, if it is there, with its revision. -/
def dropKey : Store :=
  match s.valueAt ref with
  | none => s
  | some previous => { s with
      stateBytes := s.stateBytes - (previous.length + ref.key.utf8ByteSize)
      keyCount := s.keyCount - 1
      collections := s.collections.remove ref.collection ref.key
      revisions := s.revisions.remove ref.collection ref.key }

def detachUnless (lease : Nat) : Store :=
  match s.keyLeases[ref]? with
  | none => s
  | some previous =>
    if previous = lease then s
    else { s with
      leases := s.leases.modify previous fun held => { held with keys := held.keys.erase ref }
      keyLeases := s.keyLeases.erase ref }

/-- Moves a key onto a lease, or off its lease when given 0. -/
def attachKeyToLease (lease : Nat) : Store :=
  let s := s.detachUnless ref lease
  if lease = 0 then s
  else match s.leases[lease]? with
    | none => s
    | some held => { s with
        leases := s.leases.insert lease { held with keys := held.keys.insert ref }
        keyLeases := s.keyLeases.insert ref lease }

/-- The highest revision, once an entry at `rev` has changed something. -/
def advance (rev : Nat) : Store := { s with revision := max s.revision rev }

def emit (ev : ChangeEvent) : Store := { s with pendingEvents := s.pendingEvents ++ [ev] }

def recount : Store :=
  let sizes := s.collections.toList.flatMap fun coll =>
    coll.2.toList.map fun item => (item.1.utf8ByteSize + item.2.length : Int)
  { s with stateBytes := sizes.sum, keyCount := sizes.length }

end Store

/-- One key as it was before a change; what was not on record is noted as 0. -/
structure UndoEntry where
  ref : KeyRef
  previous : Option Value
  previousRev : Nat
  previousLease : Nat
  deriving DecidableEq

/-- The keys as they were, the collections the batch created, and the highest revision before it. -/
structure Journal where
  entries : List UndoEntry
  created : List Name
  revision : Nat
  deriving DecidableEq

namespace Journal

def record (j : Journal) (s : Store) (ref : KeyRef) : Journal :=
  { j with entries := j.entries ++
      [⟨ref, s.valueAt ref, (s.revAt ref).getD 0, s.keyLeases[ref]?.getD 0⟩] }

/-- Puts one key back. -/
def undoEntry (s : Store) (e : UndoEntry) : Store :=
  if e.ref.collection ∈ s.collections then
    let s := match e.previous with
      | some previous =>
        let s := s.setKey e.ref previous
        if e.ref.collection ∈ s.revisions then
          { s with revisions := s.revisions.set e.ref.collection e.ref.key e.previousRev }
        else s
      | none => s.dropKey e.ref
    s.attachKeyToLease e.ref e.previousLease
  else s

/-- Removes a collection the batch created. -/
def removeCreated (s : Store) (name : Name) : Store :=
  { s with
    collections := s.collections.erase name
    revisions := s.revisions.erase name
    keyLeases := s.keyLeases.filter fun ref _ => ref.collection ≠ name }

/-- Undoes every recorded change, most recent first. -/
def rollback (j : Journal) (s : Store) : Store :=
  j.created.foldl removeCreated (j.entries.foldr (fun e s => undoEntry s e) s)

def restoreRevision (j : Journal) (s : Store) : Store := { s with revision := j.revision }

end Journal

/-- The store, and the journal while a batch is in flight. -/
structure Session where
  store : Store
  undo : Option Journal

namespace Session

/-- Brings a collection and its revisions into existence. -/
def openCollection (x : Session) (name : Name) : Session :=
  let undo := if name ∈ x.store.collections then x.undo
    else x.undo.map fun j => { j with created := j.created ++ [name] }
  ⟨{ x.store with
    collections := x.store.collections.opened name
    revisions := x.store.revisions.opened name }, undo⟩

def record (x : Session) (ref : KeyRef) : Session :=
  { x with undo := x.undo.map (·.record x.store ref) }

end Session

/-- What an operation does to its key. -/
inductive Effect
  | keep
  | put (value : Value)
  | drop
  deriving DecidableEq

variable (env : Env)

/-- The checks of an operation on a key, in order, and what it does when they pass. -/
def verdict (s : Store) (o : Operation) : Except StoreError (Effect × Response) :=
  if o.ifRev.any (· ≠ (s.revAt o.ref).getD 0) then .error .revisionMismatch
  else if o.lease ≠ 0 ∧ o.lease ∉ s.leases then .error .leaseNotFound
  else match o.op with
    | .create => if (s.valueAt o.ref).isSome then .error .keyExists else .ok (.put o.value, .none)
    | .update => if (s.valueAt o.ref).isNone then .error .keyNotFound else .ok (.put o.value, .none)
    | .upsert => .ok (.put o.value, .none)
    | .delete => if (s.valueAt o.ref).isNone then .error .keyNotFound else .ok (.drop, .none)
    | .mutate =>
      match s.valueAt o.ref with
      | none => .error .keyNotFound
      | some current =>
        match env.mutations o.ref.collection with
        | none => .error (.unknownMutationCollection o.ref.collection)
        | some named =>
          match named o.mutateName with
          | none => .error (.unknownMutation o.mutateName o.ref.collection)
          | some fn =>
            match fn current o.mutateArgs with
            | .error reason => .error (.mutation reason)
            | .ok (next, none) => .ok (.put next, .none)
            | .ok (next, some resp) => .ok (.put next, .text resp)
    | .check => if o.ifRev.isNone then .error (.checkWithoutRevision o.ref) else .ok (.keep, .none)
    | op => .error (.unknownOp op)

variable (rev : Nat)

/-- A write stamps its key with `rev` and moves it onto the lease it names, or off the one it is on.
-/
def Session.perform (x : Session) (ref : KeyRef) (lease : Nat) : Effect → Session
  | .keep => x
  | .put value =>
    let x := x.record ref
    let s := x.store.setKey ref value
    let s := { s with revisions := s.revisions.set ref.collection ref.key rev }
    { x with store := ((s.advance rev).attachKeyToLease ref lease).emit ⟨ref, value, false⟩ }
  | .drop =>
    let x := x.record ref
    { x with store := (((x.store.dropKey ref).attachKeyToLease ref 0).advance rev).emit ⟨ref, [], true⟩ }

def applyToKey (x : Session) (o : Operation) : Session × Except StoreError Response :=
  let x := x.openCollection o.ref.collection
  match verdict env x.store o with
  | .error err => (x, .error err)
  | .ok (effect, resp) => (x.perform rev o.ref o.lease effect, .ok resp)

/-- Removes every key a lease holds and still owns. -/
def Store.deleteLeaseKeys (s : Store) (id : Nat) (held : LeaseState) : Store :=
  held.keys.toList.foldl (fun s ref =>
    if s.keyLeases[ref]? = some id then
      let s := s.dropKey ref
      { s with keyLeases := s.keyLeases.erase ref }.emit ⟨ref, [], true⟩
    else s) s

/-- Grants a lease, known by the index of its entry, renews one, or revokes one. -/
def Store.applyLeaseCommand (s : Store) (o : Operation) : Store × Except StoreError Response :=
  match o.op with
  | .leaseGrant =>
    if o.leaseTTLMillis = 0 then (s, .error .leaseNeedsTTL)
    else
      let held : LeaseState := ⟨o.leaseTTLMillis, o.leaseNowMillis + o.leaseTTLMillis.toInt64, ∅⟩
      ({ s with leases := s.leases.insert rev held }.advance rev, .ok (.number rev))
  | .leaseKeepAlive =>
    match s.leases[o.lease]? with
    | none => (s, .error .leaseNotFound)
    | some held =>
      let expires := o.leaseNowMillis + held.ttlMillis.toInt64
      ({ s with leases := s.leases.insert o.lease { held with expiresAtMillis := expires } }.advance rev,
        .ok (.number expires.toInt))
  | _ =>
    match s.leases[o.lease]? with
    -- a second proposal to revoke the lease finds it gone
    | none => (s, .ok .none)
    | some held =>
      let s := s.deleteLeaseKeys o.lease held
      ({ s with leases := s.leases.erase o.lease }.advance rev, .ok .none)

/-- The lease table and the owners of the keys, from the list of a snapshot. -/
def rebuildLeases (snapshot : List LeaseSnapshot) : ExtTreeMap Nat LeaseState × ExtTreeMap KeyRef Nat :=
  snapshot.foldl (fun tables entry =>
    (tables.1.insert entry.id
      ⟨entry.ttlMillis, entry.expiresAtMillis, entry.keys.foldl (·.insert ·) ∅⟩,
    entry.keys.foldl (fun owners ref => owners.insert ref entry.id) tables.2)) (∅, ∅)

def Store.replaceBy (s : Store) (decoded : SnapshotContents) : Store :=
  let tables := rebuildLeases decoded.leases
  let s := { s with
    collections := decoded.collections, revisions := decoded.revisions
    leases := tables.1, keyLeases := tables.2, importing := none }.recount
  { s with revision := max (max s.revision decoded.revision) rev }

/-- Takes in one piece of a backup; the last one replaces the state. -/
def Store.applyImport (s : Store) (chunk : Option ImportChunk) :
    Store × Except StoreError Response :=
  match chunk with
  | none => (s, .error .noChunk)
  | some chunk =>
    if chunk.abort then ({ s with importing := none }, .ok .none)
    else
      -- the first piece discards whatever was staged
      let s := if chunk.seq = 0 then { s with importing := some ⟨chunk.token, 0, []⟩ } else s
      match s.importing with
      | none => (s, .error (.noSuchImport chunk.token))
      | some staged =>
        if staged.token ≠ chunk.token then (s, .error (.noSuchImport chunk.token))
        else if chunk.seq ≠ staged.seq then
          (s, .error (.chunkOutOfOrder chunk.token chunk.seq staged.seq))
        else
          let buf := staged.buf ++ chunk.data
          let s := { s with importing := some ⟨staged.token, staged.seq + 1, buf⟩ }
          if !chunk.final then (s, .ok .none)
          else match env.decodeSnapshot buf with
            | .error reason => ({ s with importing := none }, .error (.importFailed chunk.token reason))
            | .ok decoded => (s.replaceBy rev decoded, .ok .none)

/-- An operation.  Imports and leases are refused inside a batch, which cannot undo them. -/
def applySingle (x : Session) (o : Operation) : Session × Except StoreError Response :=
  match o.op with
  | .importChunk =>
    if x.undo.isSome then (x, .error .importInTransaction)
    else
      let (s, res) := x.store.applyImport env rev o.chunk
      ({ x with store := s }, res)
  | .leaseGrant | .leaseKeepAlive | .leaseRevoke =>
    if x.undo.isSome then (x, .error (.leaseInTransaction o.op))
    else
      let (s, res) := x.store.applyLeaseCommand rev o
      ({ x with store := s }, res)
  | _ => applyToKey env rev x o

/-- Whether an answer can be part of the list a batch answers with. -/
def Response.encodes : Response → Bool
  | text b => env.valid b
  | _ => true

def marshal (rs : List Response) : Except StoreError Response :=
  if rs.all (·.encodes env) then .ok (.list rs) else .error .encode

mutual

/-- A command.  A batch inside another one shares its journal. -/
def applyCommand (env : Env) (rev : Nat) (x : Session) : Command → Session × Except StoreError Response
  | .single o => applySingle env rev x o
  | .batch cmds =>
    match x.undo with
    | some _ =>
      match applyAll env rev x cmds with
      | (x, .error err) => (x, .error err)
      | (x, .ok rs) => (x, marshal env rs)
    | none =>
      match applyAll env rev ⟨x.store, some ⟨[], [], x.store.revision⟩⟩ cmds with
      | (y, .error err) =>
        let j := y.undo.getD ⟨[], [], x.store.revision⟩
        let s := j.restoreRevision (j.rollback y.store)
        -- the changes announced by the batch are taken back as well
        (⟨{ s with pendingEvents := s.pendingEvents.take x.store.pendingEvents.length }, none⟩, .error err)
      | (y, .ok rs) => (⟨y.store, none⟩, marshal env rs)

def applyAll (env : Env) (rev : Nat) (x : Session) : List Command → Session × Except StoreError (List Response)
  | [] => (x, .ok [])
  | cmd :: cmds =>
    match applyCommand env rev x cmd with
    | (x, .error err) => (x, .error err)
    | (x, .ok r) =>
      match applyAll env rev x cmds with
      | (x, .error err) => (x, .error err)
      | (x, .ok rs) => (x, .ok (r :: rs))

end

structure Entry where
  index : Nat
  cmd : Option Command

/-- Puts a committed entry into effect, and says what changed. -/
def Store.applyEntry (s : Store) (entry : Entry) :
    Store × List ChangeEvent × Except StoreError Response :=
  match entry.cmd with
  | none => (s, [], .error .decode)
  | some cmd =>
    let (x, res) := applyCommand env entry.index ⟨{ s with pendingEvents := [] }, none⟩ cmd
    ({ x.store with pendingEvents := [] }, x.store.pendingEvents, res)

end Raft.Easyraft
