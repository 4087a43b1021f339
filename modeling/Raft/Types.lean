import Mathlib.Algebra.Ring.Int.Defs
import Mathlib.Algebra.Ring.Nat
import Mathlib.Data.Finset.Card
import Mathlib.Data.Finset.Basic

/-!
# Terms, indices, log entries and configuration entries

The data the consensus core exchanges and stores.  Node identities are an
arbitrary type `ι`: the source uses a string and only ever compares two of them
or asks for their length, and the empty string, which the source uses for "no
node", is `none` here.

Log indices, terms and the sequence numbers of storage writes are natural
numbers.  Indices count from 1, and 0 is the position before the log.

A command is kept decoded.  The source recognises its own configuration entries
by a magic number at the front of an otherwise opaque byte string; `Command`
has one constructor for each of the two readings, and `Command.len` is the
length of the byte string the source would have stored.
-/

namespace Raft

/-- Things that have a length in bytes: node identities and commands. -/
class Sized (α : Type) where
  len : α → Nat

instance : Sized Nat := ⟨fun _ => 1⟩

instance (n : Nat) : Sized (Fin n) := ⟨fun _ => 1⟩

instance neZero_one : NeZero 1 := ⟨Nat.one_ne_zero⟩

instance neZero_three : NeZero 3 := ⟨Nat.succ_ne_zero 2⟩

/-- The role a node is playing. -/
inductive State
  | follower
  | candidate
  | leader
  | preCandidate
  deriving DecidableEq, Repr

/-- The role of one member of the group. -/
structure PeerConfig (ι : Type) where
  id : ι
  voter : Bool
  witness : Bool
  deriving DecidableEq, Repr

/-- The configuration changes a log entry can carry. -/
inductive ConfigOp (ι : Type)
  | add (peer : PeerConfig ι)
  | remove (id : ι)
  | joint (old new : List (PeerConfig ι))
  | finalise (members : List (PeerConfig ι))
  | clientTableCap (capacity : Nat)
  | commitQuorum (quorum : Nat)
  deriving DecidableEq, Repr

/-- An opaque payload for the state machine, or one of the core's own entries. -/
inductive Command (ι : Type)
  | user (payload : List UInt8)
  | config (op : ConfigOp ι)
  deriving DecidableEq, Repr

/-- One record of the log. -/
structure LogEntry (ι : Type) where
  index : Nat
  term : Nat
  command : Command ι
  deriving DecidableEq, Repr

/-- The term and vote that must survive a restart. -/
structure HardState (ι : Type) where
  currentTerm : Nat
  votedFor : Option ι
  deriving DecidableEq, Repr

/-- The position of the log a snapshot stands for. -/
structure SnapshotMeta where
  lastIncludedIndex : Nat
  lastIncludedTerm : Nat
  deriving DecidableEq, Repr

namespace Command

variable {ι : Type}

def noop : Command ι := .user []

def isConfigEntry : Command ι → Bool
  | user _ => false
  | config _ => true

def dedupMagic : List UInt8 := [0x00, 0x52, 0x61, 0x44]

/-- Whether the command carries a client and a sequence number. -/
def isDedupCmd : Command ι → Bool
  | user payload => payload.take 4 = dedupMagic
  | config _ => false

def peerListLen [Sized ι] (ps : List (PeerConfig ι)) : Nat :=
  4 + (ps.map fun p => 3 + Sized.len p.id).sum

def len [Sized ι] : Command ι → Nat
  | user payload => payload.length
  | config (.add peer) => 6 + Sized.len peer.id
  | config (.remove id) => 6 + Sized.len id
  | config (.joint old new) => 5 + peerListLen old + peerListLen new
  | config (.finalise members) => 5 + peerListLen members
  | config (.clientTableCap _) => 13
  | config (.commitQuorum _) => 13

instance [Sized ι] : Sized (Command ι) := ⟨len⟩

end Command

end Raft
