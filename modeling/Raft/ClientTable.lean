import Raft.Bytes
import Raft.Recency
import Raft.Types

/-!
# The exactly-once client table

A client that wants a command applied once sends it with its own identity and a
sequence number.  The table remembers, for the clients that wrote last, the highest
number applied and the result it had, so that a retry can be answered without applying
the command again.
-/

namespace Raft

abbrev ClientID := List UInt8

/-- The number a client used last and the result it had. -/
structure ClientEntry where
  seqNum : Nat
  result : List UInt8
  deriving DecidableEq, Repr

abbrev ClientRecord := ClientID × ClientEntry

/-- The table, in order of last write. -/
abbrev ClientLRU := Recency ClientID ClientEntry

/-- What an exactly-once command carries. -/
structure DedupCmd where
  clientID : ClientID
  seqNum : Nat
  payload : List UInt8
  deriving DecidableEq, Repr

namespace Command

variable {ι : Type}

/-- A command with the header that makes it an exactly-once command. -/
def encodeDedupCmd (cmd : DedupCmd) : List UInt8 :=
  dedupMagic ++ Bytes.little 2 cmd.clientID.length ++ cmd.clientID ++ Bytes.little 8 cmd.seqNum ++
    cmd.payload

def decodeDedupCmd (cmd : List UInt8) : Option DedupCmd :=
  if cmd.length < 14 then none
  else
    let idLen := Bytes.ofLittle ((cmd.drop 4).take 2)
    if cmd.length < 6 + idLen + 8 then none
    else
      some ⟨(cmd.drop 6).take idLen, Bytes.ofLittle ((cmd.drop (6 + idLen)).take 8),
        cmd.drop (6 + idLen + 8)⟩

/-- The client, the number and the command inside.  With a malformed header a command is an ordinary
one. -/
def dedup : Command ι → Option DedupCmd
  | user payload => if payload.take 4 = dedupMagic then decodeDedupCmd payload else none
  | config _ => none

end Command

end Raft
