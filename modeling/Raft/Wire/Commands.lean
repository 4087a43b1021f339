import Raft.Bytes
import Raft.ClientTable

/-!
# Commands as bytes

An entry of the log carries a byte string.  The core tells its own configuration entries
from a caller's commands by looking at these bytes: four fixed bytes at the front and at
least one more make a configuration entry, whoever wrote them.
-/

namespace Raft

abbrev NodeID := List UInt8

instance : Sized NodeID := ⟨List.length⟩

namespace Command

def configMagic : List UInt8 := [0x00, 0x52, 0x61, 0x43]

variable (p : PeerConfig NodeID)

def peerFlags : UInt8 :=
  (if p.voter then 1 else 0) ||| (if p.witness then 2 else 0)

def encodeConfigEntry (op : UInt8) (peer : PeerConfig NodeID) : List UInt8 :=
  configMagic ++ [op, peerFlags peer] ++ peer.id

def encodePeer : List UInt8 :=
  Bytes.big 2 p.id.length ++ [peerFlags p] ++ p.id

variable (list : List (PeerConfig NodeID))

def appendPeerList : List UInt8 :=
  Bytes.big 4 list.length ++ list.flatMap encodePeer

def encodeNumberEntry (op : UInt8) (n : Nat) : List UInt8 :=
  configMagic ++ [op] ++ Bytes.big 8 n

def encode : Command NodeID → List UInt8
  | user payload => payload
  | config (.add peer) => encodeConfigEntry 0x01 peer
  | config (.remove id) => encodeConfigEntry 0x02 ⟨id, false, false⟩
  | config (.joint old new) => configMagic ++ [0x03] ++ appendPeerList old ++ appendPeerList new
  | config (.finalise members) => configMagic ++ [0x04] ++ appendPeerList members
  | config (.clientTableCap capacity) => encodeNumberEntry 0x05 capacity
  | config (.commitQuorum quorum) => encodeNumberEntry 0x06 quorum

def isConfigBytes (b : List UInt8) : Bool := 5 ≤ b.length ∧ b.take 4 = configMagic

def peerRoles (b : UInt8) : Bool × Bool := (b &&& 1 ≠ 0, b &&& 2 ≠ 0)

def decodePeers : Nat → List UInt8 → Option (List (PeerConfig NodeID) × List UInt8)
  | 0, buf => some ([], buf)
  | n + 1, buf =>
    match buf with
    | hi :: lo :: flags :: buf =>
      let idLen := Bytes.ofBig [hi, lo]
      if buf.length < idLen then none
      else (decodePeers n (buf.drop idLen)).map fun (ps, rest) =>
        (⟨buf.take idLen, (peerRoles flags).1, (peerRoles flags).2⟩ :: ps, rest)
    | _ => none

variable (buf : List UInt8)

def decodePeerList : Option (List (PeerConfig NodeID) × List UInt8) :=
  if buf.length < 4 then none else decodePeers (Bytes.ofBig (buf.take 4)) (buf.drop 4)

def decodePeerLists : Option (List (PeerConfig NodeID) × List (PeerConfig NodeID)) :=
  (decodePeerList buf).bind fun (old, rest) => (decodePeerList rest).map fun (new, _) => (old, new)

def decodeNumber : Option Nat :=
  if buf.length < 8 then none
  else
    let n := Bytes.ofBig (buf.take 8)
    if n < 2 ^ 63 then some n else none

/-- What the core makes of some bytes: a command, or a configuration entry it cannot
read. -/
inductive Reading
  | command (cmd : Command NodeID)
  | unreadable
  deriving DecidableEq

def Reading.ofOp : Option (ConfigOp NodeID) → Reading
  | some op => .command (.config op)
  | none => .unreadable

/-- **How the core reads the bytes** of an entry.  `op` is the fifth byte. -/
def read (b : List UInt8) : Reading :=
  if isConfigBytes b then
    match b.drop 4 with
    | op :: flags :: rest =>
      if op = 0x01 then .ofOp (some (.add ⟨rest, (peerRoles flags).1, (peerRoles flags).2⟩))
      else if op = 0x02 then .ofOp (some (.remove rest))
      else if op = 0x03 then
        .ofOp ((decodePeerLists (flags :: rest)).map fun (old, new) => .joint old new)
      else if op = 0x04 then
        .ofOp ((decodePeerList (flags :: rest)).map fun (members, _) => .finalise members)
      else if op = 0x05 then .ofOp ((decodeNumber (flags :: rest)).map .clientTableCap)
      else if op = 0x06 then .ofOp ((decodeNumber (flags :: rest)).map .commitQuorum)
      else .unreadable
    | _ => .unreadable
  else .command (.user b)

def ListFits : Prop :=
  list.length < 2 ^ 32 ∧ ∀ p ∈ list, p.id.length < 2 ^ 16
  deriving Decidable

/-- Bytes that start like a configuration entry never are a caller's command. -/
theorem read_of_isConfigBytes {b : List UInt8} (h : isConfigBytes b = true) :
    (∃ op, read b = .command (.config op)) ∨ read b = .unreadable := by
  have hop : ∀ op : Option (ConfigOp NodeID), (∃ op', Reading.ofOp op = .command (.config op')) ∨
      Reading.ofOp op = .unreadable
    | some op => .inl ⟨op, rfl⟩
    | none => .inr rfl
  rw [read, if_pos h]
  split
  · split_ifs <;> first | exact hop _ | exact .inr rfl
  · exact .inr rfl

/-- The command fits its fields, and a caller's does not look like one of the core's. -/
def Fits : Command NodeID → Prop
  | user payload => isConfigBytes payload = false
  | config (.joint old new) => ListFits old ∧ ListFits new
  | config (.finalise members) => ListFits members
  | config (.clientTableCap capacity) => capacity < 2 ^ 63
  | config (.commitQuorum quorum) => quorum < 2 ^ 63
  | config _ => True

instance (cmd : Command NodeID) : Decidable cmd.Fits := by
  rcases cmd with payload | op
  · exact inferInstanceAs (Decidable (_ = _))
  · cases op <;> unfold Fits <;> infer_instance

theorem peerRoles_peerFlags : peerRoles (peerFlags p) = (p.voter, p.witness) := by
  have hroles : ∀ voter witness : Bool,
      peerRoles ((if voter then 1 else 0) ||| (if witness then 2 else 0)) = (voter, witness) := by
    decide
  exact hroles p.voter p.witness

theorem decodePeers_flatMap (rest : List UInt8) (h : ∀ p ∈ list, p.id.length < 2 ^ 16) :
    decodePeers list.length (list.flatMap encodePeer ++ rest) = some (list, rest) := by
  induction list with
  | nil => rfl
  | cons p list ih =>
    have hlen : p.id.length < 256 ^ 2 := h p (List.mem_cons_self ..)
    obtain ⟨hi, lo, hbig⟩ : ∃ hi lo, Bytes.big 2 p.id.length = [hi, lo] := by
      have htwo := Bytes.length_big 2 p.id.length
      rcases hb : Bytes.big 2 p.id.length with - | ⟨hi, - | ⟨lo, - | ⟨x, l⟩⟩⟩ <;>
        simp [hb] at htwo
      exact ⟨hi, lo, rfl⟩
    have hid : Bytes.ofBig [hi, lo] = p.id.length := by rw [← hbig, Bytes.ofBig_big hlen]
    have hbytes : (p :: list).flatMap encodePeer ++ rest =
        hi :: lo :: peerFlags p :: (p.id ++ (list.flatMap encodePeer ++ rest)) := by
      simp [encodePeer, hbig]
    rw [hbytes, List.length_cons, decodePeers]
    simp only [hid, List.length_append, List.take_left, List.drop_left,
      ih fun q hq => h q (List.mem_cons_of_mem _ hq), peerRoles_peerFlags, Option.map_some]
    rw [if_neg (by omega)]

theorem decodePeerList_append {list : List (PeerConfig NodeID)} (rest : List UInt8)
    (h : ListFits list) : decodePeerList (appendPeerList list ++ rest) = some (list, rest) := by
  have hfour := Bytes.length_big 4 list.length
  have hcount : Bytes.ofBig (Bytes.big 4 list.length) = list.length :=
    Bytes.ofBig_big (lt_of_lt_of_eq h.1 (by decide))
  rw [decodePeerList, appendPeerList, List.append_assoc, if_neg (by simp [hfour]),
    List.take_left' hfour, List.drop_left' hfour, hcount, decodePeers_flatMap list rest h.2]

theorem decodeNumber_big {n : Nat} (h : n < 2 ^ 63) : decodeNumber (Bytes.big 8 n) = some n := by
  have height := Bytes.length_big 8 n
  have hread : Bytes.ofBig (Bytes.big 8 n) = n :=
    Bytes.ofBig_big (lt_of_lt_of_le h (by decide))
  rw [decodeNumber, if_neg (by omega), List.take_of_length_le height.le]
  simp only [hread, if_pos h]

theorem read_magic (op : UInt8) (rest : List UInt8) :
    isConfigBytes (configMagic ++ op :: rest) = true ∧
      (configMagic ++ op :: rest).drop 4 = op :: rest := by
  simp [isConfigBytes, configMagic]

/-- **A command is read back** from its bytes. -/
theorem read_encode {cmd : Command NodeID} (h : cmd.Fits) : read cmd.encode = .command cmd := by
  cases cmd with
  | user payload =>
    have hno : isConfigBytes payload = false := h
    simp only [encode, read, hno]
    rfl
  | config op =>
    -- the contents behind the operation start with some byte in every case
    have hlist : ∀ list : List (PeerConfig NodeID), ∀ rest,
        ∃ b bs, appendPeerList list ++ rest = b :: bs := fun list rest =>
      List.exists_cons_of_length_pos (by simp [appendPeerList])
    have hnumber : ∀ n < 2 ^ 63, ∃ b bs, Bytes.big 8 n = b :: bs ∧ decodeNumber (b :: bs) = some n := by
      intro n hn
      obtain ⟨b, bs, hbytes⟩ := List.exists_cons_of_length_pos (l := Bytes.big 8 n) (by simp)
      exact ⟨b, bs, hbytes, hbytes ▸ decodeNumber_big hn⟩
    cases op with
    | add peer =>
      obtain ⟨hmagic, hdrop⟩ := read_magic 0x01 (peerFlags peer :: peer.id)
      simp only [encode, encodeConfigEntry, List.append_assoc, List.cons_append, List.nil_append,
        read, hmagic, hdrop, peerRoles_peerFlags, if_true]
      rfl
    | remove id =>
      rfl
    | joint old new =>
      obtain ⟨b, bs, hbytes⟩ := hlist old (appendPeerList new)
      obtain ⟨hmagic, hdrop⟩ := read_magic 0x03 (b :: bs)
      have hread : decodePeerLists (b :: bs) = some (old, new) := by
        have hnew := decodePeerList_append [] h.2
        rw [List.append_nil] at hnew
        rw [← hbytes, decodePeerLists, decodePeerList_append _ h.1]
        simp only [Option.bind_some, hnew, Option.map_some]
      simp only [encode, List.append_assoc, List.cons_append, List.nil_append, hbytes, read, hmagic,
        hdrop, hread]
      rfl
    | finalise members =>
      obtain ⟨b, bs, hbytes⟩ := hlist members []
      rw [List.append_nil] at hbytes
      obtain ⟨hmagic, hdrop⟩ := read_magic 0x04 (b :: bs)
      have hread : decodePeerList (b :: bs) = some (members, []) := by
        have := decodePeerList_append [] h
        rwa [List.append_nil, hbytes] at this
      simp only [encode, List.append_assoc, List.cons_append, List.nil_append, hbytes, read, hmagic,
        hdrop, hread]
      rfl
    | clientTableCap capacity =>
      obtain ⟨b, bs, hbytes, hread⟩ := hnumber capacity h
      obtain ⟨hmagic, hdrop⟩ := read_magic 0x05 (b :: bs)
      simp only [encode, encodeNumberEntry, List.append_assoc, List.cons_append, List.nil_append,
        hbytes, read, hmagic, hdrop, hread]
      rfl
    | commitQuorum quorum =>
      obtain ⟨b, bs, hbytes, hread⟩ := hnumber quorum h
      obtain ⟨hmagic, hdrop⟩ := read_magic 0x06 (b :: bs)
      simp only [encode, encodeNumberEntry, List.append_assoc, List.cons_append, List.nil_append,
        hbytes, read, hmagic, hdrop, hread]
      rfl

end Command

end Raft
