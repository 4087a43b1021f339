import Raft.Slices
import Raft.Storage
import Raft.Wire.Commands

/-!
# The decoders of configuration entries

`Command.read` says what the core makes of an entry as a whole.  Underneath it are five
decoders, and a sixth for the membership a snapshot carries, given here with every read of
a slice checked.

The fields that hold the length of an identity and of a list have a fixed width, and
nothing checks an identity before it is written.  An entry with lists is read back exactly
when its identities are shorter than 65536 bytes and its lists have fewer than 2³² members.
-/

namespace Raft

namespace ConfigEntry

open Slice Command

/-! ## Decoders -/

variable (cmd : List UInt8)

def isConfigEntry : Checked Bool :=
  if cmd.length < 5 then pure false
  else do
    let front ← upTo cmd 4
    pure (front = configMagic)

/-- An entry that names a member.  The operation is not looked at, so other entries pass as
well. -/
def decodeConfigEntry : Checked (Option (UInt8 × PeerConfig NodeID)) := do
  if !(← isConfigEntry cmd) || cmd.length < 6 then pure none
  else
    let id ← after cmd 6
    let flags ← byteAt cmd 5
    let op ← byteAt cmd 4
    pure (some (op, ⟨id, (peerRoles flags).1, (peerRoles flags).2⟩))

def decodePeers : Nat → List UInt8 → Checked (Option (List (PeerConfig NodeID) × List UInt8))
  | 0, buf => pure (some ([], buf))
  | n + 1, buf =>
    if buf.length < 3 then pure none
    else do
      let idLen ← big 2 buf
      let buf ← after buf 2
      let flags ← byteAt buf 0
      let buf ← after buf 1
      if buf.length < idLen then pure none
      else
        let id ← upTo buf idLen
        let buf ← after buf idLen
        let rest ← decodePeers n buf
        pure (rest.map fun (ps, rest) =>
          (⟨id, (peerRoles flags).1, (peerRoles flags).2⟩ :: ps, rest))

variable (buf : List UInt8)

def decodePeerList : Checked (Option (List (PeerConfig NodeID) × List UInt8)) :=
  if buf.length < 4 then pure none
  else do
    let n ← big 4 buf
    let buf ← after buf 4
    decodePeers n buf

def decodeJointConfigEntry :
    Checked (Option (List (PeerConfig NodeID) × List (PeerConfig NodeID))) := do
  if !(← isConfigEntry cmd) then pure none
  else if (← byteAt cmd 4) ≠ 0x03 then pure none
  else
    match ← decodePeerList (← after cmd 5) with
    | none => pure none
    | some (old, rest) =>
      match ← decodePeerList rest with
      | none => pure none
      | some (new, _) => pure (some (old, new))

def decodeFinaliseConfigEntry : Checked (Option (List (PeerConfig NodeID))) := do
  if !(← isConfigEntry cmd) then pure none
  else if (← byteAt cmd 4) ≠ 0x04 then pure none
  else
    match ← decodePeerList (← after cmd 5) with
    | none => pure none
    | some (members, _) => pure (some members)

def decodeNumberEntry (op : UInt8) (cmd : List UInt8) : Checked (Option Nat) := do
  if !(← isConfigEntry cmd) then pure none
  else if (← byteAt cmd 4) ≠ op || cmd.length < 13 then pure none
  else
    let v ← big 8 (← after cmd 5)
    pure (if v < 2 ^ 63 then some v else none)

def decodeClientTableCapEntry : List UInt8 → Checked (Option Nat) := decodeNumberEntry 0x05

def decodeCommitQuorumEntry : List UInt8 → Checked (Option Nat) := decodeNumberEntry 0x06

/-! ## The membership of a snapshot -/

variable (ms : MembershipState NodeID)

def encodeLists : List UInt8 :=
  if ms.joint then 1 :: (appendPeerList ms.old ++ appendPeerList ms.new)
  else 0 :: appendPeerList ms.members

/-- The membership a snapshot carries: the lists and the commit quorum. -/
def encodeMembership : List UInt8 :=
  encodeLists ms ++ Bytes.big 8 ms.commitQuorum

/-- The commit quorum behind the lists: none in fewer than eight bytes. -/
def withQuorum (rest : List UInt8) : Checked (Option (MembershipState NodeID)) :=
  if rest.length < 8 then pure (some ms)
  else do
    let v ← big 8 rest
    pure (if v < 2 ^ 63 then some { ms with commitQuorum := v } else none)

def decodeMembership : Checked (Option (MembershipState NodeID)) :=
  if buf.length < 1 then pure none
  else do
    let kind ← byteAt buf 0
    let lists ← after buf 1
    if kind = 0 then
      match ← decodePeerList lists with
      | none => pure none
      | some (members, rest) => withQuorum ⟨false, members, [], [], 0⟩ rest
    else if kind = 1 then
      match ← decodePeerList lists with
      | none => pure none
      | some (old, rest) =>
        match ← decodePeerList rest with
        | none => pure none
        | some (new, rest) => withQuorum ⟨true, [], old, new, 0⟩ rest
    else pure none

/-! ## No read is out of range -/

theorem decodePeers_eq (n : Nat) (buf : List UInt8) :
    decodePeers n buf = .ok (Command.decodePeers n buf) := by
  induction n generalizing buf with
  | zero => rfl
  | succ n ih =>
    match buf with
    | [] | [_] | [_, _] => rfl
    | hi :: lo :: flags :: buf =>
      have hshort : ¬ (hi :: lo :: flags :: buf).length < 3 := by simp
      have hlen : big 2 (hi :: lo :: flags :: buf) = .ok (Bytes.ofBig [hi, lo]) :=
        big_of_le (by simp)
      have htwo : after (hi :: lo :: flags :: buf) 2 = .ok (flags :: buf) := after_of_le (by simp)
      have hflags : byteAt (flags :: buf) 0 = .ok flags := rfl
      have hone : after (flags :: buf) 1 = .ok buf := after_of_le (by simp)
      rw [decodePeers, if_neg hshort, Command.decodePeers]
      simp only [hlen, htwo, hflags, hone, bind, Except.bind]
      split_ifs with hcut
      · rfl
      · rw [upTo_of_le (by omega), after_of_le (by omega)]
        simp only [ih]
        rfl

theorem decodePeerList_eq : decodePeerList buf = .ok (Command.decodePeerList buf) := by
  unfold decodePeerList Command.decodePeerList
  split_ifs with hshort
  · rfl
  · rw [big_of_le (by omega), after_of_le (by omega)]
    exact decodePeers_eq _ _

theorem isConfigEntry_eq : isConfigEntry cmd = .ok (isConfigBytes cmd) := by
  unfold isConfigEntry isConfigBytes
  by_cases hshort : cmd.length < 5
  · rw [if_pos hshort]
    have hno : ¬ 5 ≤ cmd.length := by omega
    simp only [hno, false_and, decide_false]
    rfl
  · have hlong : 5 ≤ cmd.length := by omega
    rw [if_neg hshort, upTo_of_le (by omega)]
    simp only [hlong, true_and]
    rfl

variable {b rest : List UInt8} {n : Nat} {id : NodeID}

theorem exists_of_isConfigBytes (h : isConfigBytes b = true) :
    ∃ op rest, b = configMagic ++ op :: rest := by
  simp only [isConfigBytes, decide_eq_true_eq] at h
  obtain ⟨hlen, hfront⟩ := h
  rcases hdrop : b.drop 4 with - | ⟨op, rest⟩
  · have := congrArg List.length hdrop
    rw [List.length_drop, List.length_nil] at this
    omega
  · exact ⟨op, rest, by rw [← hfront, ← hdrop, List.take_append_drop]⟩

section Entry

variable (op : UInt8) (rest : List UInt8)

theorem isConfigEntry_magic : isConfigEntry (configMagic ++ op :: rest) = .ok true := by
  rw [isConfigEntry_eq, (read_magic op rest).1]

theorem byteAt_magic : byteAt (configMagic ++ op :: rest) 4 = .ok op := rfl

theorem after_magic : after (configMagic ++ op :: rest) 5 = .ok rest := after_of_le (by simp [configMagic])

theorem decodeConfigEntry_magic : decodeConfigEntry (configMagic ++ op :: rest) =
    .ok (match rest with
      | [] => none
      | flags :: id => some (op, ⟨id, (peerRoles flags).1, (peerRoles flags).2⟩)) := by
  unfold decodeConfigEntry
  rw [isConfigEntry_magic]
  cases rest with
  | nil => rfl
  | cons flags id =>
    rfl

theorem decodeJointConfigEntry_magic : decodeJointConfigEntry (configMagic ++ op :: rest) =
    .ok (if op = 0x03 then decodePeerLists rest else none) := by
  unfold decodeJointConfigEntry
  rw [isConfigEntry_magic]
  simp only [bind, Except.bind, byteAt_magic, after_magic, decodePeerList_eq]
  by_cases hop : op = 0x03
  · simp only [hop, decodePeerLists]
    rcases Command.decodePeerList rest with - | ⟨old, rest'⟩
    · rfl
    · simp only [Option.bind_some]
      rcases Command.decodePeerList rest' with - | ⟨new, rest''⟩ <;> rfl
  · simp [hop, pure, Except.pure]

theorem decodeFinaliseConfigEntry_magic : decodeFinaliseConfigEntry (configMagic ++ op :: rest) =
    .ok (if op = 0x04 then (Command.decodePeerList rest).map (·.1) else none) := by
  unfold decodeFinaliseConfigEntry
  rw [isConfigEntry_magic]
  simp only [bind, Except.bind, byteAt_magic, after_magic, decodePeerList_eq]
  by_cases hop : op = 0x04
  · simp only [hop]
    rcases Command.decodePeerList rest with - | ⟨members, rest'⟩ <;> rfl
  · simp [hop, pure, Except.pure]

theorem decodeNumberEntry_magic (k : UInt8) : decodeNumberEntry k (configMagic ++ op :: rest) =
    .ok (if op = k then decodeNumber rest else none) := by
  have hlen : (configMagic ++ op :: rest).length = rest.length + 5 := by simp [configMagic]
  unfold decodeNumberEntry
  rw [isConfigEntry_magic]
  simp only [bind, Except.bind, byteAt_magic, after_magic, hlen, decodeNumber]
  by_cases hop : op = k
  · by_cases hshort : rest.length < 8
    · have hcut : rest.length + 5 < 13 := by omega
      simp [hop, hshort, hcut, pure, Except.pure]
    · have hcut : ¬ rest.length + 5 < 13 := by omega
      simp [hop, hshort, hcut, pure, Except.pure, big_of_le (show 8 ≤ rest.length by omega)]
  · simp [hop, pure, Except.pure]

end Entry

theorem refused_of_not_config (h : isConfigBytes b = false) :
    decodeConfigEntry b = .ok none ∧ decodeJointConfigEntry b = .ok none ∧
      decodeFinaliseConfigEntry b = .ok none ∧ ∀ k, decodeNumberEntry k b = .ok none := by
  have hno := isConfigEntry_eq b
  rw [h] at hno
  simp only [decodeConfigEntry, decodeJointConfigEntry, decodeFinaliseConfigEntry, decodeNumberEntry,
    hno]
  exact ⟨rfl, rfl, rfl, fun _ => rfl⟩

def quorumBehind (rest : List UInt8) : Option Nat :=
  if rest.length < 8 then some 0 else decodeNumber rest

def readMembership : List UInt8 → Option (MembershipState NodeID)
  | [] => none
  | kind :: lists =>
    if kind = 0 then
      (Command.decodePeerList lists).bind fun (members, rest) =>
        (quorumBehind rest).map (⟨false, members, [], [], ·⟩)
    else if kind = 1 then
      (Command.decodePeerList lists).bind fun (old, rest) =>
        (Command.decodePeerList rest).bind fun (new, rest) =>
          (quorumBehind rest).map (⟨true, [], old, new, ·⟩)
    else none

theorem withQuorum_eq {ms : MembershipState NodeID} (h : ms.commitQuorum = 0)
    (rest : List UInt8) : withQuorum ms rest =
      .ok ((quorumBehind rest).map fun quorum => { ms with commitQuorum := quorum }) := by
  obtain ⟨joint, members, old, new, quorum⟩ := ms
  obtain rfl : quorum = 0 := h
  unfold withQuorum quorumBehind decodeNumber
  by_cases hshort : rest.length < 8
  · simp [hshort, pure, Except.pure]
  · have hbig := big_of_le (show 8 ≤ rest.length by omega)
    by_cases hv : Bytes.ofBig (rest.take 8) < 2 ^ 63 <;>
      simp only [hshort, hv, hbig, pure, Except.pure, bind, Except.bind, if_true, if_false] <;> rfl

theorem decodeMembership_eq : decodeMembership buf = .ok (readMembership buf) := by
  cases buf with
  | nil => rfl
  | cons kind lists =>
    have hkind : byteAt (kind :: lists) 0 = .ok kind := rfl
    have hlists : after (kind :: lists) 1 = .ok lists := after_of_le (by simp)
    unfold decodeMembership
    simp only [hkind, hlists, bind, Except.bind, decodePeerList_eq, readMembership]
    rw [if_neg (show ¬ (kind :: lists).length < 1 by simp)]
    split_ifs
    · rcases Command.decodePeerList lists with - | ⟨members, rest⟩
      · rfl
      · exact withQuorum_eq rfl rest
    · rcases Command.decodePeerList lists with - | ⟨old, rest⟩
      · rfl
      · simp only [Option.bind_some]
        rcases Command.decodePeerList rest with - | ⟨new, rest'⟩
        · rfl
        · exact withQuorum_eq rfl rest'
    · rfl

/-! ## Kinds of entries -/

/-- The kinds of configuration entries. -/
inductive Kind
  | add
  | remove
  | joint
  | finalise
  | clientTableCap
  | commitQuorum
  deriving DecidableEq, Repr

def Kind.opcode : Kind → UInt8
  | .add => 0x01
  | .remove => 0x02
  | .joint => 0x03
  | .finalise => 0x04
  | .clientTableCap => 0x05
  | .commitQuorum => 0x06

theorem Kind.opcode_injective : Function.Injective Kind.opcode := by
  intro k k' h
  cases k <;> cases k' <;> first | rfl | exact absurd h (by decide)

def kindOf : ConfigOp NodeID → Kind
  | .add _ => .add
  | .remove _ => .remove
  | .joint _ _ => .joint
  | .finalise _ => .finalise
  | .clientTableCap _ => .clientTableCap
  | .commitQuorum _ => .commitQuorum

/-- **The entry of a kind** that some bytes are taken for. -/
def decodeAs : Kind → List UInt8 → Checked (Option (ConfigOp NodeID))
  | .add, b => (decodeConfigEntry b).map (·.bind fun (op, peer) =>
      if op = 0x01 then some (.add peer) else none)
  | .remove, b => (decodeConfigEntry b).map (·.bind fun (op, peer) =>
      if op = 0x02 then some (.remove peer.id) else none)
  | .joint, b => (decodeJointConfigEntry b).map (·.map fun (old, new) => .joint old new)
  | .finalise, b => (decodeFinaliseConfigEntry b).map (·.map .finalise)
  | .clientTableCap, b => (decodeClientTableCapEntry b).map (·.map .clientTableCap)
  | .commitQuorum, b => (decodeCommitQuorumEntry b).map (·.map .commitQuorum)

def contents : Kind → List UInt8 → Option (ConfigOp NodeID)
  | .add, rest => rest.head?.map fun flags =>
      .add ⟨rest.tail, (peerRoles flags).1, (peerRoles flags).2⟩
  | .remove, rest => rest.head?.map fun _ => .remove rest.tail
  | .joint, rest => (decodePeerLists rest).map fun (old, new) => .joint old new
  | .finalise, rest => (Command.decodePeerList rest).map fun (members, _) => .finalise members
  | .clientTableCap, rest => (decodeNumber rest).map .clientTableCap
  | .commitQuorum, rest => (decodeNumber rest).map .commitQuorum

theorem decodeAs_magic (k : Kind) (op : UInt8) (rest : List UInt8) :
    decodeAs k (configMagic ++ op :: rest) =
      .ok (if op = k.opcode then contents k rest else none) := by
  cases k <;> simp only [decodeAs, decodeClientTableCapEntry, decodeCommitQuorumEntry,
    decodeConfigEntry_magic, decodeJointConfigEntry_magic, decodeFinaliseConfigEntry_magic,
    decodeNumberEntry_magic, Kind.opcode]
  case add | remove => cases rest <;> split_ifs with h <;> simp [Except.map, contents, h]
  all_goals split_ifs with h <;> simp [Except.map, contents, h, Function.comp_def]

theorem decodeAs_of_not_config (h : isConfigBytes b = false) (k : Kind) :
    decodeAs k b = .ok none := by
  obtain ⟨hone, hjoint, hfinalise, hnumber⟩ := refused_of_not_config h
  cases k <;> simp only [decodeAs, hone, hjoint, hfinalise, hnumber, decodeClientTableCapEntry,
    decodeCommitQuorumEntry] <;> rfl

theorem decodeAs_eq_some_iff {k : Kind} {op : ConfigOp NodeID} :
    decodeAs k b = .ok (some op) ↔
      ∃ rest, b = configMagic ++ k.opcode :: rest ∧ contents k rest = some op := by
  constructor
  · intro h
    cases hconfig : isConfigBytes b with
    | false =>
      rw [decodeAs_of_not_config hconfig] at h
      cases h
    | true =>
      obtain ⟨o, rest, rfl⟩ := exists_of_isConfigBytes hconfig
      rw [decodeAs_magic] at h
      split_ifs at h with ho
      · exact ⟨rest, by rw [ho], Except.ok.inj h⟩
      · cases h
  · rintro ⟨rest, rfl, hop⟩
    rw [decodeAs_magic, if_pos rfl, hop]

/-! ## What the bytes spell -/

/-- Some bytes spell out a list of members. -/
inductive Spells : List (PeerConfig NodeID) → List UInt8 → Prop
  | nil : Spells [] []
  | cons {ps : List (PeerConfig NodeID)} {bs : List UInt8} (flags : UInt8) (id : NodeID)
      (hid : id.length < 2 ^ 16) (h : Spells ps bs) :
      Spells (⟨id, (peerRoles flags).1, (peerRoles flags).2⟩ :: ps)
        (Bytes.big 2 id.length ++ flags :: id ++ bs)

def SpellsList (list : List (PeerConfig NodeID)) (bs : List UInt8) : Prop :=
  list.length < 2 ^ 32 ∧ ∃ members, Spells list members ∧ bs = Bytes.big 4 list.length ++ members

theorem spells_of_decodePeers {buf : List UInt8} {ps : List (PeerConfig NodeID)}
    (h : Command.decodePeers n buf = some (ps, rest)) :
    ps.length = n ∧ ∃ bs, Spells ps bs ∧ buf = bs ++ rest := by
  induction n generalizing buf ps with
  | zero =>
    cases h
    exact ⟨rfl, [], .nil, rfl⟩
  | succ n ih =>
    match buf, h with
    | hi :: lo :: flags :: buf, h =>
      rw [Command.decodePeers] at h
      split_ifs at h with hcut
      · obtain ⟨⟨ps', rest'⟩, hrec, heq⟩ := Option.map_eq_some_iff.mp h
        cases heq
        obtain ⟨hlen, bs, hbs, hbuf⟩ := ih hrec
        have hid : (buf.take (Bytes.ofBig [hi, lo])).length = Bytes.ofBig [hi, lo] :=
          List.length_take_of_le (by omega)
        have hshort : (buf.take (Bytes.ofBig [hi, lo])).length < 2 ^ 16 := by
          have hlt : Bytes.ofBig [hi, lo] < 256 ^ 2 := Bytes.ofBig_lt [hi, lo]
          omega
        refine ⟨by rw [List.length_cons, hlen], _, .cons flags _ hshort hbs, ?_⟩
        -- the two bytes of the length are the length written again
        have hbig : Bytes.big 2 (Bytes.ofBig [hi, lo]) = [hi, lo] := Bytes.big_ofBig [hi, lo]
        rw [hid, hbig, List.append_assoc, ← hbuf]
        simp only [List.cons_append, List.nil_append, List.take_append_drop]

theorem spellsList_of_decodePeerList {buf : List UInt8} {list : List (PeerConfig NodeID)}
    (h : Command.decodePeerList buf = some (list, rest)) :
    ∃ bs, SpellsList list bs ∧ buf = bs ++ rest := by
  unfold Command.decodePeerList at h
  split_ifs at h with hshort
  · obtain ⟨hlen, members, hmembers, hbuf⟩ := spells_of_decodePeers h
    have hfour : (buf.take 4).length = 4 := List.length_take_of_le (by omega)
    have hlt := Bytes.ofBig_lt (buf.take 4)
    have hbig := Bytes.big_ofBig (buf.take 4)
    rw [hfour] at hlt hbig
    refine ⟨_, ⟨by rw [hlen]; exact hlt, members, hmembers, rfl⟩, ?_⟩
    rw [hlen, hbig, List.append_assoc, ← hbuf, List.take_append_drop]

theorem Spells.fits {ps : List (PeerConfig NodeID)} {bs : List UInt8} (h : Spells ps bs) :
    ∀ p ∈ ps, p.id.length < 2 ^ 16 := by
  induction h with
  | nil => simp
  | cons flags id hid _ ih => exact List.forall_mem_cons.mpr ⟨hid, ih⟩

theorem SpellsList.fits {list : List (PeerConfig NodeID)} {bs : List UInt8}
    (h : SpellsList list bs) : ListFits list := by
  obtain ⟨hlen, members, hmembers, -⟩ := h
  exact ⟨hlen, hmembers.fits⟩

/-- Every member and number of an entry stands in its bytes. -/
def Spelled : ConfigOp NodeID → List UInt8 → Prop
  | .add peer, b => ∃ flags, peerRoles flags = (peer.voter, peer.witness) ∧
      b = configMagic ++ 0x01 :: flags :: peer.id
  | .remove id, b => ∃ flags, b = configMagic ++ 0x02 :: flags :: id
  | .joint old new, b => ∃ bs bs' rest, SpellsList old bs ∧ SpellsList new bs' ∧
      b = configMagic ++ 0x03 :: (bs ++ bs' ++ rest)
  | .finalise members, b => ∃ bs rest, SpellsList members bs ∧
      b = configMagic ++ 0x04 :: (bs ++ rest)
  | .clientTableCap capacity, b => ∃ rest, b = configMagic ++ 0x05 :: (Bytes.big 8 capacity ++ rest)
  | .commitQuorum quorum, b => ∃ rest, b = configMagic ++ 0x06 :: (Bytes.big 8 quorum ++ rest)

def SpelledMembership (b : List UInt8) : Prop :=
  ∃ rest, quorumBehind rest = some ms.commitQuorum ∧
    if ms.joint then ms.members = [] ∧ ∃ bs bs', SpellsList ms.old bs ∧ SpellsList ms.new bs' ∧
      b = 1 :: (bs ++ bs' ++ rest)
    else (ms.old = [] ∧ ms.new = []) ∧ ∃ bs, SpellsList ms.members bs ∧ b = 0 :: (bs ++ rest)

theorem spelled_number (h : decodeNumber rest = some n) :
    n < 2 ^ 63 ∧ ∃ rest', rest = Bytes.big 8 n ++ rest' := by
  simp only [decodeNumber] at h
  split_ifs at h with hshort hlt
  cases h
  have height : (rest.take 8).length = 8 := List.length_take_of_le (by omega)
  have hbig := Bytes.big_ofBig (rest.take 8)
  rw [height] at hbig
  exact ⟨hlt, rest.drop 8, by rw [hbig, List.take_append_drop]⟩

theorem spelled_lists {old new : List (PeerConfig NodeID)}
    (h : decodePeerLists rest = some (old, new)) :
    ∃ bs bs' rest', SpellsList old bs ∧ SpellsList new bs' ∧ rest = bs ++ bs' ++ rest' := by
  simp only [decodePeerLists, Option.bind_eq_some_iff, Option.map_eq_some_iff] at h
  obtain ⟨⟨old', rest₁⟩, hold, ⟨new', rest₂⟩, hnew, heq⟩ := h
  cases heq
  obtain ⟨bs, hbs, rfl⟩ := spellsList_of_decodePeerList hold
  obtain ⟨bs', hbs', rfl⟩ := spellsList_of_decodePeerList hnew
  exact ⟨bs, bs', rest₂, hbs, hbs', by rw [List.append_assoc]⟩

/-- **No member comes from nowhere**: what a decoder accepts stands in the bytes. -/
theorem spelled_of_contents {k : Kind} {op : ConfigOp NodeID} (h : contents k rest = some op) :
    kindOf op = k ∧ Spelled op (configMagic ++ k.opcode :: rest) := by
  cases k with
  | add =>
    obtain ⟨flags, hhead, rfl⟩ := Option.map_eq_some_iff.mp h
    obtain ⟨id, rfl⟩ := List.head?_eq_some_iff.mp hhead
    exact ⟨rfl, flags, rfl, rfl⟩
  | remove =>
    obtain ⟨flags, hhead, rfl⟩ := Option.map_eq_some_iff.mp h
    obtain ⟨id, rfl⟩ := List.head?_eq_some_iff.mp hhead
    exact ⟨rfl, flags, rfl⟩
  | joint =>
    obtain ⟨⟨old, new⟩, hlists, rfl⟩ := Option.map_eq_some_iff.mp h
    obtain ⟨bs, bs', rest', hold, hnew, rfl⟩ := spelled_lists hlists
    exact ⟨rfl, bs, bs', rest', hold, hnew, rfl⟩
  | finalise =>
    obtain ⟨⟨members, rest'⟩, hlist, rfl⟩ := Option.map_eq_some_iff.mp h
    obtain ⟨bs, hmembers, rfl⟩ := spellsList_of_decodePeerList hlist
    exact ⟨rfl, bs, rest', hmembers, rfl⟩
  | clientTableCap | commitQuorum =>
    obtain ⟨n, hn, rfl⟩ := Option.map_eq_some_iff.mp h
    obtain ⟨-, rest', rfl⟩ := spelled_number hn
    exact ⟨rfl, rest', rfl⟩

theorem spelledMembership_of_read {ms : MembershipState NodeID} (h : readMembership b = some ms) :
    SpelledMembership ms b := by
  match b, h with
  | kind :: lists, h =>
    rw [readMembership] at h
    split_ifs at h with hplain hjoint
    · simp only [Option.bind_eq_some_iff, Option.map_eq_some_iff] at h
      obtain ⟨⟨members, rest⟩, hlist, quorum, hquorum, rfl⟩ := h
      obtain ⟨bs, hbs, rfl⟩ := spellsList_of_decodePeerList hlist
      exact ⟨rest, hquorum, ⟨rfl, rfl⟩, bs, hbs, by rw [hplain]⟩
    · simp only [Option.bind_eq_some_iff, Option.map_eq_some_iff] at h
      obtain ⟨⟨old, rest⟩, hold, ⟨new, rest'⟩, hnew, quorum, hquorum, rfl⟩ := h
      obtain ⟨bs, hbs, rfl⟩ := spellsList_of_decodePeerList hold
      obtain ⟨bs', hbs', rfl⟩ := spellsList_of_decodePeerList hnew
      exact ⟨rest', hquorum, rfl, bs, bs', hbs, hbs', by rw [hjoint, List.append_assoc]⟩

/-! ## What is read back -/

def body : ConfigOp NodeID → List UInt8
  | .add peer => peerFlags peer :: peer.id
  | .remove id => peerFlags ⟨id, false, false⟩ :: id
  | .joint old new => appendPeerList old ++ appendPeerList new
  | .finalise members => appendPeerList members
  | .clientTableCap capacity => Bytes.big 8 capacity
  | .commitQuorum quorum => Bytes.big 8 quorum

theorem encode_eq (op : ConfigOp NodeID) :
    (Command.config op).encode = configMagic ++ (kindOf op).opcode :: body op := by
  cases op <;> simp [encode, encodeConfigEntry, encodeNumberEntry, body, kindOf, Kind.opcode]

theorem decodeNumber_big_iff : decodeNumber (Bytes.big 8 n) = some n ↔ n < 2 ^ 63 :=
  ⟨fun h => (spelled_number h).1, decodeNumber_big⟩

theorem contents_body_iff (op : ConfigOp NodeID) :
    contents (kindOf op) (body op) = some op ↔ (Command.config op).Fits := by
  cases op with
  | add peer | remove id =>
    simp only [contents, kindOf, body, List.head?_cons, List.tail_cons, Option.map_some,
      peerRoles_peerFlags, Fits]
  | joint old new =>
    constructor
    · intro h
      obtain ⟨⟨old', new'⟩, hlists, heq⟩ := Option.map_eq_some_iff.mp h
      obtain ⟨rfl, rfl⟩ := ConfigOp.joint.inj heq
      obtain ⟨_, _, _, hold, hnew, -⟩ := spelled_lists hlists
      exact ⟨hold.fits, hnew.fits⟩
    · rintro ⟨hold, hnew⟩
      have hread := decodePeerList_append [] hnew
      rw [List.append_nil] at hread
      simp only [contents, kindOf, body, decodePeerLists, decodePeerList_append _ hold,
        Option.bind_some, hread, Option.map_some]
  | finalise members =>
    constructor
    · intro h
      obtain ⟨⟨members', rest⟩, hlist, heq⟩ := Option.map_eq_some_iff.mp h
      obtain rfl := ConfigOp.finalise.inj heq
      obtain ⟨_, hbs, -⟩ := spellsList_of_decodePeerList hlist
      exact hbs.fits
    · intro hfits
      have hread := decodePeerList_append [] (show ListFits members from hfits)
      rw [List.append_nil] at hread
      simp only [contents, kindOf, body, hread, Option.map_some]
  | clientTableCap capacity | commitQuorum quorum =>
    simp only [contents, kindOf, body, Option.map_eq_some_iff, ConfigOp.clientTableCap.injEq,
      ConfigOp.commitQuorum.injEq, exists_eq_right, decodeNumber_big_iff, Fits]

/-- An entry is read back by the decoder for it, and the decoders for the other kinds refuse
it. -/
structure EntrySound (op : ConfigOp NodeID) : Prop where
  back : decodeAs (kindOf op) (Command.config op).encode = .ok (some op)
  only : ∀ k ≠ kindOf op, decodeAs k (Command.config op).encode = .ok none

theorem entrySound_iff_contents (op : ConfigOp NodeID) :
    EntrySound op ↔ contents (kindOf op) (body op) = some op := by
  have hown : decodeAs (kindOf op) (Command.config op).encode =
      .ok (contents (kindOf op) (body op)) := by
    rw [encode_eq, decodeAs_magic, if_pos rfl]
  constructor
  · intro h
    have hback := h.back
    rw [hown] at hback
    exact Except.ok.inj hback
  · intro h
    refine ⟨by rw [hown, h], fun k hk => ?_⟩
    have hop : (kindOf op).opcode ≠ k.opcode := fun heq => hk (Kind.opcode_injective heq).symm
    rw [encode_eq, decodeAs_magic, if_neg hop]

theorem body_ne_nil (op : ConfigOp NodeID) : body op ≠ [] := by
  refine List.ne_nil_of_length_pos ?_
  cases op <;> simp only [body, appendPeerList, List.length_append, List.length_cons,
    Bytes.length_big] <;> omega

theorem decodeConfigEntry_encode (op : ConfigOp NodeID) :
    ∃ peer, decodeConfigEntry (Command.config op).encode =
      .ok (some ((kindOf op).opcode, peer)) := by
  rw [encode_eq, decodeConfigEntry_magic]
  match h : body op with
  | [] => exact absurd h (body_ne_nil op)
  | flags :: id => exact ⟨_, rfl⟩

/-- **The codec of configuration entries.** An entry is read back, and only as what it is, exactly
when it fits its length fields and its number an int. No bytes make a decoder read out of range, and
all that it reports stands in them. -/
theorem codec_sound (op : ConfigOp NodeID) (k : Kind) (b : List UInt8) :
    (EntrySound op ↔ (Command.config op).Fits) ∧
      (∃ peer, decodeConfigEntry (Command.config op).encode =
        .ok (some ((kindOf op).opcode, peer))) ∧
      (∃ reading, decodeAs k b = .ok reading) ∧
      (∃ reading, decodeMembership b = .ok reading) ∧
      (∀ op, decodeAs k b = .ok (some op) → kindOf op = k ∧ Spelled op b) ∧
      ∀ ms, decodeMembership b = .ok (some ms) → SpelledMembership ms b := by
  refine ⟨(entrySound_iff_contents op).trans (contents_body_iff op), decodeConfigEntry_encode op, ?_,
    ⟨_, decodeMembership_eq b⟩, fun op h => ?_, fun ms h => ?_⟩
  · cases hconfig : isConfigBytes b with
    | false => exact ⟨none, decodeAs_of_not_config hconfig k⟩
    | true =>
      obtain ⟨o, rest, rfl⟩ := exists_of_isConfigBytes hconfig
      exact ⟨_, decodeAs_magic k o rest⟩
  · obtain ⟨rest, rfl, hop⟩ := decodeAs_eq_some_iff.mp h
    exact spelled_of_contents hop
  · rw [decodeMembership_eq] at h
    exact spelledMembership_of_read (Except.ok.inj h)

theorem appendPeerList_long (h : id.length = 65536) :
    appendPeerList [⟨id, true, false⟩] = appendPeerList [⟨[], true, false⟩] ++ id := by
  have hlen : Bytes.big 2 65536 = Bytes.big 2 0 := by decide
  have hflags : peerFlags ⟨id, true, false⟩ = peerFlags ⟨[], true, false⟩ := rfl
  simp only [appendPeerList, List.length_singleton, List.flatMap_singleton, encodePeer, h, hflags,
    List.length_nil, hlen, List.append_assoc, List.nil_append]

theorem decodeAs_long (h : id.length = 65536) :
    decodeAs .joint (Command.config (.joint [] [⟨id, true, false⟩])).encode =
      .ok (some (.joint [] [⟨[], true, false⟩])) := by
  have hnone : ListFits [] := ⟨by decide, by simp⟩
  have hone : ListFits [⟨[], true, false⟩] := ⟨by decide, by simp⟩
  rw [encode_eq, kindOf, decodeAs_magic, if_pos rfl, body, appendPeerList_long h]
  simp only [contents, decodePeerLists, decodePeerList_append _ hnone, Option.bind_some,
    decodePeerList_append _ hone, Option.map_some]

theorem not_entrySound_long (h : id.length = 65536) :
    ¬ EntrySound (.joint [] [⟨id, true, false⟩]) := by
  intro hsound
  have hfits := (contents_body_iff _).mp ((entrySound_iff_contents _).mp hsound)
  have hlt : id.length < 2 ^ 16 := hfits.2.2 _ (List.mem_singleton.mpr rfl)
  omega

/-- A member with an identity of 65536 bytes is read as one with the empty identity. -/
theorem long_identity_not_entrySound :
    decodeAs .joint (Command.config (.joint [] [⟨List.replicate 65536 0, true, false⟩])).encode =
        .ok (some (.joint [] [⟨[], true, false⟩])) ∧
      ¬ EntrySound (.joint [] [⟨List.replicate 65536 0, true, false⟩]) :=
  ⟨decodeAs_long List.length_replicate, not_entrySound_long List.length_replicate⟩

end ConfigEntry

end Raft
