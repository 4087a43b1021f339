import Raft.Snapshot.Save
import Raft.Wire.ConfigEntries

/-!
# The frame of a snapshot

In front of the bytes of the state machine a snapshot carries the client table, the
membership and the bound of the table.  Three layouts are read, of which the third, with
all of these, is written.

Nothing checks that lengths fit their fields, so a frame is read back exactly when they do.
The writer does not look at whether there is a membership to write: what is cut down for a
witness from a snapshot without one says that the group has no members.
-/

namespace Raft

namespace Frame

open ConfigEntry Command

def encodeRecord (r : ClientRecord) : List UInt8 :=
  Bytes.little 2 r.1.length ++ r.1 ++ Bytes.little 8 r.2.seqNum ++
    Bytes.little 4 r.2.result.length ++ r.2.result

def encodeClientTable (table : List ClientRecord) : List UInt8 :=
  Bytes.little 4 table.length ++ table.flatMap encodeRecord

def decodeRecords (i : Nat) : Nat → List UInt8 → Except String (List ClientRecord)
  | 0, _ => .ok []
  | n + 1, buf =>
    if buf.length < 2 then .error s!"client table: entry {i}: truncated idLen"
    else
      let idLen := Bytes.ofLittle (buf.take 2)
      let buf := buf.drop 2
      if buf.length < idLen + 12 then
        .error s!"client table: entry {i}: truncated id+seq+resLen"
      else
        let id := buf.take idLen
        let buf := buf.drop idLen
        let seqNum := Bytes.ofLittle (buf.take 8)
        let buf := buf.drop 8
        let resLen := Bytes.ofLittle (buf.take 4)
        let buf := buf.drop 4
        if buf.length < resLen then .error s!"client table: entry {i}: truncated result"
        else (decodeRecords (i + 1) n (buf.drop resLen)).map
          ((id, ⟨seqNum, buf.take resLen⟩) :: ·)

def decodeClientTable (buf : List UInt8) : Except String (List ClientRecord) :=
  if buf.length < 4 then .error "client table: buf too short"
  else decodeRecords 0 (Bytes.ofLittle (buf.take 4)) (buf.drop 4)

/-- What a snapshot carries besides the bytes of the state machine. -/
structure SnapshotFrame where
  table : List ClientRecord
  membership : MembershipState NodeID
  hasMembership : Bool
  clientTableCap : Nat
  hasClientTableCap : Bool
  deriving DecidableEq, Repr

def noMembership : MembershipState NodeID := ⟨false, [], [], [], 0⟩

def limitsBytes (frame : SnapshotFrame) : List UInt8 :=
  if frame.hasClientTableCap then Bytes.little 8 frame.clientTableCap else []

/-- The parts of the frame, encoded.  Whether there is a membership is not asked. -/
def SnapshotFrame.parts (frame : SnapshotFrame) : Raft.SnapshotFrame :=
  ⟨encodeClientTable frame.table, encodeMembership frame.membership, limitsBytes frame⟩

/-- **The bytes of a snapshot**: the frame, and what the state machine writes. -/
def writeSnapshotFrame (frame : SnapshotFrame) (sm : List UInt8) : List UInt8 :=
  frame.parts.bytes ++ sm

example : SnapshotFrame.parts ⟨[], ⟨false, [⟨[0x62], true, false⟩], [], [], 0⟩, true, 0, false⟩ =
    Attempt.smallFrame := by decide

def snapFrameMagicV1 : Nat := 0xCAFEDEADBEEFD00D

def snapFrameMagicV2 : Nat := 0xCAFEDEADBEEFD00E

/-- Reads `n` bytes; the error is that of a reader that has come to its end. -/
def readFull (n : Nat) (r : List UInt8) : Except String (List UInt8 × List UInt8) :=
  if n ≤ r.length then .ok (r.take n, r.drop n)
  else if r = [] then .error "EOF"
  else .error "unexpected EOF"

def during {α : Type} (what : String) : Except String α → Except String α
  | .ok a => .ok a
  | .error err => .error s!"{what}: {err}"

def readHeader (r : List UInt8) : Except String (List UInt8 × List UInt8) :=
  if r = [] then .error "read snap header: empty file"
  else during "read snap header" (readFull 12 r)

def readLength (r : List UInt8) : Except String (Nat × List UInt8) :=
  (during "read snap header" (readFull 4 r)).map fun (field, r) => (Bytes.ofLittle field, r)

def readMembershipPart (len : Nat) (r : List UInt8) :
    Except String (Option (MembershipState NodeID) × List UInt8) :=
  if len = 0 then .ok (none, r)
  else do
    let (bytes, r) ← during "read snap membership" (readFull len r)
    match readMembership bytes with
    | none => .error "decode snap membership: malformed"
    | some ms => .ok (some ms, r)

def readLimitsPart (len : Nat) (r : List UInt8) : Except String (Option Nat × List UInt8) :=
  if len = 0 then .ok (none, r)
  else do
    let (bytes, r) ← during "read snap limits" (readFull len r)
    if bytes.length < 8 then .error "decode snap limits: malformed"
    else if Bytes.ofLittle (bytes.take 8) < 2 ^ 63 then .ok (some (Bytes.ofLittle (bytes.take 8)), r)
    else .error "decode snap limits: client table cap out of range"

def SnapshotFrame.ofParts (table : List ClientRecord) (ms : Option (MembershipState NodeID))
    (capacity : Option Nat) : SnapshotFrame :=
  ⟨table, ms.getD noMembership, ms.isSome, capacity.getD 0, capacity.isSome⟩

def readParts (tableLen membershipLen limitsLen : Nat) (r : List UInt8) :
    Except String (SnapshotFrame × List UInt8) := do
  let (tableBytes, r) ← during "read snap table" (readFull tableLen r)
  let table ← during "decode snap table" (decodeClientTable tableBytes)
  let (ms, r) ← readMembershipPart membershipLen r
  let (capacity, r) ← readLimitsPart limitsLen r
  return (.ofParts table ms capacity, r)

/-- **Reads a frame** and returns the bytes behind it.  Bytes that start like no layout are the
state machine's. -/
def readSnapshotFrame (r : List UInt8) : Except String (SnapshotFrame × List UInt8) := do
  let (hdr, r) ← readHeader r
  let magic := Bytes.ofLittle (hdr.take 8)
  let tableLen := Bytes.ofLittle (hdr.drop 8)
  if magic = snapFrameMagicV1 then readParts tableLen 0 0 r
  else if magic = snapFrameMagicV2 then
    let (membershipLen, r) ← readLength r
    readParts tableLen membershipLen 0 r
  else if magic = snapFrameMagicV3 then
    let (membershipLen, r) ← readLength r
    let (limitsLen, r) ← readLength r
    readParts tableLen membershipLen limitsLen r
  else return (.ofParts [] none none, hdr ++ r)

/-- **What a witness is sent** of a snapshot: the frame without the table, and no bytes of the
state machine. -/
def witnessSnapshot (r : List UInt8) : Except String (List UInt8) := do
  let (frame, _) ← readSnapshotFrame r
  return writeSnapshotFrame { frame with table := [] } []

def RecordFits (r : ClientRecord) : Prop :=
  r.1.length < 2 ^ 16 ∧ r.2.seqNum < 2 ^ 64 ∧ r.2.result.length < 2 ^ 32
  deriving Decidable

/-- The table fits: line by line, in the number of lines, and as a whole. -/
structure TableFits (table : List ClientRecord) : Prop where
  records : ∀ r ∈ table, RecordFits r
  count : table.length < 2 ^ 32
  bytes : (encodeClientTable table).length < 2 ^ 32

theorem decodeRecords_flatMap (table : List ClientRecord) (i : Nat) (rest : List UInt8)
    (h : ∀ r ∈ table, RecordFits r) :
    decodeRecords i table.length (table.flatMap encodeRecord ++ rest) = .ok table := by
  induction table generalizing i with
  | nil => rfl
  | cons r table ih =>
    obtain ⟨hid, hseq, hres⟩ := h r (List.mem_cons_self ..)
    obtain ⟨id, seqNum, result⟩ := r
    have hrec := ih (i + 1) fun q hq => h q (List.mem_cons_of_mem _ hq)
    have htwo := Bytes.length_little 2 id.length
    have height := Bytes.length_little 8 seqNum
    have hfour := Bytes.length_little 4 result.length
    set tail := table.flatMap encodeRecord ++ rest with htail
    have hbytes : ((id, ⟨seqNum, result⟩) :: table).flatMap encodeRecord ++ rest =
        Bytes.little 2 id.length ++ (id ++ (Bytes.little 8 seqNum ++
          (Bytes.little 4 result.length ++ (result ++ tail)))) := by
      simp [encodeRecord, htail]
    rw [hbytes, List.length_cons, decodeRecords]
    rw [if_neg (by simp only [List.length_append, htwo]; omega), List.take_left' htwo,
      List.drop_left' htwo, Bytes.ofLittle_little (lt_of_lt_of_le hid (by decide))]
    dsimp only
    rw [if_neg (by simp only [List.length_append, height, hfour]; omega), List.take_left,
      List.drop_left, List.take_left' height, List.drop_left' height, List.take_left' hfour,
      List.drop_left' hfour, Bytes.ofLittle_little (lt_of_lt_of_le hres (by decide)),
      Bytes.ofLittle_little (lt_of_lt_of_le hseq (by decide)), if_neg (by simp), List.take_left,
      List.drop_left, hrec]
    rfl

variable {buf part r rest : List UInt8} {n : Nat} {table : List ClientRecord}
  {ms : MembershipState NodeID} {quorate : Bool} {frame : SnapshotFrame}

theorem of_decodeRecords {i : Nat} (h : decodeRecords i n buf = .ok table) :
    (∀ r ∈ table, RecordFits r) ∧ table.length = n ∧
      (table.flatMap encodeRecord).length ≤ buf.length := by
  induction n generalizing i buf table with
  | zero =>
    cases h
    simp
  | succ n ih =>
    have hfield : ∀ (bs : List UInt8) (w : Nat), Bytes.ofLittle (bs.take w) < 256 ^ w := fun bs w =>
      lt_of_lt_of_le (Bytes.ofLittle_lt _) (Nat.pow_le_pow_right (by decide) (List.length_take_le ..))
    rw [decodeRecords] at h
    dsimp only at h
    split_ifs at h with hshort hcut hres
    have hid := hfield buf 2
    -- from here only the bounds on the lengths read matter
    generalize Bytes.ofLittle (buf.take 2) = idLen at h hcut hres hid
    have hseq := hfield ((buf.drop 2).drop idLen) 8
    have hlen := hfield (((buf.drop 2).drop idLen).drop 8) 4
    generalize Bytes.ofLittle ((((buf.drop 2).drop idLen).drop 8).take 4) = resLen at h hres hlen
    simp only [List.length_drop] at hcut hres
    cases hrec : decodeRecords (i + 1) n (((((buf.drop 2).drop idLen).drop 8).drop 4).drop resLen) with
    | error err =>
      rw [hrec] at h
      cases h
    | ok rest =>
      rw [hrec] at h
      cases h
      obtain ⟨hfits, hcount, hbytes⟩ := ih hrec
      simp only [List.length_drop] at hbytes
      have hidLen : ((buf.drop 2).take idLen).length = idLen :=
        List.length_take_of_le (by rw [List.length_drop]; omega)
      have hresLen : (((((buf.drop 2).drop idLen).drop 8).drop 4).take resLen).length = resLen :=
        List.length_take_of_le (by simp only [List.length_drop]; omega)
      refine ⟨?_, by rw [List.length_cons, hcount], ?_⟩
      · refine List.forall_mem_cons.mpr ⟨?_, hfits⟩
        exact ⟨by rw [hidLen]; omega, by omega, by rw [hresLen]; omega⟩
      · simp only [List.flatMap_cons, List.length_append, encodeRecord, Bytes.length_little, hidLen,
          hresLen]
        omega

theorem decodeClientTable_encode (hcount : table.length < 2 ^ 32) (h : ∀ r ∈ table, RecordFits r) :
    decodeClientTable (encodeClientTable table) = .ok table := by
  have hfour := Bytes.length_little 4 table.length
  have hread := decodeRecords_flatMap table 0 [] h
  rw [List.append_nil] at hread
  rw [decodeClientTable, encodeClientTable, if_neg (by simp), List.take_left' hfour,
    List.drop_left' hfour, Bytes.ofLittle_little (lt_of_lt_of_le hcount (by decide)), hread]

theorem of_decodeClientTable (h : decodeClientTable buf = .ok table) :
    (∀ r ∈ table, RecordFits r) ∧ table.length < 2 ^ 32 ∧
      (encodeClientTable table).length ≤ buf.length := by
  unfold decodeClientTable at h
  split_ifs at h with hshort
  obtain ⟨hfits, hcount, hbytes⟩ := of_decodeRecords h
  have hlt := Bytes.ofLittle_lt (buf.take 4)
  have hfour : (buf.take 4).length = 4 := List.length_take_of_le (by omega)
  rw [hfour] at hlt
  rw [List.length_drop] at hbytes
  refine ⟨hfits, by omega, ?_⟩
  simp only [encodeClientTable, List.length_append, Bytes.length_little]
  omega

theorem take_field : ((part ++ r).take (part.length % 2 ^ 32)).length = part.length % 2 ^ 32 :=
  List.length_take_of_le (by
    rw [List.length_append]
    exact le_trans (Nat.mod_le _ _) (Nat.le_add_right _ _))

theorem take_field_of_lt (h : part.length < 2 ^ 32) :
    (part ++ r).take (part.length % 2 ^ 32) = part := by
  rw [Nat.mod_eq_of_lt h, List.take_left]

theorem drop_field_of_lt (h : part.length < 2 ^ 32) :
    (part ++ r).drop (part.length % 2 ^ 32) = r := by
  rw [Nat.mod_eq_of_lt h, List.drop_left]

/-- **The table is read back** from behind its length exactly when it fits. -/
theorem decodeClientTable_field_iff :
    decodeClientTable ((encodeClientTable table ++ r).take
      ((encodeClientTable table).length % 2 ^ 32)) = .ok table ↔ TableFits table := by
  constructor
  · intro h
    obtain ⟨hfits, hcount, hbytes⟩ := of_decodeClientTable h
    rw [take_field] at hbytes
    exact ⟨hfits, hcount, by omega⟩
  · intro h
    rw [take_field_of_lt h.bytes]
    exact decodeClientTable_encode h.count h.records

def Shaped (ms : MembershipState NodeID) : Prop :=
  if ms.joint then ms.members = [] else ms.old = [] ∧ ms.new = []

def ListsFit (ms : MembershipState NodeID) : Prop :=
  (if ms.joint then ListFits ms.old ∧ ListFits ms.new else ListFits ms.members) ∧
    ms.commitQuorum < 2 ^ 63
  deriving Decidable

/-- The membership as a build wrote it that knew of commit quorums, or did not. -/
def membershipBytes (quorate : Bool) (ms : MembershipState NodeID) : List UInt8 :=
  if quorate then encodeMembership ms else encodeLists ms

def withoutQuorum (quorate : Bool) (ms : MembershipState NodeID) : MembershipState NodeID :=
  if quorate then ms else { ms with commitQuorum := 0 }

/-- The membership fits, in its lists and as a whole. -/
structure MembershipFits (quorate : Bool) (ms : MembershipState NodeID) : Prop where
  lists : ListsFit (withoutQuorum quorate ms)
  bytes : (membershipBytes quorate ms).length < 2 ^ 32

theorem quorumBehind_big (h : n < 2 ^ 63) : quorumBehind (Bytes.big 8 n) = some n := by
  rw [quorumBehind, if_neg (by simp), decodeNumber_big h]

theorem quorumBehind_lt (h : quorumBehind rest = some n) : n < 2 ^ 63 := by
  unfold quorumBehind at h
  split_ifs at h
  · cases h
    decide
  · exact (spelled_number h).1

theorem readMembership_lists (hshape : Shaped ms) (h : ListsFit ms)
    (hquorum : quorumBehind rest = some ms.commitQuorum) :
    readMembership (encodeLists ms ++ rest) = some ms := by
  obtain ⟨joint, members, old, new, quorum⟩ := ms
  obtain ⟨hlists, -⟩ := h
  cases joint with
  | true =>
    obtain rfl : members = [] := hshape
    obtain ⟨hold, hnew⟩ : ListFits old ∧ ListFits new := hlists
    simp only [encodeLists, if_true, List.cons_append, List.append_assoc, readMembership,
      decodePeerList_append _ hold, decodePeerList_append _ hnew, Option.bind_some, hquorum]
    rfl
  | false =>
    obtain ⟨rfl, rfl⟩ : old = [] ∧ new = [] := hshape
    have hmembers : ListFits members := hlists
    simp only [encodeLists, Bool.false_eq_true, if_false, List.cons_append, readMembership,
      decodePeerList_append _ hmembers, Option.bind_some, hquorum]
    rfl

theorem readMembership_bytes (hshape : Shaped ms) (h : ListsFit (withoutQuorum quorate ms)) :
    readMembership (membershipBytes quorate ms) = some (withoutQuorum quorate ms) := by
  cases quorate with
  | true => exact readMembership_lists hshape h (quorumBehind_big h.2)
  | false =>
    have hread : readMembership (encodeLists { ms with commitQuorum := 0 } ++ []) =
        some { ms with commitQuorum := 0 } := readMembership_lists hshape h rfl
    rw [List.append_nil] at hread
    exact hread

theorem SpellsList.length_eq {list : List (PeerConfig NodeID)} {bs : List UInt8}
    (h : SpellsList list bs) : bs.length = (appendPeerList list).length := by
  obtain ⟨-, members, hmembers, rfl⟩ := h
  simp only [appendPeerList, List.length_append, Bytes.length_big]
  congr 1
  induction hmembers with
  | nil => rfl
  | cons flags id _ _ ih => simp [encodePeer, ih, Nat.add_assoc]

theorem of_readMembership (h : readMembership buf = some ms) :
    Shaped ms ∧ ListsFit ms ∧ (encodeLists ms).length ≤ buf.length := by
  obtain ⟨rest, hquorum, hspelled⟩ := spelledMembership_of_read h
  have hlt := quorumBehind_lt hquorum
  obtain ⟨joint, members, old, new, quorum⟩ := ms
  cases joint with
  | true =>
    obtain ⟨hnone, bs, bs', hold, hnew, rfl⟩ := hspelled
    refine ⟨hnone, ⟨⟨hold.fits, hnew.fits⟩, hlt⟩, ?_⟩
    simp only [encodeLists, if_true, List.length_cons, List.length_append,
      SpellsList.length_eq hold, SpellsList.length_eq hnew]
    omega
  | false =>
    obtain ⟨hnone, bs, hmembers, rfl⟩ := hspelled
    refine ⟨hnone, ⟨hmembers.fits, hlt⟩, ?_⟩
    simp only [encodeLists, Bool.false_eq_true, if_false, List.length_cons, List.length_append,
      SpellsList.length_eq hmembers]
    omega

theorem length_membershipBytes_le (quorate : Bool) (ms : MembershipState NodeID) :
    (membershipBytes quorate ms).length ≤ (encodeLists (withoutQuorum quorate ms)).length + 8 := by
  cases quorate <;> simp [membershipBytes, withoutQuorum, encodeMembership, encodeLists]

theorem membershipBytes_pos (quorate : Bool) (ms : MembershipState NodeID) :
    0 < (membershipBytes quorate ms).length := by
  cases quorate <;> cases h : ms.joint <;>
    simp [membershipBytes, encodeMembership, encodeLists, h]

theorem during_eq_ok {α : Type} {what : String} {x : Except String α} {a : α} :
    during what x = .ok a ↔ x = .ok a := by
  cases x <;> simp [during]

theorem readFull_eq_ok {bytes : List UInt8} :
    readFull n r = .ok (bytes, rest) ↔ n ≤ r.length ∧ bytes = r.take n ∧ rest = r.drop n := by
  unfold readFull
  split_ifs with hlen hnil
  · simp [hlen, eq_comm]
  · simp [hlen]
  · simp [hlen]

theorem bind_eq_ok {α β : Type} {x : Except String α} {f : α → Except String β} {b : β} :
    (x >>= f) = .ok b ↔ ∃ a, x = .ok a ∧ f a = .ok b := by
  cases x <;> simp [bind, Except.bind]

theorem readMembershipPart_ok_iff {len : Nat} {ms : Option (MembershipState NodeID)} :
    readMembershipPart len r = .ok (ms, rest) ↔
      (len = 0 ∧ ms = none ∧ rest = r) ∨
        (len ≠ 0 ∧ len ≤ r.length ∧ rest = r.drop len ∧
          ∃ m, readMembership (r.take len) = some m ∧ ms = some m) := by
  unfold readMembershipPart
  by_cases hlen : len = 0
  · simp [hlen, eq_comm]
  · rw [if_neg hlen]
    simp only [bind_eq_ok, during_eq_ok, Prod.exists, readFull_eq_ok]
    constructor
    · rintro ⟨bytes, rest', ⟨hle, rfl, rfl⟩, h⟩
      match hm : readMembership (r.take len), h with
      | some m, h =>
        cases h
        exact .inr ⟨hlen, hle, rfl, m, rfl, rfl⟩
    · rintro (⟨hzero, -⟩ | ⟨-, hle, rfl, m, hm, rfl⟩)
      · exact absurd hzero hlen
      · exact ⟨_, _, ⟨hle, rfl, rfl⟩, by rw [hm]⟩

theorem readLimitsPart_ok_iff {len : Nat} {capacity : Option Nat} :
    readLimitsPart len r = .ok (capacity, rest) ↔
      (len = 0 ∧ capacity = none ∧ rest = r) ∨
        (8 ≤ len ∧ len ≤ r.length ∧ rest = r.drop len ∧
          Bytes.ofLittle (r.take 8) < 2 ^ 63 ∧ capacity = some (Bytes.ofLittle (r.take 8))) := by
  unfold readLimitsPart
  by_cases hlen : len = 0
  · simp [hlen, eq_comm]
  · rw [if_neg hlen]
    simp only [bind_eq_ok, during_eq_ok, Prod.exists, readFull_eq_ok]
    constructor
    · rintro ⟨bytes, rest', ⟨hle, rfl, rfl⟩, h⟩
      split_ifs at h with hshort hlt
      rw [List.length_take] at hshort
      have hlong : 8 ≤ len := by omega
      rw [List.take_take, Nat.min_eq_left hlong] at hlt h
      cases h
      exact .inr ⟨hlong, hle, rfl, hlt, rfl⟩
    · rintro (⟨hzero, -⟩ | ⟨hlong, hle, rfl, hlt, rfl⟩)
      · exact absurd hzero hlen
      · refine ⟨_, _, ⟨hle, rfl, rfl⟩, ?_⟩
        rw [List.take_take, Nat.min_eq_left hlong, if_neg (by rw [List.length_take]; omega),
          if_pos hlt]

/-- **What was behind the header** of a frame that was read. -/
theorem readParts_ok_iff {tableLen membershipLen limitsLen : Nat} :
    readParts tableLen membershipLen limitsLen r = .ok (frame, rest) ↔
      ∃ table ms capacity r', tableLen ≤ r.length ∧
        decodeClientTable (r.take tableLen) = .ok table ∧
        readMembershipPart membershipLen (r.drop tableLen) = .ok (ms, r') ∧
        readLimitsPart limitsLen r' = .ok (capacity, rest) ∧
        frame = .ofParts table ms capacity := by
  unfold readParts
  simp only [bind_eq_ok, during_eq_ok, Prod.exists, readFull_eq_ok]
  constructor
  · rintro ⟨bytes, r₁, ⟨hle, rfl, rfl⟩, table, htable, ms, r₂, hms, capacity, r₃, hcap, h⟩
    cases h
    exact ⟨table, ms, capacity, r₂, hle, htable, hms, hcap, rfl⟩
  · rintro ⟨table, ms, capacity, r₂, hle, htable, hms, hcap, rfl⟩
    exact ⟨_, _, ⟨hle, rfl, rfl⟩, table, htable, ms, r₂, hms, capacity, rest, hcap, rfl⟩

theorem SnapshotFrame.ofParts_inj {table' : List ClientRecord}
    {ms ms' : Option (MembershipState NodeID)} {capacity capacity' : Option Nat} :
    SnapshotFrame.ofParts table ms capacity = .ofParts table' ms' capacity' ↔
      table = table' ∧ ms = ms' ∧ capacity = capacity' := by
  cases ms <;> cases ms' <;> cases capacity <;> cases capacity' <;>
    simp [SnapshotFrame.ofParts]

/-- The three layouts. -/
inductive Version
  | v1
  | v2
  | v3
  deriving DecidableEq, Repr

def header : Version → Nat → Nat → Nat → List UInt8
  | .v1, table, _, _ => Bytes.little 8 snapFrameMagicV1 ++ Bytes.little 4 table
  | .v2, table, membership, _ =>
    Bytes.little 8 snapFrameMagicV2 ++ Bytes.little 4 table ++ Bytes.little 4 membership
  | .v3, table, membership, limits =>
    Bytes.little 8 snapFrameMagicV3 ++ Bytes.little 4 table ++ Bytes.little 4 membership ++
      Bytes.little 4 limits

variable (v : Version)

variable (parts : Raft.SnapshotFrame)

def partsOf : List UInt8 :=
  match v with
  | .v1 => parts.table
  | .v2 => parts.table ++ parts.membership
  | .v3 => parts.table ++ parts.membership ++ parts.limits

def layout (sm : List UInt8) : List UInt8 :=
  header v parts.table.length parts.membership.length parts.limits.length ++
    (partsOf v parts ++ sm)

theorem writeSnapshotFrame_eq (frame : SnapshotFrame) (sm : List UInt8) :
    writeSnapshotFrame frame sm = layout .v3 frame.parts sm := by
  simp [writeSnapshotFrame, Raft.SnapshotFrame.bytes, layout, header, partsOf]

theorem readHeader_append (magic table : Nat) (r : List UInt8) :
    readHeader (Bytes.little 8 magic ++ (Bytes.little 4 table ++ r)) =
      .ok (Bytes.little 8 magic ++ Bytes.little 4 table, r) := by
  have htwelve : (Bytes.little 8 magic ++ Bytes.little 4 table).length = 12 := by simp
  rw [← List.append_assoc, readHeader, if_neg, during_eq_ok, readFull_eq_ok]
  · exact ⟨by rw [List.length_append]; omega, (List.take_left' htwelve).symm,
      (List.drop_left' htwelve).symm⟩
  · exact List.append_ne_nil_of_left_ne_nil (List.ne_nil_of_length_pos (by omega)) r

theorem readLength_append (n : Nat) (r : List UInt8) :
    readLength (Bytes.little 4 n ++ r) = .ok (n % 2 ^ 32, r) := by
  have hfour := Bytes.length_little 4 n
  have hread : readFull 4 (Bytes.little 4 n ++ r) = .ok (Bytes.little 4 n, r) := by
    rw [readFull_eq_ok]
    exact ⟨by rw [List.length_append]; omega, (List.take_left' hfour).symm,
      (List.drop_left' hfour).symm⟩
  have hn : Bytes.ofLittle (Bytes.little 4 n) = n % 2 ^ 32 := Bytes.ofLittle_little_mod 4 n
  rw [readLength, hread]
  simp only [during, Except.map, hn]

theorem readSnapshotFrame_header (table membership limits : Nat) (body : List UInt8) :
    readSnapshotFrame (header v table membership limits ++ body) =
      match v with
      | .v1 => readParts (table % 2 ^ 32) 0 0 body
      | .v2 => readParts (table % 2 ^ 32) (membership % 2 ^ 32) 0 body
      | .v3 => readParts (table % 2 ^ 32) (membership % 2 ^ 32) (limits % 2 ^ 32) body := by
  have hmagic : ∀ magic < 2 ^ 64,
      Bytes.ofLittle ((Bytes.little 8 magic ++ Bytes.little 4 table).take 8) = magic := by
    intro magic hlt
    rw [List.take_left' (Bytes.length_little 8 magic), Bytes.ofLittle_little hlt]
  have htable : ∀ magic, Bytes.ofLittle ((Bytes.little 8 magic ++ Bytes.little 4 table).drop 8) =
      table % 2 ^ 32 := by
    intro magic
    rw [List.drop_left' (Bytes.length_little 8 magic)]
    exact Bytes.ofLittle_little_mod 4 table
  unfold readSnapshotFrame
  cases v <;>
    simp only [header, List.append_assoc, readHeader_append, readLength_append, bind, Except.bind,
      htable, hmagic snapFrameMagicV1 (by decide), hmagic snapFrameMagicV2 (by decide),
      hmagic snapFrameMagicV3 (by decide), show ¬ snapFrameMagicV2 = snapFrameMagicV1 by decide,
      show ¬ snapFrameMagicV3 = snapFrameMagicV1 by decide,
      show ¬ snapFrameMagicV3 = snapFrameMagicV2 by decide, if_true, if_false]

def membershipIn (bytes : List UInt8) : List UInt8 := if v = .v1 then [] else bytes

def limitsIn (bytes : List UInt8) : List UInt8 := if v = .v3 then bytes else []

theorem readSnapshotFrame_layout (sm : List UInt8) :
    readSnapshotFrame (layout v parts sm) = readParts (parts.table.length % 2 ^ 32)
      ((membershipIn v parts.membership).length % 2 ^ 32)
      ((limitsIn v parts.limits).length % 2 ^ 32)
      (parts.table ++ (membershipIn v parts.membership ++ (limitsIn v parts.limits ++ sm))) := by
  rw [layout, readSnapshotFrame_header]
  cases v <;> simp [partsOf, membershipIn, limitsIn]

def partsAs (quorate : Bool) (frame : SnapshotFrame) : Raft.SnapshotFrame :=
  ⟨encodeClientTable frame.table, membershipBytes quorate frame.membership, limitsBytes frame⟩

/-- The frame to be read in a layout: what the layout does not have is absent. -/
def expected (quorate : Bool) (frame : SnapshotFrame) : SnapshotFrame :=
  .ofParts frame.table
    (if v = .v1 then none else some (withoutQuorum quorate frame.membership))
    (if v = .v3 ∧ frame.hasClientTableCap then some frame.clientTableCap else none)

structure Fits (quorate : Bool) (frame : SnapshotFrame) : Prop where
  table : TableFits frame.table
  membership : v ≠ .v1 → MembershipFits quorate frame.membership
  limits : v = .v3 → frame.hasClientTableCap → frame.clientTableCap < 2 ^ 63

/-- **The membership is read back** from behind its length exactly when it fits. -/
theorem readMembershipPart_field_iff (hshape : Shaped ms) :
    readMembershipPart ((membershipBytes quorate ms).length % 2 ^ 32)
        (membershipBytes quorate ms ++ r) = .ok (some (withoutQuorum quorate ms), rest) ↔
      MembershipFits quorate ms ∧ rest = r := by
  rw [readMembershipPart_ok_iff]
  constructor
  · rintro (⟨-, hnone, -⟩ | ⟨-, -, rfl, m, hread, heq⟩)
    · cases hnone
    · cases heq
      obtain ⟨-, hlists, hbytes⟩ := of_readMembership hread
      have hle := length_membershipBytes_le quorate ms
      rw [take_field] at hbytes
      -- A length that does not fit leaves out more than the quorum.
      have hlt : (membershipBytes quorate ms).length < 2 ^ 32 := by
        by_contra hge
        omega
      exact ⟨⟨hlists, hlt⟩, drop_field_of_lt hlt⟩
  · rintro ⟨hfits, rfl⟩
    have hpos := membershipBytes_pos quorate ms
    refine .inr ⟨?_, ?_, (drop_field_of_lt hfits.bytes).symm, _, ?_, rfl⟩
    · rw [Nat.mod_eq_of_lt hfits.bytes]
      omega
    · rw [Nat.mod_eq_of_lt hfits.bytes, List.length_append]
      omega
    · rw [take_field_of_lt hfits.bytes]
      exact readMembership_bytes hshape hfits.lists

/-- **The bound is read back** exactly when it is one. -/
theorem readLimitsPart_field_iff :
    readLimitsPart ((limitsBytes frame).length % 2 ^ 32) (limitsBytes frame ++ r) =
      .ok (if frame.hasClientTableCap then some frame.clientTableCap else none, rest) ↔
      (frame.hasClientTableCap → frame.clientTableCap < 2 ^ 63) ∧ rest = r := by
  rw [readLimitsPart_ok_iff]
  cases hcap : frame.hasClientTableCap with
  | false => simp [limitsBytes, hcap]
  | true =>
    have height := Bytes.length_little 8 frame.clientTableCap
    have hread : Bytes.ofLittle (Bytes.little 8 frame.clientTableCap) =
        frame.clientTableCap % 2 ^ 64 := Bytes.ofLittle_little_mod 8 _
    simp only [limitsBytes, hcap, if_true, height, Nat.reducePow, Nat.reduceMod,
      List.take_left' height, List.drop_left' height, hread, List.length_append,
      Option.some.injEq, forall_const]
    constructor
    · rintro (⟨hzero, -⟩ | ⟨-, -, hrest, hlt, hn⟩)
      · cases hzero
      · exact ⟨by omega, hrest⟩
    · rintro ⟨hlt, hrest⟩
      exact .inr ⟨by omega, by omega, hrest, by omega, by omega⟩

/-- **A frame is read back** in a layout exactly when it fits. -/
theorem readSnapshotFrame_layout_iff {v : Version} {sm : List UInt8}
    (hshape : Shaped frame.membership) :
    readSnapshotFrame (layout v (partsAs quorate frame) sm) = .ok (expected v quorate frame, sm) ↔
      Fits v quorate frame := by
  have hmembership : ∀ r rest : List UInt8,
      readMembershipPart ((membershipIn v (membershipBytes quorate frame.membership)).length % 2 ^ 32)
          (membershipIn v (membershipBytes quorate frame.membership) ++ r) =
        .ok (if v = .v1 then none else some (withoutQuorum quorate frame.membership), rest) ↔
        (v ≠ .v1 → MembershipFits quorate frame.membership) ∧ rest = r := by
    intro r rest
    by_cases hv : v = .v1
    · simp [membershipIn, hv, readMembershipPart, eq_comm]
    · simp only [membershipIn, hv, if_false, readMembershipPart_field_iff hshape, ne_eq,
        not_false_eq_true, forall_const]
  have hlimits : ∀ rest : List UInt8,
      readLimitsPart ((limitsIn v (limitsBytes frame)).length % 2 ^ 32)
          (limitsIn v (limitsBytes frame) ++ sm) =
        .ok (if v = .v3 ∧ frame.hasClientTableCap then some frame.clientTableCap else none, rest) ↔
        (v = .v3 → frame.hasClientTableCap → frame.clientTableCap < 2 ^ 63) ∧ rest = sm := by
    intro rest
    by_cases hv : v = .v3
    · subst hv
      simpa only [limitsIn, if_true, true_and, forall_const] using readLimitsPart_field_iff
    · simp [limitsIn, hv, readLimitsPart, @eq_comm _ sm]
  rw [readSnapshotFrame_layout, readParts_ok_iff]
  simp only [partsAs]
  constructor
  · rintro ⟨table, ms, capacity, r', -, htable, hms, hcap, hframe⟩
    obtain ⟨rfl, rfl, rfl⟩ := SnapshotFrame.ofParts_inj.mp hframe
    have hfits := decodeClientTable_field_iff.mp htable
    rw [drop_field_of_lt hfits.bytes] at hms
    obtain ⟨hmembers, rfl⟩ := (hmembership _ _).mp hms
    exact ⟨hfits, hmembers, ((hlimits _).mp hcap).1⟩
  · rintro ⟨htable, hms, hcap⟩
    refine ⟨_, _, _, _, ?_, decodeClientTable_field_iff.mpr htable, ?_,
      (hlimits _).mpr ⟨hcap, rfl⟩, rfl⟩
    · rw [List.length_append]
      exact le_trans (Nat.mod_le _ _) (Nat.le_add_right _ _)
    · rw [drop_field_of_lt htable.bytes]
      exact (hmembership _ _).mpr ⟨hms, rfl⟩

def ReadOff (frame : SnapshotFrame) : Prop :=
  ∃ table ms capacity, frame = .ofParts table ms capacity ∧
    (∀ m, ms = some m → Shaped m ∧ ListsFit m) ∧ ∀ c, capacity = some c → c < 2 ^ 63

theorem readOff_of_readParts {tableLen membershipLen limitsLen : Nat}
    (h : readParts tableLen membershipLen limitsLen r = .ok (frame, rest)) : ReadOff frame := by
  obtain ⟨table, ms, capacity, r', -, -, hms, hcap, rfl⟩ := readParts_ok_iff.mp h
  refine ⟨table, ms, capacity, rfl, fun m hm => ?_, fun c hc => ?_⟩
  · rcases readMembershipPart_ok_iff.mp hms with ⟨-, hnone, -⟩ | ⟨-, -, -, m', hread, heq⟩
    · rw [hnone] at hm
      cases hm
    · cases hm.symm.trans heq
      obtain ⟨hshape, hlists, -⟩ := of_readMembership hread
      exact ⟨hshape, hlists⟩
  · rcases readLimitsPart_ok_iff.mp hcap with ⟨-, hnone, -⟩ | ⟨-, -, -, hlt, heq⟩
    · rw [hnone] at hc
      cases hc
    · cases hc.symm.trans heq
      exact hlt

theorem readOff_of_readSnapshotFrame (h : readSnapshotFrame r = .ok (frame, rest)) :
    ReadOff frame := by
  unfold readSnapshotFrame at h
  simp only [bind_eq_ok, Prod.exists] at h
  obtain ⟨hdr, r₁, -, h⟩ := h
  split_ifs at h
  · exact readOff_of_readParts h
  · simp only [bind_eq_ok, Prod.exists] at h
    obtain ⟨m, r₂, -, h⟩ := h
    exact readOff_of_readParts h
  · simp only [bind_eq_ok, Prod.exists] at h
    obtain ⟨m, r₂, -, l, r₃, -, h⟩ := h
    exact readOff_of_readParts h
  · obtain ⟨rfl, -⟩ := Prod.mk.inj (Except.ok.inj h)
    exact ⟨[], none, none, rfl, (fun m hm => nomatch hm), (fun c hc => nomatch hc)⟩

theorem shaped_noMembership : Shaped noMembership := ⟨rfl, rfl⟩

theorem listsFit_noMembership : ListsFit noMembership := by
  refine ⟨⟨by decide, ?_⟩, by decide⟩
  simp [noMembership]

theorem tableFits_nil : TableFits [] := by
  refine ⟨?_, by decide, by decide⟩
  simp

theorem fits_witness_iff (h : ReadOff frame) :
    Shaped frame.membership ∧
      (Fits .v3 true { frame with table := [] } ↔
        (encodeMembership frame.membership).length < 2 ^ 32) := by
  obtain ⟨table, ms, capacity, rfl, hms, hcap⟩ := h
  have hmembership : Shaped (ms.getD noMembership) ∧ ListsFit (ms.getD noMembership) := by
    cases ms with
    | none => exact ⟨shaped_noMembership, listsFit_noMembership⟩
    | some m => exact hms m rfl
  refine ⟨hmembership.1, fun hfits => (hfits.membership (by decide)).bytes, fun hlt => ?_⟩
  refine ⟨tableFits_nil, fun _ => ⟨hmembership.2, hlt⟩, fun _ hhas => ?_⟩
  cases capacity with
  | none => cases hhas
  | some c => exact hcap c rfl

theorem partsAs_true (frame : SnapshotFrame) : partsAs true frame = frame.parts := rfl

theorem expected_witness (h : ReadOff frame) :
    expected .v3 true { frame with table := [] } =
      { frame with
        table := []
        hasMembership := true } := by
  obtain ⟨table, ms, capacity, rfl, -, -⟩ := h
  cases capacity <;> simp [expected, SnapshotFrame.ofParts, withoutQuorum]

theorem ReadOff.membership_of_absent (h : ReadOff frame) (habsent : frame.hasMembership = false) :
    frame.membership = noMembership := by
  obtain ⟨table, ms, capacity, rfl, -, -⟩ := h
  cases ms with
  | none => rfl
  | some m => cases habsent

/-- **What a witness is sent** is the frame without its table exactly when there is a
membership that fits. -/
theorem witnessSnapshot_iff (h : readSnapshotFrame r = .ok (frame, rest)) :
    (witnessSnapshot r >>= readSnapshotFrame) = .ok ({ frame with table := [] }, []) ↔
      frame.hasMembership = true ∧ (encodeMembership frame.membership).length < 2 ^ 32 := by
  have hoff := readOff_of_readSnapshotFrame h
  obtain ⟨hshape, hfits⟩ := fits_witness_iff hoff
  have hread : (witnessSnapshot r >>= readSnapshotFrame) =
      readSnapshotFrame (layout .v3 (partsAs true { frame with table := [] }) []) := by
    simp only [witnessSnapshot, h, bind, Except.bind, pure, Except.pure, writeSnapshotFrame_eq,
      partsAs_true]
  have hiff : readSnapshotFrame (layout .v3 (partsAs true { frame with table := [] }) []) =
      .ok (expected .v3 true { frame with table := [] }, []) ↔
        Fits .v3 true { frame with table := [] } := readSnapshotFrame_layout_iff hshape
  rw [expected_witness hoff, hfits] at hiff
  rw [hread]
  by_cases hhas : frame.hasMembership = true
  · have hsame : ({ frame with
        table := []
        hasMembership := true } : SnapshotFrame) = { frame with table := [] } := by
      rw [← hhas]
    rw [hsame] at hiff
    rw [hiff, and_iff_right hhas]
  · -- The empty membership is short enough to be written, and is then there.
    have hshort : (encodeMembership frame.membership).length < 2 ^ 32 := by
      rw [hoff.membership_of_absent (Bool.eq_false_of_not_eq_true hhas)]
      decide
    rw [hiff.mpr hshort]
    simp [hhas]

/-- **The codec of snapshot frames.** A frame is read back, without what its layout does not have,
exactly when it fits its fields; and a witness is sent the frame without the table exactly when the
snapshot has a membership that is not too long. -/
theorem frame_codec (frame : SnapshotFrame) (v : Version) (quorate : Bool) (r sm : List UInt8) :
    (Shaped frame.membership → (frame.hasClientTableCap = false → frame.clientTableCap = 0) →
        (readSnapshotFrame (writeSnapshotFrame frame sm) =
          .ok ({ frame with hasMembership := true }, sm) ↔ Fits .v3 true frame)) ∧
    (Shaped frame.membership →
        (readSnapshotFrame (layout v (partsAs quorate frame) sm) =
          .ok (expected v quorate frame, sm) ↔ Fits v quorate frame)) ∧
    (readSnapshotFrame r = .ok (frame, sm) →
      ((witnessSnapshot r >>= readSnapshotFrame) = .ok ({ frame with table := [] }, []) ↔
        frame.hasMembership = true ∧ (encodeMembership frame.membership).length < 2 ^ 32)) := by
  refine ⟨fun hshape hcap => ?_, fun hshape => readSnapshotFrame_layout_iff hshape, fun h =>
    witnessSnapshot_iff h⟩
  have hexpected : expected .v3 true frame = { frame with hasMembership := true } := by
    obtain ⟨table, membership, hasMembership, capacity, hasCapacity⟩ := frame
    cases hasCapacity with
    | true => simp [expected, SnapshotFrame.ofParts, withoutQuorum]
    | false =>
      obtain rfl : capacity = 0 := hcap rfl
      simp [expected, SnapshotFrame.ofParts, withoutQuorum]
  rw [writeSnapshotFrame_eq, ← partsAs_true, ← hexpected]
  exact readSnapshotFrame_layout_iff hshape

def sampleFrame : SnapshotFrame where
  table := [([0x61], ⟨7, [1, 2]⟩)]
  membership := ⟨true, [], [⟨[0x6e], true, false⟩], [⟨[0x6e], true, false⟩, ⟨[0x77], true, true⟩], 2⟩
  hasMembership := true
  clientTableCap := 0
  hasClientTableCap := true

theorem fits_sampleFrame : Fits .v3 true sampleFrame where
  table := ⟨by decide, by decide, by decide⟩
  membership := fun _ => ⟨by decide, by decide⟩
  limits := by decide

theorem sampleFrame_read_back :
    readSnapshotFrame (writeSnapshotFrame sampleFrame [9]) = .ok (sampleFrame, [9]) :=
  ((frame_codec sampleFrame .v3 true [] [9]).1 rfl (by decide)).mpr fits_sampleFrame

/-- What a witness is sent of a snapshot without a membership has one, without members.  And a
client whose identity has 65536 bytes is not read back. -/
theorem frame_not_kept :
    (readSnapshotFrame (layout .v1 (partsAs true sampleFrame) []) =
        .ok (.ofParts [([0x61], ⟨7, [1, 2]⟩)] none none, []) ∧
      (witnessSnapshot (layout .v1 (partsAs true sampleFrame) []) >>= readSnapshotFrame) =
        .ok (.ofParts [] (some noMembership) none, [])) ∧
    readSnapshotFrame (writeSnapshotFrame
        ⟨[(List.replicate 65536 0, ⟨0, []⟩)], noMembership, true, 0, false⟩ []) ≠
      .ok (⟨[(List.replicate 65536 0, ⟨0, []⟩)], noMembership, true, 0, false⟩, []) := by
  refine ⟨⟨by decide +kernel, by decide +kernel⟩, fun h => ?_⟩
  rw [writeSnapshotFrame_eq, ← partsAs_true] at h
  have hfits := (readSnapshotFrame_layout_iff shaped_noMembership).mp h
  have hlt : (List.replicate 65536 (0 : UInt8)).length < 2 ^ 16 :=
    (hfits.table.records _ (List.mem_singleton.mpr rfl)).1
  rw [List.length_replicate] at hlt
  omega

end Frame

end Raft
