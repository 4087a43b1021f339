import Raft.Bytes
import Raft.Types

/-!
# The snapshot file

The file store keeps one snapshot in a file of its own: a header with the position, the
body, and a trailer with the length and a checksum of the body.  A file without the
magic number is of an older layout, which has no trailer and is handed over as it is.
-/

namespace Raft

namespace SnapshotFile

/-- The letters `RSNP`. -/
def snapMagic : List UInt8 := [0x52, 0x53, 0x4E, 0x50]

def snapVersion : Nat := 1

def snapHeaderSize : Nat := 24

def snapTrailerSize : Nat := 12

def legacySnapHeaderSize : Nat := 16

def checksum (body : List UInt8) : UInt32 := Bytes.crc32 0x82F63B78 body

def header (position : SnapshotMeta) : List UInt8 :=
  snapMagic ++ Bytes.little 4 snapVersion ++ Bytes.little 8 position.lastIncludedIndex ++
    Bytes.little 8 position.lastIncludedTerm

def trailer (body : List UInt8) : List UInt8 :=
  Bytes.little 8 body.length ++ Bytes.little 4 (checksum body).toNat

def file (position : SnapshotMeta) (body : List UInt8) : List UInt8 :=
  header position ++ body ++ trailer body

/-- Why a snapshot is not handed over. -/
inductive LoadError
  | noSnapshot
  | header
  | truncated (size : Nat)
  | lengthMismatch (stored : Int) (held : Nat)
  | checksumMismatch (stored computed : UInt32)
  deriving DecidableEq, Repr

structure SnapshotReader where
  body : List UInt8
  want : Option UInt32
  deriving DecidableEq, Repr

def number (bytes : List UInt8) (offset w : Nat) : Nat :=
  Bytes.ofLittle ((bytes.drop offset).take w)

def openSnapshotReader (bytes : List UInt8) : Except LoadError (SnapshotMeta × SnapshotReader) :=
  let size := bytes.length
  if size < legacySnapHeaderSize then .error .header
  else if bytes.take 4 ≠ snapMagic ∨ number bytes 4 4 ≠ snapVersion then
    .ok (⟨number bytes 0 8, number bytes 8 8⟩, ⟨bytes.drop legacySnapHeaderSize, none⟩)
  else if size < snapHeaderSize then .error .header
  else if size < snapHeaderSize + snapTrailerSize then .error (.truncated size)
  else
    let bodyLen := size - snapHeaderSize - snapTrailerSize
    -- the length is stored unsigned and compared as a signed number
    let storedLen := (BitVec.ofNat 64 (number bytes (size - snapTrailerSize) 8)).toInt
    if storedLen ≠ bodyLen then .error (.lengthMismatch storedLen bodyLen)
    else
      .ok (⟨number bytes 8 8, number bytes 16 8⟩,
        ⟨(bytes.drop snapHeaderSize).take bodyLen,
          some (UInt32.ofNat (number bytes (size - snapTrailerSize + 8) 4))⟩)

/-- Reads a body to its end, where the checksum is compared. -/
def SnapshotReader.readAll (r : SnapshotReader) : Except LoadError (List UInt8) :=
  match r.want with
  | none => .ok r.body
  | some want =>
    if checksum r.body = want then .ok r.body
    else .error (.checksumMismatch want (checksum r.body))

def load (snap : Option (List UInt8)) : Except LoadError (SnapshotMeta × List UInt8) :=
  match snap with
  | none => .error .noSnapshot
  | some bytes =>
    match openSnapshotReader bytes with
    | .error e => .error e
    | .ok (position, r) => r.readAll.map (position, ·)

/-! ## Reading back -/

@[simp] theorem length_header (position : SnapshotMeta) : (header position).length = 24 := by
  simp [header, snapMagic]

@[simp] theorem length_trailer (body : List UInt8) : (trailer body).length = 12 := by
  simp [trailer]

theorem number_behind (pre post : List UInt8) (i w : Nat) :
    number (pre ++ post) (pre.length + i) w = Bytes.ofLittle ((post.drop i).take w) := by
  rw [number, List.drop_length_add_append]

theorem number_of_append {pre post : List UInt8} {w n : Nat} (h : n < 256 ^ w) :
    number (pre ++ (Bytes.little w n ++ post)) pre.length w = n := by
  have hbytes := number_behind pre (Bytes.little w n ++ post) 0 w
  rwa [List.drop_zero, List.take_left' (Bytes.length_little w n), Bytes.ofLittle_little h] at hbytes

variable {position : SnapshotMeta} {body t : List UInt8}

theorem length_file : (file position body).length = body.length + 36 := by
  simp only [file, List.length_append, length_header, length_trailer]
  omega

theorem number_index (h : position.lastIncludedIndex < 2 ^ 64) (rest : List UInt8) :
    number (header position ++ rest) 8 8 = position.lastIncludedIndex := by
  rw [header, List.append_assoc, List.append_assoc]
  exact number_of_append h

theorem number_term (h : position.lastIncludedTerm < 2 ^ 64) (rest : List UInt8) :
    number (header position ++ rest) 16 8 = position.lastIncludedTerm := by
  rw [header, List.append_assoc]
  exact number_of_append h

theorem stored_eq_iff {m n : Nat} (hm : m < 2 ^ 64) :
    (BitVec.ofNat 64 m).toInt = n ↔ m = n ∧ n < 2 ^ 63 := by
  rw [BitVec.toInt_eq_toNat_cond, BitVec.toNat_ofNat, Nat.mod_eq_of_lt hm]
  split_ifs <;> omega

theorem openSnapshotReader_header (hindex : position.lastIncludedIndex < 2 ^ 64)
    (hterm : position.lastIncludedTerm < 2 ^ 64) (ht : t.length = 12) :
    openSnapshotReader (header position ++ (body ++ t)) =
      let storedLen := (BitVec.ofNat 64 (Bytes.ofLittle (t.take 8))).toInt
      if storedLen ≠ body.length then .error (.lengthMismatch storedLen body.length)
      else .ok (position, ⟨body, some (UInt32.ofNat (Bytes.ofLittle (t.drop 8)))⟩) := by
  have hsize : (header position ++ (body ++ t)).length = body.length + 36 := by
    simp only [List.length_append, length_header, ht]
    omega
  have hlength : number (header position ++ (body ++ t)) (body.length + 24) 8 =
      Bytes.ofLittle (t.take 8) := by
    have hbehind := number_behind (header position ++ body) t 0 8
    rwa [List.length_append, length_header, List.append_assoc, Nat.add_comm 24] at hbehind
  have hsum : number (header position ++ (body ++ t)) (body.length + 24 + 8) 4 =
      Bytes.ofLittle (t.drop 8) := by
    have hbehind := number_behind (header position ++ body) t 8 4
    rwa [List.length_append, length_header, List.append_assoc, Nat.add_comm 24,
      List.take_of_length_le (by rw [List.length_drop, ht])] at hbehind
  have hbody : ((header position ++ (body ++ t)).drop 24).take body.length = body := by
    rw [List.drop_left' (length_header position), List.take_left]
  have hrest : body.length + 36 - 24 - 12 = body.length := by omega
  have hoffset : body.length + 36 - 12 = body.length + 24 := by omega
  have hours : ¬ ((header position ++ (body ++ t)).take 4 ≠ snapMagic ∨
      number (header position ++ (body ++ t)) 4 4 ≠ snapVersion) :=
    not_or.mpr ⟨not_not.mpr rfl, not_not.mpr rfl⟩
  simp only [openSnapshotReader, hsize, legacySnapHeaderSize, snapHeaderSize, snapTrailerSize, hrest,
    hoffset, hlength, hsum, hbody, number_index hindex, number_term hterm]
  rw [if_neg (by omega), if_neg hours, if_neg (by omega), if_neg (by omega)]

theorem openSnapshotReader_file (hindex : position.lastIncludedIndex < 2 ^ 64)
    (hterm : position.lastIncludedTerm < 2 ^ 64) (hlen : body.length < 2 ^ 63) :
    openSnapshotReader (file position body) = .ok (position, ⟨body, some (checksum body)⟩) := by
  rw [file, List.append_assoc, openSnapshotReader_header hindex hterm (length_trailer body), trailer,
    List.take_left' (Bytes.length_little ..), List.drop_left' (Bytes.length_little ..),
    Bytes.ofLittle_little (by omega), Bytes.ofLittle_little (UInt32.toNat_lt _), UInt32.ofNat_toNat]
  exact if_neg (not_not.mpr ((stored_eq_iff (by omega)).mpr ⟨rfl, hlen⟩))

/-- **A snapshot that was written is read back**, position and body. -/
theorem load_file (hindex : position.lastIncludedIndex < 2 ^ 64)
    (hterm : position.lastIncludedTerm < 2 ^ 64) (hlen : body.length < 2 ^ 63) :
    load (some (file position body)) = .ok (position, body) := by
  have hread : (⟨body, some (checksum body)⟩ : SnapshotReader).readAll = .ok body := if_pos rfl
  rw [load, openSnapshotReader_file hindex hterm hlen]
  dsimp only
  rw [hread]
  rfl

end SnapshotFile

end Raft
