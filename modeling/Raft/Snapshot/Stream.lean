import Raft.Snapshot.File

/-!
# Reading a snapshot as a stream

A snapshot is handed over as a reader.  The body comes in pieces, of whatever size is asked for, and
goes into the checksum as it comes; the checksum is compared once, at the first read past the end.
-/

namespace Raft.SnapshotFile

inductive End
  | eof
  | short (missing : Int)
  | checksumMismatch (stored computed : UInt32)
  deriving DecidableEq, Repr

/-- A reader in use: what its limit lets through, what is in the checksum, what is to come. -/
structure Stream where
  left : List UInt8
  want : Option UInt32
  hashed : List UInt8
  remaining : Int
  checked : Bool

def SnapshotReader.stream (r : SnapshotReader) : Stream := ⟨r.body, r.want, [], r.body.length, false⟩

/-- The check at the end, without which the older layout passes. -/
def Stream.check (s : Stream) : End :=
  match s.want with
  | none => .eof
  | some want =>
    if s.checked then .eof
    else if s.remaining ≠ 0 then .short s.remaining
    else if checksum s.hashed ≠ want then .checksumMismatch want (checksum s.hashed)
    else .eof

def Stream.read (s : Stream) (k : Nat) : List UInt8 × Option End × Stream :=
  if s.left = [] then
    -- the older layout is read from the file itself, which reports no end to an empty buffer
    if s.want.isNone && k == 0 then ([], none, s)
    else ([], some s.check, { s with checked := true })
  else
    let p := s.left.take k
    (p, none,
      { s with left := s.left.drop k, hashed := s.hashed ++ p, remaining := s.remaining - p.length })

def Stream.drain (s : Stream) : List Nat → List UInt8 × Option End
  | [] => ([], none)
  | k :: ks =>
    match s.read k with
    | (p, some e, _) => (p, some e)
    | (p, none, s) => (p ++ (s.drain ks).1, (s.drain ks).2)

/-- No way of reading the file ends cleanly, and one that goes on to the end of the body fails. -/
def Refused (bytes : List UInt8) : Prop :=
  match openSnapshotReader bytes with
  | .error _ => True
  | .ok (_, r) => ∀ ks, (r.stream.drain ks).2 ≠ some .eof ∧
      (r.body.length < ks.countP (0 < ·) → (r.stream.drain ks).2 ≠ none)

/-- **Buffers of any sizes** get the body as far as they go, or all of it and the outcome of the
check. -/
theorem drain_spec {s : Stream} (hs : s.remaining = s.left.length) (hc : s.checked = false)
    (ks : List Nat) :
    ((s.drain ks).2 = none ∧ (s.drain ks).1 <+: s.left ∧ ks.countP (0 < ·) ≤ s.left.length) ∨
      s.drain ks = (s.left, some (Stream.check ⟨[], s.want, s.hashed ++ s.left, 0, false⟩)) := by
  induction ks generalizing s with
  | nil => exact .inl ⟨rfl, List.nil_prefix, Nat.zero_le _⟩
  | cons k ks ih =>
    obtain ⟨left, want, hashed, remaining, checked⟩ := s
    dsimp only at hs hc
    subst hs hc
    by_cases hleft : left = []
    · subst hleft
      by_cases hbare : (want.isNone && k == 0) = true
      · obtain ⟨rfl, rfl⟩ : want = none ∧ k = 0 := by simpa using hbare
        simpa [Stream.drain, Stream.read] using @ih ⟨[], none, hashed, 0, false⟩ rfl rfl
      · right
        simp [Stream.drain, Stream.read, hbare]
    · have hlen := List.length_pos_iff.mpr hleft
      have hsum := congrArg List.length (List.take_append_drop k left)
      rw [List.length_append] at hsum
      simp only [Stream.drain, Stream.read, if_neg hleft]
      rcases @ih ⟨left.drop k, want, hashed ++ left.take k, left.length - (left.take k).length, false⟩
        (by dsimp only; omega) rfl with ⟨hnone, hprefix, hcount⟩ | heq
      · refine .inl ⟨hnone, ?_, ?_⟩
        · have hpre := (List.prefix_append_right_inj (left.take k)).mpr hprefix
          rwa [List.take_append_drop] at hpre
        · -- a buffer that is not empty took at least one byte
          rw [List.length_drop] at hcount
          rw [List.countP_cons]
          split
          · have hk : 0 < k := of_decide_eq_true ‹_›
            omega
          · omega
      · right
        rw [heq]
        simp

/-! ## What is refused -/

variable {position : SnapshotMeta} {body t : List UInt8}

/-- **What is not refused was written**: a body that ends cleanly is followed by its trailer. -/
theorem refused_or_trailer (hindex : position.lastIncludedIndex < 2 ^ 64)
    (hterm : position.lastIncludedTerm < 2 ^ 64) (ht : t.length = 12) :
    Refused (header position ++ (body ++ t)) ∨ body.length < 2 ^ 63 ∧ t = trailer body := by
  have h8 := Bytes.little_ofLittle (t.take 8)
  have h4 := Bytes.little_ofLittle (t.drop 8)
  have hlt8 := Bytes.ofLittle_lt (t.take 8)
  have hlt4 := Bytes.ofLittle_lt (t.drop 8)
  rw [List.length_take, ht] at h8 hlt8
  rw [List.length_drop, ht] at h4 hlt4
  rw [Refused, openSnapshotReader_header hindex hterm ht]
  by_cases hstored : (BitVec.ofNat 64 (Bytes.ofLittle (t.take 8))).toInt = body.length
  · obtain ⟨hlen, hlt⟩ := (stored_eq_iff hlt8).mp hstored
    rw [if_neg (not_not.mpr hstored)]
    by_cases hsum : checksum body = UInt32.ofNat (Bytes.ofLittle (t.drop 8))
    · refine .inr ⟨hlt, ?_⟩
      rw [trailer, hsum, UInt32.toNat_ofNat_of_lt' hlt4, ← hlen]
      exact (List.take_append_drop 8 t).symm.trans (congrArg₂ (· ++ ·) h8.symm h4.symm)
    · refine .inl fun ks => ?_
      rcases drain_spec (s := SnapshotReader.stream ⟨body, _⟩) rfl rfl ks with ⟨hnone, -, hcount⟩ | heq
      · rw [hnone]
        exact ⟨by simp, fun hmany => absurd hmany (Nat.not_lt.mpr hcount)⟩
      · rw [heq]
        simp [Stream.check, SnapshotReader.stream, hsum]
  · rw [if_pos hstored]
    exact .inl trivial

theorem refused_of_short {k : Nat} (hk : k < snapHeaderSize + snapTrailerSize) :
    Refused ((file position body).take k) := by
  have hsize : ((file position body).take k).length = k := by
    rw [List.length_take, length_file]
    exact Nat.min_eq_left (hk.le.trans (Nat.le_add_left ..))
  simp only [Refused, openSnapshotReader, hsize]
  by_cases h16 : k < legacySnapHeaderSize
  · rw [if_pos h16]
    trivial
  · have hk8 : 8 ≤ k := (by decide : 8 ≤ legacySnapHeaderSize).trans (Nat.not_lt.mp h16)
    have hmagic : ((file position body).take k).take 4 = snapMagic := by
      rw [List.take_take, Nat.min_eq_left (by omega)]
      rfl
    have hversion : number ((file position body).take k) 4 4 = snapVersion := by
      rw [number, List.drop_take, List.take_take, Nat.min_eq_left (by omega)]
      rfl
    rw [if_neg h16, if_neg (not_or.mpr ⟨not_not.mpr hmagic, not_not.mpr hversion⟩)]
    by_cases h24 : k < snapHeaderSize
    · rw [if_pos h24]
      trivial
    · rw [if_neg h24, if_pos hk]
      trivial

/-- **A file reads back and no other passes for it**: not one cut off, unless it is the file
of a shorter body, nor one with another body, if checksums differ. -/
theorem stream_checked (hindex : position.lastIncludedIndex < 2 ^ 64)
    (hterm : position.lastIncludedTerm < 2 ^ 64) (hlen : body.length < 2 ^ 63) :
    (∃ r, openSnapshotReader (file position body) = .ok (position, r) ∧ ∀ ks,
      ((r.stream.drain ks).2 = none ∧ (r.stream.drain ks).1 <+: body ∧
        ks.countP (0 < ·) ≤ body.length) ∨ r.stream.drain ks = (body, some .eof)) ∧
    (∀ k < (file position body).length, Refused ((file position body).take k) ∨
      ∃ shorter, (file position body).take k = file position shorter) ∧
    ∀ changed, changed ≠ body → (changed.length = body.length → checksum changed ≠ checksum body) →
      Refused (header position ++ changed ++ trailer body) := by
  refine ⟨⟨_, openSnapshotReader_file hindex hterm hlen, fun ks => ?_⟩, fun k hk => ?_,
    fun changed _ hsum => ?_⟩
  · have hclean : Stream.check ⟨[], some (checksum body), body, 0, false⟩ = .eof := by
      simp [Stream.check]
    have hspec := drain_spec (s := SnapshotReader.stream ⟨body, some (checksum body)⟩) rfl rfl ks
    exact hclean ▸ hspec
  · rcases Nat.lt_or_ge k 36 with hshort | hlong
    · exact .inl (refused_of_short hshort)
    · -- the header is whole, and what is left behind it ends in twelve bytes
      rw [length_file] at hk
      have hrest : ((body ++ trailer body).take (k - 24)).length = k - 24 := by
        rw [List.length_take, List.length_append, length_trailer]
        omega
      rw [file, List.append_assoc, List.take_append, length_header,
        List.take_of_length_le (by rw [length_header]; omega),
        ← List.take_append_drop (k - 36) ((body ++ trailer body).take (k - 24))]
      refine (refused_or_trailer hindex hterm (by rw [List.length_drop, hrest]; omega)).imp_right ?_
      rintro ⟨-, htrailer⟩
      rw [htrailer]
      exact ⟨_, (List.append_assoc ..).symm⟩
  · rw [List.append_assoc]
    refine (refused_or_trailer hindex hterm (length_trailer body)).resolve_right ?_
    rintro ⟨hlt, htrailer⟩
    obtain ⟨hlittle, hcheck⟩ := List.append_inj htrailer (by simp)
    have hsame := congrArg Bytes.ofLittle hlittle
    rw [Bytes.ofLittle_little (by omega), Bytes.ofLittle_little (by omega)] at hsame
    have hcrc := congrArg Bytes.ofLittle hcheck
    rw [Bytes.ofLittle_little (UInt32.toNat_lt _), Bytes.ofLittle_little (UInt32.toNat_lt _)] at hcrc
    exact hsum hsame.symm (UInt32.toNat_inj.mp hcrc.symm)

/-- One byte of a body of three is another. -/
theorem stream_changed_body : Refused (header ⟨5, 2⟩ ++ [1, 2, 4] ++ trailer [1, 2, 3]) :=
  (stream_checked (by decide) (by decide) (by decide)).2.2 _ (by decide) fun _ => by decide +kernel

/-- A body of twelve zeros looks like the trailer of an empty one. -/
theorem stream_cut_off :
    36 < (file ⟨5, 2⟩ (List.replicate 12 0)).length ∧
      ∃ r, openSnapshotReader ((file ⟨5, 2⟩ (List.replicate 12 0)).take 36) = .ok (⟨5, 2⟩, r) ∧
        r.stream.drain [1] = ([], some .eof) :=
  ⟨by decide, ⟨[], some 0⟩, by decide +kernel, by decide +kernel⟩

end Raft.SnapshotFile
