import Raft.Bytes

/-!
# Reading byte slices

A read of a slice is in range or it is not; in the second case the program stops.  The operations
here are the reads a decoder makes, each of which says which of the two it is, so that a decoder
built from them can be shown never to stop.

## Main results

* `Slice.upTo_of_le`, `Slice.after_of_le`, `Slice.big_of_le`: what a read in range returns.
-/

namespace Slice

inductive OutOfRange
  | outOfRange
  deriving DecidableEq, Repr

abbrev Checked (α : Type) := Except OutOfRange α

def byteAt (b : List UInt8) (i : Nat) : Checked UInt8 :=
  match b[i]? with
  | some x => .ok x
  | none => .error .outOfRange

def upTo (b : List UInt8) (i : Nat) : Checked (List UInt8) :=
  if i ≤ b.length then .ok (b.take i) else .error .outOfRange

def after (b : List UInt8) (i : Nat) : Checked (List UInt8) :=
  if i ≤ b.length then .ok (b.drop i) else .error .outOfRange

def big (w : Nat) (b : List UInt8) : Checked Nat :=
  if w ≤ b.length then .ok (Bytes.ofBig (b.take w)) else .error .outOfRange

variable {b : List UInt8} {i : Nat}

theorem upTo_of_le (h : i ≤ b.length) : upTo b i = .ok (b.take i) :=
  if_pos h

theorem after_of_le (h : i ≤ b.length) : after b i = .ok (b.drop i) :=
  if_pos h

theorem big_of_le {w : Nat} (h : w ≤ b.length) : big w b = .ok (Bytes.ofBig (b.take w)) :=
  if_pos h

end Slice
