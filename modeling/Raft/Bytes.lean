import Mathlib.Algebra.Order.Group.Nat
import Mathlib.Data.List.Basic

/-!
# Numbers and checksums in byte strings

Fixed-width numbers as they are laid out in files and messages, in either order of the
bytes, and reflected cyclic redundancy checks.

## Main results

* `Bytes.ofLittle_little`, `Bytes.ofBig_big`: a number that fits its width is read back.
* `Bytes.little_ofLittle`, `Bytes.big_ofBig`: bytes are written back.
-/

namespace Bytes

/-- The low `w` bytes of a number, least significant first. -/
def little (w n : Nat) : List UInt8 := (List.range w).map fun i => UInt8.ofNat (n / 256 ^ i)

variable (bs : List UInt8)

def ofLittle : Nat := bs.foldr (fun b n => b.toNat + 256 * n) 0

@[simp] theorem length_little (w n : Nat) : (little w n).length = w := by simp [little]

theorem little_succ (w n : Nat) : little (w + 1) n = UInt8.ofNat n :: little w (n / 256) := by
  unfold little
  rw [List.range_succ_eq_map, List.map_cons, List.map_map, Nat.pow_zero, Nat.div_one]
  congr 2
  funext i
  rw [Function.comp_apply, Nat.pow_succ', Nat.div_div_eq_div_mul]

theorem ofLittle_cons (b : UInt8) (bs : List UInt8) :
    ofLittle (b :: bs) = b.toNat + 256 * ofLittle bs := rfl

theorem ofLittle_little_mod (w n : Nat) : ofLittle (little w n) = n % 256 ^ w := by
  induction w generalizing n with
  | zero => rw [Nat.pow_zero, Nat.mod_one]; rfl
  | succ w ih =>
    have hlow : (UInt8.ofNat n).toNat = n % 256 := UInt8.toNat_ofNat'
    rw [little_succ, ofLittle_cons, ih, hlow, Nat.pow_succ', Nat.mod_mul]

theorem ofLittle_little {w n : Nat} (h : n < 256 ^ w) : ofLittle (little w n) = n := by
  rw [ofLittle_little_mod, Nat.mod_eq_of_lt h]

theorem ofLittle_lt : ofLittle bs < 256 ^ bs.length := by
  induction bs with
  | nil => decide
  | cons b bs ih =>
    have hb : b.toNat < 256 := b.toNat_lt
    rw [ofLittle_cons, List.length_cons, Nat.pow_succ']
    omega

theorem little_ofLittle : little bs.length (ofLittle bs) = bs := by
  induction bs with
  | nil => rfl
  | cons b bs ih =>
    have hlow : UInt8.ofNat (b.toNat + 256 * ofLittle bs) = b := by
      apply UInt8.toNat_inj.mp
      have hb : b.toNat < 256 := b.toNat_lt
      have hmod : (b.toNat + 256 * ofLittle bs) % 256 = b.toNat := by omega
      rw [UInt8.toNat_ofNat', hmod]
    have hrest : (b.toNat + 256 * ofLittle bs) / 256 = ofLittle bs := by
      have hb : b.toNat < 256 := b.toNat_lt
      omega
    rw [List.length_cons, little_succ, ofLittle_cons, hlow, hrest, ih]

def big (w n : Nat) : List UInt8 := (little w n).reverse

def ofBig : Nat := ofLittle bs.reverse

@[simp] theorem length_big (w n : Nat) : (big w n).length = w := by simp [big]

theorem ofBig_big {w n : Nat} (h : n < 256 ^ w) : ofBig (big w n) = n := by
  rw [ofBig, big, List.reverse_reverse, ofLittle_little h]

theorem ofBig_lt : ofBig bs < 256 ^ bs.length := by
  have h := ofLittle_lt bs.reverse
  rwa [List.length_reverse] at h

theorem big_ofBig : big bs.length (ofBig bs) = bs := by
  have h := little_ofLittle bs.reverse
  rw [List.length_reverse] at h
  rw [big, ofBig, h, List.reverse_reverse]

/-- One bit of a reflected check. -/
def crcBit (poly crc : UInt32) : UInt32 :=
  if crc &&& 1 = 1 then (crc >>> 1) ^^^ poly else crc >>> 1

/-- The check of a byte string, for a polynomial in reflected form. -/
def crc32 (poly : UInt32) (bs : List UInt8) : UInt32 :=
  bs.foldl (fun crc b => (crcBit poly)^[8] (crc ^^^ b.toUInt32)) 0xFFFFFFFF ^^^ 0xFFFFFFFF

end Bytes
