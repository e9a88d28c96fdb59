import Mathlib

namespace Levos.Library

/-- The number a list of bytes stands for, its lowest byte first. -/
def ofBytes (bs : List UInt8) : Nat := Nat.ofDigits 256 (bs.map UInt8.toNat)

/-- The lowest `width` bytes of a number. -/
def toBytes : Nat → Nat → List UInt8
  | 0, _ => []
  | width + 1, n => UInt8.ofNat n :: toBytes width (n / 256)

@[simp] theorem ofBytes_nil : ofBytes [] = 0 := rfl

@[simp] theorem ofBytes_cons (b : UInt8) (bs : List UInt8) :
    ofBytes (b :: bs) = b.toNat + 256 * ofBytes bs := by
  simp [ofBytes, Nat.ofDigits_cons]

theorem ofBytes_append (as bs : List UInt8) :
    ofBytes (as ++ bs) = ofBytes as + 256 ^ as.length * ofBytes bs := by
  simp [ofBytes, Nat.ofDigits_append]

theorem ofBytes_zeros (n : Nat) : ofBytes (List.replicate n 0) = 0 := by
  induction n with
  | zero => rfl
  | succ n ih => rw [List.replicate_succ, ofBytes_cons, ih]; rfl

theorem ofBytes_lt (bs : List UInt8) : ofBytes bs < 256 ^ bs.length := by
  induction bs with
  | nil => simp
  | cons b bs ih =>
    have hb := b.toNat_lt
    rw [ofBytes_cons, List.length_cons, Nat.pow_succ]
    omega

@[simp] theorem toBytes_length (width n : Nat) : (toBytes width n).length = width := by
  induction width generalizing n with
  | zero => rfl
  | succ width ih => simp [toBytes, ih]

@[simp] theorem ofBytes_toBytes (width n : Nat) : ofBytes (toBytes width n) = n % 256 ^ width := by
  induction width generalizing n with
  | zero => simp [toBytes, Nat.mod_one]
  | succ width ih =>
    rw [toBytes, ofBytes_cons, ih, Nat.pow_succ, Nat.mul_comm (256 ^ width) 256, Nat.mod_mul]
    simp

theorem toBytes_ofBytes (bs : List UInt8) : toBytes bs.length (ofBytes bs) = bs := by
  induction bs with
  | nil => rfl
  | cons b bs ih =>
    have hb := b.toNat_lt
    have hlow : UInt8.ofNat (b.toNat + 256 * ofBytes bs) = b := by
      refine UInt8.toNat_inj.mp ?_
      rw [UInt8.toNat_ofNat']
      omega
    have hrest : (b.toNat + 256 * ofBytes bs) / 256 = ofBytes bs := by omega
    rw [ofBytes_cons, List.length_cons, toBytes, hlow, hrest, ih]

/-- A word below 2^31 is the same number as an `int`. -/
theorem int_of_word {v : UInt32} (h : v.toNat < 2 ^ 31) : v.toInt32.toInt = v.toNat := by
  have hbits : 2 * v.toBitVec.toNat < 2 ^ 32 := by
    have : v.toBitVec.toNat = v.toNat := rfl
    omega
  exact BitVec.toInt_eq_toNat_of_lt hbits

theorem int_neg_of_word {v : UInt32} (h : 2 ^ 31 ≤ v.toNat) : v.toInt32.toInt < 0 := by
  have hbits : 2 ^ 32 ≤ 2 * v.toBitVec.toNat := by
    have : v.toBitVec.toNat = v.toNat := rfl
    omega
  exact BitVec.toInt_neg_iff.mpr hbits

/-- A word is joined from its two bytes. -/
theorem join_bytes (value : UInt16) :
    value.toUInt8.toUInt16 ||| (value >>> 8).toUInt8.toUInt16 <<< 8 = value := by
  refine UInt16.toBitVec_inj.mp (BitVec.eq_of_getLsbD_eq ?_)
  intro j hj
  simp only [UInt16.toBitVec_or, UInt8.toBitVec_toUInt16, UInt16.toBitVec_toUInt8,
    UInt16.toBitVec_shiftLeft, UInt16.toBitVec_shiftRight, BitVec.getLsbD_or]
  by_cases hlow : j < 8
  · simp [hlow, hj]
  · have hplace : 8 + (j - 8) = j := by omega
    have hhigh : j - 8 < 8 := by omega
    simp [hlow, hj, hplace, hhigh]

end Levos.Library
