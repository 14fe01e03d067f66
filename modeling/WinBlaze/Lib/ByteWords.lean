import Mathlib.Data.UInt
import WinBlaze.Lib.ByteCodec

/-!
# Words put together from bytes

A little-endian field is read into a word by or-ing shifted bytes, and a signed
field narrower than the word is extended by shifting it up and down again. Both
give the number the bytes stand for.
-/

namespace ByteWords

open ByteCodec

theorem ofLeBytes_append (bytes more : List UInt8) :
    ofLeBytes (bytes ++ more) = ofLeBytes bytes + 256 ^ bytes.length * ofLeBytes more := by
  induction bytes with
  | nil => simp [ofLeBytes]
  | cons byte rest ih =>
      rw [List.cons_append, ofLeBytes, ofLeBytes, ih, List.length_cons, pow_succ]
      ring

/-- The number of a byte string in two's complement. -/
def signed (bytes : List UInt8) : ℤ :=
  if 2 * ofLeBytes bytes < 256 ^ bytes.length then ofLeBytes bytes
  else ofLeBytes bytes - 256 ^ bytes.length

theorem pow_256 (width : ℕ) : 256 ^ width = 2 ^ (8 * width) := by
  simp [pow_mul]

/-- One byte more, or-ed into the word above the bytes it holds. -/
theorem or_shiftLeft_byte {w : ℕ} (bytes : List UInt8) (byte : UInt8)
    (h : 8 * (bytes.length + 1) ≤ w) :
    BitVec.ofNat w (ofLeBytes bytes) ||| BitVec.ofNat w byte.toNat <<< (8 * bytes.length) =
      BitVec.ofNat w (ofLeBytes (bytes ++ [byte])) := by
  have hlow : ofLeBytes bytes < 2 ^ (8 * bytes.length) := by
    rw [← pow_256]
    exact ofLeBytes_lt bytes
  have hbyte : byte.toNat < 2 ^ 8 := byte.toNat_lt
  have hsplit : 2 ^ w = 2 ^ (8 * bytes.length) * 2 ^ (w - 8 * bytes.length) := by
    rw [← pow_add]
    congr 1
    omega
  have hroom : 2 ^ 8 ≤ 2 ^ (w - 8 * bytes.length) := Nat.pow_le_pow_right (by decide) (by omega)
  have hword : byte.toNat < 2 ^ w := hbyte.trans_le (Nat.pow_le_pow_right (by decide) (by omega))
  have hhigh : 2 ^ (8 * bytes.length) * byte.toNat < 2 ^ w := by
    rw [hsplit]
    exact Nat.mul_lt_mul_of_pos_left (hbyte.trans_le hroom) (Nat.two_pow_pos _)
  have hshift : (BitVec.ofNat w byte.toNat <<< (8 * bytes.length)).toNat =
      2 ^ (8 * bytes.length) * byte.toNat := by
    rw [BitVec.toNat_shiftLeft, BitVec.toNat_ofNat, Nat.mod_eq_of_lt hword, Nat.shiftLeft_eq,
      mul_comm, Nat.mod_eq_of_lt hhigh]
  have hfits : ofLeBytes bytes < 2 ^ w :=
    hlow.trans_le (Nat.pow_le_pow_right (by decide) (by omega))
  apply BitVec.eq_of_toNat_eq
  rw [BitVec.toNat_or, hshift, BitVec.toNat_ofNat, Nat.mod_eq_of_lt hfits, BitVec.toNat_ofNat,
    ofLeBytes_append, pow_256, Nat.or_comm, ← Nat.two_pow_add_eq_or_of_lt hlow, Nat.add_comm]
  simp only [ofLeBytes, mul_zero, add_zero]
  rw [Nat.mod_eq_of_lt]
  have hle : 2 ^ (8 * bytes.length) * (byte.toNat + 1) ≤ 2 ^ w := by
    rw [hsplit]
    exact Nat.mul_le_mul_left _ (by omega)
  rw [mul_add, mul_one] at hle
  omega

/-- A field of `width` bits, shifted to the top of the word and back. -/
theorem toInt_shiftLeft_sshiftRight {w width n : ℕ} (h : width ≤ w) (hn : n < 2 ^ width) :
    ((BitVec.ofNat w n <<< (w - width)).sshiftRight (w - width)).toInt =
      (BitVec.ofNat width n).toInt := by
  have hpow : 2 ^ w = 2 ^ width * 2 ^ (w - width) := by
    rw [← pow_add]
    congr 1
    omega
  have hpos : 0 < 2 ^ (w - width) := Nat.two_pow_pos _
  have hshifted : n * 2 ^ (w - width) < 2 ^ w := by
    rw [hpow]
    exact Nat.mul_lt_mul_of_pos_right hn hpos
  have hword : n < 2 ^ w := hn.trans_le (Nat.pow_le_pow_right (by decide) h)
  have hnat : (BitVec.ofNat w n <<< (w - width)).toNat = n * 2 ^ (w - width) := by
    simp only [BitVec.toNat_shiftLeft, BitVec.toNat_ofNat, Nat.shiftLeft_eq,
      Nat.mod_eq_of_lt hword, Nat.mod_eq_of_lt hshifted]
  have hsign : 2 * (n * 2 ^ (w - width)) < 2 ^ w ↔ 2 * n < 2 ^ width := by
    rw [hpow, ← mul_assoc]
    exact Nat.mul_lt_mul_right hpos
  have hne : ((2 ^ (w - width) : ℕ) : ℤ) ≠ 0 := by exact_mod_cast hpos.ne'
  rw [BitVec.toInt_sshiftRight, Int.shiftRight_eq_div_pow, BitVec.toInt_eq_toNat_cond,
    BitVec.toInt_eq_toNat_cond, hnat, BitVec.toNat_ofNat, Nat.mod_eq_of_lt hn]
  by_cases hlow : 2 * n < 2 ^ width
  · rw [if_pos (hsign.mpr hlow), if_pos hlow, Nat.cast_mul]
    exact Int.mul_ediv_cancel _ hne
  · rw [if_neg (mt hsign.mp hlow), if_neg hlow, hpow, Nat.cast_mul, Nat.cast_mul, ← sub_mul]
    exact Int.mul_ediv_cancel _ hne

theorem toInt_ofNat_ofLeBytes (bytes : List UInt8) :
    (BitVec.ofNat (8 * bytes.length) (ofLeBytes bytes)).toInt = signed bytes := by
  have hlt := ofLeBytes_lt bytes
  rw [BitVec.toInt_eq_toNat_cond, BitVec.toNat_ofNat, ← pow_256, Nat.mod_eq_of_lt hlt, signed]
  push_cast
  rfl

end ByteWords
