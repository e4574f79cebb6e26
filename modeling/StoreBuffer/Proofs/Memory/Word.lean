import Mathlib.Algebra.Group.Nat.Defs
import StoreBuffer.Memory.Width

/-! # Words bit by bit

Bytes, little-endian words and truncation are each described by the bits of the result, which is
what makes byte-wise and value-wise statements about loads meet. -/

namespace StoreBuffer

namespace Width

theorem byteSize_le (width : Nat) : byteSize width ≤ 8 := by
  unfold byteSize
  repeat' split
  all_goals omega

theorem byteSize_pos {width : Nat} (h : width ≠ 0) : 0 < byteSize width := by
  unfold byteSize
  repeat' split
  all_goals omega

theorem byteSize_mono {v w : Nat} (h : v ≤ w) : byteSize v ≤ byteSize w := by
  unfold byteSize
  repeat' split
  all_goals omega

/-- The bytes of an access hold all bits of its value. -/
theorem le_byteSize {width : Nat} (h : width ≤ 64) : width ≤ 8 * byteSize width := by
  unfold byteSize
  repeat' split
  all_goals omega

theorem toNat_mask (width : Nat) : (mask width).toNat = 2 ^ min width 64 - 1 := by
  have h : 2 ^ min width 64 ≤ 2 ^ 64 := Nat.pow_le_pow_right (by decide) (Nat.min_le_right ..)
  have : 0 < 2 ^ min width 64 := Nat.pow_pos (by decide)
  rw [mask, Nat.one_shiftLeft, UInt64.toNat_ofNat']
  exact Nat.mod_eq_of_lt (by omega)

theorem toNat_truncate (width : Nat) (value : UInt64) :
    (truncate width value).toNat = value.toNat % 2 ^ min width 64 := by
  rw [truncate, UInt64.toNat_and, toNat_mask, Nat.and_two_pow_sub_one_eq_mod]

theorem testBit_truncate (width : Nat) (value : UInt64) (j : Nat) :
    (truncate width value).toNat.testBit j =
      (decide (j < min width 64) && value.toNat.testBit j) := by
  rw [toNat_truncate, Nat.testBit_mod_two_pow]

theorem truncate_truncate (width : Nat) (value : UInt64) :
    truncate width (truncate width value) = truncate width value := by
  rw [← UInt64.toNat_inj, toNat_truncate, toNat_truncate, Nat.mod_mod]

theorem truncate_truncate_of_le {v w : Nat} (h : v ≤ w) (value : UInt64) :
    truncate v (truncate w value) = truncate v value := by
  have hdvd : 2 ^ min v 64 ∣ 2 ^ min w 64 := Nat.pow_dvd_pow 2 (by omega)
  rw [← UInt64.toNat_inj, toNat_truncate, toNat_truncate, toNat_truncate, Nat.mod_mod_of_dvd _ hdvd]

end Width

namespace Word

theorem ofDigits_lt (bytes : List UInt8) : ofDigits bytes < 256 ^ bytes.length := by
  induction bytes with
  | nil => decide
  | cons b rest ih =>
    have hb : b.toNat < 256 := b.toNat_lt
    rw [ofDigits, List.length_cons, Nat.pow_succ]
    omega

theorem eq_of_testBit {a b : UInt64}
    (h : ∀ j, a.toNat.testBit j = b.toNat.testBit j) : a = b :=
  UInt64.toNat_inj.mp (Nat.eq_of_testBit_eq h)

theorem testBit_byte (value : UInt64) (i : Nat) {j : Nat} (h : j < 8) :
    (byte value i).toNat.testBit j = value.toNat.testBit (8 * i + j) := by
  rw [byte, UInt8.toNat_ofNat', Nat.testBit_mod_two_pow, Nat.testBit_shiftRight]
  simp [h]

theorem testBit_ofDigits (bytes : List UInt8) (j : Nat) :
    (ofDigits bytes).testBit j = ((bytes[j / 8]?).getD 0).toNat.testBit (j % 8) := by
  induction bytes generalizing j with
  | nil => simp [ofDigits]
  | cons b rest ih =>
    rw [ofDigits, Nat.add_comm, show (256 : Nat) = 2 ^ 8 from rfl,
      Nat.testBit_two_pow_mul_add _ b.toNat_lt]
    by_cases h : j < 8
    · rw [if_pos h, Nat.div_eq_of_lt h, Nat.mod_eq_of_lt h]
      rfl
    · have hdiv : j / 8 = (j - 8) / 8 + 1 := by omega
      have hmod : j % 8 = (j - 8) % 8 := by omega
      rw [if_neg h, ih, hdiv, hmod, List.getElem?_cons_succ]

theorem testBit_ofBytes {bytes : List UInt8} (h : bytes.length ≤ 8) (j : Nat) :
    (ofBytes bytes).toNat.testBit j = ((bytes[j / 8]?).getD 0).toNat.testBit (j % 8) := by
  have hlt : ofDigits bytes < 2 ^ 64 :=
    calc ofDigits bytes < 256 ^ bytes.length := ofDigits_lt bytes
      _ ≤ 256 ^ 8 := Nat.pow_le_pow_right (by decide) h
      _ = 2 ^ 64 := by decide
  rw [ofBytes, UInt64.toNat_ofNat', Nat.mod_eq_of_lt hlt, testBit_ofDigits]

/-- Bit `j` of a value cut to `width` bits that is assembled from bytes `b 0`, `b 1`, … -/
theorem testBit_truncate_ofBytes {width : Nat} (h : width ≤ 64) (b : Nat → UInt8) (j : Nat) :
    (Width.truncate width
      (ofBytes ((List.range (Width.byteSize width)).map b))).toNat.testBit j =
        (decide (j < width) && (b (j / 8)).toNat.testBit (j % 8)) := by
  have hmin : min width 64 = width := Nat.min_eq_left h
  rw [Width.testBit_truncate, hmin]
  by_cases hj : j < width
  · have hlt : j / 8 < Width.byteSize width := by
      have := Width.le_byteSize h
      omega
    have hlen : ((List.range (Width.byteSize width)).map b).length ≤ 8 := by
      simpa using Width.byteSize_le width
    rw [testBit_ofBytes hlen]
    simp [hlt]
  · simp [hj]

end Word

end StoreBuffer
