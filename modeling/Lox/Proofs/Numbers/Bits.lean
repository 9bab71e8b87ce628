import Lox.Number.Double
import Mathlib

/-! # Doubles and their bits

A double is its sign and its magnitude. The finite doubles are those below the magnitude of the
infinities, and above that there is one double only, `nan`.
-/

namespace Lox.Double

variable {x : Float}

theorem ofMagnitude_magnitude (x : Float) : ofMagnitude (isNegative x) (magnitude x) = x := by
  have hlt : x.toBits.toNat < signBit + signBit := x.toBits.toNat_lt
  have hbits : (if isNegative x then signBit + magnitude x else magnitude x) = x.toBits.toNat := by
    rw [magnitude]
    cases h : isNegative x with
    | true =>
      have hle : signBit ≤ x.toBits.toNat := of_decide_eq_true h
      rw [if_pos rfl, Nat.mod_eq_sub_mod hle, Nat.mod_eq_of_lt (by omega)]
      omega
    | false =>
      have hgt : ¬ signBit ≤ x.toBits.toNat := of_decide_eq_false h
      rw [if_neg Bool.false_ne_true, Nat.mod_eq_of_lt (by omega)]
  rw [ofMagnitude, hbits, UInt64.ofNat_toNat, Float.ofBits_toBits]

section

open Float.Model Float.Model.UnpackedFloat

theorem toNat_unpackExponent (x : Float) :
    (@unpackExponent .binary64 x.toBits.toBitVec).toNat = magnitude x / binade := by
  rw [unpackExponent_def, BitVec.extractLsb'_toNat, Nat.shiftRight_eq_div_pow]
  exact (Nat.mod_mul_right_div_self x.toBits.toNat binade (2 ^ 11)).symm

theorem toNat_unpackMantissa (x : Float) :
    (@unpackMantissa .binary64 x.toBits.toBitVec).toNat = magnitude x % binade := by
  rw [unpackMantissa_def, BitVec.extractLsb'_toNat, Nat.shiftRight_zero]
  exact (Nat.mod_mul_right_mod x.toBits.toNat binade (2 ^ 11)).symm

/-- The exponent's bits are all ones from the infinities on. -/
theorem unpackExponent_eq_iff :
    @unpackExponent .binary64 x.toBits.toBitVec = -1#_ ↔ infinite ≤ magnitude x := by
  have hlt : magnitude x < signBit := Nat.mod_lt _ (by decide)
  have hb : signBit = 2048 * binade := rfl
  have hi : infinite = 2047 * binade := rfl
  rw [← BitVec.toNat_inj, toNat_unpackExponent]
  show magnitude x / binade = 2047 ↔ _
  rw [Nat.div_eq_iff (by decide)]
  omega

theorem isFinite_iff : x.isFinite ↔ magnitude x < infinite := by
  rw [← Nat.not_le, ← unpackExponent_eq_iff]
  show (UnpackedFloat.unpack .binary64 x.toBits.toBitVec).isFinite ↔ _
  fun_cases UnpackedFloat.unpack .binary64 x.toBits.toBitVec <;>
    simp_all +zetaDelta [UnpackedFloat.isFinite]

theorem isNaN_iff : x.isNaN ↔ infinite < magnitude x := by
  have hlt : magnitude x < signBit := Nat.mod_lt _ (by decide)
  have hzero : @unpackMantissa .binary64 x.toBits.toBitVec = 0#_ ↔ magnitude x % binade = 0 := by
    rw [← BitVec.toNat_inj, toNat_unpackMantissa]
    rfl
  have hnan : x.isNaN ↔ infinite ≤ magnitude x ∧ magnitude x % binade ≠ 0 := by
    rw [← unpackExponent_eq_iff, ne_eq, ← hzero]
    show (UnpackedFloat.unpack .binary64 x.toBits.toBitVec).isNaN ↔ _
    fun_cases UnpackedFloat.unpack .binary64 x.toBits.toBitVec <;>
      simp_all +zetaDelta [UnpackedFloat.isNaN]
  have hs : signBit = 2048 * 4503599627370496 := rfl
  have hi : infinite = 2047 * 4503599627370496 := rfl
  have hb : binade = 4503599627370496 := rfl
  rw [hnan, hi, hb]
  omega

theorem eq_nan_of_infinite_lt (h : infinite < magnitude x) : x = nan := by
  have hx := isNaN_iff.mpr h
  have hn : nan.isNaN := by decide
  rw [Float.isNaN_eq_decide_eq_nan, decide_eq_true_eq] at hx hn
  rw [hx, hn]

end

end Lox.Double
