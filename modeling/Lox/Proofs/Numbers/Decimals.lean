import Lox.Number.Notation
import Lox.Proofs.Numbers.Rounding
import Mathlib

/-! # Decimals as numbers

A decimal is rounded by its value alone. The shortest decimal for a double is rounded to that
double.
-/

namespace Lox.Decimal

def value (d : Decimal) : ℚ := d.coefficient * 10 ^ d.exponent

theorem value_mul_pow (c k : ℕ) (x : ℤ) : value ⟨c * 10 ^ k, x⟩ = value ⟨c, k + x⟩ := by
  rw [value, value, zpow_add₀ (by norm_num), zpow_natCast]
  push_cast
  exact mul_assoc ..

theorem exists_fraction (d : Decimal) : ∃ num den : ℕ, 0 < den ∧ d.value = num / den ∧
    d.nearest = Double.nearest num den := by
  rw [nearest, value]
  split
  · next h =>
    refine ⟨_, 1, Nat.one_pos, ?_, rfl⟩
    obtain ⟨n, hn⟩ := Int.eq_ofNat_of_zero_le h
    rw [hn, zpow_natCast, Int.toNat_natCast, Nat.pow_eq]
    push_cast
    rw [div_one]
  · next h =>
    refine ⟨_, _, Nat.pow_pos (by decide), ?_, rfl⟩
    obtain ⟨n, hn⟩ := Int.eq_ofNat_of_zero_le (Int.neg_nonneg.mpr (Int.not_le.mp h).le)
    rw [← Int.neg_neg d.exponent, hn, zpow_neg, zpow_natCast, Int.neg_neg, Int.toNat_natCast]
    push_cast
    rw [div_eq_mul_inv]

/-- A decimal is rounded as the quotient that it is. -/
theorem nearest_eq {d : Decimal} (num den : ℕ) (hd : 0 < den) (h : d.value = num / den) :
    d.nearest = Double.nearest num den := by
  obtain ⟨num', den', hd', hv, hn⟩ := d.exists_fraction
  have hden : (den : ℚ) ≠ 0 := Nat.cast_ne_zero.mpr hd.ne'
  have hden' : (den' : ℚ) ≠ 0 := Nat.cast_ne_zero.mpr hd'.ne'
  rw [hv, div_eq_div_iff hden' hden] at h
  rw [hn]
  exact Double.nearest_congr hd' hd (by exact_mod_cast h)

/-- Equal numbers are rounded alike, however they are written. -/
theorem nearest_congr {d d' : Decimal} (h : d.value = d'.value) : d.nearest = d'.nearest := by
  obtain ⟨num, den, hd, hv, hn⟩ := d'.exists_fraction
  rw [nearest_eq num den hd (h.trans hv), hn]

theorem nearest_zero (k : Int) : nearest ⟨0, k⟩ = 0 := by
  have hunits : Double.units 0 = 0 := Double.units_of_le (Nat.zero_le _)
  rw [nearest_eq 0 1 Nat.one_pos (by simp [value])]
  exact Double.nearest_of_units Nat.one_pos (by decide) (by rw [hunits, Nat.zero_mul, Nat.zero_mul])

theorem nearest_of_large {d : Decimal} {k : ℕ}
    (hk : Double.units Double.infinite ≤ Nat.pow 10 k * Double.unitsPerOne)
    (h : (10 : ℚ) ^ k ≤ d.value) : d.nearest = Double.infinite := by
  obtain ⟨num, den, hd, hv, hn⟩ := d.exists_fraction
  rw [hv, le_div_iff₀ (Nat.cast_pos.mpr hd), mul_comm] at h
  rw [hn]
  exact Double.nearest_of_large hd hk (by rw [Nat.pow_eq]; exact_mod_cast h)

theorem nearest_of_small {d : Decimal} {k : ℕ} (hk : 2 * Double.unitsPerOne < Nat.pow 10 k)
    (h : d.value * 10 ^ k ≤ 1) : d.nearest = 0 := by
  obtain ⟨num, den, hd, hv, hn⟩ := d.exists_fraction
  rw [hv, div_mul_eq_mul_div, div_le_one (Nat.cast_pos.mpr hd)] at h
  rw [hn]
  exact Double.nearest_of_small hd hk (by rw [Nat.pow_eq]; exact_mod_cast h)

variable {g : Nat}

theorem nearest_units {n : Nat} (hn : Double.unitsPerOne = Nat.pow 2 n) (hg : g < Double.infinite) :
    nearest ⟨Double.units g * Nat.pow 5 n, -n⟩ = g := by
  have hpow : (10 : ℚ) ^ n = 5 ^ n * 2 ^ n := by rw [← mul_pow]; norm_num
  rw [nearest_eq (Double.units g) (2 ^ n) (Nat.two_pow_pos n)]
  · exact Double.nearest_of_units (Nat.two_pow_pos n) hg (by rw [hn]; rfl)
  · rw [value, zpow_neg, zpow_natCast, hpow, Nat.pow_eq]
    push_cast
    field_simp

theorem nearest_exact (hg : g < Double.infinite) : (exact g).nearest = g := by
  have h := nearest_units (n := 1074) (by decide +kernel) hg
  rwa [Nat.cast_ofNat] at h

theorem nearest_of_neighbour? {k : Int} {d : Decimal} (h : neighbour? g k = some d) :
    d.nearest = g := by
  unfold neighbour? at h
  extract_lets num den c low high lowReads highReads middle at h
  have hlow : lowReads = true → low.nearest = g := eq_of_beq
  have hhigh : highReads = true → high.nearest = g := eq_of_beq
  grind

theorem nearest_shortest (hg : g < Double.infinite) : (shortest g).nearest = g := by
  rw [shortest]
  rcases hs : List.findSome? _ _ with _ | d
  · exact nearest_exact hg
  · obtain ⟨n, -, hn⟩ := List.exists_of_findSome?_eq_some hs
    exact nearest_of_neighbour? hn

theorem pow_le_of_toDigits {n : ℕ} (hn : 0 < n) : 10 ^ ((Nat.toDigits 10 n).length - 1) ≤ n := by
  rcases Nat.lt_or_ge 1 (Nat.toDigits 10 n).length with h | h
  · have := Nat.length_toDigits_le_iff (n := n) (k := (Nat.toDigits 10 n).length - 1)
      (show 1 < 10 by decide) (by omega)
    omega
  · rw [Nat.sub_eq_zero_of_le h]
    exact hn

theorem lt_pow_toDigits (n : ℕ) : n < 10 ^ (Nat.toDigits 10 n).length :=
  (Nat.length_toDigits_le_iff (by decide) Nat.length_toDigits_pos).mp (Nat.le_refl _)

theorem value_bounds {d : Decimal} (hd : 0 < d.coefficient) :
    10 ^ (d.point - 1) ≤ d.value ∧ d.value < 10 ^ d.point := by
  have hpos : (0 : ℚ) < 10 ^ d.exponent := zpow_pos (by norm_num) _
  have hlen := Nat.length_toDigits_pos (b := 10) (n := d.coefficient)
  have hlow : ((10 ^ ((Nat.toDigits 10 d.coefficient).length - 1) : ℕ) : ℚ) ≤ d.coefficient :=
    Nat.cast_le.mpr (pow_le_of_toDigits hd)
  have hhigh : (d.coefficient : ℚ) < (10 ^ (Nat.toDigits 10 d.coefficient).length : ℕ) :=
    Nat.cast_lt.mpr (lt_pow_toDigits _)
  have hpoint : d.point - 1 = ((Nat.toDigits 10 d.coefficient).length - 1 : ℕ) + d.exponent := by
    rw [point]
    omega
  rw [hpoint, point, value, zpow_add₀ (by norm_num), zpow_add₀ (by norm_num), zpow_natCast,
    zpow_natCast]
  push_cast at hlow hhigh
  exact ⟨mul_le_mul_of_nonneg_right hlow hpos.le, mul_lt_mul_of_pos_right hhigh hpos⟩

/-- Digits of which neither the first nor the last is a zero. -/
structure Trimmed (ds : List Char) : Prop where
  all_isDigit : ds.all Char.isDigit
  head?_ne : ds.head? ≠ some '0'
  getLast?_ne : ds.getLast? ≠ some '0'

theorem trimmed_nil : Trimmed [] := ⟨rfl, by simp, by simp⟩

theorem head?_toDigits_ne {n : ℕ} (hn : 0 < n) : (Nat.toDigits 10 n).head? ≠ some '0' := by
  induction n using Nat.strong_induction_on with
  | _ n ih =>
    rw [Nat.toDigits_eq_if (by decide)]
    split
    · interval_cases n <;> decide
    · next h =>
      have hdiv : 0 < n / 10 := Nat.div_pos (Nat.not_lt.mp h) (by decide)
      rw [List.head?_append_of_ne_nil _ Nat.toDigits_ne_nil]
      exact ih (n / 10) (Nat.div_lt_self hn (by decide)) hdiv

theorem all_toDigits (n : ℕ) : (Nat.toDigits 10 n).all Char.isDigit :=
  List.all_eq_true.mpr fun _ hc => Nat.isDigit_of_mem_toDigits (by decide) (by decide) hc

theorem exists_digitChar {c : Char} (h : c.isDigit) : ∃ k < 10, Nat.digitChar k = c := by
  have hc : 48 ≤ c.toNat ∧ c.toNat ≤ 57 := by
    simpa [Char.isDigit, UInt32.le_iff_toNat_le] using h
  refine ⟨c.toNat - 48, by omega, ?_⟩
  obtain ⟨k, hk⟩ : ∃ k, c.toNat = 48 + k := ⟨c.toNat - 48, by omega⟩
  have hlt : k < 10 := by omega
  rw [← Char.ofNat_toNat c, hk]
  interval_cases k <;> rfl

/-- Digits without a zero in front are those of their number. -/
theorem toDigits_ofDigitChars {ds : List Char} (hds : ds.all Char.isDigit) (hne : ds ≠ [])
    (hzero : ds.head? ≠ some '0') : Nat.toDigits 10 (Nat.ofDigitChars 10 ds 0) = ds := by
  induction ds using List.reverseRecOn with
  | nil => exact absurd rfl hne
  | append_singleton ds c ih =>
    obtain ⟨hinit, hc⟩ : ds.all Char.isDigit ∧ c.isDigit := by simpa using hds
    obtain ⟨k, hk, rfl⟩ := exists_digitChar hc
    rw [Nat.ofDigitChars_append, Nat.ofDigitChars_cons_digitChar_of_lt_ten hk, Nat.ofDigitChars_nil]
    rcases List.eq_nil_or_concat' ds with rfl | ⟨init, d, rfl⟩
    · rw [Nat.ofDigitChars_nil, Nat.mul_zero, Nat.zero_add, Nat.toDigits_of_lt_base hk,
        List.nil_append]
    · have hfront : init ++ [d] ≠ [] := List.append_ne_nil_of_right_ne_nil _ (List.cons_ne_nil _ _)
      rw [List.head?_append_of_ne_nil _ hfront] at hzero
      have hdigits := ih hinit hfront hzero
      have hpos : 0 < Nat.ofDigitChars 10 (init ++ [d]) 0 := by
        refine Nat.pos_of_ne_zero fun h => hzero ?_
        rw [← hdigits, h]
        rfl
      rw [← Nat.toDigits_append_toDigits (by decide) hpos hk, hdigits, Nat.toDigits_of_lt_base hk]

theorem toDigits_eq_append (d : Decimal) : ∃ k,
    Nat.toDigits 10 d.coefficient = d.digits ++ List.replicate k '0' := by
  let ds := (Nat.toDigits 10 d.coefficient).reverse
  have hzero : ∀ c ∈ ds.takeWhile (· == '0'), c = '0' := fun c hc =>
    eq_of_beq (List.mem_takeWhile_imp (p := (· == '0')) hc)
  have hds : ds.takeWhile (· == '0') ++ ds.dropWhile (· == '0') = ds :=
    List.takeWhile_append_dropWhile
  rw [List.eq_replicate_of_mem hzero] at hds
  refine ⟨(ds.takeWhile (· == '0')).length, ?_⟩
  rw [← List.reverse_reverse (Nat.toDigits 10 d.coefficient)]
  show ds.reverse = _
  rw [← hds, List.reverse_append, List.reverse_replicate, hds, digits]

variable {d : Decimal}

theorem ofDigitChars_append_zeros (ds : List Char) (k : ℕ) :
    Nat.ofDigitChars 10 (ds ++ List.replicate k '0') 0 = Nat.ofDigitChars 10 ds 0 * 10 ^ k := by
  rw [Nat.ofDigitChars_append, Nat.ofDigitChars_replicate_zero, Nat.mul_comm]

theorem coefficient_eq {k : ℕ}
    (h : Nat.toDigits 10 d.coefficient = d.digits ++ List.replicate k '0') :
    d.coefficient = Nat.ofDigitChars 10 d.digits 0 * 10 ^ k := by
  rw [← ofDigitChars_append_zeros, ← h, Nat.ofDigitChars_ten_toDigits]

theorem digits_ne_nil (hd : 0 < d.coefficient) : d.digits ≠ [] := by
  obtain ⟨k, hk⟩ := d.toDigits_eq_append
  intro h
  have hc := coefficient_eq hk
  rw [h, Nat.ofDigitChars_nil, Nat.zero_mul] at hc
  omega

theorem trimmed_digits (hd : 0 < d.coefficient) : Trimmed d.digits := by
  obtain ⟨k, hk⟩ := d.toDigits_eq_append
  refine ⟨?_, ?_, ?_⟩
  · refine List.all_eq_true.mpr fun c hc => ?_
    have hmem : c ∈ Nat.toDigits 10 d.coefficient := by
      rw [hk]
      exact List.mem_append_left _ hc
    exact List.all_eq_true.mp (all_toDigits _) c hmem
  · have h := head?_toDigits_ne hd
    rwa [hk, List.head?_append_of_ne_nil _ (digits_ne_nil hd)] at h
  · have h := List.head?_dropWhile_not (· == '0') (Nat.toDigits 10 d.coefficient).reverse
    intro hlast
    rw [digits, List.getLast?_reverse] at hlast
    rw [hlast] at h
    simp at h

/-- The digits and the place of the point give the number. -/
theorem value_digits (d : Decimal) :
    value ⟨Nat.ofDigitChars 10 d.digits 0, d.point - d.digits.length⟩ = d.value := by
  obtain ⟨k, hk⟩ := d.toDigits_eq_append
  have hlen : (Nat.toDigits 10 d.coefficient).length = d.digits.length + k := by
    rw [hk, List.length_append, List.length_replicate]
  have hexp : d.point - d.digits.length = k + d.exponent := by
    rw [point, hlen]
    omega
  rw [hexp, ← value_mul_pow, ← coefficient_eq hk]

end Lox.Decimal
