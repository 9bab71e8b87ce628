import Lox.Number.Decimal
import Mathlib.Order.GaloisConnection.Basic

/-! # Rounding to doubles

The magnitudes are in order by the units they stand for, and `floorMagnitude` is the adjoint of that
order. So the magnitude that is nearest to a quotient depends on the quotient alone, and a quotient
that is a magnitude's own number of units is rounded to that magnitude.
-/

namespace Lox.Double

theorem binade_pos : 0 < binade := by decide

/-- The units within a binade and at its end: magnitudes a step apart are `2 ^ s` units apart. -/
theorem units_add {s m : Nat} (hm : binade ≤ m) (hm' : m ≤ 2 * binade) :
    units (s * binade + m) = m * Nat.pow 2 s := by
  have hb := binade_pos
  rcases Nat.lt_or_eq_of_le hm' with hlt | rfl
  · have hg : s * binade + m = (m - binade) + (s + 1) * binade := by
      rw [Nat.add_mul]
      omega
    have hmod : (s * binade + m) % binade = m - binade := by
      rw [hg, Nat.add_mul_mod_self_right, Nat.mod_eq_of_lt (by omega)]
    have hdiv : (s * binade + m) / binade = s + 1 := by
      rw [hg, Nat.add_mul_div_right _ _ hb, Nat.div_eq_of_lt (by omega), Nat.zero_add]
    rw [units, if_neg (by omega), hmod, hdiv, Nat.add_sub_cancel' hm, Nat.add_sub_cancel]
  · have hg : s * binade + 2 * binade = (s + 2) * binade := by rw [Nat.add_mul]
    rw [hg, units, if_neg (by rw [Nat.add_mul]; omega), Nat.mul_mod_left,
      Nat.mul_div_cancel _ hb, Nat.add_zero, Nat.mul_comm 2 binade, Nat.mul_assoc]
    show binade * Nat.pow 2 (s + 1) = _
    rw [Nat.pow_eq, Nat.pow_eq, Nat.pow_succ']

theorem units_of_le {m : Nat} (h : m ≤ 2 * binade) : units m = m := by
  rcases Nat.lt_or_ge m binade with hlt | hge
  · exact if_pos hlt
  · have := units_add (s := 0) hge h
    rwa [Nat.zero_mul, Nat.zero_add, Nat.pow_eq, Nat.pow_zero, Nat.mul_one] at this

theorem exists_binade {g : Nat} (h : binade ≤ g) :
    ∃ s m, g = s * binade + m ∧ binade ≤ m ∧ m < 2 * binade := by
  have hb := binade_pos
  have hmod := Nat.mod_lt g hb
  have hdiv := Nat.le_mul_of_pos_left binade (Nat.div_pos h hb)
  have hg := Nat.div_add_mod' g binade
  refine ⟨g / binade - 1, g % binade + binade, ?_, by omega, by omega⟩
  rw [Nat.sub_mul]
  omega

theorem units_lt_succ (g : Nat) : units g < units (g + 1) := by
  have hb := binade_pos
  rcases Nat.lt_or_ge g binade with h | h
  · rw [units_of_le (by omega), units_of_le (by omega)]
    exact Nat.lt_succ_self g
  · obtain ⟨s, m, rfl, hm, hm'⟩ := exists_binade h
    rw [Nat.add_assoc, units_add hm hm'.le, units_add (by omega) (by omega)]
    exact Nat.mul_lt_mul_of_pos_right (Nat.lt_succ_self m) (Nat.two_pow_pos s)

theorem units_strictMono : StrictMono units := strictMono_nat_of_lt_succ units_lt_succ

theorem significand_bounds {q : Nat} (h : 2 * binade ≤ q) :
    binade ≤ q / Nat.pow 2 (q.log2 - 52) ∧ q / Nat.pow 2 (q.log2 - 52) < 2 * binade := by
  have hb : 2 * binade = 2 ^ 53 := rfl
  have hq : q ≠ 0 := by omega
  have hlog : 53 ≤ q.log2 := (Nat.le_log2 hq).mpr (hb ▸ h)
  have hpow : q.log2 = 52 + (q.log2 - 52) := by omega
  have hlow := Nat.log2_self_le hq
  have hhigh := Nat.lt_log2_self (n := q)
  rw [hpow, Nat.pow_add] at hlow
  rw [hpow, Nat.add_right_comm, Nat.pow_add] at hhigh
  exact ⟨(Nat.le_div_iff_mul_le (Nat.two_pow_pos _)).mpr hlow,
    (Nat.div_lt_iff_lt_mul (Nat.two_pow_pos _)).mpr hhigh⟩

theorem units_floorMagnitude (q : Nat) :
    units (floorMagnitude q) ≤ q ∧ q < units (floorMagnitude q + 1) := by
  rcases Nat.lt_or_ge q (2 * binade) with h | h
  · have hlog : q.log2 - 52 = 0 := by
      rcases Nat.eq_zero_or_pos q with rfl | hq
      · rfl
      · have : q.log2 < 53 := (Nat.log2_lt (Nat.ne_of_gt hq)).mpr h
        omega
    have hfloor : floorMagnitude q = q := by
      rw [floorMagnitude, hlog, Nat.zero_mul, Nat.zero_add, Nat.pow_eq, Nat.pow_zero, Nat.div_one]
    rw [hfloor, units_of_le h.le, units_of_le h]
    exact ⟨Nat.le_refl q, Nat.lt_succ_self q⟩
  · obtain ⟨hm, hm'⟩ := significand_bounds h
    rw [floorMagnitude, Nat.add_assoc, units_add hm hm'.le, units_add (by omega) hm']
    rw [Nat.mul_comm (q / _ + 1)]
    exact ⟨Nat.div_mul_le_self q _, Nat.lt_mul_div_succ q (Nat.two_pow_pos _)⟩

/-- `floorMagnitude` gives the largest magnitude that is not above a number of units. -/
theorem gc_units_floorMagnitude : GaloisConnection units floorMagnitude := by
  intro g q
  obtain ⟨hle, hlt⟩ := units_floorMagnitude q
  constructor
  · intro h
    exact Nat.le_of_lt_succ (units_strictMono.lt_iff_lt.mp (Nat.lt_of_le_of_lt h hlt))
  · intro h
    exact Nat.le_trans (units_strictMono.monotone h) hle

theorem floorMagnitude_units (g : Nat) : floorMagnitude (units g) = g := by
  have hle : g ≤ floorMagnitude (units g) := gc_units_floorMagnitude.le_u_l g
  have hge := units_strictMono.le_iff_le.mp (gc_units_floorMagnitude.l_u_le (units g))
  exact Nat.le_antisymm hge hle

theorem nearest_mul_left {k : Nat} (hk : 0 < k) (num den : Nat) :
    nearest (k * num) (k * den) = nearest num den := by
  have hlt (a b : Nat) : k * a < k * b ↔ a < b := Nat.mul_lt_mul_left hk
  have hdiv (a b : Nat) : k * a / (k * b) = a / b := Nat.mul_div_mul_left a b hk
  simp only [nearest, Nat.mul_assoc, Nat.mul_left_comm _ k, hdiv, hlt]

theorem nearest_congr {num den num' den' : Nat} (hd : 0 < den) (hd' : 0 < den')
    (h : num * den' = num' * den) : nearest num den = nearest num' den' := by
  rw [← nearest_mul_left hd', ← nearest_mul_left hd num', Nat.mul_comm den' num, h,
    Nat.mul_comm num' den, Nat.mul_comm den' den]

/-- A quotient that is a double is rounded to that double. -/
theorem nearest_of_units {num den g : Nat} (hd : 0 < den) (hg : g < infinite)
    (h : num * unitsPerOne = units g * den) : nearest num den = g := by
  have hfloor : floorMagnitude (num * unitsPerOne / den) = g := by
    rw [h, Nat.mul_div_cancel _ hd, floorMagnitude_units]
  have hmiddle : 2 * (num * unitsPerOne) < (units g + units (g + 1)) * den := by
    rw [h, ← Nat.mul_assoc, Nat.two_mul]
    exact Nat.mul_lt_mul_of_pos_right (Nat.add_lt_add_left (units_lt_succ g) _) hd
  rw [nearest, hfloor, if_neg (Nat.not_le.mpr hg), if_pos hmiddle]

/-- What is far above all doubles is rounded to infinity. -/
theorem nearest_of_large {num den k : Nat} (hd : 0 < den) (hk : units infinite ≤ k * unitsPerOne)
    (h : den * k ≤ num) : nearest num den = infinite := by
  have hle : units infinite ≤ num * unitsPerOne / den := by
    rw [Nat.le_div_iff_mul_le hd]
    calc units infinite * den ≤ k * unitsPerOne * den := Nat.mul_le_mul_right den hk
      _ = den * k * unitsPerOne := by rw [Nat.mul_comm, Nat.mul_assoc]
      _ ≤ num * unitsPerOne := Nat.mul_le_mul_right unitsPerOne h
  exact if_pos ((gc_units_floorMagnitude _ _).mp hle)

theorem nearest_of_small {num den k : Nat} (hd : 0 < den) (hk : 2 * unitsPerOne < k)
    (h : num * k ≤ den) : nearest num den = 0 := by
  have hlt : 2 * (num * unitsPerOne) < den := by
    rcases Nat.eq_zero_or_pos num with rfl | hn
    · rw [Nat.zero_mul, Nat.mul_zero]
      exact hd
    · calc 2 * (num * unitsPerOne) = num * (2 * unitsPerOne) := Nat.mul_left_comm ..
        _ < num * k := Nat.mul_lt_mul_of_pos_left hk hn
        _ ≤ den := h
  have hfloor : floorMagnitude (num * unitsPerOne / den) = 0 := by
    have := Nat.le_mul_of_pos_left (num * unitsPerOne) (Nat.zero_lt_two)
    rw [Nat.div_eq_of_lt (Nat.lt_of_le_of_lt this hlt)]
    rfl
  have hmiddle : units 0 + units (0 + 1) = 1 := by
    rw [units_of_le (Nat.zero_le _), units_of_le (by decide)]
  rw [nearest, hfloor, if_neg (by decide), hmiddle, Nat.one_mul, if_pos hlt]

end Lox.Double
