import Lox.Number.Notation
import Lox.Proofs.Numbers.Bits
import Lox.Proofs.Numbers.Decimals
import Lox.Proofs.Scanning.Numeral

/-! # Numbers in writing

What a text of digits denotes is told by `denoted?`, and reading rounds it. A double in writing, in
any layout, denotes the shortest decimal for it; so it reads back as the same double.
-/

namespace Lox

namespace Number

/-- The rational number that a text denotes: its sign and its decimal. -/
def denoted? (text : List Char) : Option ℚ :=
  let (negative, body) := splitSign text
  (decimal? body).map fun d => (if negative then -1 else 1) * d.value

/-- The exponents that decide by themselves decide rightly. -/
theorem nearestScaled_eq (d : Decimal) (e : Int) :
    nearestScaled d e = Decimal.nearest ⟨d.coefficient, d.exponent + e⟩ := by
  let scaled : Decimal := ⟨d.coefficient, d.exponent + e⟩
  have hplace : (Nat.toDigits 10 d.coefficient).length + d.exponent + e = scaled.point :=
    Int.add_assoc ..
  simp only [nearestScaled, hplace]
  show _ = scaled.nearest
  have hone : (1 : ℚ) ≤ 10 := by norm_num
  split
  · next h =>
    have hscaled : scaled = ⟨0, d.exponent + e⟩ := by rw [← h]
    rw [hscaled, Decimal.nearest_zero]
  · next h =>
    obtain ⟨hlow, hhigh⟩ := Decimal.value_bounds (d := scaled) (Nat.pos_of_ne_zero h)
    split
    · next hlarge =>
      refine (Decimal.nearest_of_large (k := 400) (by decide +kernel) (le_trans ?_ hlow)).symm
      rw [← zpow_natCast]
      exact zpow_le_zpow_right₀ hone (by omega)
    · split
      · next hsmall =>
        refine (Decimal.nearest_of_small (k := 400) (by decide +kernel) ?_).symm
        rw [← zpow_natCast]
        calc scaled.value * 10 ^ ((400 : ℕ) : ℤ) ≤ 10 ^ scaled.point * 10 ^ ((400 : ℕ) : ℤ) :=
            mul_le_mul_of_nonneg_right hhigh.le (zpow_nonneg (by norm_num) _)
          _ = 10 ^ (scaled.point + (400 : ℕ)) := (zpow_add₀ (by norm_num) _ _).symm
          _ ≤ 1 := zpow_le_one_of_nonpos₀ hone (by omega)
      · rfl

theorem toLower_of_isDigit {c : Char} (h : c.isDigit) : c.toLower ≠ 'i' ∧ c.toLower ≠ 'n' := by
  have hall : ['0', '1', '2', '3', '4', '5', '6', '7', '8', '9'].all fun c =>
      c.toLower ≠ 'i' ∧ c.toLower ≠ 'n' := by decide
  rw [← isDigit_eq] at h
  exact of_decide_eq_true (List.all_eq_true.mp hall c (isDigit_iff.mp h))

/-- What starts with a digit is none of the words, and is read as the double nearest to its
decimal. -/
theorem unsigned?_eq {c : Char} (hc : c.isDigit) (cs : List Char) (negative : Bool) :
    unsigned? negative (c :: cs) =
      (decimal? (c :: cs)).map fun d => Double.ofMagnitude negative d.nearest := by
  obtain ⟨hi, hn⟩ := toLower_of_isDigit hc
  have hword : ¬((c :: cs).map Char.toLower = "inf".toList ∨
      (c :: cs).map Char.toLower = "infinity".toList) := by
    rintro (h | h) <;> exact hi (List.cons.inj h).1
  have hnan : (c :: cs).map Char.toLower ≠ "nan".toList := fun h => hn (List.cons.inj h).1
  have hrounded (coefficient places : Nat) (e : Int) :
      nearestScaled ⟨coefficient, -places⟩ e = Decimal.nearest ⟨coefficient, e - places⟩ := by
    rw [nearestScaled_eq, Int.add_comm]
    rfl
  simp only [unsigned?, decimal?, if_neg hword, if_neg hnan, hrounded, Option.map_map]
  rfl

def isNumeric (c : Char) : Bool := c.isDigit || c == '.' || c == 'e' || c == '+' || c == '-'

theorem isNumeric_of_isDigit {c : Char} (h : c.isDigit) : isNumeric c := by
  simp [isNumeric, h]

theorem all_isNumeric {cs : List Char} (h : cs.all Char.isDigit) : cs.all isNumeric :=
  List.all_eq_true.mpr fun c hc => isNumeric_of_isDigit (List.all_eq_true.mp h c hc)

theorem isNumeric_iff {c : Char} : isNumeric c ↔
    c ∈ ['0', '1', '2', '3', '4', '5', '6', '7', '8', '9', '.', 'e', '+', '-'] := by
  have h := isDigit_iff (c := c)
  rw [isDigit_eq] at h
  simp only [isNumeric, Bool.or_eq_true, beq_iff_eq, h, List.mem_cons, List.not_mem_nil, or_false,
    or_assoc]

theorem prepare?_of_isNumeric {cs : List Char} (h : cs.all isNumeric) :
    prepare? cs = some (splitSign cs) := by
  have hall : ['0', '1', '2', '3', '4', '5', '6', '7', '8', '9', '.', 'e', '+', '-'].all fun c =>
      normalise c = c ∧ c ≠ ' ' ∧ c ≠ '_' := by decide
  have hplain : ∀ c ∈ cs, normalise c = c ∧ c ≠ ' ' ∧ c ≠ '_' := fun c hc =>
    of_decide_eq_true (List.all_eq_true.mp hall c (isNumeric_iff.mp (List.all_eq_true.mp h c hc)))
  have hmap : cs.map normalise = cs :=
    (List.map_congr_left fun c hc => (hplain c hc).1).trans (List.map_id cs)
  have hblank : ' ' ∉ cs := fun hc => (hplain _ hc).2.1 rfl
  have hunder : '_' ∉ cs := fun hc => (hplain _ hc).2.2 rfl
  simp [prepare?, hmap, trim_of_not_mem hblank, hunder]

theorem splitSign_of_isDigit {c : Char} (h : c.isDigit) (cs : List Char) :
    splitSign (c :: cs) = (false, c :: cs) := by
  unfold splitSign
  split
  · next he =>
    obtain ⟨rfl, -⟩ := List.cons.inj he
    exact absurd h (by decide)
  · next he =>
    obtain ⟨rfl, -⟩ := List.cons.inj he
    exact absurd h (by decide)
  · rfl

variable {whole fraction tail : List Char} {e : Int}

theorem exponent?_cons {c : Char} {cs : List Char} (h : exponent? (c :: cs) = some e) :
    c = 'e' ∨ c = 'E' := by
  simp only [exponent?] at h
  split at h
  · next hc => exact hc.1
  · cases h

theorem exponent?_head (h : exponent? tail = some e) : ∀ c cs, tail = c :: cs →
    c.isDigit = false ∧ c ≠ '.' := by
  rintro c cs rfl
  rcases exponent?_cons h with rfl | rfl <;> decide

theorem decimal?_append (hne : whole ≠ []) (hw : whole.all Char.isDigit)
    (ht : exponent? tail = some e) :
    decimal? (whole ++ tail) = some ⟨Nat.ofDigitChars 10 whole 0, e⟩ := by
  have hhead := exponent?_head ht
  have hnext := fun c cs h => (hhead c cs h).1
  simp only [decimal?, parts?, takeWhile_append_of_all hw hnext, dropWhile_append_of_all hw hnext]
  split
  · exact absurd rfl (hhead _ _ rfl).2
  · simp [hne, ht]

theorem decimal?_point (hne : whole ≠ []) (hw : whole.all Char.isDigit)
    (hf : fraction.all Char.isDigit) (ht : exponent? tail = some e) :
    decimal? (whole ++ '.' :: (fraction ++ tail)) =
      some ⟨Nat.ofDigitChars 10 (whole ++ fraction) 0, e - fraction.length⟩ := by
  have hpoint : ∀ c cs, '.' :: (fraction ++ tail) = c :: cs → c.isDigit = false := by
    rintro c cs ⟨⟩
    rfl
  have hnext := fun c cs h => (exponent?_head ht c cs h).1
  simp [decimal?, parts?, takeWhile_append_of_all hw hpoint, dropWhile_append_of_all hw hpoint,
    takeWhile_append_of_all hf hnext, dropWhile_append_of_all hf hnext, hne, ht]

end Number

namespace Decimal

open Number

variable {ds : List Char} {point : Int}

theorem exponentText_digits (n : ℕ) :
    ∃ ds, (if (Nat.toDigits 10 n).length < 2 then '0' :: Nat.toDigits 10 n
        else Nat.toDigits 10 n) = ds ∧
      ds ≠ [] ∧ ds.all Char.isDigit ∧ Nat.ofDigitChars 10 ds 0 = n := by
  have hall := all_toDigits n
  refine ⟨_, rfl, ?_⟩
  split
  · refine ⟨List.cons_ne_nil _ _, by simpa using hall, ?_⟩
    rw [Nat.ofDigitChars_cons]
    exact Nat.ofDigitChars_ten_toDigits
  · exact ⟨Nat.toDigits_ne_nil, hall, Nat.ofDigitChars_ten_toDigits⟩

theorem exponent?_exponentText (e : Int) : exponent? ('e' :: exponentText e) = some e := by
  obtain ⟨ds, hds, hne, hall, hvalue⟩ := exponentText_digits e.natAbs
  have hsplit : splitSign (exponentText e) = (decide (e < 0), ds) := by
    simp only [exponentText, hds]
    by_cases he : e < 0 <;> simp [he, splitSign]
  simp only [exponent?, hsplit, hvalue]
  rw [if_pos ⟨.inl trivial, hne, hall⟩, Option.some.injEq]
  split
  · next h =>
    have := of_decide_eq_true h
    omega
  · next h =>
    have := of_decide_eq_false (Bool.eq_false_iff.mpr h)
    omega

theorem wholePart_ne_nil : wholePart ds point ≠ [] := by
  unfold wholePart
  split
  · exact List.cons_ne_nil _ _
  · next h =>
    refine List.ne_nil_of_length_pos ?_
    rw [List.length_append, List.length_take, List.length_replicate]
    omega

theorem all_replicate_zero (n : ℕ) : (List.replicate n '0').all Char.isDigit := by
  simp

theorem all_wholePart (point : Int) (h : ds.all Char.isDigit) :
    (wholePart ds point).all Char.isDigit := by
  unfold wholePart
  split
  · rfl
  · rw [List.all_append, all_replicate_zero, Bool.and_true]
    exact List.all_eq_true.mpr fun c hc => List.all_eq_true.mp h c (List.mem_of_mem_take hc)

theorem all_fractionPart (point : Int) (h : ds.all Char.isDigit) :
    (fractionPart ds point).all Char.isDigit := by
  unfold fractionPart
  split
  · rw [List.all_append, all_replicate_zero, h, Bool.and_true]
  · exact List.all_eq_true.mpr fun c hc => List.all_eq_true.mp h c (List.mem_of_mem_drop hc)

theorem ofDigitChars_zeros_append (k : ℕ) :
    Nat.ofDigitChars 10 (List.replicate k '0' ++ ds) 0 = Nat.ofDigitChars 10 ds 0 := by
  rw [Nat.ofDigitChars_append, Nat.ofDigitChars_replicate_zero, Nat.mul_zero]

theorem value_parts (ds : List Char) (point : Int) :
    value ⟨Nat.ofDigitChars 10 (wholePart ds point ++ fractionPart ds point) 0,
        -(fractionPart ds point).length⟩ =
      value ⟨Nat.ofDigitChars 10 ds 0, point - ds.length⟩ := by
  rw [wholePart, fractionPart]
  split
  · next h =>
    have hzeros : ['0'] ++ (List.replicate (-point).toNat '0' ++ ds) =
        List.replicate ((-point).toNat + 1) '0' ++ ds := rfl
    have hexp : -(((List.replicate (-point).toNat '0' ++ ds).length : ℕ) : ℤ) =
        point - ds.length := by
      rw [List.length_append, List.length_replicate]
      omega
    rw [hzeros, ofDigitChars_zeros_append, hexp]
  · next h =>
    rcases Nat.le_total ds.length point.toNat with hle | hge
    · obtain ⟨k, hk⟩ := Nat.exists_eq_add_of_le hle
      have hexp : point - ds.length = k := by omega
      rw [List.drop_of_length_le hle, List.take_of_length_le hle, List.append_nil, hexp, hk,
        Nat.add_sub_cancel_left, ofDigitChars_append_zeros, value_mul_pow]
      simp
    · have hexp : -((ds.drop point.toNat).length : ℤ) = point - ds.length := by
        rw [List.length_drop]
        omega
      rw [Nat.sub_eq_zero_of_le hge, List.replicate_zero, List.append_nil, List.take_append_drop,
        hexp]

/-- Digits with an exponent are read as they are. -/
theorem decimal?_write_exponent {layout : Layout} (hds : ds.all Char.isDigit) (hne : ds ≠ [])
    (h : layout.positional (point - 1) = false) :
    decimal? (write layout ds point) = some ⟨Nat.ofDigitChars 10 ds 0, point - ds.length⟩ := by
  obtain ⟨c, cs, rfl⟩ := List.exists_cons_of_ne_nil hne
  obtain ⟨hc, hcs⟩ : [c].all Char.isDigit ∧ cs.all Char.isDigit := by simpa using hds
  have hmark := exponent?_exponentText (point - 1)
  rw [write, if_neg (by rw [h]; exact Bool.false_ne_true)]
  split
  · next hlen =>
    obtain rfl : cs = [] := List.eq_nil_of_length_eq_zero (by simpa using hlen)
    exact decimal?_append (List.cons_ne_nil c []) hc hmark
  · have hlen : point - 1 - cs.length = point - (c :: cs).length := by
      rw [List.length_cons]
      omega
    rw [← hlen]
    exact decimal?_point (List.cons_ne_nil c []) hc hcs hmark

/-- Digits in a layout are a numeral of their number. -/
theorem decimal?_write (layout : Layout) (hds : ds.all Char.isDigit)
    (h : ds ≠ [] ∨ layout.positional (point - 1)) :
    ∃ d, decimal? (write layout ds point) = some d ∧
      d.value = value ⟨Nat.ofDigitChars 10 ds 0, point - ds.length⟩ := by
  have hend : exponent? [] = some 0 := rfl
  have hw := all_wholePart point hds
  have hf := all_fractionPart point hds
  have hparts := value_parts ds point
  cases hp : layout.positional (point - 1) with
  | false =>
    have hne := h.resolve_right (by rw [hp]; exact Bool.false_ne_true)
    exact ⟨_, decimal?_write_exponent hds hne hp, rfl⟩
  | true =>
    rw [write, if_pos hp]
    simp only
    split
    · next hnil =>
      rw [hnil, List.append_nil, List.length_nil] at hparts
      split
      · refine ⟨_, decimal?_point wholePart_ne_nil hw (all_replicate_zero 1) hend, ?_⟩
        rw [← hparts, ofDigitChars_append_zeros, value_mul_pow]
        rfl
      · refine ⟨_, decimal?_append wholePart_ne_nil hw hend, hparts⟩
    · next hne =>
      have := decimal?_point wholePart_ne_nil hw hf hend
      rw [List.append_nil] at this
      exact ⟨_, this, by rw [← hparts, Int.zero_sub]⟩

theorem exists_cons_of_digits (hne : ds ≠ []) (hds : ds.all Char.isDigit) (rest : List Char) :
    ∃ c cs, ds ++ rest = c :: cs ∧ c.isDigit := by
  obtain ⟨c, cs, rfl⟩ := List.exists_cons_of_ne_nil hne
  exact ⟨c, cs ++ rest, rfl, (Bool.and_eq_true_iff.mp hds).1⟩

theorem exists_write_cons (layout : Layout) (hds : ds.all Char.isDigit)
    (h : ds ≠ [] ∨ layout.positional (point - 1)) :
    ∃ c cs, write layout ds point = c :: cs ∧ c.isDigit := by
  unfold write
  split
  · exact exists_cons_of_digits wholePart_ne_nil (all_wholePart _ hds) _
  · next hexp =>
    obtain ⟨c, cs, rfl⟩ := List.exists_cons_of_ne_nil (h.resolve_right hexp)
    exact ⟨c, _, rfl, (Bool.and_eq_true_iff.mp hds).1⟩

theorem all_exponentText (e : Int) : (exponentText e).all isNumeric := by
  obtain ⟨ds, hds, -, hall, -⟩ := exponentText_digits e.natAbs
  simp only [exponentText, hds]
  split <;> simpa [isNumeric] using all_isNumeric hall

theorem all_write (layout : Layout) (point : Int) (hds : ds.all Char.isDigit) :
    (write layout ds point).all isNumeric := by
  have hw := all_isNumeric (all_wholePart point hds)
  have hf := all_isNumeric (all_fractionPart point hds)
  have he := all_exponentText (point - 1)
  have htake : (ds.take 1).all isNumeric := all_isNumeric (List.all_eq_true.mpr fun c hc =>
    List.all_eq_true.mp hds c (List.mem_of_mem_take hc))
  have hdrop : (ds.drop 1).all isNumeric := all_isNumeric (List.all_eq_true.mpr fun c hc =>
    List.all_eq_true.mp hds c (List.mem_of_mem_drop hc))
  have hpoint : isNumeric '.' := rfl
  have hzero : isNumeric '0' := rfl
  have hmark : isNumeric 'e' := rfl
  unfold write
  split
  · simp only [List.all_append, hw, Bool.true_and]
    split
    · split <;> simp [hpoint, hzero]
    · rw [List.all_cons, hpoint, hf]
      rfl
  · rw [List.all_append, List.all_append, htake, List.all_cons, hmark, he]
    split
    · rfl
    · rw [List.all_cons, hpoint, hdrop]
      rfl

end Decimal

namespace Double

open Decimal

variable {layout : Layout} {g : ℕ} {x : Float}

def decimal (g : Nat) : Decimal := if g = 0 then ⟨0, 0⟩ else shortest g

theorem nearest_decimal (hg : g < infinite) : (decimal g).nearest = g := by
  rw [decimal]
  split
  · next h => rw [nearest_zero, h]
  · exact nearest_shortest hg

theorem magnitudeText_eq (layout : Layout) (g : ℕ) :
    magnitudeText layout g = write layout (decimal g).digits (decimal g).point := by
  rw [magnitudeText, decimal]
  split <;> rfl

theorem trimmed_decimal (hg : g < infinite) : Trimmed (decimal g).digits ∧
    ((decimal g).digits = [] → g = 0 ∧ (decimal g).point = 1) := by
  rcases Nat.eq_zero_or_pos (decimal g).coefficient with h | h
  · have hzero : g = 0 := by
      rw [← nearest_decimal hg, ← nearest_zero (decimal g).exponent, ← h]
    subst hzero
    exact ⟨trimmed_nil, fun _ => ⟨rfl, rfl⟩⟩
  · exact ⟨trimmed_digits h, fun hnil => absurd hnil (digits_ne_nil h)⟩

/-- Zero is written without an exponent, and all else has digits. -/
theorem digits_or_positional (h : layout.positional 0) (hg : g < infinite) :
    (decimal g).digits ≠ [] ∨ layout.positional ((decimal g).point - 1) := by
  by_cases hnil : (decimal g).digits = []
  · rw [((trimmed_decimal hg).2 hnil).2]
    exact .inr h
  · exact .inl hnil

/-- The text of a finite magnitude denotes its decimal. -/
theorem decimal?_magnitudeText (h : layout.positional 0) (hg : g < infinite) :
    ∃ d, Number.decimal? (magnitudeText layout g) = some d ∧ d.value = (decimal g).value := by
  rw [magnitudeText_eq, ← value_digits]
  exact decimal?_write layout (trimmed_decimal hg).1.all_isDigit (digits_or_positional h hg)

theorem exists_magnitudeText_cons (h : layout.positional 0) (hg : g < infinite) :
    ∃ c cs, magnitudeText layout g = c :: cs ∧ c.isDigit := by
  rw [magnitudeText_eq]
  exact exists_write_cons layout (trimmed_decimal hg).1.all_isDigit (digits_or_positional h hg)

theorem toList_text (layout : Layout) (x : Float) (hx : magnitude x < infinite) :
    (text layout x).toList =
      (if isNegative x then ['-'] else []) ++ magnitudeText layout (magnitude x) := by
  simp only [text]
  rw [if_neg (Nat.not_lt.mpr hx.le), if_neg hx.ne, String.toList_ofList]
  split <;> rfl

theorem splitSign_text (h : layout.positional 0) (hx : magnitude x < infinite) :
    Number.splitSign (text layout x).toList =
      (isNegative x, magnitudeText layout (magnitude x)) := by
  rw [toList_text layout x hx]
  cases isNegative x with
  | true => rfl
  | false =>
    obtain ⟨c, cs, hcs, hc⟩ := exists_magnitudeText_cons h hx
    rw [if_neg Bool.false_ne_true, List.nil_append, hcs]
    exact Number.splitSign_of_isDigit hc cs

theorem denoted?_text (h : layout.positional 0) (hx : magnitude x < infinite) :
    Number.denoted? (text layout x).toList =
      some ((if isNegative x then -1 else 1) * (decimal (magnitude x)).value) := by
  obtain ⟨d, hd, hv⟩ := decimal?_magnitudeText h hx
  rw [Number.denoted?, splitSign_text h hx]
  simp only [hd, hv, Option.map_some]

theorem prepare?_text (h : layout.positional 0) (hx : magnitude x < infinite) :
    Number.prepare? (text layout x).toList =
      some (isNegative x, magnitudeText layout (magnitude x)) := by
  have hall : (magnitudeText layout (magnitude x)).all Number.isNumeric := by
    rw [magnitudeText_eq]
    exact all_write layout _ (trimmed_decimal hx).1.all_isDigit
  have htext : (text layout x).toList.all Number.isNumeric := by
    rw [toList_text layout x hx, List.all_append, hall]
    split <;> rfl
  rw [Number.prepare?_of_isNumeric htext, splitSign_text h hx]

/-- A double in writing reads back as the double. -/
theorem readFloat?_text (h : layout.positional 0) (x : Float) :
    Number.readFloat? (text layout x).toList = some x := by
  rcases Nat.lt_trichotomy (magnitude x) infinite with hx | hx | hx
  · obtain ⟨c, cs, hcs, hc⟩ := exists_magnitudeText_cons h hx
    obtain ⟨d, hd, hv⟩ := decimal?_magnitudeText h hx
    have hread := Number.unsigned?_eq hc cs (isNegative x)
    rw [← hcs, hd, Option.map_some, Decimal.nearest_congr hv, nearest_decimal hx,
      ofMagnitude_magnitude] at hread
    rw [Number.readFloat?, prepare?_text h hx]
    exact hread
  · have hbits := ofMagnitude_magnitude x
    rw [text, hx, if_neg (Nat.lt_irrefl _), if_pos rfl, String.toList_ofList, ← hbits, hx]
    cases isNegative x <;> rfl
  · rw [text, if_pos hx, eq_nan_of_infinite_lt hx]
    rfl

end Double
end Lox
