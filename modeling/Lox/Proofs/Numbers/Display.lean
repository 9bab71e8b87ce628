import Lox.Proofs.Numbers.Texts
import Lox.Proofs.Scanning.Lexing

/-! # Numbers that a program prints

A program prints a finite double as a plain decimal: the number that a literal shows, without an
exponent and without needless zeros. It gets there from the literal in steps, which come to the same
as the layout `plain`. Different doubles are printed differently, and a printed number without a
sign is a numeral of the language for the same double.
-/

namespace Lox

/-- Never an exponent, and no point in a whole number. -/
def Layout.plain : Layout := ⟨fun _ => true, false⟩

def IsNonzero (c : Char) : Prop := c.isDigit ∧ c ≠ '0'

/-- Zero, or digits that do not start with zero. -/
def PlainWhole (cs : List Char) : Prop :=
  cs = ['0'] ∨ ∃ d ds, cs = d :: ds ∧ IsNonzero d ∧ ds.all Char.isDigit

/-- Nothing, or a point and digits that do not end with zero. -/
def PlainFraction (cs : List Char) : Prop :=
  cs = [] ∨ ∃ ds d, cs = '.' :: (ds ++ [d]) ∧ ds.all Char.isDigit ∧ IsNonzero d

/-- A decimal without an exponent and without needless zeros. -/
def PlainDecimal (cs : List Char) : Prop :=
  ∃ sign whole fraction, cs = sign ++ whole ++ fraction ∧ (sign = [] ∨ sign = ['-']) ∧
    PlainWhole whole ∧ PlainFraction fraction

theorem PlainWhole.all_isDigit {cs : List Char} (h : PlainWhole cs) :
    cs ≠ [] ∧ cs.all Char.isDigit := by
  rcases h with rfl | ⟨d, ds, rfl, hd, hds⟩
  · exact ⟨List.cons_ne_nil _ _, rfl⟩
  · exact ⟨List.cons_ne_nil _ _, by rw [List.all_cons, hd.1, hds]; rfl⟩

theorem PlainWhole.exists_cons {cs : List Char} (h : PlainWhole cs) :
    ∃ d ds, cs = d :: ds ∧ d.isDigit := by
  rcases h with rfl | ⟨d, ds, rfl, hd, -⟩
  · exact ⟨_, _, rfl, rfl⟩
  · exact ⟨d, ds, rfl, hd.1⟩

theorem numeral_of_plain {whole fraction : List Char} (hw : PlainWhole whole)
    (hf : PlainFraction fraction) : Numeral (whole ++ fraction) := by
  obtain ⟨hne, hall⟩ := hw.all_isDigit
  rw [← Number.isDigit_eq] at hall
  refine ⟨whole, hne, hall, ?_⟩
  rcases hf with rfl | ⟨ds, d, rfl, hds, hd⟩
  · exact .inl (List.append_nil _)
  · refine .inr ⟨ds ++ [d], by simp, ?_, rfl⟩
    rw [Number.isDigit_eq, List.all_append, hds, List.all_cons, hd.1]
    rfl

theorem mem_plain {cs : List Char} (h : PlainDecimal cs) {c : Char} (hc : c ∈ cs) :
    c.isDigit ∨ c = '-' ∨ c = '.' := by
  obtain ⟨sign, whole, fraction, rfl, hs, hw, hf⟩ := h
  rcases List.mem_append.mp hc with hc | hc
  · rcases List.mem_append.mp hc with hc | hc
    · rcases hs with rfl | rfl
      · exact absurd hc List.not_mem_nil
      · exact .inr (.inl (List.mem_singleton.mp hc))
    · exact .inl (List.all_eq_true.mp hw.all_isDigit.2 c hc)
  · rcases hf with rfl | ⟨ds, d, rfl, hds, hd⟩
    · exact absurd hc List.not_mem_nil
    · rcases List.mem_cons.mp hc with rfl | hc
      · exact .inr (.inr rfl)
      · rcases List.mem_append.mp hc with hc | hc
        · exact .inl (List.all_eq_true.mp hds c hc)
        · exact .inl (List.mem_singleton.mp hc ▸ hd.1)

namespace Number

theorem inFull_of_not_mem {text : List Char} (h : 'e' ∉ text) : inFull text = text :=
  if_neg (by simpa using h)

theorem inFull_of_mem {text body : List Char} {negative : Bool} {d : Decimal} (h : 'e' ∈ text)
    (hsplit : splitSign text = (negative, body)) (hd : decimal? body = some d) :
    inFull text = (if negative then ['-'] else []) ++ d.inFull := by
  rw [inFull, if_pos (by simpa using h), hsplit]
  simp only [hd]
  cases negative <;> rfl

theorem dropPointZero_append (cs : List Char) : dropPointZero (cs ++ ['.', '0']) = cs := by
  have hsuffix : ['.', '0'].isSuffixOf (cs ++ ['.', '0']) :=
    List.isSuffixOf_iff_suffix.mpr (List.suffix_append cs _)
  rw [dropPointZero, if_pos hsuffix, List.length_append]
  exact List.take_left

theorem dropPointZero_plain {cs : List Char} (h : PlainDecimal cs) : dropPointZero cs = cs := by
  refine if_neg fun hsuffix => ?_
  obtain ⟨front, hfront⟩ := List.isSuffixOf_iff_suffix.mp hsuffix
  obtain ⟨sign, whole, fraction, rfl, hs, hw, rfl | ⟨ds, d, rfl, -, hd⟩⟩ := h
  · have hpoint : '.' ∈ sign ++ whole := by
      rw [← List.append_nil (sign ++ whole), ← hfront]
      simp
    rcases List.mem_append.mp hpoint with hpoint | hpoint
    · rcases hs with rfl | rfl <;> simp at hpoint
    · exact absurd (List.all_eq_true.mp hw.all_isDigit.2 _ hpoint) (by decide)
  · have hlast := congrArg List.getLast? hfront
    rw [← List.cons_append, ← List.append_assoc, List.getLast?_concat] at hlast
    simp only [List.getLast?_append, List.getLast?_cons_cons, List.getLast?_singleton,
      Option.some_or, Option.some.injEq] at hlast
    exact hd.2 hlast.symm

end Number

namespace Decimal

variable {ds : List Char} {point : Int}

/-- The fraction of a number, if it has one, ends as the digits end. -/
theorem fractionPart_concat (ds : List Char) (d : Char) (point : Int) :
    fractionPart (ds ++ [d]) point = [] ∨ ∃ init, fractionPart (ds ++ [d]) point = init ++ [d] := by
  rw [fractionPart]
  split
  · exact .inr ⟨_, (List.append_assoc _ _ _).symm⟩
  · rcases Nat.lt_or_ge ds.length point.toNat with h | h
    · refine .inl (List.drop_of_length_le ?_)
      rw [List.length_append]
      exact h
    · exact .inr ⟨_, List.drop_append_of_le_length h⟩

theorem plainWhole_wholePart (h : Trimmed ds) (hnil : ds = [] → point = 1) :
    PlainWhole (wholePart ds point) := by
  have hall := all_wholePart point h.all_isDigit
  rw [wholePart] at hall ⊢
  split
  · exact .inl rfl
  · next hpoint =>
    rcases ds with _ | ⟨c, cs⟩
    · rw [hnil rfl]
      exact .inl rfl
    · obtain ⟨n, hn⟩ : ∃ n, point.toNat = n + 1 := ⟨point.toNat - 1, by omega⟩
      rw [if_neg hpoint, hn, List.take_succ_cons, List.cons_append, List.all_cons,
        Bool.and_eq_true] at hall
      rw [hn, List.take_succ_cons, List.cons_append]
      refine .inr ⟨c, _, rfl, ⟨hall.1, ?_⟩, hall.2⟩
      rintro rfl
      exact h.head?_ne rfl

theorem plainFraction_fractionPart (h : Trimmed ds) (hnil : ds = [] → point = 1)
    (hne : fractionPart ds point ≠ []) : PlainFraction ('.' :: fractionPart ds point) := by
  have hall := all_fractionPart point h.all_isDigit
  rcases List.eq_nil_or_concat' ds with rfl | ⟨init, d, rfl⟩
  · rw [hnil rfl] at hne
    exact absurd rfl hne
  · obtain ⟨front, hfront⟩ := (fractionPart_concat init d point).resolve_left hne
    rw [hfront, List.all_append, Bool.and_eq_true] at hall
    rw [hfront]
    refine .inr ⟨front, d, rfl, hall.1, by simpa using hall.2, ?_⟩
    rintro rfl
    exact h.getLast?_ne List.getLast?_concat

/-- A program writes a whole part and a fraction, each without needless zeros. -/
theorem exists_write_plain (h : Trimmed ds) (hnil : ds = [] → point = 1) :
    ∃ whole fraction, write .plain ds point = whole ++ fraction ∧ PlainWhole whole ∧
      PlainFraction fraction := by
  refine ⟨_, _, if_pos rfl, plainWhole_wholePart h hnil, ?_⟩
  split
  · exact .inl rfl
  · next hne => exact plainFraction_fractionPart h hnil hne

theorem write_plain (ds : List Char) (point : Int) : write .plain ds point =
    wholePart ds point ++ if fractionPart ds point = [] then [] else '.' :: fractionPart ds point :=
  rfl

/-- Where a literal has no exponent, it is written plainly, but perhaps for a `.0`. -/
theorem write_literal (h : Layout.literal.positional (point - 1)) :
    write .literal ds point = write .plain ds point ++ ['.', '0'] ∨
      write .literal ds point = write .plain ds point := by
  rw [write, if_pos h, write_plain]
  simp only
  split
  · exact .inl (by rw [List.append_nil]; rfl)
  · exact .inr rfl

theorem mem_write_literal (h : Layout.literal.positional (point - 1) = false) :
    'e' ∈ write .literal ds point := by
  rw [write, if_neg (by rw [h]; exact Bool.false_ne_true)]
  simp

theorem inFull_digits (hds : Trimmed ds) (hne : ds ≠ []) :
    inFull ⟨Nat.ofDigitChars 10 ds 0, point - ds.length⟩ = write .plain ds point := by
  have hdigits := toDigits_ofDigitChars hds.all_isDigit hne hds.head?_ne
  have hpoint : Decimal.point ⟨Nat.ofDigitChars 10 ds 0, point - ds.length⟩ = point := by
    simp only [Decimal.point, hdigits]
    omega
  rw [inFull, hpoint]
  simp only [hdigits]
  exact (write_plain ds point).symm

end Decimal

namespace Double

variable {x : Float}

theorem exists_text_plain (hx : magnitude x < infinite) : ∃ whole fraction,
    (text .plain x).toList = (if isNegative x then ['-'] else []) ++ (whole ++ fraction) ∧
      PlainWhole whole ∧ PlainFraction fraction := by
  obtain ⟨htrimmed, hnil⟩ := trimmed_decimal hx
  obtain ⟨whole, fraction, hwrite, hw, hf⟩ :=
    Decimal.exists_write_plain htrimmed fun h => (hnil h).2
  refine ⟨whole, fraction, ?_, hw, hf⟩
  rw [toList_text .plain x hx, magnitudeText_eq, hwrite]

theorem plainDecimal_text (hx : magnitude x < infinite) : PlainDecimal (text .plain x).toList := by
  obtain ⟨whole, fraction, htext, hw, hf⟩ := exists_text_plain hx
  refine ⟨_, whole, fraction, by rw [htext, List.append_assoc], ?_, hw, hf⟩
  cases isNegative x
  · exact .inl rfl
  · exact .inr rfl

theorem not_mem_text_plain (hx : magnitude x < infinite) : 'e' ∉ (text .plain x).toList := by
  intro he
  rcases mem_plain (plainDecimal_text hx) he with h | h | h <;> revert h <;> decide

theorem text_literal (hx : magnitude x < infinite)
    (hp : Layout.literal.positional ((decimal (magnitude x)).point - 1)) :
    (text .literal x).toList = (text .plain x).toList ++ ['.', '0'] ∨
      (text .literal x).toList = (text .plain x).toList := by
  rw [toList_text .literal x hx, toList_text .plain x hx, magnitudeText_eq, magnitudeText_eq]
  rcases @Decimal.write_literal (decimal (magnitude x)).digits _ hp with h | h
  · exact .inl (by rw [h, List.append_assoc])
  · exact .inr (by rw [h])

/-- A literal with an exponent is read as the decimal that it is written from. -/
theorem inFull_text_exponent (hx : magnitude x < infinite)
    (hp : Layout.literal.positional ((decimal (magnitude x)).point - 1) = false) :
    Number.inFull (text .literal x).toList = (text .plain x).toList := by
  obtain ⟨htrimmed, -⟩ := trimmed_decimal hx
  have hne : (decimal (magnitude x)).digits ≠ [] :=
    (digits_or_positional rfl hx).resolve_right (by rw [hp]; exact Bool.false_ne_true)
  have hsplit := @splitSign_text .literal x rfl hx
  rw [magnitudeText_eq] at hsplit
  have hdecimal := Decimal.decimal?_write_exponent htrimmed.all_isDigit hne hp
  have he : 'e' ∈ (text .literal x).toList := by
    rw [toList_text .literal x hx, magnitudeText_eq]
    exact List.mem_append_right _ (Decimal.mem_write_literal hp)
  rw [Number.inFull_of_mem he hsplit hdecimal, Decimal.inFull_digits htrimmed hne,
    toList_text .plain x hx, magnitudeText_eq]

/-- A literal in full is the plain text, but perhaps for a `.0`. -/
theorem inFull_text (hx : magnitude x < infinite) :
    Number.inFull (text .literal x).toList = (text .plain x).toList ++ ['.', '0'] ∨
      Number.inFull (text .literal x).toList = (text .plain x).toList := by
  have hmark := not_mem_text_plain hx
  cases hp : Layout.literal.positional ((decimal (magnitude x)).point - 1) with
  | true =>
    rcases text_literal hx hp with h | h
    · exact .inl (by rw [h, Number.inFull_of_not_mem (by simpa using hmark)])
    · exact .inr (by rw [h, Number.inFull_of_not_mem hmark])
  | false => exact .inr (inFull_text_exponent hx hp)

/-- What a program prints for a double is the double in the plain layout. -/
theorem display_eq (x : Float) : display x = text .plain x := by
  rcases Nat.lt_trichotomy (magnitude x) infinite with hx | hx | hx
  · rw [display, ← String.ofList_toList (s := text .plain x)]
    rcases inFull_text hx with h | h
    · rw [h, Number.dropPointZero_append]
    · rw [h, Number.dropPointZero_plain (plainDecimal_text hx)]
  · rw [display, text, text, hx, if_neg (Nat.lt_irrefl _), if_pos rfl]
    cases isNegative x <;> rfl
  · rw [display, text, text, if_pos hx, if_pos hx]
    rfl

end Double

namespace Value

variable {x : Float}

theorem display_double (x : Float) : (double x).display = .ok (Double.text .plain x) :=
  congrArg Except.ok (Double.display_eq x)

/-- A program prints a finite double as a plain decimal for the number that its literal denotes,
with a minus exactly if the double has one; and no two doubles are printed alike. -/
theorem display_plain :
    (∀ x : Float, x.isFinite → ∃ text, (double x).display = .ok text ∧
      PlainDecimal text.toList ∧
      (∃ q, Number.denoted? text.toList = some q ∧
        Number.denoted? (double x).literal.toList = some q) ∧
      (text.toList.head? = some '-' ↔ Double.isNegative x)) ∧
    ∀ x y : Float, (double x).display = (double y).display → x = y := by
  refine ⟨fun x hx => ?_, fun x y h => ?_⟩
  · rw [Double.isFinite_iff] at hx
    obtain ⟨whole, fraction, htext, hw, -⟩ := Double.exists_text_plain hx
    refine ⟨_, display_double x, Double.plainDecimal_text hx, ?_, ?_⟩
    · exact ⟨_, Double.denoted?_text rfl hx, Double.denoted?_text rfl hx⟩
    · obtain ⟨c, cs, rfl, hc⟩ := hw.exists_cons
      have hne : c ≠ '-' := by
        rintro rfl
        exact absurd hc (by decide)
      rw [htext]
      cases Double.isNegative x
      · simpa using hne
      · simp
  · have htext : Double.text .plain x = Double.text .plain y := by
      rw [display_double, display_double] at h
      exact Except.ok.inj h
    have hx : Number.readFloat? (Double.text .plain x).toList = some x :=
      Double.readFloat?_text rfl x
    rw [htext, Double.readFloat?_text rfl y] at hx
    exact (Option.some.inj hx).symm

/-- A literal with an exponent, and two patterns of bits for what is no number. -/
theorem display_plain_exponent :
    let x := Float.ofBits 0x44b52d02c7e14af6
    let y := Float.ofBits 0x7ff0000000000001
    let z := Float.ofBits 0xfff8000000000000
    x.isFinite ∧ (double x).literal = "1e+23" ∧
      (∃ text, (double x).display = .ok text ∧ text = "100000000000000000000000" ∧
        PlainDecimal text.toList ∧
        (∃ q, Number.denoted? text.toList = some q ∧ Number.denoted? "1e+23".toList = some q) ∧
        (text.toList.head? = some '-' ↔ Double.isNegative x)) ∧
      (double y).display = (double z).display ∧ y = z := by
  intro x y z
  have hx : x.isFinite := by decide +kernel
  have hliteral : (double x).literal = "1e+23" := by decide +kernel
  have hyz : (double y).display = (double z).display := rfl
  obtain ⟨text, htext, hplain, hq, hsign⟩ := display_plain.1 x hx
  refine ⟨hx, hliteral, ⟨text, htext, ?_, hplain, hliteral ▸ hq, hsign⟩, hyz, ?_⟩
  · have hshown : Double.text .plain x = "100000000000000000000000" := by decide +kernel
    rw [display_double, hshown] at htext
    exact (Except.ok.inj htext).symm
  · exact display_plain.2 y z hyz

theorem scan_numeral {text : String} {x : Float} (h : Numeral text.toList)
    (hx : Number.readFloat? text.toList = some x) :
    scan text = ⟨[⟨.number, text, double x, 1⟩, .eof 1], [], 1⟩ := by
  have hm : Munch text.toList [] (.token .number (double x)) :=
    .number ⟨h, fun more hmore _ => List.prefix_nil.mp hmore⟩ hx
  have hlexes : Lexes text.toList [⟨text.toList, .token .number (double x)⟩] := by
    have := Lexes.cons hm .nil
    rwa [List.append_nil] at this
  have hcount := List.count_eq_zero_of_not_mem (newline_not_mem_numeral h)
  simp [scan_of_lexes hlexes, findings, Sense.scanned, Scanned.token?, Scanned.fault?, hcount]

/-- What a program prints for a finite double without a minus is a numeral for that double. -/
theorem scan_display {x : Float} (hx : x.isFinite) (hs : Double.isNegative x = false) :
    ∃ text, (double x).display = .ok text ∧
      scan text = ⟨[⟨.number, text, double x, 1⟩, .eof 1], [], 1⟩ := by
  obtain ⟨whole, fraction, htext, hw, hf⟩ :=
    Double.exists_text_plain (Double.isFinite_iff.mp hx)
  rw [hs, if_neg Bool.false_ne_true, List.nil_append] at htext
  refine ⟨_, display_double x, scan_numeral ?_ (Double.readFloat?_text rfl x)⟩
  rw [htext]
  exact numeral_of_plain hw hf

/-- A number that its literal writes with an exponent. -/
theorem scan_display_small :
    let x := Float.ofBits 0x3e7ad7f29abcaf48
    x.isFinite ∧ Double.isNegative x = false ∧ (double x).literal = "1e-07" ∧
      ∃ text, (double x).display = .ok text ∧ text = "0.0000001" ∧
        scan text = ⟨[⟨.number, text, double x, 1⟩, .eof 1], [], 1⟩ := by
  intro x
  have hx : x.isFinite := by decide +kernel
  have hs : Double.isNegative x = false := by decide +kernel
  have hshown : Double.text .plain x = "0.0000001" := by decide +kernel
  obtain ⟨text, htext, hscan⟩ := scan_display hx hs
  refine ⟨hx, hs, by decide +kernel, text, htext, ?_, hscan⟩
  rw [display_double, hshown] at htext
  exact (Except.ok.inj htext).symm

end Value
end Lox
