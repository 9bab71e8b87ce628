import Lox.Proofs.Numbers.Display
import Lox.Tree.Dump

/-! # The grammar of JSON texts

The rules of RFC 8259, each beside what it derives. The text of a document is a JSON text if all
numbers in the document are finite: a whole number or a finite double is written as a JSON number,
and whatever a string holds is escaped.
-/

namespace Lox

def Number.isFinite : Number → Bool
  | .whole _ => true
  | .double x => x.isFinite

namespace Json

/-- A character of `ws = *( space / tab / line feed / carriage return )`. -/
def isBlank (c : Char) : Bool := c == ' ' || c == '\t' || c == '\n' || c == '\r'

def Blank (cs : List Char) : Prop := cs.all isBlank

def Digits (cs : List Char) : Prop := cs ≠ [] ∧ cs.all Char.isDigit

/-- `[ frac ]`, with `frac = decimal-point 1*DIGIT` -/
def IsFraction (cs : List Char) : Prop := cs = [] ∨ ∃ ds, Digits ds ∧ cs = '.' :: ds

/-- `[ exp ]`, with `exp = e [ minus / plus ] 1*DIGIT` -/
def IsExponent (cs : List Char) : Prop :=
  cs = [] ∨ ∃ mark sign ds, (mark = 'e' ∨ mark = 'E') ∧ (sign = [] ∨ sign = ['-'] ∨ sign = ['+']) ∧
    Digits ds ∧ cs = mark :: (sign ++ ds)

/-- `number = [ minus ] int [ frac ] [ exp ]`, with `int = zero / ( digit1-9 *DIGIT )` -/
def IsNumber (cs : List Char) : Prop :=
  ∃ sign whole fraction exponent, (sign = [] ∨ sign = ['-']) ∧ PlainWhole whole ∧
    IsFraction fraction ∧ IsExponent exponent ∧ cs = sign ++ (whole ++ (fraction ++ exponent))

def isHexDigit (c : Char) : Bool :=
  c.isDigit || decide ('a' ≤ c ∧ c ≤ 'f') || decide ('A' ≤ c ∧ c ≤ 'F')

/-- The characters that stand after a backslash, but for the mark of a unit, and their meanings. -/
def escapes : List (Char × Char) := [
  ('"', '"'), ('\\', '\\'), ('/', '/'), ('b', '\x08'), ('f', '\x0c'), ('n', '\n'), ('r', '\r'),
  ('t', '\t')]

/-- `*char`, what stands between the quotation marks of a string -/
inductive IsChars : List Char → Prop
  | nil : IsChars []
  /-- `unescaped = %x20-21 / %x23-5B / %x5D-10FFFF` -/
  | unescaped {c : Char} {cs : List Char} : 0x20 ≤ c.toNat → c ≠ '"' → c ≠ '\\' → IsChars cs →
      IsChars (c :: cs)
  | escaped {c d : Char} {cs : List Char} : (c, d) ∈ escapes → IsChars cs →
      IsChars ('\\' :: c :: cs)
  /-- `%x75 4HEXDIG` -/
  | unit {ds cs : List Char} : ds.length = 4 → ds.all isHexDigit → IsChars cs →
      IsChars ('\\' :: 'u' :: (ds ++ cs))

def words : List (List Char) := ["false".toList, "null".toList, "true".toList]

/-- What a rule derives: a value, a value or a member with blanks around it, or several of them with
commas between. -/
inductive Symbol
  | value | item | member | items | members

inductive Derives : Symbol → List Char → Prop
  | word {cs : List Char} : cs ∈ words → Derives .value cs
  | number {cs : List Char} : IsNumber cs → Derives .value cs
  | string {cs : List Char} : IsChars cs → Derives .value ('"' :: (cs ++ ['"']))
  | noItems {cs : List Char} : Blank cs → Derives .value ('[' :: (cs ++ [']']))
  | array {cs : List Char} : Derives .items cs → Derives .value ('[' :: (cs ++ [']']))
  | noMembers {cs : List Char} : Blank cs → Derives .value ('{' :: (cs ++ ['}']))
  | object {cs : List Char} : Derives .members cs → Derives .value ('{' :: (cs ++ ['}']))
  | item {before cs after : List Char} : Blank before → Derives .value cs → Blank after →
      Derives .item (before ++ (cs ++ after))
  | member {before key between cs : List Char} : Blank before → IsChars key → Blank between →
      Derives .item cs → Derives .member (before ++ '"' :: (key ++ '"' :: (between ++ ':' :: cs)))
  | lastItem {cs : List Char} : Derives .item cs → Derives .items cs
  | items {cs more : List Char} : Derives .item cs → Derives .items more →
      Derives .items (cs ++ ',' :: more)
  | lastMember {cs : List Char} : Derives .member cs → Derives .members cs
  | members {cs more : List Char} : Derives .member cs → Derives .members more →
      Derives .members (cs ++ ',' :: more)

/-- `JSON-text = ws value ws` -/
def IsText (cs : List Char) : Prop := Derives .item cs

section

open Decimal

variable {ds : List Char} {point : Int} {x : Float}

theorem plainWhole_toDigits (n : ℕ) : PlainWhole (Nat.toDigits 10 n) := by
  rcases Nat.eq_zero_or_pos n with rfl | hn
  · exact .inl rfl
  · have hall := all_toDigits n
    have hhead := head?_toDigits_ne hn
    obtain ⟨d, ds, hds⟩ := List.exists_cons_of_ne_nil (Nat.toDigits_ne_nil (b := 10) (n := n))
    rw [hds, List.all_cons, Bool.and_eq_true] at hall
    rw [hds, List.head?_cons, ne_eq, Option.some.injEq] at hhead
    exact .inr ⟨d, ds, hds, ⟨hall.1, hhead⟩, hall.2⟩

theorem toList_toString (n : ℤ) :
    (toString n).toList = (if n < 0 then ['-'] else []) ++ Nat.toDigits 10 n.natAbs := by
  have hnat (m : ℕ) : (Nat.repr m).toList = Nat.toDigits 10 m := String.toList_ofList
  cases n with
  | ofNat m => exact hnat m
  | negSucc m =>
    show ("-" ++ Nat.repr (m + 1)).toList = _
    rw [String.toList_append, hnat, if_pos (Int.negSucc_lt_zero m)]
    rfl

theorem isNumber_toString (n : ℤ) : IsNumber (toString n).toList := by
  refine ⟨if n < 0 then ['-'] else [], _, [], [], ?_, plainWhole_toDigits n.natAbs, .inl rfl,
    .inl rfl, ?_⟩
  · split
    · exact .inr rfl
    · exact .inl rfl
  · rw [toList_toString, List.append_nil, List.append_nil]

theorem isExponent_exponentText (e : Int) : IsExponent ('e' :: exponentText e) := by
  obtain ⟨ds, hds, hne, hall, -⟩ := exponentText_digits e.natAbs
  simp only [exponentText, hds]
  refine .inr ⟨'e', [if e < 0 then '-' else '+'], ds, .inl rfl, ?_, ⟨hne, hall⟩, rfl⟩
  split
  · exact .inr (.inl rfl)
  · exact .inr (.inr rfl)

/-- A literal has a point or an exponent, or both. -/
theorem exists_write_literal (h : Trimmed ds) (hnil : ds = [] → point = 1) :
    ∃ whole fraction exponent, write .literal ds point = whole ++ (fraction ++ exponent) ∧
      PlainWhole whole ∧ IsFraction fraction ∧ IsExponent exponent ∧
      (fraction ≠ [] ∨ exponent ≠ []) := by
  have hcons (c : Char) (cs : List Char) : c :: cs ≠ [] := List.cons_ne_nil c cs
  unfold write
  split
  · have hw := plainWhole_wholePart h hnil
    simp only
    split
    · have hzero : IsFraction ['.', '0'] := .inr ⟨['0'], by simp [Digits], rfl⟩
      exact ⟨_, ['.', '0'], [], rfl, hw, hzero, .inl rfl, .inl (hcons _ _)⟩
    · next hne =>
      have hfraction : IsFraction ('.' :: fractionPart ds point) :=
        .inr ⟨_, ⟨hne, all_fractionPart point h.all_isDigit⟩, rfl⟩
      exact ⟨_, _, [], by rw [List.append_nil], hw, hfraction, .inl rfl, .inl (hcons _ _)⟩
  · next hexp =>
    have hne : ds ≠ [] := by
      intro hds
      rw [hnil hds] at hexp
      exact hexp rfl
    obtain ⟨c, cs, rfl⟩ := List.exists_cons_of_ne_nil hne
    obtain ⟨hc, hcs⟩ := Bool.and_eq_true_iff.mp h.all_isDigit
    have hzero : c ≠ '0' := by
      rintro rfl
      exact h.head?_ne rfl
    refine ⟨[c], if cs = [] then [] else '.' :: cs, 'e' :: exponentText (point - 1), ?_,
      .inr ⟨c, [], rfl, ⟨hc, hzero⟩, rfl⟩, ?_, isExponent_exponentText _, .inr (hcons _ _)⟩
    · cases cs <;> simp
    · split
      · exact .inl rfl
      · next hcs' => exact .inr ⟨cs, ⟨hcs', hcs⟩, rfl⟩

theorem isNumber_text (hx : Double.magnitude x < Double.infinite) :
    IsNumber (Double.text .literal x).toList := by
  obtain ⟨htrimmed, hnil⟩ := Double.trimmed_decimal hx
  obtain ⟨whole, fraction, exponent, hwrite, hw, hf, he, -⟩ :=
    exists_write_literal htrimmed fun h => (hnil h).2
  refine ⟨if Double.isNegative x then ['-'] else [], whole, fraction, exponent, ?_, hw, hf, he, ?_⟩
  · cases Double.isNegative x
    · exact .inl rfl
    · exact .inr rfl
  · rw [Double.toList_text .literal x hx, Double.magnitudeText_eq, hwrite]

end

theorem isNumber_numberText {n : Number} (h : n.isFinite) : IsNumber (numberText n).toList := by
  cases n with
  | whole n => exact isNumber_toString n
  | double x =>
    have hx := Double.isFinite_iff.mp h
    rw [numberText, if_neg (Nat.not_lt.mpr hx.le), if_neg hx.ne]
    exact isNumber_text hx

theorem IsNumber.isNumeric {cs : List Char} (h : IsNumber cs) :
    cs ≠ [] ∧ ∀ c ∈ cs, Number.isNumeric c ∨ c = 'E' := by
  obtain ⟨sign, whole, fraction, exponent, hsign, hwhole, hfraction, hexponent, rfl⟩ := h
  obtain ⟨hne, hall⟩ := hwhole.all_isDigit
  have digits {ds : List Char} (h : ds.all Char.isDigit) :
      ∀ c ∈ ds, Number.isNumeric c ∨ c = 'E' := fun c hc =>
    .inl (List.all_eq_true.mp (Number.all_isNumeric h) c hc)
  refine ⟨by simp [hne], ?_⟩
  simp only [List.forall_mem_append]
  refine ⟨?_, digits hall, ?_, ?_⟩
  · rcases hsign with rfl | rfl <;> simp [Number.isNumeric]
  · rcases hfraction with rfl | ⟨ds, hds, rfl⟩
    · simp
    · exact List.forall_mem_cons.mpr ⟨.inl rfl, digits hds.2⟩
  · rcases hexponent with rfl | ⟨mark, sign, ds, hmark, hsign, hds, rfl⟩
    · simp
    · rw [List.forall_mem_cons, List.forall_mem_append]
      refine ⟨?_, ?_, digits hds.2⟩
      · rcases hmark with rfl | rfl <;> simp [Number.isNumeric]
      · rcases hsign with rfl | rfl | rfl <;> simp [Number.isNumeric]

theorem numberText_of_not_isFinite {n : Number} (h : n.isFinite = false) :
    numberText n ∈ ["NaN", "Infinity", "-Infinity"] := by
  cases n with
  | whole n => cases h
  | double x =>
    have hx : ¬ Double.magnitude x < Double.infinite := fun hx => by
      rw [Number.isFinite, Double.isFinite_iff.mpr hx] at h
      cases h
    simp only [numberText]
    split_ifs with hnan hinf hsign
    · simp
    · simp
    · simp
    · exact absurd (lt_of_le_of_ne (not_lt.mp hnan) hinf) hx

theorem isNumber_numberText_iff {n : Number} : IsNumber (numberText n).toList ↔ n.isFinite := by
  refine ⟨fun h => ?_, isNumber_numberText⟩
  by_contra hn
  have hmem := numberText_of_not_isFinite (Bool.eq_false_iff.mpr hn)
  generalize numberText n = s at h hmem
  have hletter : ¬∀ c ∈ s.toList, Number.isNumeric c ∨ c = 'E' := by
    simp only [List.mem_cons, List.not_mem_nil, or_false] at hmem
    rcases hmem with rfl | rfl | rfl <;> simp [Number.isNumeric]
  exact hletter h.isNumeric.2

theorem isHexDigit_digitChar (n : ℕ) (h : n < 16) : isHexDigit n.digitChar := by
  have hall : ∀ n < 16, isHexDigit n.digitChar := by decide
  exact hall n h

theorem all_hexDigits (width n : ℕ) : (Text.hexDigits width n).all isHexDigit := by
  have hall (m : ℕ) : (Nat.toDigits 16 m).all isHexDigit := by
    induction m using Nat.strong_induction_on with
    | h m ih =>
      rw [Nat.toDigits_eq_if (by decide)]
      split
      · next h => simp [isHexDigit_digitChar m h]
      · next h =>
        have hlt : m / 16 < m := Nat.div_lt_self (by omega) (by decide)
        simp [ih _ hlt, isHexDigit_digitChar _ (Nat.mod_lt m (by decide))]
  have hzero : isHexDigit '0' := rfl
  simp [Text.hexDigits, hall, hzero]

theorem length_hexDigits {width n : ℕ} (hw : 0 < width) (h : n < 16 ^ width) :
    (Text.hexDigits width n).length = width := by
  have := (Nat.length_toDigits_le_iff (b := 16) (by decide) hw).mpr h
  rw [Text.hexDigits, List.length_append, List.length_replicate]
  omega

theorem IsChars.escapeUnit {n : ℕ} {cs : List Char} (hn : n < 0x10000) (h : IsChars cs) :
    IsChars (escapeUnit n ++ cs) :=
  .unit (length_hexDigits (by decide) hn) (all_hexDigits 4 n) h

theorem toNat_scalar (c : Char) :
    c.toNat < 0xd800 ∨ 0xdfff < c.toNat ∧ c.toNat < 0x110000 := by
  have := c.valid
  simp only [UInt32.isValidChar, Nat.isValidChar] at this
  exact this

/-- What is written for a character of a string. -/
inductive Escaped (c : Char) : List Char → Prop
  | special {d : Char} : (d, c) ∈ escapes → Escaped c ['\\', d]
  | plain : 0x20 ≤ c.toNat → c ≠ '"' → c ≠ '\\' → Escaped c [c]
  | unit : c.toNat < 0x10000 → Escaped c (escapeUnit c.toNat)
  | pair {n : ℕ} : n < 0x100000 → c.toNat = 0x10000 + n →
      Escaped c (escapeUnit (0xd800 + n / 0x400) ++ escapeUnit (0xdc00 + n % 0x400))

theorem escaped_escape (c : Char) : Escaped c (escape c) := by
  have hscalar := toNat_scalar c
  rw [escape]
  by_cases hquote : c = '"'
  · rw [if_pos hquote, hquote]
    exact .special (by decide)
  by_cases hslash : c = '\\'
  · rw [if_neg hquote, if_pos hslash, hslash]
    exact .special (by decide)
  rw [if_neg hquote, if_neg hslash]
  split
  · next h => exact h ▸ .special (by decide)
  split
  · next h => exact h ▸ .special (by decide)
  split
  · next h => exact h ▸ .special (by decide)
  split
  · next h => exact h ▸ .special (by decide)
  split
  · next h => exact h ▸ .special (by decide)
  split
  · next h => exact .plain h.1 hquote hslash
  split
  · next h => exact .unit h
  · exact .pair (by omega) (by omega)

theorem isChars_escape (c : Char) {cs : List Char} (h : IsChars cs) : IsChars (escape c ++ cs) := by
  have hescaped := escaped_escape c
  generalize escape c = text at hescaped
  cases hescaped with
  | special hd => exact .escaped hd h
  | plain hc hquote hslash => exact .unescaped hc hquote hslash h
  | unit hc => exact .escapeUnit hc h
  | pair hn _ =>
    rw [List.append_assoc]
    exact .escapeUnit (by omega) (.escapeUnit (by omega) h)

theorem isChars_flatMap_escape (cs : List Char) : IsChars (cs.flatMap escape) := by
  induction cs with
  | nil => exact .nil
  | cons c cs ih =>
    rw [List.flatMap_cons]
    exact isChars_escape c ih

mutual

def numbers : Json → List Number
  | number n => [n]
  | array items => itemNumbers items
  | object members => memberNumbers members
  | _ => []

def itemNumbers : List Json → List Number
  | [] => []
  | j :: js => j.numbers ++ itemNumbers js

def memberNumbers : List (String × Json) → List Number
  | [] => []
  | (_, j) :: members => j.numbers ++ memberNumbers members

end

theorem Blank.append {cs ds : List Char} (hc : Blank cs) (hd : Blank ds) : Blank (cs ++ ds) := by
  simp_all [Blank]

theorem enclose_nil (opening closing : String) (indent : Option ℕ) :
    (enclose opening closing indent []).toList = opening.toList ++ closing.toList := by
  unfold enclose
  rw [if_pos rfl, String.toList_append]

/-- Both with and without indentation, blanks alone stand beside the brackets and the commas. -/
theorem exists_enclose (opening closing : String) (indent : Option ℕ) {items : List String}
    (h : items ≠ []) : ∃ before between after, Blank before ∧ Blank between ∧ Blank after ∧
      (enclose opening closing indent items).toList =
        opening.toList ++ (before ++ (List.intercalate (',' :: between) (items.map String.toList) ++
          (after ++ closing.toList))) := by
  unfold enclose
  rw [if_neg h]
  cases indent with
  | none => exact ⟨[], [' '], [], rfl, rfl, rfl, by simp [String.toList_intercalate]⟩
  | some n =>
    have hmargin : Blank ('\n' :: List.replicate n ' ') := by simp [Blank, isBlank]
    have hinner : Blank ('\n' :: List.replicate n ' ' ++ [' ', ' ']) := hmargin.append rfl
    exact ⟨_, _, _, hinner, hinner, hmargin, by simp [String.toList_intercalate]⟩

def Padded (s : Symbol) (cs : List Char) : Prop :=
  ∀ before after, Blank before → Blank after → Derives s (before ++ (cs ++ after))

theorem derives_intercalate {one many : Symbol} {css : List (List Char)} {between : List Char}
    (hlast : ∀ {cs}, Derives one cs → Derives many cs)
    (hcons : ∀ {cs more}, Derives one cs → Derives many more → Derives many (cs ++ ',' :: more))
    (hbetween : Blank between) (hne : css ≠ []) (h : ∀ cs ∈ css, Padded one cs) :
    Padded many (List.intercalate (',' :: between) css) := by
  intro before after hbefore hafter
  induction css generalizing before with
  | nil => exact absurd rfl hne
  | cons cs css ih =>
    obtain ⟨hcs, hcss⟩ := List.forall_mem_cons.mp h
    cases css with
    | nil =>
      rw [List.intercalate_singleton]
      exact hlast (hcs before after hbefore hafter)
    | cons ds css =>
      have hmore := ih (List.cons_ne_nil _ _) hcss between hbetween
      have hone := hcons (hcs before [] hbefore rfl) hmore
      simpa [List.intercalate_cons_cons] using hone

theorem derives_enclose {one many : Symbol} {opening closing : String} {items : List String}
    (hnone : ∀ {cs}, Blank cs → Derives .value (opening.toList ++ (cs ++ closing.toList)))
    (hsome : ∀ {cs}, Derives many cs → Derives .value (opening.toList ++ (cs ++ closing.toList)))
    (hlast : ∀ {cs}, Derives one cs → Derives many cs)
    (hcons : ∀ {cs more}, Derives one cs → Derives many more → Derives many (cs ++ ',' :: more))
    (indent : Option ℕ) (h : ∀ cs ∈ items.map String.toList, Padded one cs) :
    Derives .value (enclose opening closing indent items).toList := by
  by_cases hne : items = []
  · rw [hne, enclose_nil]
    exact hnone (show Blank [] from rfl)
  · obtain ⟨before, between, after, hbefore, hbetween, hafter, he⟩ :=
      exists_enclose opening closing indent hne
    have hmany := derives_intercalate hlast hcons hbetween (by simpa using hne) h
    have hvalue := hsome (hmany before after hbefore hafter)
    rw [he]
    simpa using hvalue

theorem toList_quoted (s : String) :
    (quoted s).toList = '"' :: (s.toList.flatMap escape ++ ['"']) := String.toList_ofList

mutual

theorem derives_text (indent : Option ℕ) :
    (j : Json) → (∀ n ∈ j.numbers, n.isFinite) → Derives .value (j.text indent).toList
  | .null, _ => .word (by simp [text, words])
  | .bool b, _ => .word (by cases b <;> simp [text, words])
  | .number n, h => .number (isNumber_numberText (h n (by simp [numbers])))
  | .string s, _ => by
    rw [text, toList_quoted]
    exact .string (isChars_flatMap_escape _)
  | .array items, h => by
    rw [text]
    exact derives_enclose (by simpa using .noItems) (by simpa using .array) .lastItem .items indent
      (padded_texts _ items h)
  | .object members, h => by
    rw [text]
    exact derives_enclose (by simpa using .noMembers) (by simpa using .object) .lastMember .members
      indent (padded_memberTexts _ members h)

theorem padded_texts (indent : Option ℕ) : (js : List Json) →
    (∀ n ∈ itemNumbers js, n.isFinite) → ∀ cs ∈ (texts indent js).map String.toList, Padded .item cs
  | [], _ => by simp [texts]
  | j :: js, h => by
    obtain ⟨hj, hjs⟩ := List.forall_mem_append.mp h
    rw [texts, List.map_cons, List.forall_mem_cons]
    refine ⟨fun before after hbefore hafter => ?_, padded_texts indent js hjs⟩
    exact .item hbefore (derives_text indent j hj) hafter

theorem padded_memberTexts (indent : Option ℕ) : (members : List (String × Json)) →
    (∀ n ∈ memberNumbers members, n.isFinite) →
    ∀ cs ∈ (memberTexts indent members).map String.toList, Padded .member cs
  | [], _ => by simp [memberTexts]
  | (key, j) :: members, h => by
    obtain ⟨hj, hmembers⟩ := List.forall_mem_append.mp h
    rw [memberTexts, List.map_cons, List.forall_mem_cons]
    refine ⟨fun before after hbefore hafter => ?_, padded_memberTexts indent members hmembers⟩
    have hitem := Derives.item (show Blank [' '] from rfl) (derives_text indent j hj) hafter
    have hmember := Derives.member hbefore (isChars_flatMap_escape key.toList)
      (show Blank [] from rfl) hitem
    simpa [toList_quoted] using hmember

end

/-- A document whose numbers are finite is written as a JSON text. -/
theorem isText_text (indent : Option ℕ) {j : Json} (h : ∀ n ∈ j.numbers, n.isFinite) :
    IsText (j.text indent).toList := by
  have hnone : Blank [] := rfl
  simpa [IsText] using Derives.item hnone (derives_text indent j h) hnone

end Json
end Lox
