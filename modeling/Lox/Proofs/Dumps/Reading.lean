import Lox.Proofs.Dumps.Atoms

/-! # Reading a JSON text

The atoms of a text are put together with a stack of the arrays and objects that are open. Every
document is read back from its text, so documents with one text are one document: all characters of
a string come back from their escapes, the infinities and what is no number from their words.
-/

namespace Lox

/-- The number that a word stands for: a whole number if it has digits alone, and else a double. -/
def Number.ofWord? (word : List Char) : Option Number :=
  match readInt? word with
  | some n => some (.whole n)
  | none => (readFloat? word).map .double

theorem Number.readInt?_toString (n : ℤ) : readInt? (toString n).toList = some n := by
  have hall := Decimal.all_toDigits n.natAbs
  have hnumeric : (toString n).toList.all isNumeric := by
    rw [Json.toList_toString, List.all_append, all_isNumeric hall]
    split <;> rfl
  have hsplit : splitSign (toString n).toList = (decide (n < 0), Nat.toDigits 10 n.natAbs) := by
    rw [Json.toList_toString]
    by_cases hn : n < 0
    · simp [hn, splitSign]
    · obtain ⟨c, cs, hcs, hc⟩ := Decimal.exists_cons_of_digits Nat.toDigits_ne_nil hall []
      rw [List.append_nil] at hcs
      simp [hn, hcs, splitSign_of_isDigit hc]
  rw [readInt?, prepare?_of_isNumeric hnumeric, hsplit]
  have hne : Nat.toDigits 10 n.natAbs ≠ [] := Nat.toDigits_ne_nil
  simp only [Option.bind_eq_bind, Option.bind_some]
  rw [if_pos ⟨hne, hall⟩, Nat.ofDigitChars_ten_toDigits]
  refine congrArg some ?_
  split
  · next hn =>
    have := of_decide_eq_true hn
    omega
  · next hn =>
    have := of_decide_eq_false (Bool.eq_false_iff.mpr hn)
    omega

theorem Number.readInt?_text {x : Float} (hx : Double.magnitude x < Double.infinite) :
    readInt? (Double.text .literal x).toList = none := by
  obtain ⟨htrimmed, hnil⟩ := Double.trimmed_decimal hx
  obtain ⟨whole, fraction, exponent, hwrite, -, hf, he, hne⟩ :=
    Json.exists_write_literal htrimmed fun h => (hnil h).2
  have hpart : (fraction ++ exponent).all Char.isDigit = false := by
    rcases hf with rfl | ⟨ds, -, rfl⟩
    · rcases he with rfl | ⟨mark, sign, ds, rfl | rfl, -, -, rfl⟩
      · simp at hne
      · rfl
      · rfl
    · rfl
  have hall : (Double.magnitudeText .literal (Double.magnitude x)).all Char.isDigit = false := by
    rw [Double.magnitudeText_eq, hwrite, List.all_append, hpart, Bool.and_false]
  rw [readInt?, Double.prepare?_text rfl hx]
  refine if_neg fun h => ?_
  rw [hall] at h
  cases h.2

theorem Number.ofWord?_numberText (n : Number) : ofWord? (Json.numberText n).toList = some n := by
  cases n with
  | whole n => rw [Json.numberText, ofWord?, readInt?_toString]
  | double x =>
    rcases Nat.lt_trichotomy (Double.magnitude x) Double.infinite with hx | hx | hx
    · rw [Json.numberText, if_neg (Nat.not_lt.mpr hx.le), if_neg hx.ne, ofWord?, readInt?_text hx,
        Double.readFloat?_text rfl x]
      rfl
    · have hbits := Double.ofMagnitude_magnitude x
      rw [hx] at hbits
      rw [Json.numberText, hx, if_neg (Nat.lt_irrefl _), if_pos rfl]
      revert hbits
      cases Double.isNegative x <;> rintro rfl <;> rfl
    · rw [Json.numberText, if_pos hx, Double.eq_nan_of_infinite_lt hx]
      rfl

namespace Json

def hexValue (c : Char) : ℕ :=
  if c.isDigit then c.toNat - '0'.toNat else c.toLower.toNat - 'a'.toNat + 10

def ofHexDigits (ds : List Char) : ℕ := ds.foldl (fun n d => 16 * n + hexValue d) 0

def units : List Char → List ℕ
  | [] => []
  | '\\' :: 'u' :: a :: b :: c :: d :: cs => ofHexDigits [a, b, c, d] :: units cs
  | '\\' :: c :: cs => ((escapes.lookup c).getD c).toNat :: units cs
  | c :: cs => c.toNat :: units cs

def ofUnits : List ℕ → List Char
  | [] => []
  | [u] => [Char.ofNat u]
  | u :: v :: us =>
    if 0xd800 ≤ u ∧ u < 0xdc00 then
      Char.ofNat (0x10000 + (u - 0xd800) * 0x400 + (v - 0xdc00)) :: ofUnits us
    else Char.ofNat u :: ofUnits (v :: us)

def unescape (body : List Char) : String := String.ofList (ofUnits (units body))

theorem hexValue_digitChar {n : ℕ} (h : n < 16) : hexValue n.digitChar = n := by
  have hall : ∀ n < 16, hexValue n.digitChar = n := by decide
  exact hall n h

theorem ofHexDigits_toDigits (n : ℕ) : ofHexDigits (Nat.toDigits 16 n) = n := by
  induction n using Nat.strong_induction_on with
  | h n ih =>
    rw [Nat.toDigits_eq_if (by decide)]
    split
    · next h => simp [ofHexDigits, hexValue_digitChar h]
    · next h =>
      have hdiv := ih (n / 16) (Nat.div_lt_self (by omega) (by decide))
      rw [ofHexDigits, List.foldl_append]
      show 16 * ofHexDigits _ + hexValue _ = n
      rw [hdiv, hexValue_digitChar (Nat.mod_lt n (by decide))]
      exact Nat.div_add_mod n 16

theorem ofHexDigits_hexDigits (width n : ℕ) : ofHexDigits (Text.hexDigits width n) = n := by
  have hzeros (k : ℕ) : ofHexDigits (List.replicate k '0') = 0 := by
    induction k with
    | zero => rfl
    | succ k ih => exact ih
  rw [Text.hexDigits, ofHexDigits, List.foldl_append]
  show List.foldl _ (ofHexDigits _) _ = n
  rw [hzeros]
  exact ofHexDigits_toDigits n

theorem units_escapeUnit {n : ℕ} (h : n < 0x10000) (cs : List Char) :
    units (escapeUnit n ++ cs) = n :: units cs := by
  have hvalue := ofHexDigits_hexDigits 4 n
  have hlength := length_hexDigits (by decide) (show n < 16 ^ 4 from h)
  rw [escapeUnit]
  match Text.hexDigits 4 n, hlength, hvalue with
  | [a, b, c, d], _, hvalue => rw [← hvalue]; rfl

theorem ofUnits_toNat (c : Char) (us : List ℕ) : ofUnits (c.toNat :: us) = c :: ofUnits us := by
  have hc : ¬(0xd800 ≤ c.toNat ∧ c.toNat < 0xdc00) := by
    have := toNat_scalar c
    omega
  cases us with
  | nil => exact congrArg (· :: []) (Char.ofNat_toNat c)
  | cons v us => rw [ofUnits, if_neg hc, Char.ofNat_toNat]

theorem ofUnits_units_escape (c : Char) (cs : List Char) :
    ofUnits (units (escape c ++ cs)) = c :: ofUnits (units cs) := by
  have hescaped := escaped_escape c
  generalize escape c = text at hescaped
  cases hescaped with
  | @special d hd =>
    have hunits : units ('\\' :: d :: cs) = c.toNat :: units cs := by
      simp only [escapes, List.mem_cons, Prod.mk.injEq, List.not_mem_nil, or_false] at hd
      rcases hd with ⟨rfl, rfl⟩ | ⟨rfl, rfl⟩ | ⟨rfl, rfl⟩ | ⟨rfl, rfl⟩ | ⟨rfl, rfl⟩ | ⟨rfl, rfl⟩ |
        ⟨rfl, rfl⟩ | ⟨rfl, rfl⟩ <;> rfl
    rw [← ofUnits_toNat, ← hunits]
    rfl
  | plain _ _ hslash =>
    have hunits : units (c :: cs) = c.toNat :: units cs := by
      rw [units.eq_def]
      split <;> simp_all
    rw [← ofUnits_toNat, ← hunits]
    rfl
  | unit hc => rw [units_escapeUnit hc, ofUnits_toNat]
  | @pair n hn hc =>
    have hhigh : 0xd800 ≤ 0xd800 + n / 0x400 ∧ 0xd800 + n / 0x400 < 0xdc00 := by omega
    have hcode : 0x10000 + (0xd800 + n / 0x400 - 0xd800) * 0x400 + (0xdc00 + n % 0x400 - 0xdc00) =
        c.toNat := by omega
    rw [List.append_assoc, units_escapeUnit (by omega), units_escapeUnit (by omega), ofUnits,
      if_pos hhigh, hcode, Char.ofNat_toNat]

theorem unescape_escape (s : String) : unescape (s.toList.flatMap escape) = s := by
  have h (cs : List Char) : ofUnits (units (cs.flatMap escape)) = cs := by
    induction cs with
    | nil => rfl
    | cons c cs ih => rw [List.flatMap_cons, ofUnits_units_escape, ih]
  rw [unescape, h, String.ofList_toList]

example : unescape "\\ud83d\\ude00".toList = "😀" := by decide

/-- The arrays and objects that are open, the innermost first, each with what it holds so far, the
latest first. An object holds its keys as strings. -/
abbrev Stack := List (List Json)

def push (j : Json) : Stack → Option Stack
  | [] => none
  | top :: more => some ((j :: top) :: more)

/-- Keys and values by turns as members. -/
def members? : List Json → Option (List (String × Json))
  | [] => some []
  | .string key :: j :: js => (members? js).map ((key, j) :: ·)
  | _ => none

def ofWord? (word : List Char) : Option Json :=
  if word = "null".toList then some .null
  else if word = "true".toList then some (.bool true)
  else if word = "false".toList then some (.bool false)
  else (Number.ofWord? word).map .number

def step (stack : Stack) : Atom → Option Stack
  | .bracket c =>
    if c = '[' ∨ c = '{' then some ([] :: stack)
    else
      match stack with
      | [] => none
      | top :: more =>
        if c = ']' then push (.array top.reverse) more
        else (members? top.reverse).bind fun members => push (.object members) more
  | .quoted body => push (.string (unescape body)) stack
  | .bare word => (ofWord? word).bind (push · stack)

def run (stack : Stack) : List Atom → Option Stack
  | [] => some stack
  | p :: ps => (step stack p).bind fun stack => run stack ps

def read? (cs : List Char) : Option Json :=
  match run [[]] (Atom.cut [] cs) with
  | some [[j]] => some j
  | _ => none

def entries (members : List (String × Json)) : List Json :=
  members.flatMap fun (key, j) => [.string key, j]

theorem members?_entries (members : List (String × Json)) :
    members? (entries members) = some members := by
  induction members with
  | nil => rfl
  | cons member members ih =>
    rw [entries, List.flatMap_cons]
    show (members? (entries members)).map _ = _
    rw [ih]
    rfl

theorem ofWord?_numberText (n : Number) : ofWord? (numberText n).toList = some (.number n) := by
  have hwords := toList_numberText_not_mem_words n
  simp only [words, List.mem_cons, List.not_mem_nil, or_false, not_or] at hwords
  obtain ⟨hfalse, hnull, htrue⟩ := hwords
  rw [ofWord?, if_neg hnull, if_neg htrue, if_neg hfalse, Number.ofWord?_numberText]
  rfl

theorem run_quoted (top : List Json) (more : Stack) (ps : List Atom) (s : String) :
    run (top :: more) (.quoted (s.toList.flatMap escape) :: ps) =
      run ((.string s :: top) :: more) ps := by
  simp [run, step, unescape_escape, push]

mutual

/-- The atoms of a document put it on the stack. -/
theorem run_atoms (top : List Json) (more : Stack) (ps : List Atom) : (j : Json) →
    run (top :: more) (j.atoms ++ ps) = run ((j :: top) :: more) ps
  | .null => rfl
  | .bool b => by cases b <;> rfl
  | .number n => by
    simp [atoms, run, step, ofWord?_numberText, push]
  | .string s => run_quoted top more ps s
  | .array items => by
    simp [atoms, run, step, run_itemAtoms [] (top :: more) _ items, push]
  | .object members => by
    simp [atoms, run, step, run_memberAtoms [] (top :: more) _ members, members?_entries,
      push]

theorem run_itemAtoms (top : List Json) (more : Stack) (ps : List Atom) : (js : List Json) →
    run (top :: more) (itemAtoms js ++ ps) = run ((js.reverse ++ top) :: more) ps
  | [] => rfl
  | j :: js => by
    rw [itemAtoms, List.append_assoc, run_atoms top more _ j, run_itemAtoms _ more ps js]
    simp

theorem run_memberAtoms (top : List Json) (more : Stack) (ps : List Atom) :
    (members : List (String × Json)) →
    run (top :: more) (memberAtoms members ++ ps) =
      run (((entries members).reverse ++ top) :: more) ps
  | [] => rfl
  | (key, j) :: members => by
    rw [memberAtoms, List.cons_append, List.append_assoc, run_quoted, run_atoms _ more _ j,
      run_memberAtoms _ more ps members]
    simp [entries]

end

/-- Every document is read back from its text. -/
theorem read?_text (indent : Option ℕ) (j : Json) : read? (j.text indent).toList = some j := by
  have hcut : Atom.cut [] (j.text indent).toList = j.atoms ++ [] := by
    have := cuts_text indent j [] nofun
    rwa [List.append_nil] at this
  rw [read?, hcut, run_atoms]
  rfl

end Json
end Lox
