import Lox.Token.Scan

/-! # Pieces of a source

What the piece at the front of a source is, and what it means, told without a scanner: the text of
the piece and the text that follows it are related to a meaning. Where pieces of several lengths
would do, the longest is meant.
-/

namespace Lox

/-- The text is a match, and no longer text that goes on into the rest is. -/
def Longest (P : List Char → Prop) (text rest : List Char) : Prop :=
  P text ∧ ∀ more, more <+: rest → P (text ++ more) → more = []

/-- Digits, perhaps with a point and more digits after them. -/
def Numeral (text : List Char) : Prop :=
  ∃ whole, whole ≠ [] ∧ whole.all isDigit ∧
    (text = whole ∨ ∃ fraction, fraction ≠ [] ∧ fraction.all isDigit ∧
      text = whole ++ '.' :: fraction)

theorem Numeral.digit_or_point {text : List Char} (h : Numeral text) :
    ∀ c ∈ text, isDigit c ∨ c = '.' := by
  obtain ⟨whole, _, hw, rfl | ⟨fraction, _, hf, rfl⟩⟩ := h
  · exact fun c hc => .inl (List.all_eq_true.mp hw c hc)
  · intro c hc
    rcases List.mem_append.mp hc with hc | hc
    · exact .inl (List.all_eq_true.mp hw c hc)
    · rcases List.mem_cons.mp hc with hc | hc
      · exact .inr hc
      · exact .inl (List.all_eq_true.mp hf c hc)

/-- A letter or an underscore, then letters, underscores and digits. -/
def Word (text : List Char) : Prop :=
  ∃ c cs, text = c :: cs ∧ isAlpha c ∧ cs.all isAlphaNumeric

def isLayout (c : Char) : Bool := c == ' ' || c == '\t' || c == '\r' || c == '\n'

/-- The kind of a character that is a token whatever follows it. -/
def punctuation? : Char → Option Kind
  | '(' => some .leftParen
  | ')' => some .rightParen
  | '{' => some .leftBrace
  | '}' => some .rightBrace
  | ',' => some .comma
  | '.' => some .dot
  | '-' => some .minus
  | '+' => some .plus
  | ';' => some .semicolon
  | '*' => some .star
  | '?' => some .questionMark
  | ':' => some .colon
  | _ => none

/-- The kinds of an operator alone and with an equals sign after it. -/
def operator? : Char → Option (Kind × Kind)
  | '!' => some (.bang, .bangEqual)
  | '=' => some (.equal, .equalEqual)
  | '<' => some (.less, .lessEqual)
  | '>' => some (.greater, .greaterEqual)
  | _ => none

/-- The kinds of the words that are no names. -/
def reserved? : String → Option Kind
  | "and" => some .kwAnd
  | "class" => some .kwClass
  | "else" => some .kwElse
  | "false" => some .kwFalse
  | "for" => some .kwFor
  | "fun" => some .kwFun
  | "if" => some .kwIf
  | "nil" => some .kwNil
  | "or" => some .kwOr
  | "print" => some .kwPrint
  | "return" => some .kwReturn
  | "super" => some .kwSuper
  | "this" => some .kwThis
  | "true" => some .kwTrue
  | "var" => some .kwVar
  | "while" => some .kwWhile
  | _ => none

theorem keyword?_eq_reserved? (word : String) : Kind.keyword? word = reserved? word := by
  unfold reserved?
  split
  all_goals first
    | rfl
    | exact List.lookup_eq_none_iff.mpr (by simp_all [Kind.keywords])

inductive Sense
  | nothing
  | token (kind : Kind) (literal : Value)
  | fault (error : LexicalError)

/-- `Munch text rest sense`: of a source that is `text` and then `rest`, the first piece is `text`,
and it means `sense`. -/
inductive Munch : List Char → List Char → Sense → Prop
  | layout {c : Char} {rest : List Char} : isLayout c → Munch [c] rest .nothing
  | lineComment {body rest : List Char} : '\n' ∉ body → rest = [] ∨ rest.head? = some '\n' →
      Munch ('/' :: '/' :: body) rest .nothing
  | blockComment {body rest : List Char} : ¬ ['*', '/'] <:+: body →
      Munch ('/' :: '*' :: (body ++ ['*', '/'])) rest .nothing
  | openComment {body : List Char} : ¬ ['*', '/'] <:+: body →
      Munch ('/' :: '*' :: body) [] (.fault .unterminatedComment)
  | string {body rest : List Char} : '"' ∉ body →
      Munch ('"' :: (body ++ ['"'])) rest (.token .string (.string (String.ofList body)))
  | openString {body : List Char} : '"' ∉ body →
      Munch ('"' :: body) [] (.fault .unterminatedString)
  | number {text rest : List Char} {x : Float} : Longest Numeral text rest →
      Number.readFloat? text = some x → Munch text rest (.token .number (.double x))
  | word {text rest : List Char} : Longest Word text rest →
      Munch text rest (.token ((reserved? (String.ofList text)).getD .identifier) .nil)
  | punctuation {c : Char} {k : Kind} {rest : List Char} : punctuation? c = some k →
      Munch [c] rest (.token k .nil)
  | long {c : Char} {short long : Kind} {rest : List Char} : operator? c = some (short, long) →
      Munch [c, '='] rest (.token long .nil)
  | short {c : Char} {short long : Kind} {rest : List Char} : operator? c = some (short, long) →
      rest.head? ≠ some '=' → Munch [c] rest (.token short .nil)
  | slash {rest : List Char} : rest.head? ≠ some '/' → rest.head? ≠ some '*' →
      Munch ['/'] rest (.token .slash .nil)
  | other {c : Char} {rest : List Char} : isLayout c = false → c ≠ '/' → c ≠ '"' →
      isDigit c = false → isAlpha c = false → punctuation? c = none → operator? c = none →
      Munch [c] rest (.fault .unexpectedCharacter)

/-- What a piece gives that ends on the line. -/
def Sense.scanned (text : List Char) (line : Int) : Sense → Option Scanned
  | nothing => none
  | token kind literal => some (.token ⟨kind, String.ofList text, literal, line⟩)
  | fault e => some (.fault line e)

section

variable {P : List Char → Prop} {text rest : List Char}

theorem exists_longest {P : List Char → Prop} {text : List Char} (rest : List Char) (h : P text) :
    ∃ more rest', rest = more ++ rest' ∧ Longest P (text ++ more) rest' := by
  by_cases hm : ∃ more rest', more ++ rest' = rest ∧ P (text ++ more) ∧ more ≠ []
  · obtain ⟨more, rest', hr, hp, hne⟩ := hm
    obtain ⟨more', rest'', hr', hl⟩ := exists_longest rest' hp
    exact ⟨more ++ more', rest'', by simp [← hr, hr'], by simpa using hl⟩
  · refine ⟨[], rest, rfl, by simpa using h, fun more ⟨rest', hr⟩ hp => ?_⟩
    exact Classical.not_not.mp fun hne => hm ⟨more, rest', hr, by simpa using hp, hne⟩
termination_by rest.length
decreasing_by
  have := List.length_pos_iff.mpr hne
  rw [← hr, List.length_append]
  omega

theorem Longest.next (h : Longest P text rest) {c : Char} {cs : List Char} (hr : rest = c :: cs) :
    ¬ P (text ++ [c]) := by
  intro hp
  cases h.2 [c] (by simp [hr]) hp

theorem takeWhile_append_of_all {p : Char → Bool} (ht : text.all p)
    (hr : ∀ c cs, rest = c :: cs → p c = false) : (text ++ rest).takeWhile p = text := by
  rw [List.takeWhile_append_of_pos (List.all_eq_true.mp ht)]
  cases rest with
  | nil => simp
  | cons c cs => simp [hr c cs rfl]

theorem dropWhile_append_of_all {p : Char → Bool} (ht : text.all p)
    (hr : ∀ c cs, rest = c :: cs → p c = false) : (text ++ rest).dropWhile p = rest := by
  rw [List.dropWhile_append_of_pos (List.all_eq_true.mp ht)]
  cases rest with
  | nil => rfl
  | cons c cs => simp [hr c cs rfl]

theorem takeWhile_of_all {p : Char → Bool} (ht : text.all p) : text.takeWhile p = text := by
  simpa using takeWhile_append_of_all ht (nofun : ∀ c cs, [] = c :: cs → p c = false)

theorem dropWhile_of_all {p : Char → Bool} (ht : text.all p) : text.dropWhile p = [] := by
  simpa using dropWhile_append_of_all ht (nofun : ∀ c cs, [] = c :: cs → p c = false)

theorem Longest.word (h : Longest Word text rest) : ∃ c cs, text = c :: cs ∧ isAlpha c ∧
    cs.all isAlphaNumeric ∧ ∀ d ds, rest = d :: ds → isAlphaNumeric d = false := by
  obtain ⟨c, cs, rfl, hc, hcs⟩ := h.1
  refine ⟨c, cs, rfl, hc, hcs, fun d ds hr => Bool.eq_false_iff.mpr fun hd => ?_⟩
  exact h.next hr ⟨c, cs ++ [d], rfl, hc, by simp [hcs, hd]⟩

theorem not_isDigit_point : isDigit '.' = false := by decide

/-- No digit follows a longest numeral, and the scanner's split finds all of it. -/
theorem Longest.numeral (h : Longest Numeral text rest) : ∃ c cs, text = c :: cs ∧ isDigit c ∧
    Scanner.splitNumber (cs ++ rest) = (cs, rest) := by
  obtain ⟨whole, hne, hw, ht⟩ := h.1
  obtain ⟨c, ws, rfl⟩ := List.exists_cons_of_ne_nil hne
  obtain ⟨hc, hws⟩ : isDigit c ∧ ws.all isDigit := by simpa using hw
  rcases ht with rfl | ⟨fraction, hne', hf, rfl⟩
  · refine ⟨c, ws, rfl, hc, ?_⟩
    have hr : ∀ d ds, rest = d :: ds → isDigit d = false := fun d ds hr =>
      Bool.eq_false_iff.mpr fun hd =>
        h.next hr ⟨c :: ws ++ [d], by simp, by simp [hc, hws, hd], .inl rfl⟩
    simp only [Scanner.splitNumber, takeWhile_append_of_all hws hr,
      dropWhile_append_of_all hws hr]
    split
    · next d ds =>
      have hd : isDigit d = false := by
        apply Bool.eq_false_iff.mpr
        intro hd
        cases h.2 ['.', d] ⟨ds, rfl⟩
          ⟨c :: ws, by simp, hw, .inr ⟨[d], by simp, by simp [hd], by simp⟩⟩
      simp [hd]
    · rfl
  · refine ⟨c, ws ++ '.' :: fraction, by simp, hc, ?_⟩
    obtain ⟨f, fs, rfl⟩ := List.exists_cons_of_ne_nil hne'
    have hr : ∀ d ds, rest = d :: ds → isDigit d = false := fun d ds hr =>
      Bool.eq_false_iff.mpr fun hd =>
        h.next hr ⟨c :: ws, by simp, hw, .inr ⟨f :: fs ++ [d], by simp, by simp_all, by simp⟩⟩
    have hp : ∀ d ds, '.' :: (f :: fs ++ rest) = d :: ds → isDigit d = false := by
      rintro d ds ⟨⟩
      exact not_isDigit_point
    have hfd : isDigit f := (Bool.and_eq_true_iff.mp hf).1
    have htake := takeWhile_append_of_all hf hr
    have hdrop := dropWhile_append_of_all hf hr
    rw [List.append_assoc, List.cons_append]
    simp only [Scanner.splitNumber, takeWhile_append_of_all hws hp,
      dropWhile_append_of_all hws hp]
    simp only [List.cons_append] at htake hdrop ⊢
    simp only [hfd, htake, hdrop, if_true]

end

end Lox
