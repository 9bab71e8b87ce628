import Lox.Token.Scanner

/-! # Scanning a source

`scan` reads a whole source. Every step moves over at least one character, so the reading ends.
-/

namespace Lox
namespace Scanner

theorem length_dropWhile_le (p : Char → Bool) (cs : List Char) :
    (cs.dropWhile p).length ≤ cs.length :=
  (List.dropWhile_suffix p).length_le

theorem length_splitComment_le (done cs : List Char) :
    (splitComment done cs).2.1.length ≤ cs.length := by
  fun_induction splitComment done cs <;> simp_all <;> omega

theorem length_splitNumber_le (cs : List Char) : (splitNumber cs).2.length ≤ cs.length := by
  have h := length_dropWhile_le isDigit cs
  unfold splitNumber
  split
  · next c rest e =>
    rw [e] at h
    simp only [List.length_cons] at h
    split
    · have := length_dropWhile_le isDigit (c :: rest)
      simp only [List.length_cons] at this ⊢
      omega
    · simpa using h
  · simpa using h

theorem length_rest_accept_le (s : Scanner) (c : Char) :
    (s.accept c).2.rest.length ≤ s.rest.length := by
  unfold accept
  split
  · simp
  · next h => split <;> simp [moveOver, h]

theorem length_rest_number_le (s : Scanner) : s.number.1.rest.length ≤ s.rest.length := by
  have := length_splitNumber_le s.rest
  unfold number
  split
  simp_all only []
  split <;> simpa [moveOver] using this

theorem length_rest_string_le (s : Scanner) : s.string.1.rest.length ≤ s.rest.length := by
  have := length_dropWhile_le (· != '"') s.rest
  simp only [string, moveOverLines, moveOver]
  split
  · next h => simp [h]
  · next h => rw [h] at this; simp_all; omega

theorem length_rest_slash_le (s : Scanner) : s.slash.1.rest.length ≤ s.rest.length := by
  have h := length_rest_accept_le s '/'
  unfold slash
  split
  · next s' e =>
    rw [e] at h
    exact Nat.le_trans (by simpa [lineComment, moveOver] using length_dropWhile_le _ s'.rest) h
  · next s' e =>
    rw [e] at h
    have h' := length_rest_accept_le s' '*'
    split
    · next s'' e' =>
      rw [e'] at h'
      refine Nat.le_trans (Nat.le_trans ?_ h') h
      simpa [blockComment, moveOverLines, moveOver] using length_splitComment_le [] s''.rest
    · next s'' e' =>
      rw [e'] at h'
      exact Nat.le_trans h' h

theorem length_rest_operator_le (s : Scanner) (short long : Kind) :
    (s.operator short long).1.rest.length ≤ s.rest.length :=
  length_rest_accept_le s '='

theorem length_rest_identifier_le (s : Scanner) : s.identifier.1.rest.length ≤ s.rest.length := by
  simpa [identifier, emit, moveOver] using length_dropWhile_le isAlphaNumeric s.rest

theorem length_rest_lexeme_le (s : Scanner) (c : Char) :
    (s.lexeme c).1.rest.length ≤ s.rest.length := by
  unfold lexeme
  split
  all_goals first
    | exact Nat.le_refl _
    | exact length_rest_operator_le s _ _
    | exact length_rest_slash_le s
    | exact length_rest_string_le s
    | skip
  split
  · exact length_rest_number_le s
  · split
    · exact length_rest_identifier_le s
    · exact Nat.le_refl _

theorem length_rest_step_lt {s s' : Scanner} {found : Option Scanned}
    (h : s.step? = some (s', found)) : s'.rest.length < s.rest.length := by
  obtain ⟨start, taken, rest, line⟩ := s
  cases rest with
  | nil => simp [step?, advance?] at h
  | cons c cs =>
    simp only [step?, advance?, moveOver, Option.map_some, Option.some.injEq] at h
    have := length_rest_lexeme_le ⟨start, taken ++ [c], cs, line⟩ c
    rw [h] at this
    exact Nat.lt_succ_of_le this

/-- Read all lexemes up to the end of the source; `found` holds what the earlier ones gave, the
latest first. -/
def readAll (s : Scanner) (found : List Scanned) : Scanner × List Scanned :=
  match _h : s.beginLexeme.step? with
  | none => (s, found.reverse)
  | some (s', scanned) => readAll s' (scanned.toList ++ found)
termination_by s.rest.length
decreasing_by exact length_rest_step_lt (s := s.beginLexeme) _h

end Scanner

structure Scan where
  /-- The tokens, the last of kind `eof`. -/
  tokens : List Token
  faults : List (Int × LexicalError)
  /-- The last line. -/
  line : Int

def scan (source : String) : Scan :=
  let (s, found) := (Scanner.ofSource source.toList).readAll []
  ⟨found.filterMap Scanned.token? ++ [Token.eof s.line], found.filterMap Scanned.fault?, s.line⟩

end Lox
