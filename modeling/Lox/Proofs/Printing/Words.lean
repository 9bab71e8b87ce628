import Lox.Proofs.Numbers.Texts
import Lox.Proofs.Printing.Forms
import Lox.Proofs.Scanning.Layout

/-! # Tokens as words

The tokens of a source, strings and parentheses apart, are words of a printed tree. So are the
finite doubles, and no name starts like one of them.
-/

namespace Lox

theorem isWordy_of_isAlphaNumeric {c : Char} (h : isAlphaNumeric c) : Form.isWordy c := by
  by_contra hc
  simp only [Form.isWordy, Form.isSeparator, Bool.and_eq_true, bne_iff_ne, Bool.not_eq_true',
    Bool.or_eq_false_iff, beq_eq_false_iff_ne, not_and_or, ne_eq, not_not] at hc
  rcases hc with (rfl | rfl) | rfl | rfl <;> exact absurd h (by decide)

theorem Munch.all_of_symbols {text rest : List Char} {k : Kind} {v : Value} {p : Char → Bool}
    (h : Munch text rest (.token k v)) (hk : k ≠ .string) (hword : ∀ c, isAlphaNumeric c → p c)
    (hsymbols : ['{', '}', ',', '.', '-', '+', ';', '*', '?', ':', '!', '=', '<', '>', '/'].all p)
    (hparens : k = .leftParen ∨ k = .rightParen → p '(' ∧ p ')') : text.all p := by
  have hsymbol := List.all_eq_true.mp hsymbols
  cases h with
  | string => exact absurd rfl hk
  | number h =>
    refine List.all_eq_true.mpr fun c hc => ?_
    rcases h.1.digit_or_point c hc with hc | rfl
    · exact hword c (by simp [isAlphaNumeric, hc])
    · exact hsymbol '.' (by decide)
  | word h =>
    obtain ⟨c, cs, rfl, hc, hcs, -⟩ := h.word
    refine List.all_eq_true.mpr (List.forall_mem_cons.mpr ⟨?_, fun d hd => ?_⟩)
    · exact hword c (by simp [isAlphaNumeric, hc])
    · exact hword d (List.all_eq_true.mp hcs d hd)
  | @punctuation c _ _ h =>
    rw [List.all_cons, List.all_nil, Bool.and_true]
    unfold punctuation? at h
    split at h
    case h_13 => cases h
    case h_1 => exact (hparens (.inl (Option.some.inj h).symm)).1
    case h_2 => exact (hparens (.inr (Option.some.inj h).symm)).2
    all_goals exact hsymbol _ (by decide)
  | long h =>
    rw [List.all_cons, List.all_cons, List.all_nil, hsymbol '=' (by decide), Bool.and_true]
    unfold operator? at h
    split at h
    case h_5 => cases h
    all_goals rw [hsymbol _ (by decide), Bool.and_true]
  | short h =>
    rw [List.all_cons, List.all_nil, Bool.and_true]
    unfold operator? at h
    split at h
    case h_5 => cases h
    all_goals exact hsymbol _ (by decide)
  | slash => rw [List.all_cons, List.all_nil, hsymbol '/' (by decide), Bool.and_true]

/-- A token is a word, unless it is a string or a parenthesis. -/
theorem Munch.all_isWordy {text rest : List Char} {k : Kind} {v : Value}
    (h : Munch text rest (.token k v)) (hk : k ∉ [.string, .leftParen, .rightParen]) :
    text.all Form.isWordy := by
  simp only [List.mem_cons, List.not_mem_nil, or_false, not_or] at hk
  exact h.all_of_symbols hk.1 (fun _ => isWordy_of_isAlphaNumeric) (by decide)
    fun hparen => absurd hparen (not_or.mpr hk.2)

/-- A name is a word, and a number has a double. -/
theorem Munch.word_or_double {text rest : List Char} {k : Kind} {v : Value}
    (h : Munch text rest (.token k v)) :
    (k = .identifier → Word text) ∧ (k = .number → ∃ x, v = .double x) := by
  have hfixed (hk : k ≠ .identifier ∧ k ≠ .number) :
      (k = .identifier → Word text) ∧ (k = .number → ∃ x, v = .double x) :=
    ⟨fun h => absurd h hk.1, fun h => absurd h hk.2⟩
  cases h with
  | number => exact ⟨nofun, fun _ => ⟨_, rfl⟩⟩
  | word h =>
    refine ⟨fun _ => h.1, fun hk => ?_⟩
    unfold reserved? at hk
    split at hk <;> cases hk
  | punctuation h =>
    refine hfixed ?_
    unfold punctuation? at h
    split at h <;> cases h <;> decide
  | long h | short h =>
    refine hfixed ?_
    unfold operator? at h
    split at h <;> cases h <;> decide
  | string | slash => exact ⟨nofun, nofun⟩

def startsNumber (w : String) : Bool := w.toList.head?.any fun c => c.isDigit || c == '-'

section

variable {source : String} {t : Token}

theorem Token.munches_of_mem_scan (h : t ∈ (scan source).tokens) (hk : t.kind ≠ .eof) :
    (t.reline nowhere).Munches := by
  obtain ⟨lexemes, hl⟩ := exists_lexes source.toList
  rw [scan_of_lexes hl] at h
  rcases List.mem_append.mp h with h | h
  · refine hl.munches _ ?_
    rw [← tokens_findings 1]
    exact List.mem_map_of_mem h
  · obtain rfl := List.mem_singleton.mp h
    exact absurd rfl hk

theorem Token.reads_lexeme (h : t ∈ (scan source).tokens)
    (hk : t.kind ∉ [.eof, .string, .leftParen, .rightParen]) :
    Form.Reads t.lexeme (.word t.lexeme) := by
  obtain ⟨heof, hk⟩ := not_or.mp (List.mem_cons.not.mp hk)
  obtain ⟨-, rest, hm⟩ := munches_of_mem_scan h heof
  exact Form.reads_word (fun hnil => hm.ne_nil (String.toList_eq_nil_iff.mpr hnil))
    (hm.all_isWordy hk)

theorem Token.startsNumber_name (h : t ∈ (scan source).tokens) (hk : t.kind = .identifier) :
    startsNumber t.lexeme = false := by
  obtain ⟨-, rest, hm⟩ := munches_of_mem_scan h (by rw [hk]; decide)
  obtain ⟨c, cs, htext, hc, -⟩ := hm.word_or_double.1 hk
  have hdigit := Scanner.not_isDigit_of_isAlpha hc
  have hminus : c ≠ '-' := by
    rintro rfl
    exact absurd hc (by decide)
  rw [startsNumber, show t.lexeme.toList = c :: cs from htext, List.head?_cons, Option.any_some,
    ← Number.isDigit_eq, hdigit, Bool.false_or, beq_eq_false_iff_ne]
  exact hminus

end

theorem Double.startsNumber_text {x : Float} (hx : magnitude x < infinite) :
    startsNumber (text .literal x) := by
  obtain ⟨c, cs, hcs, hc⟩ : ∃ c cs, magnitudeText .literal (magnitude x) = c :: cs ∧ c.isDigit :=
    exists_magnitudeText_cons rfl hx
  rw [startsNumber, toList_text .literal x hx, hcs]
  cases isNegative x with
  | true => rfl
  | false => simp [hc]

theorem Double.all_isNumeric_text (layout : Layout) {x : Float} (hx : magnitude x < infinite) :
    (text layout x).toList.all Number.isNumeric := by
  have hall : (magnitudeText layout (magnitude x)).all Number.isNumeric := by
    rw [magnitudeText_eq]
    exact Decimal.all_write _ _ (trimmed_decimal hx).1.all_isDigit
  rw [toList_text layout x hx, List.all_append, hall, Bool.and_true]
  split <;> rfl

/-- A finite double is one word. -/
theorem Double.reads_text {x : Float} (hx : magnitude x < infinite) :
    Form.Reads (text .literal x) (.word (text .literal x)) := by
  refine Form.reads_word ?_ (List.all_eq_true.mpr fun c hc => ?_)
  · intro hnil
    have hstart := startsNumber_text hx
    rw [hnil] at hstart
    cases hstart
  · have hwordy : ['0', '1', '2', '3', '4', '5', '6', '7', '8', '9', '.', 'e', '+', '-'].all
        Form.isWordy := by decide
    have hnumeric := List.all_eq_true.mp (all_isNumeric_text .literal hx) c hc
    exact List.all_eq_true.mp hwordy c (Number.isNumeric_iff.mp hnumeric)

end Lox
