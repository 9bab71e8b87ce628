import Lox.Proofs.Scanning.Numeral

/-! # The scanner takes the longest pieces

Each step of the scanner takes the first piece of what is left, and all steps together cut the
source into its pieces.
-/

namespace Lox

namespace Scanner

variable {start : Nat} {line : Int} {text rest body : List Char}

/-- A scanner at the start of a lexeme takes `text` and leaves `rest`, and finds what the sense of
`text` is. -/
def Takes (text rest : List Char) (sense : Sense) : Prop :=
  ∀ start line, step? ⟨start, [], text ++ rest, line⟩ =
    some (⟨start, text, rest, line + text.count '\n'⟩,
      sense.scanned text (line + text.count '\n'))

theorem step_cons {c : Char} {cs : List Char} :
    step? ⟨start, [], c :: cs, line⟩ = some (lexeme ⟨start, [c], cs, line⟩ c) := rfl

theorem takes_of_lexeme {c : Char} {sense : Sense}
    (h : ∀ start line, lexeme ⟨start, [c], text ++ rest, line⟩ c =
      (⟨start, c :: text, rest, line + (c :: text).count '\n'⟩,
        sense.scanned (c :: text) (line + (c :: text).count '\n'))) :
    Takes (c :: text) rest sense := by
  intro start line
  rw [List.cons_append, step_cons, h]

theorem takes_of_plain {c : Char} {sense : Sense} (hn : '\n' ∉ c :: text)
    (h : ∀ start line, lexeme ⟨start, [c], text ++ rest, line⟩ c =
      (⟨start, c :: text, rest, line⟩, sense.scanned (c :: text) line)) :
    Takes (c :: text) rest sense := by
  apply takes_of_lexeme
  intro start line
  rw [h, List.count_eq_zero_of_not_mem hn, Int.natCast_zero, Int.add_zero]

theorem accept_true (c : Char) :
    accept ⟨start, text, c :: rest, line⟩ c = (true, ⟨start, text ++ [c], rest, line⟩) := by
  simp [accept, moveOver]

theorem accept_false {c : Char} (h : rest.head? ≠ some c) :
    accept ⟨start, text, rest, line⟩ c = (false, ⟨start, text, rest, line⟩) := by
  unfold accept
  split
  · rfl
  · next d cs hr =>
    simp only at hr
    rw [hr, List.head?_cons, ne_eq, Option.some.injEq] at h
    rw [if_neg h]

theorem takes_layout {c : Char} (h : isLayout c) : Takes [c] rest .nothing := by
  simp only [isLayout, Bool.or_eq_true, beq_iff_eq] at h
  apply takes_of_lexeme
  intro start line
  rcases h with ((rfl | rfl) | rfl) | rfl <;> simp [lexeme, Sense.scanned]

theorem takes_punctuation {c : Char} {k : Kind} (h : punctuation? c = some k) :
    Takes [c] rest (.token k .nil) := by
  unfold punctuation? at h
  split at h <;> cases h <;> exact takes_of_plain (by decide) fun _ _ => rfl

theorem takes_long {c : Char} {short long : Kind} (h : operator? c = some (short, long)) :
    Takes [c, '='] rest (.token long .nil) := by
  unfold operator? at h
  split at h <;> cases h <;> exact takes_of_plain (by decide) fun _ _ => rfl

theorem takes_short {c : Char} {short long : Kind} (h : operator? c = some (short, long))
    (hr : rest.head? ≠ some '=') : Takes [c] rest (.token short .nil) := by
  have hs : ∀ start line, operator ⟨start, [c], rest, line⟩ short long =
      (⟨start, [c], rest, line⟩, (Sense.token short .nil).scanned [c] line) := by
    intro start line
    rw [operator, accept_false hr]
    rfl
  unfold operator? at h
  split at h <;> cases h <;> exact takes_of_plain (by decide) hs

theorem takes_slash (hs : rest.head? ≠ some '/') (hc : rest.head? ≠ some '*') :
    Takes ['/'] rest (.token .slash .nil) := by
  apply takes_of_plain (by decide)
  intro start line
  change slash ⟨start, ['/'], rest, line⟩ = _
  rw [slash, accept_false hs]
  simp only [accept_false hc]
  rfl

theorem all_ne_of_not_mem {c : Char} (h : c ∉ body) : body.all (· != c) :=
  List.all_eq_true.mpr fun _ hd => bne_iff_ne.mpr fun he => h (he ▸ hd)

theorem takes_lineComment (hb : '\n' ∉ body) (hr : rest = [] ∨ rest.head? = some '\n') :
    Takes ('/' :: '/' :: body) rest .nothing := by
  have hall := all_ne_of_not_mem hb
  have hnext : ∀ c cs, rest = c :: cs → (c != '\n') = false := by
    rintro c cs rfl
    rcases hr with hr | hr <;> simp_all
  apply takes_of_plain (by simp [hb])
  intro start line
  change slash ⟨start, ['/'], '/' :: (body ++ rest), line⟩ = _
  rw [slash, accept_true]
  simp only [lineComment, moveOver, takeWhile_append_of_all hall hnext,
    dropWhile_append_of_all hall hnext]
  rfl

theorem not_close_cons {c : Char} {cs : List Char} (h : ¬ ['*', '/'] <:+: c :: cs) :
    (∀ ds, c = '*' → cs ≠ '/' :: ds) ∧ ¬ ['*', '/'] <:+: cs := by
  rw [List.infix_cons_iff, not_or] at h
  refine ⟨?_, h.2⟩
  rintro ds rfl rfl
  exact h.1 ⟨ds, rfl⟩

theorem splitComment_cons {c : Char} {cs done : List Char} (h : ∀ ds, c = '*' → cs ≠ '/' :: ds) :
    splitComment done (c :: cs) = splitComment (c :: done) cs := by
  rw [splitComment.eq_def]
  split
  · next he =>
    obtain ⟨rfl, rfl⟩ := List.cons.inj he
    exact absurd rfl (h _ rfl)
  · next he => cases he
  · next he =>
    obtain ⟨rfl, rfl⟩ := List.cons.inj he
    rfl

theorem splitComment_closed (h : ¬ ['*', '/'] <:+: body) (done : List Char) :
    splitComment done (body ++ '*' :: '/' :: rest) =
      (done.reverse ++ (body ++ ['*', '/']), rest, true) := by
  induction body generalizing done with
  | nil => simp [splitComment]
  | cons c cs ih =>
    obtain ⟨hc, hcs⟩ := not_close_cons h
    rw [List.cons_append, splitComment_cons ?_, ih hcs]
    · simp
    · rintro ds rfl he
      cases cs with
      | nil => simp at he
      | cons d cs => exact hc cs rfl (by rw [(List.cons.inj he).1])

theorem splitComment_open (h : ¬ ['*', '/'] <:+: body) (done : List Char) :
    splitComment done body = (done.reverse ++ body, [], false) := by
  induction body generalizing done with
  | nil => simp [splitComment]
  | cons c cs ih =>
    obtain ⟨hc, hcs⟩ := not_close_cons h
    rw [splitComment_cons hc, ih hcs]
    simp

theorem takes_blockComment (h : ¬ ['*', '/'] <:+: body) :
    Takes ('/' :: '*' :: (body ++ ['*', '/'])) rest .nothing := by
  apply takes_of_lexeme
  intro start line
  change slash ⟨start, ['/'], '*' :: (body ++ ['*', '/'] ++ rest), line⟩ = _
  rw [slash, accept_false (by simp)]
  simp only [accept_true, blockComment, moveOverLines, moveOver, List.append_assoc,
    List.cons_append, List.nil_append, splitComment_closed h]
  simp [Sense.scanned]

theorem takes_openComment (h : ¬ ['*', '/'] <:+: body) :
    Takes ('/' :: '*' :: body) [] (.fault .unterminatedComment) := by
  apply takes_of_lexeme
  intro start line
  rw [List.append_nil]
  change slash ⟨start, ['/'], '*' :: body, line⟩ = _
  rw [slash, accept_false (by simp)]
  simp only [accept_true, blockComment, moveOverLines, moveOver, splitComment_open h]
  simp [Sense.scanned]

theorem takes_string (h : '"' ∉ body) :
    Takes ('"' :: (body ++ ['"'])) rest (.token .string (.string (String.ofList body))) := by
  have hall := all_ne_of_not_mem h
  have hnext : ∀ c cs, '"' :: rest = c :: cs → (c != '"') = false := by
    rintro c cs ⟨⟩
    rfl
  apply takes_of_lexeme
  intro start line
  rw [List.append_assoc]
  change string ⟨start, ['"'], body ++ '"' :: rest, line⟩ = _
  simp only [string, moveOverLines, moveOver, takeWhile_append_of_all hall hnext,
    dropWhile_append_of_all hall hnext]
  simp [Sense.scanned, token]

theorem takes_openString (h : '"' ∉ body) :
    Takes ('"' :: body) [] (.fault .unterminatedString) := by
  have hall := all_ne_of_not_mem h
  have htake := takeWhile_of_all hall
  have hdrop := dropWhile_of_all hall
  apply takes_of_lexeme
  intro start line
  rw [List.append_nil]
  change string ⟨start, ['"'], body, line⟩ = _
  simp only [string, moveOverLines, moveOver, htake, hdrop]
  simp [Sense.scanned]

theorem lexeme_default {s : Scanner} {c : Char} (hl : isLayout c = false) (hs : c ≠ '/')
    (hq : c ≠ '"') (hp : punctuation? c = none) (ho : operator? c = none) :
    s.lexeme c = if isDigit c then s.number else if isAlpha c then s.identifier
      else (s, some (.fault s.line .unexpectedCharacter)) := by
  unfold lexeme
  split <;> first
    | rfl
    | exact absurd rfl hs
    | exact absurd rfl hq
    | exact absurd hp (by decide)
    | exact absurd ho (by decide)
    | exact absurd hl (by decide)

theorem lexeme_alphaNumeric {s : Scanner} {c : Char} (h : isAlphaNumeric c) :
    s.lexeme c = if isDigit c then s.number else s.identifier := by
  have hne : ∀ d, isAlphaNumeric d = false → c ≠ d := by
    rintro d hd rfl
    simp [h] at hd
  have hp : punctuation? c = none := by
    unfold punctuation?
    split <;> first | rfl | exact absurd h (by decide)
  have ho : operator? c = none := by
    unfold operator?
    split <;> first | rfl | exact absurd h (by decide)
  have hl : isLayout c = false := by
    apply Bool.eq_false_iff.mpr
    intro hl
    simp only [isLayout, Bool.or_eq_true, beq_iff_eq] at hl
    rcases hl with ((hl | hl) | hl) | hl <;> exact hne _ (by decide) hl
  rw [lexeme_default hl (hne _ (by decide)) (hne _ (by decide)) hp ho]
  simp only [isAlphaNumeric, Bool.or_eq_true] at h
  split
  · rfl
  · next hd => rw [if_pos (h.resolve_right hd)]

theorem not_isDigit_of_isAlpha {c : Char} (h : isAlpha c) : isDigit c = false := by
  simp only [isAlpha, decide_eq_true_eq] at h
  simp only [isDigit, decide_eq_false_iff_not]
  rcases h with h | h | rfl
  · simp only [Char.le_def] at *
    grind
  · simp only [Char.le_def] at *
    grind
  · decide

theorem newline_not_mem {cs : List Char} (h : cs.all isAlphaNumeric) : '\n' ∉ cs := by
  intro hn
  have hc := List.all_eq_true.mp h _ hn
  exact absurd hc (by decide)

theorem takes_number {x : Float} (h : Longest Numeral text rest)
    (hx : Number.readFloat? text = some x) : Takes text rest (.token .number (.double x)) := by
  have hn := newline_not_mem_numeral h.1
  obtain ⟨c, cs, rfl, hc, hsplit⟩ := h.numeral
  apply takes_of_plain hn
  intro start line
  rw [lexeme_alphaNumeric (by simp [isAlphaNumeric, hc]), if_pos hc, number]
  simp only [hsplit, moveOver, List.cons_append, List.nil_append, hx]
  rfl

theorem takes_word (h : Longest Word text rest) : Takes text rest
    (.token ((reserved? (String.ofList text)).getD .identifier) .nil) := by
  obtain ⟨c, cs, rfl, hc, hcs, hnext⟩ := h.word
  have hd := not_isDigit_of_isAlpha hc
  have hn : '\n' ∉ c :: cs := newline_not_mem (by simp [isAlphaNumeric, hc, hcs])
  apply takes_of_plain hn
  intro start line
  rw [lexeme_alphaNumeric (by simp [isAlphaNumeric, hc]), if_neg (by simp [hd]), identifier,
    ← keyword?_eq_reserved?]
  simp only [takeWhile_append_of_all hcs hnext, dropWhile_append_of_all hcs hnext, moveOver]
  rfl

theorem takes_of_munch {sense : Sense} (h : Munch text rest sense) : Takes text rest sense := by
  cases h with
  | layout h => exact takes_layout h
  | lineComment hb hr => exact takes_lineComment hb hr
  | blockComment h => exact takes_blockComment h
  | openComment h => exact takes_openComment h
  | string h => exact takes_string h
  | openString h => exact takes_openString h
  | number h hx => exact takes_number h hx
  | word h => exact takes_word h
  | punctuation h => exact takes_punctuation h
  | long h => exact takes_long h
  | short h hr => exact takes_short h hr
  | slash hs hc => exact takes_slash hs hc
  | other hl hs hq hd ha hp ho =>
    refine takes_of_plain ?_ fun start line => ?_
    · rw [List.mem_singleton]
      rintro rfl
      cases hl
    · simp [lexeme_default hl hs hq hp ho, hd, ha, Sense.scanned]

end Scanner

theorem exists_comment_end (cs : List Char) : (¬ ['*', '/'] <:+: cs) ∨
    ∃ body rest, cs = body ++ ['*', '/'] ++ rest ∧ ¬ ['*', '/'] <:+: body := by
  induction cs with
  | nil => exact .inl (by simp)
  | cons c cs ih =>
    by_cases hc : ∃ ds, c = '*' ∧ cs = '/' :: ds
    · obtain ⟨ds, rfl, rfl⟩ := hc
      exact .inr ⟨[], ds, rfl, by simp⟩
    · have hcons : ∀ more, more <+: cs → ¬ ['*', '/'] <:+: more → ¬ ['*', '/'] <:+: c :: more := by
        intro more hm hn
        rw [List.infix_cons_iff, not_or]
        refine ⟨fun hp => ?_, hn⟩
        obtain ⟨rfl, hp'⟩ := List.cons_prefix_cons.mp hp
        obtain ⟨ds, hds⟩ := hp'.trans hm
        exact hc ⟨ds, rfl, hds.symm⟩
      rcases ih with hn | ⟨body, rest, rfl, hn⟩
      · exact .inl (hcons cs (List.prefix_refl _) hn)
      · exact .inr ⟨c :: body, rest, rfl, hcons body ⟨['*', '/'] ++ rest, by simp⟩ hn⟩

theorem exists_split (c : Char) (cs : List Char) : ∃ body rest, cs = body ++ rest ∧ c ∉ body ∧
    (rest = [] ∨ ∃ more, rest = c :: more) := by
  induction cs with
  | nil => exact ⟨[], [], rfl, by simp, .inl rfl⟩
  | cons d cs ih =>
    by_cases hd : d = c
    · exact ⟨[], d :: cs, rfl, by simp, .inr ⟨cs, by rw [hd]⟩⟩
    · obtain ⟨body, rest, rfl, hb, hr⟩ := ih
      exact ⟨d :: body, rest, rfl, by simp [hb, Ne.symm hd], hr⟩

theorem exists_munch_slash (cs : List Char) : ∃ text rest sense,
    '/' :: cs = text ++ rest ∧ Munch text rest sense := by
  by_cases hs : cs.head? = some '/'
  · obtain ⟨ds, rfl⟩ := List.head?_eq_some_iff.mp hs
    obtain ⟨body, rest, rfl, hb, hr⟩ := exists_split '\n' ds
    exact ⟨_, rest, _, rfl, .lineComment hb (hr.imp_right fun ⟨more, hm⟩ => by simp [hm])⟩
  · by_cases hc : cs.head? = some '*'
    · obtain ⟨ds, rfl⟩ := List.head?_eq_some_iff.mp hc
      rcases exists_comment_end ds with hn | ⟨body, rest, rfl, hn⟩
      · exact ⟨_, [], _, by simp, .openComment hn⟩
      · exact ⟨_, rest, _, rfl, .blockComment hn⟩
    · exact ⟨['/'], cs, _, rfl, .slash hs hc⟩

theorem exists_munch_string (cs : List Char) : ∃ text rest sense,
    '"' :: cs = text ++ rest ∧ Munch text rest sense := by
  obtain ⟨body, rest, rfl, hb, rfl | ⟨more, rfl⟩⟩ := exists_split '"' cs
  · exact ⟨_, [], _, by simp, .openString hb⟩
  · exact ⟨'"' :: (body ++ ['"']), more, _, by simp, .string hb⟩

theorem exists_munch_operator {c : Char} {cs : List Char} {short long : Kind}
    (h : operator? c = some (short, long)) : ∃ text rest sense,
    c :: cs = text ++ rest ∧ Munch text rest sense := by
  by_cases hr : cs.head? = some '='
  · obtain ⟨ds, rfl⟩ := List.head?_eq_some_iff.mp hr
    exact ⟨[c, '='], ds, _, rfl, .long h⟩
  · exact ⟨[c], cs, _, rfl, .short h hr⟩

theorem exists_munch (c : Char) (cs : List Char) : ∃ text rest sense,
    c :: cs = text ++ rest ∧ Munch text rest sense := by
  by_cases hs : c = '/'
  · exact hs ▸ exists_munch_slash cs
  by_cases hq : c = '"'
  · exact hq ▸ exists_munch_string cs
  by_cases hd : isDigit c
  · have hn : Numeral [c] := ⟨[c], by simp, by simp [hd], .inl rfl⟩
    obtain ⟨more, rest, rfl, hl⟩ := exists_longest cs hn
    obtain ⟨x, hx⟩ := Number.readFloat_numeral hl.1
    exact ⟨_, rest, _, rfl, .number hl hx⟩
  by_cases ha : isAlpha c
  · have hw : Word [c] := ⟨c, [], rfl, ha, rfl⟩
    obtain ⟨more, rest, rfl, hl⟩ := exists_longest cs hw
    exact ⟨_, rest, _, rfl, .word hl⟩
  rcases hp : punctuation? c with _ | k
  · rcases ho : operator? c with _ | ⟨short, long⟩
    · cases hl : isLayout c
      · exact ⟨[c], cs, _, rfl, .other hl hs hq (by simpa using hd) (by simpa using ha) hp ho⟩
      · exact ⟨[c], cs, _, rfl, .layout hl⟩
    · exact exists_munch_operator ho
  · exact ⟨[c], cs, _, rfl, .punctuation hp⟩

structure Lexeme where
  text : List Char
  sense : Sense

/-- The source is cut into the lexemes: each is the first piece of what is left after those
before. -/
inductive Lexes : List Char → List Lexeme → Prop
  | nil : Lexes [] []
  | cons {text rest : List Char} {sense : Sense} {lexemes : List Lexeme} :
      Munch text rest sense → Lexes rest lexemes → Lexes (text ++ rest) (⟨text, sense⟩ :: lexemes)

/-- What the lexemes of a source give from the line on. -/
def findings (line : Int) : List Lexeme → List Scanned
  | [] => []
  | ⟨text, sense⟩ :: lexemes =>
    (sense.scanned text (line + text.count '\n')).toList ++
      findings (line + text.count '\n') lexemes

theorem Munch.ne_nil {text rest : List Char} {sense : Sense} (h : Munch text rest sense) :
    text ≠ [] := by
  cases h with
  | number h _ =>
    obtain ⟨c, cs, rfl, _⟩ := h.numeral
    simp
  | word h =>
    obtain ⟨c, cs, rfl, _⟩ := h.word
    simp
  | _ => simp

theorem exists_lexes (cs : List Char) : ∃ lexemes, Lexes cs lexemes := by
  cases hcs : cs with
  | nil => exact ⟨[], .nil⟩
  | cons c ds =>
    obtain ⟨text, rest, sense, he, hm⟩ := exists_munch c ds
    obtain ⟨lexemes, hl⟩ := exists_lexes rest
    exact ⟨⟨text, sense⟩ :: lexemes, by rw [he]; exact .cons hm hl⟩
termination_by cs.length
decreasing_by
  have := List.length_pos_iff.mpr hm.ne_nil
  simp only [he, List.length_append]
  omega

theorem Sense.scanned_inj {sense sense' : Sense} {text : List Char} {line : Int}
    (h : sense.scanned text line = sense'.scanned text line) : sense = sense' := by
  cases sense <;> cases sense' <;> simp_all [scanned]

theorem Munch.unique {text rest text' rest' : List Char} {sense sense' : Sense}
    (h : Munch text rest sense) (h' : Munch text' rest' sense')
    (he : text ++ rest = text' ++ rest') : text = text' ∧ rest = rest' ∧ sense = sense' := by
  have hs := Scanner.takes_of_munch h 0 1
  rw [he, Scanner.takes_of_munch h' 0 1] at hs
  simp only [Option.some.injEq, Prod.mk.injEq, Scanner.mk.injEq, true_and] at hs
  obtain ⟨⟨rfl, rfl, _⟩, hs⟩ := hs
  exact ⟨rfl, rfl, (Sense.scanned_inj hs).symm⟩

theorem Lexes.eq_nil {lexemes : List Lexeme} (h : Lexes [] lexemes) : lexemes = [] := by
  generalize hcs : [] = cs at h
  cases h with
  | nil => rfl
  | cons hm _ => exact absurd (List.append_eq_nil_iff.mp hcs.symm).1 hm.ne_nil

theorem Lexes.eq_cons {text rest : List Char} {sense : Sense} {lexemes : List Lexeme}
    (h : Lexes (text ++ rest) lexemes) (hm : Munch text rest sense) :
    ∃ more, lexemes = ⟨text, sense⟩ :: more ∧ Lexes rest more := by
  generalize hcs : text ++ rest = cs at h
  cases h with
  | nil => exact absurd (List.append_eq_nil_iff.mp hcs).1 hm.ne_nil
  | cons hm' h' =>
    obtain ⟨rfl, rfl, rfl⟩ := hm.unique hm' hcs
    exact ⟨_, rfl, h'⟩

theorem Lexes.unique {cs : List Char} {lexemes lexemes' : List Lexeme} (h : Lexes cs lexemes)
    (h' : Lexes cs lexemes') : lexemes = lexemes' := by
  induction h generalizing lexemes' with
  | nil => exact h'.eq_nil.symm
  | cons hm _ ih =>
    obtain ⟨more, rfl, hmore⟩ := h'.eq_cons hm
    rw [ih hmore]

theorem Lexes.flatten_eq {cs : List Char} {lexemes : List Lexeme} (h : Lexes cs lexemes) :
    (lexemes.map Lexeme.text).flatten = cs := by
  induction h with
  | nil => rfl
  | cons _ _ ih => rw [List.map_cons, List.flatten_cons, ih]

theorem Scanner.readAll_step {s s' : Scanner} {scanned : Option Scanned} {found : List Scanned}
    (h : s.beginLexeme.step? = some (s', scanned)) :
    s.readAll found = s'.readAll (scanned.toList ++ found) := by
  rw [readAll]
  split
  · next hn => rw [h] at hn; cases hn
  · next hs =>
    rw [h] at hs
    cases hs
    rfl

theorem Scanner.readAll_of_lexes {cs : List Char} {lexemes : List Lexeme} (h : Lexes cs lexemes)
    (start : Nat) (taken : List Char) (line : Int) (found : List Scanned) :
    ∃ s, readAll ⟨start, taken, cs, line⟩ found = (s, found.reverse ++ findings line lexemes) ∧
      s.line = line + cs.count '\n' := by
  induction h generalizing start taken line found with
  | nil =>
    refine ⟨⟨start, taken, [], line⟩, ?_, by simp⟩
    rw [readAll]
    simp [beginLexeme, step?, advance?, findings]
  | @cons text rest sense lexemes hm _ ih =>
    have ht := takes_of_munch hm (start + taken.length) line
    obtain ⟨s, hs, hl⟩ := ih (start + taken.length) text (line + text.count '\n')
      ((sense.scanned text (line + text.count '\n')).toList ++ found)
    refine ⟨s, ?_, ?_⟩
    · rw [readAll_step (s := ⟨start, taken, text ++ rest, line⟩) ht, hs, findings]
      cases sense.scanned text (line + text.count '\n') <;> simp
    · rw [hl, List.count_append]
      omega

/-- The scan of a source gives what its lexemes mean. -/
theorem scan_of_lexes {source : String} {lexemes : List Lexeme}
    (h : Lexes source.toList lexemes) :
    scan source =
      { tokens := (findings 1 lexemes).filterMap Scanned.token? ++
          [Token.eof (1 + source.toList.count '\n')]
        faults := (findings 1 lexemes).filterMap Scanned.fault?
        line := 1 + source.toList.count '\n' } := by
  obtain ⟨s, hs, hl⟩ := Scanner.readAll_of_lexes h 0 [] 1 []
  rw [scan, Scanner.ofSource, hs, ← hl]
  rfl

/-- A source can be cut into lexemes in one way, and its scan gives what they mean: their tokens
and faults in order, each with the line on which it ends. -/
theorem scan_eq_findings (source : String) : ∃ lexemes, Lexes source.toList lexemes ∧
    (∀ lexemes', Lexes source.toList lexemes' → lexemes' = lexemes) ∧
    (lexemes.map Lexeme.text).flatten = source.toList ∧
    scan source =
      { tokens := (findings 1 lexemes).filterMap Scanned.token? ++
          [Token.eof (1 + source.toList.count '\n')]
        faults := (findings 1 lexemes).filterMap Scanned.fault?
        line := 1 + source.toList.count '\n' } := by
  obtain ⟨lexemes, h⟩ := exists_lexes source.toList
  exact ⟨lexemes, h, fun lexemes' h' => h'.unique h, h.flatten_eq, scan_of_lexes h⟩

theorem reserved?_ne_eof {word : String} {k : Kind} (h : reserved? word = some k) : k ≠ .eof := by
  unfold reserved? at h
  split at h <;> cases h <;> decide

theorem punctuation?_ne_eof {c : Char} {k : Kind} (h : punctuation? c = some k) : k ≠ .eof := by
  unfold punctuation? at h
  split at h <;> cases h <;> decide

theorem operator?_ne_eof {c : Char} {short long : Kind} (h : operator? c = some (short, long)) :
    short ≠ .eof ∧ long ≠ .eof := by
  unfold operator? at h
  split at h <;> cases h <;> decide

theorem Munch.kind_ne_eof {text rest : List Char} {k : Kind} {v : Value}
    (h : Munch text rest (.token k v)) : k ≠ .eof := by
  cases h with
  | string _ | number _ _ | slash _ _ => decide
  | word _ =>
    cases hk : reserved? (String.ofList text) with
    | none => decide
    | some k => exact reserved?_ne_eof hk
  | punctuation h => exact punctuation?_ne_eof h
  | long h => exact (operator?_ne_eof h).2
  | short h _ => exact (operator?_ne_eof h).1

theorem Lexes.kind_ne_eof {cs : List Char} {lexemes : List Lexeme} (h : Lexes cs lexemes)
    (line : Int) : ∀ t ∈ (findings line lexemes).filterMap Scanned.token?, t.kind ≠ .eof := by
  induction h generalizing line with
  | nil => simp [findings]
  | @cons text rest sense lexemes hm _ ih =>
    rw [findings, List.filterMap_append]
    intro t ht
    rcases List.mem_append.mp ht with ht | ht
    · cases sense with
      | nothing | fault => cases ht
      | token k v =>
        obtain rfl := List.mem_singleton.mp ht
        exact hm.kind_ne_eof
    · exact ih _ t ht

/-- The tokens of a source end with the only one that is the end. -/
theorem exists_tokens_scan (source : String) :
    ∃ ts e, (scan source).tokens = ts ++ [e] ∧ e.kind = .eof ∧ ∀ t ∈ ts, t.kind ≠ .eof := by
  obtain ⟨lexemes, h⟩ := exists_lexes source.toList
  exact ⟨_, _, congrArg Scan.tokens (scan_of_lexes h), rfl, h.kind_ne_eof 1⟩

end Lox
