import Lox.Proofs.Dumps.Grammar

/-! # The atoms of a JSON text

Blanks, commas and colons cut a JSON text into atoms: brackets, strings and bare words. The words
of a JSON text are numbers and the three names of constants, and the words of a document's text are
those of its parts. So a document with an infinity in it is not written as a JSON text.
-/

namespace Lox.Json

def isBracket (c : Char) : Bool := c == '[' || c == ']' || c == '{' || c == '}'

def isGap (c : Char) : Bool := isBlank c || c == ',' || c == ':'

def isBare (c : Char) : Bool := !isGap c && !isBracket c && c != '"'

inductive Atom
  | bracket (c : Char)
  /-- What stands between two quotes. -/
  | quoted (body : List Char)
  | bare (word : List Char)

namespace Atom

def ended : List Char → List Atom
  | [] => []
  | word => [.bare word]

mutual

/-- The atoms of a text before which the bare word `word` has begun. -/
def cut (word : List Char) : List Char → List Atom
  | [] => ended word
  | c :: cs =>
    if c = '"' then ended word ++ cutQuoted [] cs
    else if isBracket c then ended word ++ .bracket c :: cut [] cs
    else if isGap c then ended word ++ cut [] cs
    else cut (word ++ [c]) cs

/-- The atoms of a text that starts in a string, after `body`. -/
def cutQuoted (body : List Char) : List Char → List Atom
  | [] => [.quoted body]
  | '"' :: cs => .quoted body :: cut [] cs
  | '\\' :: c :: cs => cutQuoted (body ++ ['\\', c]) cs
  | c :: cs => cutQuoted (body ++ [c]) cs

end

/-- No bare word goes on into the text. -/
def Stops (rest : List Char) : Prop := ∀ c ∈ rest.head?, isBare c = false

/-- The text has the atoms, whatever comes after it. -/
def Cuts (cs : List Char) (ps : List Atom) : Prop :=
  ∀ rest, Stops rest → cut [] (cs ++ rest) = ps ++ cut [] rest

variable {cs ds rest word body : List Char} {ps qs : List Atom}

theorem stops_cons {c : Char} (h : isBare c = false) (rest : List Char) : Stops (c :: rest) := by
  rintro _ ⟨⟩
  exact h

theorem stops_append (hc : cs.all isGap) (h : Stops rest) : Stops (cs ++ rest) := by
  cases cs with
  | nil => exact h
  | cons c cs =>
    obtain ⟨hc, -⟩ := Bool.and_eq_true_iff.mp hc
    exact stops_cons (by simp [isBare, hc]) _

theorem cut_of_stops (h : Stops rest) : cut word rest = ended word ++ cut [] rest := by
  cases rest with
  | nil => simp [cut, ended]
  | cons c cs =>
    have hc : isBare c = false := h c rfl
    simp only [isBare, Bool.and_eq_false_iff, Bool.not_eq_false', bne_eq_false_iff_eq] at hc
    simp only [cut, ended, List.nil_append]
    split_ifs <;> simp_all

theorem cut_bracket {c : Char} (h : isBracket c) (rest : List Char) :
    cut [] (c :: rest) = .bracket c :: cut [] rest := by
  have hquote : c ≠ '"' := by
    rintro rfl
    cases h
  rw [cut, if_neg hquote, if_pos h]
  rfl

theorem cut_gap (h : cs.all isGap) (rest : List Char) : cut [] (cs ++ rest) = cut [] rest := by
  induction cs with
  | nil => rfl
  | cons c cs ih =>
    obtain ⟨hc, hcs⟩ := Bool.and_eq_true_iff.mp h
    have hquote : c ≠ '"' := by
      rintro rfl
      cases hc
    have hbracket : isBracket c = false := by
      simp only [isGap, isBlank, Bool.or_eq_true, beq_iff_eq] at hc
      rcases hc with ((((rfl | rfl) | rfl) | rfl) | rfl) | rfl <;> rfl
    rw [List.cons_append, cut, if_neg hquote, hbracket, if_neg Bool.false_ne_true, if_pos hc,
      ih hcs]
    rfl

theorem cut_word (h : cs.all isBare) (hr : Stops rest) :
    cut word (cs ++ rest) = ended (word ++ cs) ++ cut [] rest := by
  induction cs generalizing word with
  | nil => rw [List.nil_append, List.append_nil, cut_of_stops hr]
  | cons c cs ih =>
    obtain ⟨hc, hcs⟩ := Bool.and_eq_true_iff.mp h
    simp only [isBare, Bool.and_eq_true, Bool.not_eq_true', bne_iff_ne] at hc
    obtain ⟨⟨hgap, hbracket⟩, hquote⟩ := hc
    rw [List.cons_append, cut, if_neg hquote, hbracket, if_neg Bool.false_ne_true, hgap,
      if_neg Bool.false_ne_true, ih hcs, List.append_assoc]
    rfl

theorem cutQuoted_plain {c : Char} (hquote : c ≠ '"') (hslash : c ≠ '\\') (cs : List Char) :
    cutQuoted body (c :: cs) = cutQuoted (body ++ [c]) cs := by
  rw [cutQuoted.eq_def]
  split <;> simp_all

theorem cutQuoted_hexDigits (h : ds.all isHexDigit) :
    cutQuoted body (ds ++ rest) = cutQuoted (body ++ ds) rest := by
  induction ds generalizing body with
  | nil => rw [List.nil_append, List.append_nil]
  | cons d ds ih =>
    obtain ⟨hd, hds⟩ := Bool.and_eq_true_iff.mp h
    have hne {c : Char} (hc : isHexDigit c = false) : d ≠ c := by
      rintro rfl
      rw [hd] at hc
      cases hc
    rw [List.cons_append, cutQuoted_plain (hne rfl) (hne rfl), ih hds, List.append_assoc]
    rfl

theorem cutQuoted_isChars (h : IsChars cs) :
    cutQuoted body (cs ++ '"' :: rest) = .quoted (body ++ cs) :: cut [] rest := by
  induction h generalizing body with
  | nil => rw [List.nil_append, cutQuoted, List.append_nil]
  | unescaped _ hquote hslash _ ih =>
    rw [List.cons_append, cutQuoted_plain hquote hslash, ih, List.append_assoc]
    rfl
  | escaped _ _ ih =>
    rw [List.cons_append, List.cons_append, cutQuoted, ih, List.append_assoc]
    rfl
  | unit _ hds _ ih =>
    rw [List.cons_append, List.cons_append, cutQuoted, List.append_assoc, cutQuoted_hexDigits hds,
      ih, List.append_assoc, List.append_assoc]
    rfl

theorem cut_string (h : IsChars cs) (rest : List Char) :
    cut [] ('"' :: (cs ++ '"' :: rest)) = .quoted cs :: cut [] rest := by
  rw [cut, if_pos rfl, cutQuoted_isChars h]
  rfl

/-- A bare word is a number or one of the three words. -/
def IsProper : Atom → Prop
  | .bare word => IsNumber word ∨ word ∈ words
  | _ => True

theorem cut_bare (hne : cs ≠ []) (hall : cs.all isBare) (hr : Stops rest) :
    cut [] (cs ++ rest) = .bare cs :: cut [] rest := by
  obtain ⟨c, cs, rfl⟩ := List.exists_cons_of_ne_nil hne
  rw [cut_word hall hr]
  rfl

theorem isBare_of_isNumeric {c : Char} (h : Number.isNumeric c ∨ c = 'E') : isBare c := by
  rcases h with h | rfl
  · rw [Number.isNumeric_iff] at h
    have hall : ['0', '1', '2', '3', '4', '5', '6', '7', '8', '9', '.', 'e', '+', '-'].all
        isBare := by decide
    exact List.all_eq_true.mp hall c h
  · rfl

theorem cuts_number (h : IsNumber cs) : Cuts cs [.bare cs] := by
  obtain ⟨hne, hall⟩ := h.isNumeric
  exact fun rest hr =>
    cut_bare hne (List.all_eq_true.mpr fun c hc => isBare_of_isNumeric (hall c hc)) hr

theorem cuts_word (h : cs ∈ words) : Cuts cs [.bare cs] := by
  have hall : ∀ cs ∈ words, cs ≠ [] ∧ cs.all isBare := by decide
  exact fun rest hr => cut_bare (hall cs h).1 (hall cs h).2 hr

theorem all_isGap (h : Blank cs) : cs.all isGap :=
  List.all_eq_true.mpr fun c hc => by
    simp [isGap, List.all_eq_true.mp h c hc]

theorem Cuts.enclosed {opening closing : Char} (ho : isBracket opening) (hc : isBracket closing)
    (h : Cuts cs ps) :
    Cuts (opening :: (cs ++ [closing])) (.bracket opening :: (ps ++ [.bracket closing])) := by
  intro rest _
  have hstops : Stops (closing :: rest) := stops_cons (by simp [isBare, hc]) rest
  rw [List.cons_append, cut_bracket ho, List.append_assoc, List.singleton_append, h _ hstops,
    cut_bracket hc, List.cons_append, List.append_assoc]
  rfl

theorem cuts_blank (h : Blank cs) : Cuts cs [] := fun rest _ => cut_gap (all_isGap h) rest

theorem Cuts.separated {c : Char} (hc : isGap c) (h : Cuts cs ps) (h' : Cuts ds qs) :
    Cuts (cs ++ c :: ds) (ps ++ qs) := by
  intro rest hr
  have hstops : Stops (c :: (ds ++ rest)) := stops_cons (by simp [isBare, hc]) _
  have hgap := cut_gap (show [c].all isGap by simpa using hc) (ds ++ rest)
  rw [List.append_assoc, List.cons_append, h _ hstops, ← List.singleton_append, hgap, h' _ hr,
    List.append_assoc]

theorem Cuts.padded {before after : List Char} (hb : Blank before) (ha : Blank after)
    (h : Cuts cs ps) : Cuts (before ++ (cs ++ after)) ps := by
  intro rest hr
  have hafter := all_isGap ha
  rw [List.append_assoc, cut_gap (all_isGap hb), List.append_assoc, h _ (stops_append hafter hr),
    cut_gap hafter]

/-- Each JSON text has atoms, and its words are proper. -/
theorem exists_cuts {s : Symbol} (h : Derives s cs) :
    ∃ ps, (∀ p ∈ ps, p.IsProper) ∧ Cuts cs ps := by
  induction h with
  | @word cs h => exact ⟨[.bare cs], by simpa [IsProper] using .inr h, cuts_word h⟩
  | @number cs h => exact ⟨[.bare cs], by simpa [IsProper] using .inl h, cuts_number h⟩
  | @string cs h =>
    refine ⟨[.quoted cs], by simp [IsProper], fun rest _ => ?_⟩
    rw [List.cons_append, List.append_assoc, List.singleton_append, cut_string h]
    rfl
  | noItems h | noMembers h =>
    exact ⟨_, by simp [IsProper], (cuts_blank h).enclosed rfl rfl⟩
  | array _ ih | object _ ih =>
    obtain ⟨ps, hps, hcuts⟩ := ih
    refine ⟨_, ?_, hcuts.enclosed rfl rfl⟩
    exact List.forall_mem_cons.mpr ⟨trivial, List.forall_mem_append.mpr ⟨hps, by simp [IsProper]⟩⟩
  | item hb _ ha ih =>
    obtain ⟨ps, hps, hcuts⟩ := ih
    exact ⟨ps, hps, hcuts.padded hb ha⟩
  | @member before key between cs hb hkey hbetween _ ih =>
    obtain ⟨ps, hps, hcuts⟩ := ih
    refine ⟨.quoted key :: ps, by simpa [IsProper] using hps, fun rest hr => ?_⟩
    have hcolon : (between ++ [':']).all isGap := by simpa [isGap] using all_isGap hbetween
    have hgap := cut_gap hcolon (cs ++ rest)
    simp only [List.append_assoc, List.singleton_append] at hgap
    simp only [List.append_assoc, List.cons_append]
    rw [cut_gap (all_isGap hb), cut_string hkey, hgap, hcuts rest hr]
  | lastItem _ ih | lastMember _ ih => exact ih
  | items _ _ ih ih' | members _ _ ih ih' =>
    obtain ⟨ps, hps, hcuts⟩ := ih
    obtain ⟨qs, hqs, hcuts'⟩ := ih'
    exact ⟨ps ++ qs, List.forall_mem_append.mpr ⟨hps, hqs⟩, hcuts.separated rfl hcuts'⟩

end Atom

open Atom

mutual

def atoms : Json → List Atom
  | null => [.bare "null".toList]
  | bool b => [.bare (if b then "true" else "false").toList]
  | number n => [.bare (numberText n).toList]
  | string s => [.quoted (s.toList.flatMap escape)]
  | array items => .bracket '[' :: (itemAtoms items ++ [.bracket ']'])
  | object members => .bracket '{' :: (memberAtoms members ++ [.bracket '}'])

def itemAtoms : List Json → List Atom
  | [] => []
  | j :: js => j.atoms ++ itemAtoms js

def memberAtoms : List (String × Json) → List Atom
  | [] => []
  | (key, j) :: members => .quoted (key.toList.flatMap escape) :: (j.atoms ++ memberAtoms members)

end

theorem cuts_numberText (n : Number) :
    Cuts (numberText n).toList [.bare (numberText n).toList] := by
  cases h : n.isFinite
  · have hmem := numberText_of_not_isFinite h
    generalize numberText n = s at hmem
    have hall : ∀ s ∈ ["NaN", "Infinity", "-Infinity"], s.toList ≠ [] ∧ s.toList.all isBare := by
      decide
    exact fun rest hr => cut_bare (hall s hmem).1 (hall s hmem).2 hr
  · exact cuts_number (isNumber_numberText h)

theorem Atom.Cuts.intercalate_cons {between cs : List Char} {css : List (List Char)}
    {ps qs : List Atom} (hb : Blank between) (h : Cuts cs ps)
    (h' : Cuts (List.intercalate (',' :: between) css) qs) :
    Cuts (List.intercalate (',' :: between) (cs :: css)) (ps ++ qs) := by
  cases css with
  | nil =>
    intro rest hr
    rw [List.intercalate_singleton, h rest hr, List.append_assoc, ← h' rest hr]
    rfl
  | cons ds css =>
    have hmore := h'.padded hb (show Blank [] from rfl)
    rw [List.append_nil] at hmore
    rw [List.intercalate_cons_cons, List.append_assoc, List.cons_append]
    exact h.separated rfl hmore

theorem Atom.cuts_enclose {opening closing : String} {o c : Char} (hopening : opening.toList = [o])
    (hclosing : closing.toList = [c]) (ho : isBracket o) (hc : isBracket c) (indent : Option ℕ)
    {items : List String} {ps : List Atom}
    (h : ∀ between, Blank between →
      Cuts (List.intercalate (',' :: between) (items.map String.toList)) ps) :
    Cuts (enclose opening closing indent items).toList (.bracket o :: (ps ++ [.bracket c])) := by
  by_cases hne : items = []
  · subst hne
    rw [enclose_nil, hopening, hclosing]
    exact (h [] rfl).enclosed ho hc
  · obtain ⟨before, between, after, hbefore, hbetween, hafter, he⟩ :=
      exists_enclose opening closing indent hne
    rw [he, hopening, hclosing]
    simpa using ((h between hbetween).padded hbefore hafter).enclosed ho hc

theorem cuts_quoted (s : String) :
    Cuts (quoted s).toList [.quoted (s.toList.flatMap escape)] := fun rest _ => by
  rw [toList_quoted, List.cons_append, List.append_assoc, List.singleton_append,
    cut_string (isChars_flatMap_escape _)]
  rfl

mutual

/-- The text of a document has the atoms of the document. -/
theorem cuts_text (indent : Option ℕ) : (j : Json) → Cuts (j.text indent).toList j.atoms
  | .null => cuts_word (by simp [text, words])
  | .bool b => by
    rw [text, atoms]
    exact cuts_word (by cases b <;> simp [words])
  | .number n => cuts_numberText n
  | .string s => cuts_quoted s
  | .array items => by
    rw [text, atoms]
    exact cuts_enclose rfl rfl rfl rfl indent fun between hb => cuts_texts hb _ items
  | .object members => by
    rw [text, atoms]
    exact cuts_enclose rfl rfl rfl rfl indent fun between hb => cuts_memberTexts hb _ members

theorem cuts_texts {between : List Char} (hb : Blank between) (indent : Option ℕ) :
    (js : List Json) →
      Cuts (List.intercalate (',' :: between) ((texts indent js).map String.toList)) (itemAtoms js)
  | [] => fun _ _ => rfl
  | j :: js => (cuts_text indent j).intercalate_cons hb (cuts_texts hb indent js)

theorem cuts_memberTexts {between : List Char} (hb : Blank between) (indent : Option ℕ) :
    (members : List (String × Json)) →
      Cuts (List.intercalate (',' :: between) ((memberTexts indent members).map String.toList))
        (memberAtoms members)
  | [] => fun _ _ => rfl
  | (key, j) :: members => by
    have hblank : Blank [' '] := rfl
    have hmember : Cuts (quoted key ++ ": " ++ j.text indent).toList
        (.quoted (key.toList.flatMap escape) :: j.atoms) := by
      have hj := (cuts_text indent j).padded hblank (show Blank [] from rfl)
      simpa using (cuts_quoted key).separated (show isGap ':' from rfl) hj
    exact hmember.intercalate_cons hb (cuts_memberTexts hb indent members)

end

mutual

/-- Each number of a document is among the atoms. -/
theorem bare_mem_atoms {n : Number} : (j : Json) → n ∈ j.numbers →
    .bare (numberText n).toList ∈ j.atoms
  | .number m, h => by
    obtain rfl := List.mem_singleton.mp h
    exact List.mem_singleton_self _
  | .array items, h => by
    simp [atoms, bare_mem_itemAtoms items h]
  | .object members, h => by
    simp [atoms, bare_mem_memberAtoms members h]
  | .null, h | .bool _, h | .string _, h => by cases h

theorem bare_mem_itemAtoms {n : Number} : (js : List Json) → n ∈ itemNumbers js →
    .bare (numberText n).toList ∈ itemAtoms js
  | j :: js, h => by
    rcases List.mem_append.mp h with h | h
    · exact List.mem_append_left _ (bare_mem_atoms j h)
    · exact List.mem_append_right _ (bare_mem_itemAtoms js h)

theorem bare_mem_memberAtoms {n : Number} : (members : List (String × Json)) →
    n ∈ memberNumbers members → .bare (numberText n).toList ∈ memberAtoms members
  | (_, j) :: members, h => by
    refine List.mem_cons_of_mem _ ?_
    rcases List.mem_append.mp h with h | h
    · exact List.mem_append_left _ (bare_mem_atoms j h)
    · exact List.mem_append_right _ (bare_mem_memberAtoms members h)

end

theorem toList_numberText_not_mem_words (n : Number) : (numberText n).toList ∉ words := by
  cases h : n.isFinite
  · have hmem := numberText_of_not_isFinite h
    generalize numberText n = s at hmem
    revert s
    decide
  · have hnumber := (isNumber_numberText h).isNumeric.2
    generalize (numberText n).toList = cs at hnumber
    intro hmem
    simp only [words, List.mem_cons, List.not_mem_nil, or_false] at hmem
    rcases hmem with rfl | rfl | rfl <;> simp [Number.isNumeric] at hnumber

/-- The text of a document is a JSON text if and only if all its numbers are finite. -/
theorem isText_text_iff (indent : Option ℕ) {j : Json} :
    IsText (j.text indent).toList ↔ ∀ n ∈ j.numbers, n.isFinite := by
  refine ⟨fun h n hn => ?_, isText_text indent⟩
  obtain ⟨ps, hps, hcuts⟩ := exists_cuts h
  have hstops : Stops [] := nofun
  have hatoms : j.atoms = ps := by
    have := (cuts_text indent j [] hstops).symm.trans (hcuts [] hstops)
    simpa [cut, ended] using this
  rcases hps _ (hatoms ▸ bare_mem_atoms j hn) with h | h
  · exact isNumber_numberText_iff.mp h
  · exact absurd h (toList_numberText_not_mem_words n)

end Lox.Json
