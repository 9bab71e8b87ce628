import Lox.Tree.Drawing
import Lox.Proofs.Scanning.Munch
import Mathlib

/-! # Attribute values

The value of an attribute is a name, a numeral or a text between double quotes. A double quote
inside is known from the closing one by the backslashes before it: it has an odd number of them. By
whatever function the values are written, if it keeps to the rule and a value has an even number of
backslashes before each double quote and at its end, the value is told from its text.
-/

namespace Lox.Drawing

/-- A letter or an underscore, then letters, digits and underscores. -/
def IsName (cs : List Char) : Prop :=
  ∃ c ds, cs = c :: ds ∧ (c.isAlpha ∨ c = '_') ∧ ∀ d ∈ ds, d.isAlphanum ∨ d = '_'

/-- Perhaps a minus, then digits, perhaps with a point before, among or after them. -/
def IsNumeral (cs : List Char) : Prop :=
  ∃ sign whole tail, cs = sign ++ (whole ++ tail) ∧ (sign = [] ∨ sign = ['-']) ∧
    whole.all Char.isDigit ∧ (tail = [] ∧ whole ≠ [] ∨
      ∃ fraction, tail = '.' :: fraction ∧ fraction.all Char.isDigit ∧
        (whole ≠ [] ∨ fraction ≠ []))

/-- How many backslashes a text ends in. -/
def backslashes (cs : List Char) : Nat := (cs.reverse.takeWhile (· == '\\')).length

/-- What may stand for the value of an attribute. Case does not matter in a keyword. -/
inductive IsAttribute : List Char → Prop
  | bare {cs : List Char} : IsName cs ∨ IsNumeral cs → (String.ofList cs).toLower ∉ keywords →
      IsAttribute cs
  | quoted {body : List Char} :
      (∀ before after, body = before ++ '"' :: after → Odd (backslashes before)) →
      Even (backslashes body) → IsAttribute ('"' :: (body ++ ['"']))

def IsMarkup (cs : List Char) : Prop := ∃ body, cs = '<' :: (body ++ ['>'])

/-- The second text is the first, with a backslash put before each double quote that an even number
of backslashes stands before. -/
inductive Escaped : List Char → List Char → Prop
  | nil : Escaped [] []
  | other {cs ds : List Char} {c : Char} : Escaped cs ds → c ≠ '"' → Escaped (cs ++ [c]) (ds ++ [c])
  | quote {cs ds : List Char} : Escaped cs ds → Even (backslashes cs) →
      Escaped (cs ++ ['"']) (ds ++ ['\\', '"'])
  | escapedQuote {cs ds : List Char} : Escaped cs ds → Odd (backslashes cs) →
      Escaped (cs ++ ['"']) (ds ++ ['"'])

/-- The rule for writing the values of attributes: markup stays as it is, and so do names and
numerals other than keywords; all else is put between double quotes. -/
structure Quotes (quote : String → String) : Prop where
  markup : ∀ s, IsMarkup s.toList → quote s = s
  bare : ∀ s, IsName s.toList ∨ IsNumeral s.toList → s.toLower ∉ keywords → quote s = s
  quoted : ∀ s, ¬ IsMarkup s.toList →
    ¬ ((IsName s.toList ∨ IsNumeral s.toList) ∧ s.toLower ∉ keywords) →
    ∃ body, Escaped s.toList body ∧ (quote s).toList = '"' :: (body ++ ['"'])

/-- Drop the backslash before each double quote. -/
def unescape : List Char → List Char
  | '\\' :: '"' :: cs => '"' :: unescape cs
  | c :: cs => c :: unescape cs
  | [] => []

/-- The value without the quotes around it and the backslashes that were put before those in it. -/
def unquote : List Char → List Char
  | '"' :: cs => unescape cs.dropLast
  | cs => cs

/-- Whether a text ends in an odd number of backslashes; `odd` tells of what is before it. -/
def oddAfter (odd : Bool) (cs : List Char) : Bool := cs.foldl (fun odd c => c == '\\' && !odd) odd

@[simp] theorem oddAfter_nil (odd : Bool) : oddAfter odd [] = odd := rfl

@[simp] theorem oddAfter_cons (odd : Bool) (c : Char) (cs : List Char) :
    oddAfter odd (c :: cs) = oddAfter (c == '\\' && !odd) cs := rfl

theorem oddAfter_append (odd : Bool) (cs ds : List Char) :
    oddAfter odd (cs ++ ds) = oddAfter (oddAfter odd cs) ds := List.foldl_append

theorem oddAfter_eq_true_iff (cs : List Char) :
    oddAfter false cs = true ↔ Odd (backslashes cs) := by
  induction cs using List.reverseRecOn with
  | nil => decide
  | append_singleton cs c ih =>
    rw [oddAfter_append, oddAfter_cons, oddAfter_nil, backslashes, List.reverse_append,
      List.reverse_singleton, List.singleton_append, List.takeWhile_cons]
    by_cases hc : c = '\\'
    · subst hc
      rw [if_pos (by rfl), List.length_cons, ← backslashes, Nat.odd_add_one, ← ih]
      simp
    · have hbeq : (c == '\\') = false := beq_eq_false_iff_ne.mpr hc
      rw [hbeq, if_neg Bool.false_ne_true]
      simp

theorem oddAfter_eq_false_iff (cs : List Char) :
    oddAfter false cs = false ↔ Even (backslashes cs) := by
  rw [← Nat.not_odd_iff_even, ← oddAfter_eq_true_iff, Bool.not_eq_true]

/-- Each double quote has an even number of backslashes before it, and so has the end. -/
structure Balanced (cs : List Char) : Prop where
  quotes : ∀ before after, cs = before ++ '"' :: after → oddAfter false before = false
  ends : oddAfter false cs = false

namespace Balanced

variable {cs ds : List Char}

theorem nil : Balanced [] where
  quotes before after h := by simp at h
  ends := rfl

theorem append (hc : Balanced cs) (hd : Balanced ds) : Balanced (cs ++ ds) where
  quotes before after h := by
    rcases List.append_eq_append_iff.mp h with ⟨rest, rfl, hrest⟩ | ⟨rest, rfl, hrest⟩
    · rw [oddAfter_append, hc.ends]
      exact hd.quotes rest after hrest
    · cases rest with
      | nil => simpa [hc.ends] using hc.ends
      | cons c rest =>
        obtain ⟨rfl, rfl⟩ := List.cons.inj hrest
        exact hc.quotes before rest rfl
  ends := by rw [oddAfter_append, hc.ends, hd.ends]

theorem singleton {c : Char} (hc : c ≠ '\\') : Balanced [c] where
  quotes before after h := by
    cases before with
    | nil => rfl
    | cons => simp at h
  ends := by simp [hc]

theorem escaped {c : Char} (hc : c ≠ '"') : Balanced ['\\', c] where
  quotes before after h := by
    have hmem : '"' ∈ ['\\', c] := by
      rw [h]
      exact List.mem_append_right _ List.mem_cons_self
    simp [hc.symm] at hmem
  ends := by simp

theorem flatMap {α : Type} {f : α → List Char} {as : List α} (h : ∀ a ∈ as, Balanced (f a)) :
    Balanced (as.flatMap f) := by
  induction as with
  | nil => exact nil
  | cons a as ih =>
    obtain ⟨ha, has⟩ := List.forall_mem_cons.mp h
    exact ha.append (ih has)

theorem of_not_mem (h : '\\' ∉ cs) : Balanced cs := by
  have hflat := flatMap (f := fun c => [c]) fun c hc => singleton (ne_of_mem_of_not_mem hc h)
  rwa [List.flatMap_singleton'] at hflat

end Balanced

/-- In what was quoted each double quote has an odd number of backslashes before it. -/
theorem oddAfter_of_escapeQuotes {odd : Bool} {cs before after : List Char}
    (h : escapeQuotes odd cs = before ++ '"' :: after) : oddAfter odd before = true := by
  fun_induction escapeQuotes odd cs generalizing before with
  | case1 => simp at h
  | case2 odd cs ih =>
    rcases List.cons_eq_append_iff.mp h with ⟨-, hquote⟩ | ⟨rest, rfl, hrest⟩
    · cases hquote
    · exact ih hrest
  | case3 odd cs ih =>
    cases odd with
    | true =>
      rcases List.cons_eq_append_iff.mp h with ⟨rfl, -⟩ | ⟨rest, rfl, hrest⟩
      · rfl
      · exact ih hrest
    | false =>
      rcases List.cons_eq_append_iff.mp h with ⟨-, hquote⟩ | ⟨rest, rfl, hrest⟩
      · cases hquote
      rcases List.cons_eq_append_iff.mp hrest with ⟨rfl, -⟩ | ⟨rest', rfl, hrest'⟩
      · rfl
      · have hrest := ih hrest'
        exact hrest
  | case4 odd c cs hbackslash hquote ih =>
    rcases List.cons_eq_append_iff.mp h with ⟨-, hhead⟩ | ⟨rest, rfl, hrest⟩
    · cases hhead
      exact absurd rfl hquote
    · rw [oddAfter_cons, beq_eq_false_iff_ne.mpr hbackslash, Bool.false_and]
      exact ih hrest

/-- Quoting does not change what the text ends in. -/
theorem oddAfter_escapeQuotes (odd : Bool) (cs : List Char) :
    oddAfter odd (escapeQuotes odd cs) = oddAfter odd cs := by
  fun_induction escapeQuotes odd cs with
  | case1 => rfl
  | case2 odd cs ih => exact ih
  | case3 odd cs ih => cases odd <;> exact ih
  | case4 odd c cs hbackslash hquote ih =>
    rw [oddAfter_cons, oddAfter_cons, beq_eq_false_iff_ne.mpr hbackslash, Bool.false_and, ih]

theorem unescape_cons {c : Char} {cs : List Char} (h : c ≠ '\\' ∨ cs.head? ≠ some '"') :
    unescape (c :: cs) = c :: unescape cs := by
  rw [unescape]
  rintro rest rfl rfl
  rcases h with h | h <;> exact h rfl

theorem head?_escapeQuotes {odd : Bool} {cs : List Char} (h : cs.head? = some '"' → odd = false) :
    (escapeQuotes odd cs).head? ≠ some '"' := by
  fun_cases escapeQuotes odd cs with
  | case1 => nofun
  | case2 => simp
  | case3 cs =>
    obtain rfl := h rfl
    simp
  | case4 c cs hbackslash hquote => simpa using hquote

/-- If each double quote has an even number of backslashes before it, all that is put into the text
can be dropped again. -/
theorem unescape_escapeQuotes {odd : Bool} {cs : List Char}
    (h : ∀ before after, cs = before ++ '"' :: after → oddAfter odd before = false) :
    unescape (escapeQuotes odd cs) = cs := by
  fun_induction escapeQuotes odd cs with
  | case1 => rfl
  | case2 odd cs ih =>
    have hrest (before after : List Char) (hcs : cs = before ++ '"' :: after) :
        oddAfter (!odd) before = false := h ('\\' :: before) after (by rw [hcs]; rfl)
    have hhead : (escapeQuotes (!odd) cs).head? ≠ some '"' := by
      refine head?_escapeQuotes fun hcs => ?_
      obtain ⟨rest, rfl⟩ := List.head?_eq_some_iff.mp hcs
      exact hrest [] rest rfl
    rw [unescape_cons (.inr hhead), ih hrest]
  | case3 odd cs ih =>
    obtain rfl : odd = false := h [] cs rfl
    rw [if_neg Bool.false_ne_true]
    have hrest (before after : List Char) (hcs : cs = before ++ '"' :: after) :
        oddAfter false before = false := h ('"' :: before) after (by rw [hcs]; rfl)
    show '"' :: unescape (escapeQuotes false cs) = _
    rw [ih hrest]
  | case4 odd c cs hbackslash hquote ih =>
    have hrest (before after : List Char) (hcs : cs = before ++ '"' :: after) :
        oddAfter false before = false := by
      have := h (c :: before) after (by rw [hcs]; rfl)
      rwa [oddAfter_cons, beq_eq_false_iff_ne.mpr hbackslash, Bool.false_and] at this
    rw [unescape_cons (.inl hbackslash), ih hrest]

theorem escapeQuotes_cons {odd : Bool} {c : Char} {cs : List Char} (hbackslash : c ≠ '\\')
    (hquote : c ≠ '"') : escapeQuotes odd (c :: cs) = c :: escapeQuotes false cs := by
  rw [escapeQuotes]
  · exact hbackslash
  · exact hquote

theorem escapeQuotes_singleton (odd : Bool) (c : Char) :
    escapeQuotes odd [c] = if c = '"' ∧ odd = false then ['\\', c] else [c] := by
  by_cases hquote : c = '"'
  · subst hquote
    cases odd <;> rfl
  · rw [if_neg fun h => hquote h.1]
    by_cases hbackslash : c = '\\'
    · subst hbackslash
      rfl
    · exact escapeQuotes_cons hbackslash hquote

theorem escapeQuotes_concat (odd : Bool) (cs : List Char) (c : Char) :
    escapeQuotes odd (cs ++ [c]) = escapeQuotes odd cs ++
      if c = '"' ∧ oddAfter odd cs = false then ['\\', c] else [c] := by
  fun_induction escapeQuotes odd cs with
  | case1 odd => exact escapeQuotes_singleton odd c
  | case2 odd cs ih =>
    rw [List.cons_append, escapeQuotes, ih, oddAfter_cons]
    rfl
  | case3 odd cs ih =>
    rw [List.cons_append, escapeQuotes, ih, List.append_assoc, oddAfter_cons]
    rfl
  | case4 odd d cs hbackslash hquote ih =>
    rw [List.cons_append, escapeQuotes_cons hbackslash hquote, ih, oddAfter_cons,
      beq_eq_false_iff_ne.mpr hbackslash]
    rfl

theorem Escaped.eq {cs ds : List Char} (h : Escaped cs ds) : ds = escapeQuotes false cs := by
  induction h with
  | nil => rfl
  | other h hc ih => rw [escapeQuotes_concat, if_neg fun hquote => hc hquote.1, ih]
  | @quote cs ds h heven ih =>
    rw [escapeQuotes_concat, if_pos ⟨rfl, (oddAfter_eq_false_iff cs).mpr heven⟩, ih]
  | @escapedQuote cs ds h hodd ih =>
    have htrue := (oddAfter_eq_true_iff cs).mpr hodd
    rw [escapeQuotes_concat, if_neg fun hquote => absurd (htrue.symm.trans hquote.2) (by decide),
      ih]

theorem escaped_escapeQuotes (cs : List Char) : Escaped cs (escapeQuotes false cs) := by
  induction cs using List.reverseRecOn with
  | nil => exact .nil
  | append_singleton cs c ih =>
    rw [escapeQuotes_concat]
    by_cases hc : c = '"'
    · subst hc
      cases hodd : oddAfter false cs with
      | true =>
        rw [if_neg fun hquote => absurd hquote.2 (by decide)]
        exact .escapedQuote ih ((oddAfter_eq_true_iff cs).mp hodd)
      | false =>
        rw [if_pos ⟨rfl, rfl⟩]
        exact .quote ih ((oddAfter_eq_false_iff cs).mp hodd)
    · rw [if_neg fun hquote => hc hquote.1]
      exact .other ih hc

theorem isMarkup_iff (cs : List Char) : isMarkup cs ↔ IsMarkup cs := by
  constructor
  · intro h
    simp only [isMarkup, Bool.and_eq_true, decide_eq_true_eq, beq_iff_eq] at h
    obtain ⟨⟨hlength, hhead⟩, hlast⟩ := h
    obtain ⟨ds, rfl⟩ := List.head?_eq_some_iff.mp hhead
    obtain ⟨es, hes⟩ := List.getLast?_eq_some_iff.mp hlast
    cases es with
    | nil => cases hes
    | cons e es => exact ⟨es, by rw [hes, (List.cons.inj hes).1, List.cons_append]⟩
  · rintro ⟨body, rfl⟩
    rw [isMarkup, ← List.cons_append, List.getLast?_concat]
    simp

theorem isName_iff (cs : List Char) : isName cs ↔ IsName cs := by
  cases cs with
  | nil => exact ⟨nofun, nofun⟩
  | cons c ds =>
    simp only [isName, Bool.and_eq_true, Bool.or_eq_true, beq_iff_eq, List.all_eq_true]
    constructor
    · rintro ⟨hc, hds⟩
      exact ⟨c, ds, rfl, hc, hds⟩
    · rintro ⟨_, _, ⟨⟩, hc, hds⟩
      exact ⟨hc, hds⟩

theorem isUnsignedNumeral_iff (cs : List Char) : isUnsignedNumeral cs ↔
    ∃ whole tail, cs = whole ++ tail ∧ whole.all Char.isDigit ∧ (tail = [] ∧ whole ≠ [] ∨
      ∃ fraction, tail = '.' :: fraction ∧ fraction.all Char.isDigit ∧
        (whole ≠ [] ∨ fraction ≠ [])) := by
  constructor
  · intro h
    refine ⟨cs.takeWhile Char.isDigit, cs.dropWhile Char.isDigit, ?_, List.all_takeWhile, ?_⟩
    · rw [List.takeWhile_append_dropWhile]
    · unfold isUnsignedNumeral at h
      split at h
      · next hdrop => exact .inl ⟨hdrop, by simpa using h⟩
      · next fraction hdrop =>
        rw [Bool.and_eq_true, Bool.or_eq_true] at h
        exact .inr ⟨fraction, hdrop, h.1, by simpa using h.2⟩
      · cases h
  · rintro ⟨whole, tail, rfl, hwhole, htail⟩
    have hnext : ∀ c cs, tail = c :: cs → c.isDigit = false := by
      rintro c cs rfl
      obtain ⟨⟨⟩, -⟩ | ⟨fraction, ⟨⟩, -⟩ := htail
      decide
    rw [isUnsignedNumeral, takeWhile_append_of_all hwhole hnext,
      dropWhile_append_of_all hwhole hnext]
    obtain ⟨rfl, hne⟩ | ⟨fraction, rfl, hfraction, hne⟩ := htail
    · simpa using hne
    · simpa using ⟨by simpa using hfraction, hne⟩

theorem isNumeral_iff (cs : List Char) : isNumeral cs ↔ IsNumeral cs := by
  constructor
  · intro h
    unfold isNumeral at h
    split at h
    · next cs =>
      obtain ⟨whole, tail, rfl, hwhole, htail⟩ := (isUnsignedNumeral_iff cs).mp h
      exact ⟨['-'], whole, tail, rfl, .inr rfl, hwhole, htail⟩
    · obtain ⟨whole, tail, rfl, hwhole, htail⟩ := (isUnsignedNumeral_iff _).mp h
      exact ⟨[], whole, tail, rfl, .inl rfl, hwhole, htail⟩
  · rintro ⟨sign, whole, tail, rfl, hsign, hwhole, htail⟩
    have hunsigned := (isUnsignedNumeral_iff _).mpr ⟨whole, tail, rfl, hwhole, htail⟩
    rcases hsign with rfl | rfl
    · rw [List.nil_append]
      unfold isNumeral
      split
      · next cs hcs =>
        rw [hcs] at hunsigned
        cases hunsigned
      · exact hunsigned
    · exact hunsigned

theorem not_mem_of_all {α : Type} {p : α → Bool} {a : α} {as : List α} (h : as.all p)
    (ha : p a = false) : a ∉ as :=
  fun hmem => Bool.eq_false_iff.mp ha (List.all_eq_true.mp h a hmem)

theorem IsName.quote_not_mem {cs : List Char} (h : IsName cs) : '"' ∉ cs := by
  obtain ⟨c, ds, rfl, hc, hds⟩ := h
  intro hmem
  rcases List.mem_cons.mp hmem with rfl | hmem
  · exact absurd hc (by decide)
  · exact absurd (hds _ hmem) (by decide)

theorem IsNumeral.quote_not_mem {cs : List Char} (h : IsNumeral cs) : '"' ∉ cs := by
  obtain ⟨sign, whole, tail, rfl, hsign, hwhole, htail⟩ := h
  have hsign' : '"' ∉ sign := by
    rcases hsign with rfl | rfl <;> decide
  have hwhole' : '"' ∉ whole := not_mem_of_all hwhole (by decide)
  have htail' : '"' ∉ tail := by
    rcases htail with ⟨rfl, -⟩ | ⟨fraction, rfl, hfraction, -⟩
    · decide
    · rw [List.mem_cons, not_or]
      exact ⟨by decide, not_mem_of_all hfraction (by decide)⟩
  simp [hsign', hwhole', htail']

theorem unquote_of_not_mem {cs : List Char} (h : '"' ∉ cs) : unquote cs = cs := by
  rw [unquote]
  rintro rest rfl
  exact h List.mem_cons_self

theorem unquote_quoted (body : List Char) : unquote ('"' :: (body ++ ['"'])) = unescape body := by
  rw [unquote, List.dropLast_concat]

/-- A value that is written well, and that is told from what is written. -/
structure Writable (s : String) : Prop where
  balanced : Balanced s.toList
  not_markup : ¬ IsMarkup s.toList

/-- A text that has no backslashes and does not start markup. -/
def IsPlain (s : String) : Prop := '\\' ∉ s.toList ∧ s.toList.head?.any (· != '<')

instance (s : String) : Decidable (IsPlain s) := inferInstanceAs (Decidable (_ ∧ _))

theorem writable_append {s t : String} (hs : IsPlain s) (ht : Balanced t.toList) :
    Writable (s ++ t) := by
  obtain ⟨hs, hhead⟩ := hs
  cases hcs : s.toList with
  | nil =>
    rw [hcs] at hhead
    cases hhead
  | cons c cs =>
    rw [hcs, List.head?_cons, Option.any_some, bne_iff_ne] at hhead
    constructor
    · rw [String.toList_append]
      exact (Balanced.of_not_mem hs).append ht
    · rw [String.toList_append, hcs, List.cons_append]
      rintro ⟨body, hbody⟩
      exact hhead (List.cons.inj hbody).1

theorem IsPlain.writable {s : String} (h : IsPlain s) : Writable s := by
  have happend := writable_append h (t := "") .nil
  rwa [String.append_empty] at happend

theorem quotes_attributeValue : Quotes attributeValue where
  markup s h := by rw [attributeValue, (isMarkup_iff _).mpr h, Bool.true_or, if_pos rfl]
  bare s hshape hkeyword := by
    have hshape : isName s.toList || isNumeral s.toList := by
      rwa [Bool.or_eq_true, isName_iff, isNumeral_iff]
    rw [attributeValue, hshape, Bool.true_and, List.contains_eq_mem, decide_eq_false hkeyword,
      Bool.not_false, Bool.or_true, if_pos rfl]
  quoted s hmarkup hbare := by
    refine ⟨_, escaped_escapeQuotes s.toList, ?_⟩
    have hnot : ¬ (isMarkup s.toList || (isName s.toList || isNumeral s.toList) &&
        !keywords.contains s.toLower) := by
      simpa [isMarkup_iff, isName_iff, isNumeral_iff, hmarkup] using hbare
    rw [attributeValue, if_neg hnot, String.toList_ofList, List.cons_append]

theorem Writable.wellFormed {s : String} (h : Writable s) {quote : String → String}
    (hquote : Quotes quote) :
    IsAttribute (quote s).toList ∧ unquote (quote s).toList = s.toList := by
  obtain ⟨hs, hmarkup⟩ := h
  by_cases hbare : (IsName s.toList ∨ IsNumeral s.toList) ∧ s.toLower ∉ keywords
  · obtain ⟨hshape, hkeyword⟩ := hbare
    have hmark : '"' ∉ s.toList := hshape.elim IsName.quote_not_mem IsNumeral.quote_not_mem
    rw [hquote.bare s hshape hkeyword]
    refine ⟨.bare hshape ?_, unquote_of_not_mem hmark⟩
    rwa [String.ofList_toList]
  · obtain ⟨body, hbody, hvalue⟩ := hquote.quoted s hmarkup hbare
    obtain rfl := hbody.eq
    rw [hvalue, unquote_quoted]
    refine ⟨.quoted (fun before after h => ?_) ?_, unescape_escapeQuotes hs.quotes⟩
    · exact (oddAfter_eq_true_iff before).mp (oddAfter_of_escapeQuotes h)
    · rw [← oddAfter_eq_false_iff, oddAfter_escapeQuotes, hs.ends]

end Lox.Drawing
