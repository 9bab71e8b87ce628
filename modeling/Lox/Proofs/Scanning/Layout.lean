import Lox.Proofs.Scanning.Joining

/-! # Layout

What stands between the tokens of a source is a gap of blanks and comments. If every gap starts with
a blank, the tokens do not grow into what follows them, so the gaps may be changed for others and
the scan gives the same tokens, perhaps on other lines.
-/

namespace Lox

/-- Blanks and whole comments. The newline that ends a line comment belongs to it. -/
inductive Gap : List Char → Prop
  | nil : Gap []
  | blank {c : Char} {w : List Char} : isLayout c → Gap w → Gap (c :: w)
  | lineComment {body w : List Char} : '\n' ∉ body → Gap w →
      Gap ('/' :: '/' :: (body ++ '\n' :: w))
  | blockComment {body w : List Char} : ¬ ['*', '/'] <:+: body → Gap w →
      Gap ('/' :: '*' :: (body ++ ['*', '/'] ++ w))

def StartsBlank (cs : List Char) : Prop := ∃ c ds, cs = c :: ds ∧ isLayout c

/-- The texts of some tokens, with a gap that starts with a blank after each; after the last there
may be none. -/
inductive Spread : List (List Char) → List Char → Prop
  | nil : Spread [] []
  | last {text : List Char} : Spread [text] text
  | cons {text w cs : List Char} {texts : List (List Char)} : Gap w → StartsBlank w →
      Spread texts cs → Spread (text :: texts) (text ++ (w ++ cs))

section

variable {P : List Char → Prop} {text rest rest' : List Char}

theorem StartsBlank.append (h : StartsBlank rest) (more : List Char) :
    StartsBlank (rest ++ more) := by
  obtain ⟨c, ds, rfl, hc⟩ := h
  exact ⟨c, ds ++ more, rfl, hc⟩

theorem StartsBlank.head?_ne (h : StartsBlank rest) {c : Char} (hc : isLayout c = false) :
    rest.head? ≠ some c := by
  obtain ⟨d, ds, rfl, hd⟩ := h
  rintro ⟨⟩
  rw [hc] at hd
  cases hd

/-- A match without blanks is longest before a blank and at the end. -/
theorem longest_of_blank (h : P text) (hP : ∀ cs, P cs → ∀ c ∈ cs, isLayout c = false)
    (hr : rest = [] ∨ StartsBlank rest) : Longest P text rest := by
  refine ⟨h, fun more hm hp => ?_⟩
  rcases hr with rfl | ⟨c, ds, rfl, hc⟩
  · exact List.prefix_nil.mp hm
  · cases more with
    | nil => rfl
    | cons d more =>
      obtain ⟨rfl, -⟩ := List.cons_prefix_cons.mp hm
      rw [hP _ hp d (by simp)] at hc
      cases hc

theorem Numeral.not_isLayout (h : Numeral text) : ∀ c ∈ text, isLayout c = false :=
  Number.forall_mem_numeral h (by decide)

theorem isLayout_of_isAlphaNumeric {c : Char} (h : isAlphaNumeric c) : isLayout c = false := by
  apply Bool.eq_false_iff.mpr
  intro hl
  simp only [isLayout, Bool.or_eq_true, beq_iff_eq] at hl
  rcases hl with ((rfl | rfl) | rfl) | rfl <;> exact absurd h (by decide)

theorem Word.not_isLayout (h : Word text) : ∀ c ∈ text, isLayout c = false := by
  obtain ⟨c, cs, rfl, hc, hcs⟩ := h
  have hall : ∀ d ∈ c :: cs, isAlphaNumeric d :=
    List.forall_mem_cons.mpr ⟨by simp [isAlphaNumeric, hc], List.all_eq_true.mp hcs⟩
  exact fun d hd => isLayout_of_isAlphaNumeric (hall d hd)

/-- A token stays as it is if a blank, or nothing, comes after it. -/
theorem Munch.before_blank {k : Kind} {v : Value} (h : Munch text rest (.token k v))
    (hr : rest' = [] ∨ StartsBlank rest') : Munch text rest' (.token k v) := by
  have hhead {c : Char} (hc : isLayout c = false) : rest'.head? ≠ some c := by
    rcases hr with rfl | hr
    · exact nofun
    · exact hr.head?_ne hc
  cases h with
  | string h => exact .string h
  | number h hx => exact .number (longest_of_blank h.1 (fun _ => Numeral.not_isLayout) hr) hx
  | word h => exact .word (longest_of_blank h.1 (fun _ => Word.not_isLayout) hr)
  | punctuation h => exact .punctuation h
  | long h => exact .long h
  | short h _ => exact .short h (hhead (by decide))
  | slash _ _ => exact .slash (hhead (by decide)) (hhead (by decide))

end

/-- The token that a lexeme is, as if on line 0. -/
def Lexeme.token? : Lexeme → Option Token
  | ⟨text, .token k v⟩ => some ⟨k, String.ofList text, v, 0⟩
  | _ => none

def Faultless (ls : List Lexeme) : Prop := ∀ l ∈ ls, ∀ e, l.sense ≠ .fault e

/-- A gap gives nothing. -/
theorem Gap.lexes {w cs : List Char} (h : Gap w) {ls : List Lexeme} (hl : Lexes cs ls) :
    ∃ ms, Lexes (w ++ cs) (ms ++ ls) ∧ ∀ m ∈ ms, m.sense = .nothing := by
  induction h with
  | nil => exact ⟨[], hl, List.forall_mem_nil _⟩
  | @blank c w hc _ ih =>
    obtain ⟨ms, hm, hn⟩ := ih
    exact ⟨⟨[c], .nothing⟩ :: ms, .cons (.layout hc) hm, List.forall_mem_cons.mpr ⟨rfl, hn⟩⟩
  | @lineComment body w hb _ ih =>
    obtain ⟨ms, hm, hn⟩ := ih
    refine ⟨⟨'/' :: '/' :: body, .nothing⟩ :: ⟨['\n'], .nothing⟩ :: ms, ?_, ?_⟩
    · have hcomment : Munch ('/' :: '/' :: body) ('\n' :: (w ++ cs)) .nothing :=
        .lineComment hb (.inr rfl)
      have hall := Lexes.cons hcomment (.cons (.layout rfl) hm)
      simpa using hall
    · exact List.forall_mem_cons.mpr ⟨rfl, List.forall_mem_cons.mpr ⟨rfl, hn⟩⟩
  | @blockComment body w hb _ ih =>
    obtain ⟨ms, hm, hn⟩ := ih
    refine ⟨⟨'/' :: '*' :: (body ++ ['*', '/']), .nothing⟩ :: ms, ?_, ?_⟩
    · have hall := Lexes.cons (.blockComment hb) hm
      simpa using hall
    · exact List.forall_mem_cons.mpr ⟨rfl, hn⟩

theorem filterMap_token?_of_nothing {ms : List Lexeme} (h : ∀ m ∈ ms, m.sense = .nothing) :
    ms.filterMap Lexeme.token? = [] := by
  rw [List.filterMap_eq_nil_iff]
  rintro ⟨text, sense⟩ hm
  obtain rfl : sense = .nothing := h _ hm
  rfl

theorem faultless_of_nothing {ms : List Lexeme} (h : ∀ m ∈ ms, m.sense = .nothing) :
    Faultless ms := by
  intro m hm e he
  rw [h m hm] at he
  cases he

/-- The token, on line 0, is a lexeme wherever its text stands before a blank or at the end. -/
def Token.Munches (t : Token) : Prop :=
  t.line = 0 ∧ ∃ rest, Munch t.lexeme.toList rest (.token t.kind t.literal)

theorem Token.Munches.cons {t : Token} (h : t.Munches) {cs : List Char} {ls : List Lexeme}
    (hr : cs = [] ∨ StartsBlank cs) (hl : Lexes cs ls) :
    ∃ l : Lexeme, Lexes (t.lexeme.toList ++ cs) (l :: ls) ∧ (∀ e, l.sense ≠ .fault e) ∧
      l.token? = some t := by
  obtain ⟨kind, lexeme, literal, line⟩ := t
  obtain ⟨rfl, rest, hm⟩ := h
  refine ⟨⟨lexeme.toList, .token kind literal⟩, .cons (hm.before_blank hr) hl, nofun, ?_⟩
  rw [Lexeme.token?, String.ofList_toList]

/-- Tokens that are spread out are read as they are. -/
theorem Spread.lexes {ts : List Token} {cs : List Char}
    (h : Spread (ts.map fun t => t.lexeme.toList) cs) (ht : ∀ t ∈ ts, t.Munches) :
    ∃ ms, Lexes cs ms ∧ Faultless ms ∧ ms.filterMap Lexeme.token? = ts := by
  generalize hts : (ts.map fun t => t.lexeme.toList) = texts at h
  induction h generalizing ts with
  | nil =>
    obtain rfl := List.map_eq_nil_iff.mp hts
    exact ⟨[], .nil, List.forall_mem_nil _, rfl⟩
  | last =>
    obtain ⟨t, rfl, rfl⟩ := List.map_eq_singleton_iff.mp hts
    obtain ⟨l, hl, hn, hlt⟩ := (ht t (.head _)).cons (.inl rfl) .nil
    rw [List.append_nil] at hl
    refine ⟨[l], hl, List.forall_mem_cons.mpr ⟨hn, List.forall_mem_nil _⟩, ?_⟩
    rw [List.filterMap_cons_some hlt]
    rfl
  | cons hg hw _ ih =>
    obtain ⟨t, ts, rfl, rfl, rfl⟩ := List.map_eq_cons_iff.mp hts
    obtain ⟨ht, hall⟩ := List.forall_mem_cons.mp ht
    obtain ⟨ms, hms, hsound, htokens⟩ := ih hall rfl
    obtain ⟨gs, hgs, hnothing⟩ := hg.lexes hms
    obtain ⟨l, hl, hn, hlt⟩ := ht.cons (.inr (hw.append _)) hgs
    refine ⟨l :: (gs ++ ms), hl, List.forall_mem_cons.mpr ⟨hn, ?_⟩, ?_⟩
    · exact List.forall_mem_append.mpr ⟨faultless_of_nothing hnothing, hsound⟩
    · rw [List.filterMap_cons_some hlt, List.filterMap_append,
        filterMap_token?_of_nothing hnothing, List.nil_append, htokens]

/-- No token has a line of its own. -/
def Token.nowhere : Token → Int := fun _ => 0

theorem Lexes.munches {cs : List Char} {ls : List Lexeme} (h : Lexes cs ls) :
    ∀ t ∈ ls.filterMap Lexeme.token?, t.Munches := by
  induction h with
  | nil => exact List.forall_mem_nil _
  | @cons text rest sense ls hm _ ih =>
    cases sense with
    | nothing | fault => exact ih
    | token k v =>
      refine List.forall_mem_cons.mpr ⟨⟨rfl, rest, ?_⟩, ih⟩
      rwa [String.toList_ofList]

theorem tokens_findings (line : Int) (ls : List Lexeme) :
    ((findings line ls).filterMap Scanned.token?).map (Token.reline Token.nowhere) =
      ls.filterMap Lexeme.token? := by
  induction ls generalizing line with
  | nil => rfl
  | cons l ls ih =>
    obtain ⟨text, sense⟩ := l
    rw [findings, List.filterMap_append, List.map_append, ih]
    cases sense <;> rfl

theorem faults_findings {ls : List Lexeme} (h : Faultless ls) (line : Int) :
    (findings line ls).filterMap Scanned.fault? = [] := by
  induction ls generalizing line with
  | nil => rfl
  | cons l ls ih =>
    obtain ⟨hl, hls⟩ := List.forall_mem_cons.mp h
    obtain ⟨text, sense⟩ := l
    rw [findings, List.filterMap_append, ih hls, List.append_nil]
    cases sense with
    | nothing | token => rfl
    | fault e => exact absurd rfl (hl e)

def tokenTexts (source : String) : List (List Char) :=
  (scan source).tokens.dropLast.map fun t => t.lexeme.toList

/-- The second source has the tokens of the first, in another layout. -/
structure Relaid (a b : String) : Prop where
  faults : (scan a).faults = []
  spread : ∃ w cs, b.toList = w ++ cs ∧ Gap w ∧ Spread (tokenTexts a) cs

/-- The layout changes nothing of the tokens but their lines. -/
theorem Relaid.scan_eq {a b : String} (h : Relaid a b) : (scan b).faults = [] ∧
    (scan b).tokens.map (Token.reline Token.nowhere) =
      (scan a).tokens.map (Token.reline Token.nowhere) := by
  obtain ⟨w, cs, hb, hw, hs⟩ := h.spread
  obtain ⟨ls, hl⟩ := exists_lexes a.toList
  have htexts : tokenTexts a =
      (ls.filterMap Lexeme.token?).map fun t => t.lexeme.toList := by
    rw [tokenTexts, scan_of_lexes hl, ← tokens_findings 1 ls, List.dropLast_concat, List.map_map]
    rfl
  rw [htexts] at hs
  obtain ⟨ms, hm, hsound, htokens⟩ := hs.lexes hl.munches
  obtain ⟨gs, hg, hnothing⟩ := hw.lexes hm
  rw [← hb] at hg
  have hgtokens : (gs ++ ms).filterMap Lexeme.token? = ls.filterMap Lexeme.token? := by
    rw [List.filterMap_append, filterMap_token?_of_nothing hnothing, List.nil_append, htokens]
  rw [scan_of_lexes hg, scan_of_lexes hl]
  constructor
  · exact faults_findings (List.forall_mem_append.mpr ⟨faultless_of_nothing hnothing, hsound⟩) 1
  · simp only [List.map_append, tokens_findings, hgtokens]
    rfl

end Lox
