import Lox.Proofs.Grammar.Relining
import Lox.Proofs.Scanning.Lexing

/-! # Sources one below the other

If every string and every block comment of a source has an end, a newline ends its last piece. So
the scan of two sources that are joined by a newline gives what the scans of both give, that of the
second on later lines.
-/

namespace Lox

theorem toList_append_newline (a b : String) :
    (a ++ "\n" ++ b).toList = a.toList ++ '\n' :: b.toList := by
  simp

/-- The line of a token if there are `k` more lines above it. -/
def Token.lineBelow (k : Int) (t : Token) : Int := t.line + k

/-- There is no end to the piece, so it would take what follows. -/
def LexicalError.isUnterminated : LexicalError → Bool
  | .unexpectedCharacter => false
  | .unterminatedString | .unterminatedComment => true

/-- The sense of a piece that ends before the source does, if more is put after the source. -/
def Sense.Ends (sense : Sense) : Prop := ∀ e, sense = .fault e → e.isUnterminated = false

section

variable {P : List Char → Prop} {text rest more : List Char}

/-- A match without newlines does not get longer by what follows a newline. -/
theorem Longest.append_newline (h : Longest P text rest) (hP : ∀ cs, P cs → '\n' ∉ cs) :
    Longest P text (rest ++ '\n' :: more) := by
  refine ⟨h.1, fun cs hcs hp => ?_⟩
  have hn : '\n' ∉ cs := fun hn => hP _ hp (List.mem_append_right text hn)
  obtain hc | ⟨ds, rfl⟩ := List.prefix_or_prefix_of_prefix hcs (List.prefix_append rest _)
  · exact h.2 cs hc hp
  · cases ds with
    | nil => exact h.2 _ (by simp) hp
    | cons d ds =>
      obtain ⟨rfl, _⟩ := List.cons_prefix_cons.mp ((List.prefix_append_right_inj rest).mp hcs)
      exact absurd (by simp) hn

theorem newline_not_mem_word (h : Word text) : '\n' ∉ text := by
  obtain ⟨c, cs, rfl, hc, hcs⟩ := h
  exact Scanner.newline_not_mem (by simp [isAlphaNumeric, hc, hcs])

theorem head?_append_newline {c : Char} (h : rest.head? ≠ some c) (hc : c ≠ '\n') :
    (rest ++ '\n' :: more).head? ≠ some c := by
  cases rest with
  | nil => simpa using hc.symm
  | cons d ds => exact h

/-- A first piece that has an end stays as it is if a newline and more text come after the rest. -/
theorem Munch.append_newline {sense : Sense} (h : Munch text rest sense) (hs : sense.Ends)
    (more : List Char) : Munch text (rest ++ '\n' :: more) sense := by
  cases h with
  | layout h => exact .layout h
  | lineComment hb hr =>
    refine .lineComment hb (.inr ?_)
    rcases hr with rfl | hr
    · rfl
    · rw [List.head?_append, hr]
      rfl
  | blockComment h => exact .blockComment h
  | openComment _ | openString _ => cases hs _ rfl
  | other hl hd hq hn ha hp ho => exact .other hl hd hq hn ha hp ho
  | string h => exact .string h
  | number h hx => exact .number (h.append_newline fun _ => newline_not_mem_numeral) hx
  | word h => exact .word (h.append_newline fun _ => newline_not_mem_word)
  | punctuation h => exact .punctuation h
  | long h => exact .long h
  | short h hr => exact .short h (head?_append_newline hr (by decide))
  | slash hr hr' =>
    exact .slash (head?_append_newline hr (by decide)) (head?_append_newline hr' (by decide))

end

theorem Lexes.append_newline {cs ds : List Char} {ls ms : List Lexeme} (h : Lexes cs ls)
    (hs : ∀ l ∈ ls, l.sense.Ends) (hd : Lexes ds ms) :
    Lexes (cs ++ '\n' :: ds) (ls ++ ⟨['\n'], .nothing⟩ :: ms) := by
  induction h with
  | nil => exact .cons (.layout rfl) hd
  | cons hm _ ih =>
    obtain ⟨hl, hs⟩ := List.forall_mem_cons.mp hs
    rw [List.append_assoc, List.cons_append]
    exact .cons (hm.append_newline hl ds) (ih hs)

theorem findings_append (line : Int) (ls ms : List Lexeme) :
    findings line (ls ++ ms) = findings line ls ++
      findings (line + (ls.map Lexeme.text).flatten.count '\n') ms := by
  induction ls generalizing line with
  | nil => simp [findings]
  | cons l ls ih =>
    obtain ⟨text, sense⟩ := l
    rw [List.cons_append, findings, findings, ih, List.append_assoc]
    simp only [List.map_cons, List.flatten_cons, List.count_append, Int.natCast_add,
      Int.add_assoc]

theorem findings_cons_newline (line : Int) (ms : List Lexeme) :
    findings line (⟨['\n'], .nothing⟩ :: ms) = findings (line + 1) ms := by
  simp [findings, Sense.scanned]

def Scanned.lineBelow (k : Int) : Scanned → Scanned
  | token t => token (t.reline (Token.lineBelow k))
  | fault line e => fault (line + k) e
  | malformed text => malformed text

theorem findings_add (line k : Int) (ls : List Lexeme) :
    findings (line + k) ls = (findings line ls).map (Scanned.lineBelow k) := by
  induction ls generalizing line with
  | nil => rfl
  | cons l ls ih =>
    obtain ⟨text, sense⟩ := l
    have hl : line + k + (text.count '\n' : Int) = line + text.count '\n' + k := by omega
    rw [findings, findings, hl, ih, List.map_append]
    cases sense <;> rfl

theorem tokens_lineBelow (k : Int) (found : List Scanned) :
    (found.map (Scanned.lineBelow k)).filterMap Scanned.token? =
      (found.filterMap Scanned.token?).map (Token.reline (Token.lineBelow k)) := by
  rw [List.filterMap_map, List.map_filterMap]
  congr 1
  funext x
  cases x <;> rfl

theorem faults_lineBelow (k : Int) (found : List Scanned) :
    (found.map (Scanned.lineBelow k)).filterMap Scanned.fault? =
      (found.filterMap Scanned.fault?).map fun f => (f.1 + k, f.2) := by
  rw [List.filterMap_map, List.map_filterMap]
  congr 1
  funext x
  cases x <;> rfl

theorem ends_of_faults (line : Int) {ls : List Lexeme}
    (h : ∀ f ∈ (findings line ls).filterMap Scanned.fault?, f.2.isUnterminated = false) :
    ∀ l ∈ ls, l.sense.Ends := by
  induction ls generalizing line with
  | nil => exact List.forall_mem_nil _
  | cons l ls ih =>
    obtain ⟨text, sense⟩ := l
    rw [findings, List.filterMap_append, List.forall_mem_append] at h
    obtain ⟨hl, hls⟩ := h
    rw [List.forall_mem_cons]
    constructor
    · rintro e rfl
      exact hl (_, e) (.head _)
    · exact ih _ hls

/-- The second source starts on line 2 if the first has one line. -/
theorem findings_append_newline {cs : List Char} {ls : List Lexeme} (h : Lexes cs ls)
    (ms : List Lexeme) : findings 1 (ls ++ ⟨['\n'], .nothing⟩ :: ms) =
      findings 1 ls ++ (findings 1 ms).map (Scanned.lineBelow (1 + cs.count '\n')) := by
  rw [findings_append, h.flatten_eq, findings_cons_newline, Int.add_assoc,
    Int.add_comm (cs.count '\n' : Int), findings_add]

theorem count_append_newline (cs ds : List Char) : (1 + ((cs ++ '\n' :: ds).count '\n' : Int)) =
    1 + ds.count '\n' + (1 + cs.count '\n') := by
  rw [List.count_append, List.count_cons_self]
  omega

theorem Lexes.scan_append_newline {a : String} {ls : List Lexeme} (h : Lexes a.toList ls)
    (hs : ∀ l ∈ ls, l.sense.Ends) (b : String) :
    scan (a ++ "\n" ++ b) =
      { tokens := (findings 1 ls).filterMap Scanned.token? ++
          (scan b).tokens.map (Token.reline (Token.lineBelow (1 + a.toList.count '\n')))
        faults := (findings 1 ls).filterMap Scanned.fault? ++
          (scan b).faults.map fun f => (f.1 + (1 + (a.toList.count '\n' : Int)), f.2)
        line := (scan b).line + (1 + a.toList.count '\n') } := by
  obtain ⟨ms, hm⟩ := exists_lexes b.toList
  have hlm : Lexes (a ++ "\n" ++ b).toList (ls ++ ⟨['\n'], .nothing⟩ :: ms) := by
    rw [toList_append_newline]
    exact h.append_newline hs hm
  rw [scan_of_lexes hlm, scan_of_lexes hm, findings_append_newline h, toList_append_newline,
    count_append_newline]
  simp only [List.filterMap_append, tokens_lineBelow, faults_lineBelow, List.map_append,
    List.append_assoc]
  rfl

/-- The scan of two sources, the first of them without faults, gives the tokens of both. -/
theorem scan_append_newline {a b : String} {ts : List Token} {e : Token}
    (h : (scan a).faults = []) (ht : (scan a).tokens = ts ++ [e]) :
    (scan (a ++ "\n" ++ b)).tokens = ts ++ (scan b).tokens.map
        (Token.reline (Token.lineBelow (1 + a.toList.count '\n'))) ∧
      (scan (a ++ "\n" ++ b)).faults = (scan b).faults.map
        fun f => (f.1 + (1 + (a.toList.count '\n' : Int)), f.2) := by
  obtain ⟨ls, hl⟩ := exists_lexes a.toList
  rw [scan_of_lexes hl] at h ht
  replace h : (findings 1 ls).filterMap Scanned.fault? = [] := h
  obtain ⟨rfl, -⟩ := List.append_inj' ht rfl
  have hs : ∀ l ∈ ls, l.sense.Ends := by
    apply ends_of_faults 1
    rw [h]
    exact List.forall_mem_nil _
  rw [hl.scan_append_newline hs b, h, List.nil_append]
  exact ⟨rfl, rfl⟩

/-- Two sources that are joined by a newline are scanned as each of them alone, the second on later
lines, unless a string or a comment of the first has no end. -/
theorem scan_joined {a : String} (b : String)
    (h : ∀ f ∈ (scan a).faults, f.2 ≠ .unterminatedString ∧ f.2 ≠ .unterminatedComment) :
    scan (a ++ "\n" ++ b) =
      { tokens := (scan a).tokens.dropLast ++
          (scan b).tokens.map (Token.reline (Token.lineBelow (1 + a.toList.count '\n')))
        faults := (scan a).faults ++
          (scan b).faults.map fun f => (f.1 + (1 + (a.toList.count '\n' : Int)), f.2)
        line := (scan b).line + (1 + a.toList.count '\n') } := by
  obtain ⟨ls, hl⟩ := exists_lexes a.toList
  rw [scan_of_lexes hl] at h ⊢
  have hs : ∀ l ∈ ls, l.sense.Ends := by
    apply ends_of_faults 1
    rintro ⟨line, e⟩ hf
    obtain ⟨hstring, hcomment⟩ := h _ hf
    cases e with
    | unexpectedCharacter => rfl
    | unterminatedString => exact absurd rfl hstring
    | unterminatedComment => exact absurd rfl hcomment
  rw [hl.scan_append_newline hs b, List.dropLast_concat]

/-- The two signs are not read as one, and what is wrong with both sources is told. -/
theorem scan_joined_signs :
    (∀ f ∈ (scan "@ x =").faults, f.2 ≠ .unterminatedString ∧ f.2 ≠ .unterminatedComment) ∧
      scan ("@ x =" ++ "\n" ++ "= \"y") =
        { tokens := [⟨.identifier, "x", .nil, 1⟩, ⟨.equal, "=", .nil, 1⟩, ⟨.equal, "=", .nil, 2⟩,
            Token.eof 2]
          faults := [(1, .unexpectedCharacter), (2, .unterminatedString)]
          line := 2 } := by
  have h : ∀ f ∈ (scan "@ x =").faults, f.2 ≠ .unterminatedString ∧ f.2 ≠ .unterminatedComment := by
    decide +kernel
  refine ⟨h, ?_⟩
  rw [scan_joined _ h, Scan.mk.injEq]
  decide +kernel

end Lox
