import Lox.Proofs.Scanning.Lexing

/-! # Lines

The line of a token is one more than the number of newlines up to the end of its text. A character
that is not expected is reported on the line where it stands, and a string or a comment without an
end on the last line of the source.
-/

namespace Lox

/-- The line on which the first part of a source ends. -/
def lineAfter (part : List Char) : Int := 1 + part.count '\n'

theorem lineAfter_append (part more : List Char) :
    lineAfter (part ++ more) = lineAfter part + more.count '\n' := by
  rw [lineAfter, lineAfter, List.count_append, Int.natCast_add, Int.add_assoc]

theorem one_le_lineAfter (part : List Char) : 1 ≤ lineAfter part := by
  rw [lineAfter]
  omega

/-- A lexeme and the part of the source before it. -/
structure Placed where
  before : List Char
  lexeme : Lexeme

/-- The lexemes at their places; `before` is what comes before all of them. -/
def placed (before : List Char) : List Lexeme → List Placed
  | [] => []
  | l :: ls => ⟨before, l⟩ :: placed (before ++ l.text) ls

namespace Placed

/-- The part of the source up to the end of the lexeme. -/
def upToEnd (p : Placed) : List Char := p.before ++ p.lexeme.text

/-- The token that the lexeme is, on the line where its text ends. -/
def token? (p : Placed) : Option Token :=
  match p.lexeme.sense with
  | .token kind literal => some ⟨kind, String.ofList p.lexeme.text, literal, lineAfter p.upToEnd⟩
  | _ => none

/-- What is wrong with the lexeme: on the line that is reached before it, or on the last of the
source if it has no end. -/
def fault? (source : List Char) (p : Placed) : Option (Int × LexicalError) :=
  match p.lexeme.sense with
  | .fault .unexpectedCharacter => some (lineAfter p.before, .unexpectedCharacter)
  | .fault e => some (lineAfter source, e)
  | _ => none

end Placed

theorem Lexes.upToEnd_prefix {cs : List Char} {ls : List Lexeme} (h : Lexes cs ls)
    (before : List Char) : ∀ p ∈ placed before ls, p.upToEnd <+: before ++ cs := by
  induction h generalizing before with
  | nil => exact List.forall_mem_nil _
  | @cons text rest sense ls _ _ ih =>
    rw [← List.append_assoc]
    exact List.forall_mem_cons.mpr ⟨List.prefix_append _ _, ih _⟩

theorem tokens_placed (before : List Char) (ls : List Lexeme) :
    (findings (lineAfter before) ls).filterMap Scanned.token? =
      (placed before ls).filterMap Placed.token? := by
  induction ls generalizing before with
  | nil => rfl
  | cons l ls ih =>
    obtain ⟨text, sense⟩ := l
    rw [findings, ← lineAfter_append, List.filterMap_append, ih, placed]
    cases sense <;> rfl

theorem Munch.line_fault {text rest : List Char} {e : LexicalError}
    (h : Munch text rest (.fault e)) (before : List Char) :
    Placed.fault? (before ++ (text ++ rest)) ⟨before, text, .fault e⟩ =
      some (lineAfter (before ++ text), e) := by
  cases h with
  | openComment _ => rw [List.append_nil]; rfl
  | openString _ => rw [List.append_nil]; rfl
  | @other c _ hl =>
    have hc : '\n' ∉ [c] := by
      rw [List.mem_singleton]
      rintro rfl
      cases hl
    rw [lineAfter_append, List.count_eq_zero_of_not_mem hc, Int.natCast_zero, Int.add_zero]
    rfl

theorem Lexes.faults_placed {cs : List Char} {ls : List Lexeme} (h : Lexes cs ls)
    (before : List Char) : (findings (lineAfter before) ls).filterMap Scanned.fault? =
      (placed before ls).filterMap (Placed.fault? (before ++ cs)) := by
  induction h generalizing before with
  | nil => rfl
  | @cons text rest sense ls hm _ ih =>
    rw [findings, ← lineAfter_append, List.filterMap_append, ih, placed, List.append_assoc]
    cases sense with
    | nothing => rfl
    | token k v => rfl
    | fault e =>
      rw [List.filterMap_cons_some (hm.line_fault before)]
      rfl

/-- What is found is told with this line. -/
def Scanned.OnLine (n : Int) : Scanned → Prop
  | token t => t.line = n
  | fault line _ => line = n
  | malformed _ => False

theorem Sense.onLine_scanned {sense : Sense} {text : List Char} {line n : Int} {x : Scanned}
    (hx : x ∈ sense.scanned text line) (hn : x.OnLine n) : n = line := by
  cases sense with
  | nothing => cases hx
  | token | fault =>
    cases hx
    exact hn.symm

/-- All lines lie between the first and the last. -/
theorem findings_bounds {line n : Int} {ls : List Lexeme} {x : Scanned}
    (hx : x ∈ findings line ls) (hn : x.OnLine n) :
    line ≤ n ∧ n ≤ line + (ls.map Lexeme.text).flatten.count '\n' := by
  induction ls generalizing line with
  | nil => cases hx
  | cons l ls ih =>
    obtain ⟨text, sense⟩ := l
    simp only [List.map_cons, List.flatten_cons, List.count_append]
    rw [findings] at hx
    rcases List.mem_append.mp hx with hx | hx
    · obtain rfl := Sense.onLine_scanned (Option.mem_toList.mp hx) hn
      omega
    · obtain ⟨hlow, hhigh⟩ := ih hx
      omega

/-- What is found later is not on an earlier line. -/
theorem findings_pairwise (line : Int) (ls : List Lexeme) :
    (findings line ls).Pairwise fun x y => ∀ m n, x.OnLine m → y.OnLine n → m ≤ n := by
  induction ls generalizing line with
  | nil => exact .nil
  | cons l ls ih =>
    obtain ⟨text, sense⟩ := l
    rw [findings, List.pairwise_append]
    refine ⟨?_, ih _, ?_⟩
    · cases sense.scanned text (line + text.count '\n') <;> simp
    · intro x hx y hy m n hm hn
      obtain rfl := Sense.onLine_scanned (Option.mem_toList.mp hx) hm
      exact (findings_bounds hy hn).1

theorem Scanned.onLine_of_token? {x : Scanned} {t : Token} (h : x.token? = some t) :
    x.OnLine t.line := by
  cases x <;> cases h
  rfl

theorem Scanned.onLine_of_fault? {x : Scanned} {f : Int × LexicalError} (h : x.fault? = some f) :
    x.OnLine f.1 := by
  cases x <;> cases h
  rfl

section

variable {cs : List Char} {ls : List Lexeme}

theorem Lexes.token_bounds (h : Lexes cs ls) {t : Token}
    (ht : t ∈ (findings 1 ls).filterMap Scanned.token?) : 1 ≤ t.line ∧ t.line ≤ lineAfter cs := by
  obtain ⟨x, hx, hxt⟩ := List.mem_filterMap.mp ht
  have hb := findings_bounds hx (Scanned.onLine_of_token? hxt)
  rwa [h.flatten_eq] at hb

theorem Lexes.fault_bounds (h : Lexes cs ls) {f : Int × LexicalError}
    (hf : f ∈ (findings 1 ls).filterMap Scanned.fault?) : 1 ≤ f.1 ∧ f.1 ≤ lineAfter cs := by
  obtain ⟨x, hx, hxf⟩ := List.mem_filterMap.mp hf
  have hb := findings_bounds hx (Scanned.onLine_of_fault? hxf)
  rwa [h.flatten_eq] at hb

theorem pairwise_line_tokens (line : Int) (ls : List Lexeme) :
    ((findings line ls).filterMap Scanned.token?).Pairwise (·.line ≤ ·.line) :=
  (findings_pairwise line ls).filterMap _ fun _ _ h _ ht _ hu =>
    h _ _ (Scanned.onLine_of_token? ht) (Scanned.onLine_of_token? hu)

theorem pairwise_line_faults (line : Int) (ls : List Lexeme) :
    ((findings line ls).filterMap Scanned.fault?).Pairwise (·.1 ≤ ·.1) :=
  (findings_pairwise line ls).filterMap _ fun _ _ h _ hf _ hg =>
    h _ _ (Scanned.onLine_of_fault? hf) (Scanned.onLine_of_fault? hg)

end

/-- The tokens and faults of a source are those of its lexemes, which can be cut in one way, each
with the line that the newlines before tell. So the first line is 1 at least, and lines never
decrease. -/
theorem scan_lines (source : String) : ∃ lexemes, Lexes source.toList lexemes ∧
    (∀ lexemes', Lexes source.toList lexemes' → lexemes' = lexemes) ∧
    (∀ p ∈ placed [] lexemes, p.upToEnd <+: source.toList) ∧
    (scan source).tokens = (placed [] lexemes).filterMap Placed.token? ++
      [Token.eof (lineAfter source.toList)] ∧
    (scan source).faults = (placed [] lexemes).filterMap (Placed.fault? source.toList) ∧
    (∀ t ∈ (scan source).tokens, 1 ≤ t.line) ∧
    (scan source).tokens.Pairwise (·.line ≤ ·.line) ∧
    (∀ f ∈ (scan source).faults, 1 ≤ f.1) ∧ (scan source).faults.Pairwise (·.1 ≤ ·.1) := by
  obtain ⟨ls, h⟩ := exists_lexes source.toList
  have hend : (Token.eof (lineAfter source.toList)).line = lineAfter source.toList := rfl
  refine ⟨ls, h, fun _ h' => h'.unique h, h.upToEnd_prefix [], ?_⟩
  rw [scan_of_lexes h]
  refine ⟨?_, h.faults_placed [], ?_, ?_, fun f hf => (h.fault_bounds hf).1,
    pairwise_line_faults 1 ls⟩
  · exact congrArg (· ++ _) (tokens_placed [] ls)
  · refine List.forall_mem_append.mpr ⟨fun t ht => (h.token_bounds ht).1, ?_⟩
    exact List.forall_mem_singleton.mpr (one_le_lineAfter source.toList)
  · refine List.pairwise_append.mpr ⟨pairwise_line_tokens 1 ls, List.pairwise_singleton _ _, ?_⟩
    intro t ht e he
    obtain rfl := List.mem_singleton.mp he
    exact (h.token_bounds ht).2

/-- A string is on the line of its closing quote. -/
example : (scan "a \"\n\" @ /*\n").tokens.map Token.line = [1, 2, 3] ∧
    (scan "a \"\n\" @ /*\n").faults = [(2, .unexpectedCharacter), (3, .unterminatedComment)] := by
  decide +kernel

end Lox
