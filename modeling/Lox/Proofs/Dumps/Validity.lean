import Lox.Proofs.Dumps.Programs

/-! # Dumps that are JSON texts

The numbers in a dump are those of the literals in the program. So the dump is a JSON text as long
as no numeral of the program is past the doubles: such a numeral is read as infinity, and infinity
is written as a word that JSON does not have.
-/

namespace Lox

mutual

def Outline.numbers : Outline → List Number
  | .literal (.number n) => [n]
  | .list items => Outline.numbersIn items
  | .node _ parts => Outline.numbersIn parts
  | _ => []

def Outline.numbersIn : List Outline → List Number
  | [] => []
  | o :: os => o.numbers ++ Outline.numbersIn os

end

def Program.numbers (p : Program) : List Number := Outline.numbersIn (Stmt.outlines p)

theorem Json.memberNumbers_zip {keys : List String} {js : List Json}
    (h : js.length = keys.length) : memberNumbers (keys.zip js) = itemNumbers js := by
  induction js generalizing keys with
  | nil => rw [List.zip_nil_right]; rfl
  | cons j js ih =>
    cases keys with
    | nil => cases h
    | cons key keys =>
      rw [List.zip_cons_cons, memberNumbers, ih (Nat.succ.inj h), itemNumbers]

theorem Outline.length_jsons (os : List Outline) : (jsons os).length = os.length := by
  induction os with
  | nil => rfl
  | cons o os ih => rw [jsons, List.length_cons, ih, List.length_cons]

mutual

/-- The numbers in the document for a tree are those in the tree. -/
theorem Outline.Proper.numbers_json : {o : Outline} → o.Proper → o.json.numbers = o.numbers
  | .list _, h => by
    rw [Outline.Proper] at h
    rw [json, Json.numbers, Outline.AllProper.numbers_jsons h, Outline.numbers]
  | .node kind parts, h => by
    rw [Outline.Proper] at h
    obtain ⟨-, hlength, hparts⟩ := h
    have hzip := Json.memberNumbers_zip ((Outline.length_jsons parts).trans hlength)
    rw [json, Json.numbers, Json.memberNumbers, hzip, Outline.AllProper.numbers_jsons hparts,
      Outline.numbers]
    rfl
  | .literal v, _ => by cases v <;> rfl
  | .failed, _ | .absent, _ | .token _, _ => rfl

theorem Outline.AllProper.numbers_jsons : {os : List Outline} → Outline.AllProper os →
    Json.itemNumbers (Outline.jsons os) = Outline.numbersIn os
  | [], _ => rfl
  | _ :: _, h => by
    rw [Outline.AllProper] at h
    rw [Outline.jsons, Json.itemNumbers, Outline.Proper.numbers_json h.1,
      Outline.AllProper.numbers_jsons h.2, Outline.numbersIn]

end

/-- The dump of what is read of a source is a JSON text if and only if no number in the program is
infinite. -/
theorem Reading.isText_dump_iff (source : String) (nesting : Nat) :
    Json.IsText (Reading.ofSource source nesting).program.dump.toList ↔
      ∀ n ∈ (Reading.ofSource source nesting).program.numbers, n.isFinite := by
  have hproper := Stmt.allProper_outlines fun s hs =>
    (Reading.slots source nesting s hs).proper_outline
  have hnumbers : (Program.json (Reading.ofSource source nesting).program).numbers =
      (Reading.ofSource source nesting).program.numbers :=
    (List.append_nil _).trans hproper.numbers_jsons
  rw [Program.dump, Json.isText_text_iff, hnumbers]

theorem Reading.program_numeral {text : List Char} {x : Float} (h : Numeral text)
    (hx : Number.readFloat? text = some x) :
    (Reading.ofSource (String.ofList (text ++ [';']))).program =
      [.expression (.literal (.double x))] := by
  have hlongest : Longest Numeral text [';'] := by
    refine ⟨h, fun more hmore hnumeral => ?_⟩
    rcases List.prefix_cons_iff.mp hmore with rfl | ⟨rest, rfl, -⟩
    · rfl
    · exact absurd (hnumeral.digit_or_point ';' (by simp)) (by decide)
  have hlexes : Lexes (String.ofList (text ++ [';'])).toList
      [⟨text, .token .number (.double x)⟩, ⟨[';'], .token .semicolon .nil⟩] := by
    have hsemicolon : Munch [';'] [] (.token .semicolon .nil) := .punctuation rfl
    rw [String.toList_ofList]
    exact .cons (.number hlongest hx) (.cons hsemicolon .nil)
  have hprogram (t u : Token) (line : Int) (ht : t.kind = .number) (hu : u.kind = .semicolon) :
      (parse [t, u, .eof line]).result = .ok [.expression (.literal t.literal)] := by
    obtain ⟨_, _, _, _⟩ := t
    obtain ⟨_, _, _, _⟩ := u
    cases ht
    cases hu
    rfl
  rw [Reading.program, Reading.ofSource, scan_of_lexes hlexes]
  show (parse [_, _, .eof _]).result.toOption.getD [] = _
  rw [hprogram _ _ _ rfl rfl]
  rfl

/-- One followed by 309 zeros is read as infinity, so the dump of it is no JSON text. -/
theorem Reading.not_isText_dump_overflow :
    ¬Json.IsText (Reading.ofSource
      (String.ofList ('1' :: List.replicate 309 '0' ++ [';']))).program.dump.toList := by
  have hnumeral : Numeral ('1' :: List.replicate 309 '0') :=
    ⟨_, List.cons_ne_nil _ _, by decide +kernel, .inl rfl⟩
  have hread : Number.readFloat? ('1' :: List.replicate 309 '0') =
      some (Double.ofMagnitude false Double.infinite) := by decide +kernel
  rw [Reading.program_numeral hnumeral hread, Program.dump, Json.isText_text_iff]
  intro h
  have := h (.double (Double.ofMagnitude false Double.infinite)) (List.mem_singleton_self _)
  revert this
  decide +kernel

end Lox
