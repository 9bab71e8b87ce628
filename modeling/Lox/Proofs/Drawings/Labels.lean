import Lox.Proofs.Drawings.Numbering
import Lox.Proofs.Drawings.Quoting
import Lox.Proofs.Dumps.Grammar
import Lox.Proofs.Numbers.Display
import Lox.Proofs.Printing.Words

/-! # Labels in drawings

All that is written into a drawing as the value of an attribute is balanced: titles, operators,
names and numbers have no backslashes, and the text between the quotes of a string has them in pairs
or before other characters than a double quote. So a label is told from the text of the drawing,
even if the string of a literal ends in backslashes.
-/

namespace Lox

open Drawing

theorem Text.balanced_escape {quote c : Char} (h : quote = '"' → c ≠ '"') :
    Balanced (escape quote c) := by
  have hhex (kind : Char) (width : Nat) (hkind : kind ≠ '"') :
      Balanced ('\\' :: kind :: hexDigits width c.toNat) := by
    have hdigits : '\\' ∉ hexDigits width c.toNat :=
      not_mem_of_all (Json.all_hexDigits width c.toNat) (by decide)
    exact (Balanced.escaped hkind).append (.of_not_mem hdigits)
  unfold escape
  split
  · next hc =>
    refine .escaped ?_
    rcases hc with rfl | rfl
    · intro hquote
      exact h hquote hquote
    · decide
  · next hc =>
    split
    · exact .escaped (by decide)
    split
    · exact .escaped (by decide)
    split
    · exact .escaped (by decide)
    split
    · exact .singleton (not_or.mp hc).2
    split
    · exact hhex 'x' 2 (by decide)
    split
    · exact hhex 'u' 4 (by decide)
    · exact hhex 'U' 8 (by decide)

/-- Double quotes stand around a string only if it has none, so none in it has a backslash. -/
theorem Text.balanced_quoted (s : String) : Balanced (quoted s).toList := by
  have hquote : quoteFor s.toList = '"' → '"' ∉ s.toList := by
    intro h
    rw [quoteFor] at h
    split at h
    · next hc => simpa using (Bool.and_eq_true_iff.mp hc).2
    · cases h
  have hne : quoteFor s.toList ≠ '\\' := by
    rw [quoteFor]
    split <;> decide
  have hbody : Balanced (s.toList.flatMap (escape (quoteFor s.toList))) :=
    .flatMap fun c hc => balanced_escape fun hq => ne_of_mem_of_not_mem hc (hquote hq)
  rw [quoted, String.toList_ofList]
  exact ((Balanced.singleton hne).append hbody).append (.singleton hne)

theorem Double.backslash_not_mem_text (layout : Layout) (x : Float) :
    '\\' ∉ (text layout x).toList := by
  rcases Nat.lt_trichotomy (magnitude x) infinite with hx | hx | hx
  · exact not_mem_of_all (all_isNumeric_text layout hx) (by decide)
  · rw [text, hx, if_neg (Nat.lt_irrefl _), if_pos rfl, String.toList_ofList]
    split <;> decide
  · rw [text, if_pos hx]
    decide

theorem Outline.balanced_literalDetail (v : Value) : Balanced (literalDetail v).toList := by
  cases v with
  | nil => exact .of_not_mem (by decide)
  | bool b => cases b <;> exact .of_not_mem (by decide)
  | string s => exact Text.balanced_quoted s
  | number n =>
    simp only [literalDetail, Value.display]
    cases n.toDouble with
    | error => exact .nil
    | ok x =>
      have hx := Double.backslash_not_mem_text .plain x
      rw [← Double.display_eq] at hx
      exact .of_not_mem hx

theorem NodeKind.isPlain_title (kind : NodeKind) : IsPlain kind.title := by
  cases kind <;> decide

section

variable {source : String}

theorem Token.backslash_not_mem_lexeme {t : Token} (h : t ∈ (scan source).tokens)
    (hk : t.kind ∉ [.eof, .string]) : '\\' ∉ t.lexeme.toList := by
  simp only [List.mem_cons, List.not_mem_nil, or_false, not_or] at hk
  obtain ⟨-, rest, hm⟩ := munches_of_mem_scan h hk.1
  have hword (c : Char) (hc : isAlphaNumeric c) : (c != '\\') = true := by
    rw [bne_iff_ne]
    rintro rfl
    exact absurd hc (by decide)
  have hall := hm.all_of_symbols hk.2 hword (by decide) fun _ => by decide
  exact not_mem_of_all hall (by decide)

namespace Outline

theorem AllOver.balanced_headLexeme {parts : List Outline}
    (h : AllOver (Lox.scan source).tokens parts) : Balanced (headLexeme parts).toList := by
  fun_induction headLexeme parts with
  | case1 t parts =>
    rw [AllOver, Over] at h
    exact .of_not_mem (Token.backslash_not_mem_lexeme h.1.1 h.1.2)
  | case2 part parts hpart ih =>
    rw [AllOver] at h
    exact ih h.2
  | case3 => exact .nil

theorem AllOver.balanced_detail {kind : NodeKind} {parts : List Outline}
    (h : AllOver (Lox.scan source).tokens parts) : Balanced (detail kind parts).toList := by
  have hlexeme := h.balanced_headLexeme
  unfold detail
  split
  · exact balanced_literalDetail _
  all_goals first | exact hlexeme | exact .nil

theorem AllOver.writable_label {kind : NodeKind} {parts : List Outline}
    (h : AllOver (Lox.scan source).tokens parts) : Writable (label kind parts) := by
  have htitle := kind.isPlain_title
  simp only [label]
  split
  · exact htitle.writable
  · have hbreak : Balanced "\\n".toList := .escaped (by decide)
    rw [String.append_assoc]
    apply writable_append htitle
    rw [String.toList_append]
    exact hbreak.append h.balanced_detail

end Outline

end

theorem NodeKind.isPlain_of_mem_fields (kind : NodeKind) : ∀ name ∈ kind.fields, IsPlain name := by
  cases kind <;> decide

theorem backslash_not_mem_toDigits (n : Nat) : '\\' ∉ Nat.toDigits 10 n :=
  not_mem_of_all (Decimal.all_toDigits n) (by decide)

theorem isPlain_toString (n : Nat) : IsPlain (toString n) := by
  have htext : (toString n).toList = Nat.toDigits 10 n := String.toList_ofList
  rw [IsPlain, htext]
  refine ⟨backslash_not_mem_toDigits n, ?_⟩
  obtain ⟨c, cs, hcs⟩ := List.exists_cons_of_ne_nil (Nat.toDigits_ne_nil (b := 10) (n := n))
  have hdigit : c.isDigit := List.all_eq_true.mp (Decimal.all_toDigits n) c (by simp [hcs])
  rw [hcs, List.head?_cons, Option.any_some, bne_iff_ne]
  rintro rfl
  exact absurd hdigit (by decide)

namespace Outline

theorem mem_indexed_label {name : Nat → String} {i : Nat} {items : List Outline}
    {c : String × Outline} (h : c ∈ indexed name i items) : ∃ j, c.1 = name j := by
  obtain ⟨x, -, rfl⟩ := List.mem_map.mp h
  exact ⟨x.2, rfl⟩

theorem writable_of_mem_children {o : Outline} {c : String × Outline} (h : c ∈ o.children) :
    Writable c.1 := by
  cases o with
  | list items =>
    obtain ⟨j, hj⟩ := mem_indexed_label h
    rw [hj]
    exact (isPlain_toString j).writable
  | node kind parts =>
    obtain ⟨⟨name, part⟩, hpart, hc⟩ := List.mem_flatMap.mp h
    have hname := kind.isPlain_of_mem_fields name (List.of_mem_zip hpart).1
    cases part with
    | list items =>
      rw [hanging] at hc
      obtain ⟨j, hj⟩ := mem_indexed_label hc
      rw [hj, String.append_assoc, String.append_assoc]
      apply writable_append hname
      apply Balanced.of_not_mem
      simp [backslash_not_mem_toDigits j]
    | node kind' parts' =>
      obtain rfl := List.mem_singleton.mp hc
      exact hname.writable
    | _ => cases hc
  | _ => cases h

end Outline

/-- A line of a drawing: what it is about, and the attributes with their values. -/
structure Drawing.Line where
  subject : String
  attributes : List (String × String)

def Drawing.Line.text (quote : String → String) (line : Line) : String :=
  "\t" ++ line.subject ++ " ["
    ++ String.intercalate " " (line.attributes.map fun a => a.1 ++ "=" ++ quote a.2) ++ "]\n"

def Mark.line : Mark → Line
  | vertex id label shape => ⟨"n" ++ toString id, [("label", label), ("shape", shape.name)]⟩
  | flaw id =>
    ⟨"n" ++ toString id,
      [("label", "parse error"), ("color", "red"), ("shape", Shape.box.name)]⟩
  | edge source target label =>
    ⟨"n" ++ toString source ++ " -> n" ++ toString target, [("label", label)]⟩

theorem Mark.text_line (quote : String → String) (m : Mark) : m.line.text quote = m.text quote := by
  apply String.toList_injective
  cases m <;> simp [line, text, Line.text]

def Program.lines (p : Program) : List Line :=
  ⟨"graph", [("rankdir", "TB")]⟩ :: ⟨"node", [("fontsize", "10")]⟩ ::
    ⟨"edge", [("fontsize", "8")]⟩ :: p.marks.map Mark.line

/-- The opening line and the three lines that set what holds of the whole drawing. -/
theorem Drawing.opening_eq (quote : String → String) :
    "digraph \x7b\n\tgraph [rankdir=" ++ quote "TB" ++ "]\n\tnode [fontsize=" ++ quote "10"
        ++ "]\n\tedge [fontsize=" ++ quote "8" ++ "]\n" =
      "digraph \x7b\n" ++ Line.text quote ⟨"graph", [("rankdir", "TB")]⟩
        ++ Line.text quote ⟨"node", [("fontsize", "10")]⟩
        ++ Line.text quote ⟨"edge", [("fontsize", "8")]⟩ := by
  apply String.toList_injective
  simp [Line.text]

theorem Program.drawing_eq (p : Program) (quote : String → String) :
    p.drawing quote =
      "digraph \x7b\n" ++ String.join (p.lines.map (Line.text quote)) ++ "\x7d\n" := by
  have hmarks : Line.text quote ∘ Mark.line = Mark.text quote := funext (Mark.text_line quote)
  unfold drawing
  rw [Drawing.opening_eq, lines, List.map_cons, List.map_cons, List.map_cons, List.map_map,
    hmarks, String.join_cons, String.join_cons, String.join_cons]
  simp only [String.append_assoc]

def Outline.caption : Outline → String
  | list _ => "Program"
  | node kind parts => label kind parts
  | _ => "parse error"

theorem Outline.caption_mem_mark (o : Outline) (id : Nat) :
    (o.mark id).line.subject = "n" ++ toString id ∧
      ("label", o.caption) ∈ (o.mark id).line.attributes := by
  cases o <;> exact ⟨rfl, List.mem_cons_self⟩

def Drawing.Line.IsWritable (line : Line) : Prop := ∀ a ∈ line.attributes, Writable a.2

theorem Shape.writable_name (shape : Shape) : Writable shape.name := by
  cases shape <;> exact IsPlain.writable (by decide)

section

variable {source : String} {nesting : Nat}

theorem Outline.Over.writable_caption {o : Outline} (h : o.Over (Lox.scan source).tokens) :
    Writable o.caption := by
  have hprogram : Writable "Program" := IsPlain.writable (by decide)
  have herror : Writable "parse error" := IsPlain.writable (by decide)
  cases o with
  | list => exact hprogram
  | node kind parts =>
    rw [Over] at h
    exact h.writable_label
  | _ => exact herror

theorem Outline.Over.isWritable_mark {o : Outline} (h : o.Over (Lox.scan source).tokens)
    (id : Nat) : (o.mark id).line.IsWritable := by
  have hcaption := h.writable_caption
  have hred : Writable "red" := IsPlain.writable (by decide)
  cases o with
  | list =>
    exact List.forall_mem_cons.mpr
      ⟨hcaption, List.forall_mem_singleton.mpr (Shape.writable_name .doubleoctagon)⟩
  | node kind =>
    exact List.forall_mem_cons.mpr
      ⟨hcaption, List.forall_mem_singleton.mpr (Shape.writable_name (shape kind))⟩
  | _ =>
    exact List.forall_mem_cons.mpr ⟨hcaption, List.forall_mem_cons.mpr
      ⟨hred, List.forall_mem_singleton.mpr (Shape.writable_name .box)⟩⟩

theorem Outline.Hangs.isWritable {parent n next : Nat} {cs : List (String × Outline)}
    {marks : List Mark} (h : Hangs parent n cs marks next)
    (hcs : ∀ c ∈ cs, Writable c.1 ∧ c.2.Over (Lox.scan source).tokens) :
    ∀ m ∈ marks, m.line.IsWritable := by
  induction h with
  | nil => exact fun m hm => absurd hm List.not_mem_nil
  | cons hbelow hmore ihbelow ihmore =>
    obtain ⟨⟨hlabel, hchild⟩, hrest⟩ := List.forall_mem_cons.mp hcs
    rw [List.forall_mem_cons, List.forall_mem_append, List.forall_mem_cons]
    refine ⟨hchild.isWritable_mark _, ihbelow fun c hc => ?_, ?_, ihmore hrest⟩
    · exact ⟨writable_of_mem_children hc, hchild.of_mem_children hc⟩
    · exact List.forall_mem_singleton.mpr hlabel

theorem Reading.isWritable_of_mem_lines {line : Line}
    (h : line ∈ Program.lines (ofSource source nesting).program) : line.IsWritable := by
  obtain ⟨below, next, hmarks, hhangs⟩ := Program.exists_hangs (ofSource source nesting).program
  have hover := over_outline source nesting
  have hchildren : ∀ c ∈ (Program.outline (ofSource source nesting).program).children,
      Writable c.1 ∧ c.2.Over (Lox.scan source).tokens := fun c hc =>
    ⟨Outline.writable_of_mem_children hc, hover.of_mem_children hc⟩
  have hsetting {subject name value : String} (hvalue : Writable value) :
      Line.IsWritable ⟨subject, [(name, value)]⟩ := List.forall_mem_singleton.mpr hvalue
  rw [Program.lines, List.mem_cons, List.mem_cons, List.mem_cons] at h
  rcases h with rfl | rfl | rfl | h
  · exact hsetting (IsPlain.writable (by decide))
  · exact hsetting (IsPlain.writable (by decide))
  · exact hsetting (IsPlain.writable (by decide))
  · obtain ⟨m, hm, rfl⟩ := List.mem_map.mp h
    rw [hmarks] at hm
    rcases List.mem_cons.mp hm with rfl | hm
    · exact hover.isWritable_mark 1
    · exact hhangs.isWritable hchildren m hm

end

theorem Program.exists_line (p : Program) {o : Outline} {id : Nat}
    (h : (o, id) ∈ p.outline.preorder.zipIdx 1) : ∃ line ∈ p.lines,
      line.subject = "n" ++ toString id ∧ ("label", o.caption) ∈ line.attributes := by
  have hvertex : o.mark id ∈ vertices p.marks := by
    rw [p.drawn.vertices_eq]
    exact List.mem_map_of_mem h
  have hmark : o.mark id ∈ p.marks := List.mem_of_mem_filter hvertex
  have hline : (o.mark id).line ∈ p.marks.map Mark.line := List.mem_map_of_mem hmark
  have hsettings : p.marks.map Mark.line ⊆ p.lines := List.subset_append_right [_, _, _] _
  exact ⟨_, hsettings hline, o.caption_mem_mark id⟩

structure Program.Written (p : Program) (quote : String → String) : Prop where
  /-- It is written line by line, between braces. -/
  drawing?_eq : p.drawing? quote =
    .ok ("digraph \x7b\n" ++ String.join (p.lines.map (Line.text quote)) ++ "\x7d\n")
  /-- Each value of an attribute is well-formed and is told from its text. -/
  values : ∀ line ∈ p.lines, ∀ a ∈ line.attributes, IsAttribute (quote a.2).toList ∧
    unquote (quote a.2).toList = a.2.toList
  /-- There is a line on each vertex, with the caption of the node. -/
  captions : ∀ x ∈ p.outline.preorder.zipIdx 1, ∃ line ∈ p.lines,
    line.subject = "n" ++ toString x.2 ∧ ("label", x.1.caption) ∈ line.attributes

theorem Reading.written_program {quote : String → String} (h : Quotes quote) (source : String)
    (nesting : Nat) : (ofSource source nesting).program.Written quote where
  drawing?_eq := by
    rw [← Program.drawing_eq]
    exact drawing?_eq source nesting quote
  values line hline a ha := (isWritable_of_mem_lines hline a ha).wellFormed h
  captions x hx := Program.exists_line _ hx

/-- The label of a string with both quotes, one of them after a backslash. -/
theorem Reading.written_backslash : Quotes attributeValue ∧
    (ofSource "print \"it's\\\";" nestingLimit).program.Written attributeValue ∧
      attributeValue (Outline.label .literal [.literal (.string "it's\\")]) =
        "\"Literal\\n\\\"it's\\\\\\\"\"" :=
  ⟨quotes_attributeValue, written_program quotes_attributeValue _ _, by decide +kernel⟩

end Lox
