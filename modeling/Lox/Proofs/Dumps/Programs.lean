import Lox.Proofs.Dumps.Reading
import Lox.Proofs.Grammar.Trees
import Lox.Proofs.Runs.Reading
import Lox.Proofs.Runs.Relining
import Lox.Proofs.Scanning.Layout

/-! # Programs from their dumps

A dump shows a token by its text alone, and what is missing by the word that stands for nil too.
Still all but the lines of the tokens can be told from it: the text of a token is scanned once more,
and what `null` stands for depends on its place.
-/

namespace Lox

def Token.ofLexeme (lexeme : String) : Token :=
  ((scan lexeme).tokens.headD (.eof 0)).reline nowhere

theorem Token.Munches.ofLexeme_eq {t : Token} (h : t.Munches) : ofLexeme t.lexeme = t := by
  obtain ⟨l, hl, -, ht⟩ := h.cons (.inl rfl) .nil
  rw [List.append_nil] at hl
  have hmap := tokens_findings 1 [l]
  rw [List.filterMap_cons_some ht, List.filterMap_nil, List.map_eq_singleton_iff] at hmap
  obtain ⟨u, hu, rfl⟩ := hmap
  rw [ofLexeme, scan_of_lexes hl, hu]
  rfl

/-- The text of a token in a source tells the token, but for its line. -/
theorem Token.ofLexeme_of_mem_scan {source : String} {t : Token} (h : t ∈ (scan source).tokens) :
    ofLexeme t.lexeme = t.reline nowhere := by
  obtain ⟨lexemes, hl⟩ := exists_lexes source.toList
  rw [scan_of_lexes hl] at h
  rcases List.mem_append.mp h with h | h
  · refine (hl.munches (t.reline nowhere) ?_).ofLexeme_eq
    rw [← tokens_findings 1]
    exact List.mem_map_of_mem h
  · obtain rfl := List.mem_singleton.mp h
    have hnil : Lexes "".toList [] := .nil
    show ((scan "").tokens.headD (eof 0)).reline nowhere = _
    rw [scan_of_lexes hnil]
    rfl

def NodeKind.ofTag? (tag : String) : Option NodeKind :=
  [literal, grouping, unary, binary, logical, ternary, var, assign, call, get, set, super, this,
    expression, print, declare, block, branch, loop, function, classDef, giveBack, blankExpr,
    blankStmt, blankNode].find? (·.tag == tag)

@[simp] theorem NodeKind.ofTag?_tag (kind : NodeKind) : ofTag? kind.tag = some kind := by
  cases kind <;> rfl

def Value.ofJson? : Json → Option Value
  | .null => some .nil
  | .bool b => some (.bool b)
  | .number n => some (.number n)
  | .string s => some (.string s)
  | _ => none

def Expr.ofJson? : Json → Option Expr
  | .object ((_, .string tag) :: parts) =>
    match NodeKind.ofTag? tag, parts with
    | some .literal, [(_, v)] => (Value.ofJson? v).map .literal
    | some .grouping, [(_, e)] => (ofJson? e).map .grouping
    | some .unary, [(_, .string op), (_, e)] => (ofJson? e).map (.unary (.ofLexeme op))
    | some .binary, [(_, l), (_, .string op), (_, r)] => do
      return .binary (← ofJson? l) (.ofLexeme op) (← ofJson? r)
    | some .logical, [(_, l), (_, .string op), (_, r)] => do
      return .logical (← ofJson? l) (.ofLexeme op) (← ofJson? r)
    | some .ternary, [(_, c), (_, l), (_, r)] => do
      return .ternary (← ofJson? c) (← ofJson? l) (← ofJson? r)
    | some .var, [(_, .string name)] => some (.var (.ofLexeme name))
    | some .assign, [(_, .string name), (_, e)] => (ofJson? e).map (.assign (.ofLexeme name))
    | _, _ => none
  | _ => none

mutual

/-- The statement that a document stands for, if it stands in a list: `null` for one that could not
be read. -/
def Stmt.ofJson? : Json → Option Stmt
  | .null => some .failed
  | .object ((_, .string tag) :: parts) =>
    match NodeKind.ofTag? tag, parts with
    | some .expression, [(_, e)] => (Expr.ofJson? e).map .expression
    | some .print, [(_, e)] => (Expr.ofJson? e).map .print
    | some .declare, [(_, .string name), (_, .null)] => some (.declare (.ofLexeme name) none)
    | some .declare, [(_, .string name), (_, e)] =>
      (Expr.ofJson? e).map fun e => .declare (.ofLexeme name) (some e)
    | some .block, [(_, .array body)] => (ofJsons? body).map .block
    | some .branch, [(_, c), (_, t), (_, .null)] => do
      return .branch (← Expr.ofJson? c) (← ofJson? t) none
    | some .branch, [(_, c), (_, t), (_, e)] => do
      return .branch (← Expr.ofJson? c) (← ofJson? t) (some (← ofJson? e))
    | some .loop, [(_, c), (_, body)] => do return .loop (← Expr.ofJson? c) (← ofJson? body)
    | _, _ => none
  | _ => none

def Stmt.ofJsons? : List Json → Option (List Stmt)
  | [] => some []
  | j :: js => do return (← ofJson? j) :: (← ofJsons? js)

end

def Program.ofJson? : Json → Option Program
  | .object [(_, .string "Program"), (_, .array statements)] => Stmt.ofJsons? statements
  | _ => none

/-- The program that a dump shows, with all tokens on no line. -/
def Program.ofDump? (dump : String) : Option Program :=
  (Json.read? dump.toList).bind Program.ofJson?

mutual

/-- No node is blank, and each has a part for every name. -/
def Outline.Proper : Outline → Prop
  | .list items => Outline.AllProper items
  | .node kind parts =>
    kind.isBlank = false ∧ parts.length = kind.fields.length ∧ Outline.AllProper parts
  | _ => True

def Outline.AllProper : List Outline → Prop
  | [] => True
  | o :: os => o.Proper ∧ Outline.AllProper os

end

mutual

theorem Outline.Proper.blank?_eq : {o : Outline} → o.Proper → o.blank? = none
  | .list _, h => by
    rw [Outline.Proper] at h
    rw [blank?, Outline.AllProper.blankIn?_eq h]
  | .node _ _, h => by
    rw [Outline.Proper] at h
    rw [blank?, h.1, if_neg Bool.false_ne_true, Outline.AllProper.blankIn?_eq h.2.2]
  | .failed, _ | .absent, _ | .token _, _ | .literal _, _ => rfl

theorem Outline.AllProper.blankIn?_eq : {os : List Outline} → Outline.AllProper os →
    Outline.blankIn? os = none
  | [], _ => rfl
  | _ :: _, h => by
    rw [Outline.AllProper] at h
    rw [Outline.blankIn?, Outline.Proper.blank?_eq h.1, Outline.AllProper.blankIn?_eq h.2]
    rfl

end

theorem Stmt.allProper_outlines {body : List Stmt} (h : ∀ s ∈ body, s.outline.Proper) :
    Outline.AllProper (Stmt.outlines body) := by
  induction body with
  | nil => exact trivial
  | cons s body ih =>
    obtain ⟨hs, hbody⟩ := List.forall_mem_cons.mp h
    exact ⟨hs, ih hbody⟩

section

variable {ts : List Token}

theorem Expr.From.proper_outline {e : Expr} (h : e.From ts) : e.outline.Proper := by
  induction h with
  | constant | literal | var => exact ⟨rfl, rfl, trivial, trivial⟩
  | grouping _ ih => exact ⟨rfl, rfl, ih, trivial⟩
  | unary _ _ _ ih | assign _ _ _ ih => exact ⟨rfl, rfl, trivial, ih, trivial⟩
  | binary _ _ _ _ ihl ihr | logical _ _ _ _ ihl ihr =>
    exact ⟨rfl, rfl, ihl, trivial, ihr, trivial⟩
  | ternary _ _ _ ihc ihl ihr => exact ⟨rfl, rfl, ihc, ihl, ihr, trivial⟩

mutual

theorem Stmt.From.proper_outline {s : Stmt} : s.From ts → s.outline.Proper
  | .expression he | .print he => ⟨rfl, rfl, he.proper_outline, trivial⟩
  | .block hbody =>
    ⟨rfl, rfl, Stmt.allProper_outlines fun s hs => (hbody s hs).proper_outline, trivial⟩
  | @Stmt.From.branch _ c t none hc ht _ =>
    ⟨rfl, rfl, hc.proper_outline, ht.proper_outline, trivial, trivial⟩
  | @Stmt.From.branch _ c t (some f) hc ht hf =>
    ⟨rfl, rfl, hc.proper_outline, ht.proper_outline, (hf f rfl).proper_outline, trivial⟩
  | .loop hc hbody => ⟨rfl, rfl, hc.proper_outline, hbody.proper_outline, trivial⟩

theorem Stmt.Slot.proper_outline {s : Stmt} : s.Slot ts → s.outline.Proper
  | .failed => trivial
  | @Stmt.Slot.declare _ name none _ _ _ => ⟨rfl, rfl, trivial, trivial, trivial⟩
  | @Stmt.Slot.declare _ name (some e) _ _ he =>
    ⟨rfl, rfl, trivial, (he e rfl).proper_outline, trivial⟩
  | .statement hs => hs.proper_outline

end

end

@[simp] theorem Value.ofJson?_json (v : Value) : ofJson? v.json = some v := by
  cases v <;> rfl

theorem Stmt.ofJsons?_jsons {body : List Stmt}
    (h : ∀ s ∈ body, Stmt.ofJson? s.outline.json = some (s.reline Token.nowhere)) :
    Stmt.ofJsons? (Outline.jsons (Stmt.outlines body)) =
      some (Program.reline Token.nowhere body) := by
  induction body with
  | nil => rfl
  | cons s body ih =>
    obtain ⟨hs, hbody⟩ := List.forall_mem_cons.mp h
    simp [Stmt.outlines, Outline.jsons, Stmt.ofJsons?, Program.reline, hs, ih hbody]

section

variable {ts : List Token} (hts : ∀ t ∈ ts, Token.ofLexeme t.lexeme = t.reline Token.nowhere)

/-- What is read as an expression is dumped as an object. -/
theorem Expr.From.exists_object {e : Expr} (h : e.From ts) :
    ∃ members, e.outline.json = .object members := by
  cases h <;> exact ⟨_, rfl⟩

theorem Stmt.From.exists_object {s : Stmt} (h : s.From ts) :
    ∃ members, s.outline.json = .object members := by
  cases h with
  | @branch c t f => cases f <;> exact ⟨_, rfl⟩
  | _ => exact ⟨_, rfl⟩

include hts

theorem Expr.From.ofJson?_json {e : Expr} (h : e.From ts) :
    Expr.ofJson? e.outline.json = some (e.reline Token.nowhere) := by
  induction h with
  | constant | literal =>
    simp [Expr.outline, Outline.json, Outline.jsons, NodeKind.fields, Expr.ofJson?, Expr.reline]
  | grouping | ternary =>
    simp [Expr.outline, Outline.json, Outline.jsons, NodeKind.fields, Expr.ofJson?, Expr.reline, *]
  | unary ht | binary ht | logical ht | var ht | assign ht =>
    simp [Expr.outline, Outline.json, Outline.jsons, NodeKind.fields, Expr.ofJson?, Expr.reline, *,
      hts _ ht]

mutual

theorem Stmt.From.ofJson?_json {s : Stmt} : s.From ts →
    Stmt.ofJson? s.outline.json = some (s.reline Token.nowhere)
  | .expression he | .print he => by
    simp [Stmt.outline, Outline.json, Outline.jsons, NodeKind.fields, Stmt.ofJson?, Stmt.reline,
      he.ofJson?_json hts]
  | .block hbody => by
    have hjsons := Stmt.ofJsons?_jsons fun s hs => (hbody s hs).ofJson?_json
    simp [Stmt.outline, Outline.json, Outline.jsons, NodeKind.fields, Stmt.ofJson?, Stmt.reline,
      hjsons]
  | @Stmt.From.branch _ c t none hc ht _ => by
    simp [Stmt.outline, Outline.json, Outline.jsons, NodeKind.fields, Stmt.ofJson?, Stmt.reline,
      hc.ofJson?_json hts, ht.ofJson?_json]
  | @Stmt.From.branch _ c t (some f) hc ht hf => by
    have hf' := (hf f rfl).ofJson?_json
    obtain ⟨members, hmembers⟩ := (hf f rfl).exists_object
    rw [hmembers] at hf'
    simp [Stmt.outline, Outline.json, Outline.jsons, NodeKind.fields, Stmt.ofJson?, Stmt.reline,
      hc.ofJson?_json hts, ht.ofJson?_json, hmembers, hf']
  | .loop hc hbody => by
    simp [Stmt.outline, Outline.json, Outline.jsons, NodeKind.fields, Stmt.ofJson?, Stmt.reline,
      hc.ofJson?_json hts, hbody.ofJson?_json]

theorem Stmt.Slot.ofJson?_json {s : Stmt} : s.Slot ts →
    Stmt.ofJson? s.outline.json = some (s.reline Token.nowhere)
  | .failed => rfl
  | @Stmt.Slot.declare _ name none ht _ _ => by
    simp [Stmt.outline, Outline.json, Outline.jsons, NodeKind.fields, Stmt.ofJson?, Stmt.reline,
      Expr.outline?, hts _ ht]
  | @Stmt.Slot.declare _ name (some e) ht _ he => by
    have he' := (he e rfl).ofJson?_json hts
    obtain ⟨members, hmembers⟩ := (he e rfl).exists_object
    rw [hmembers] at he'
    simp [Stmt.outline, Outline.json, Outline.jsons, NodeKind.fields, Stmt.ofJson?, Stmt.reline,
      Expr.outline?, hmembers, he', hts _ ht]
  | .statement hs => hs.ofJson?_json

end

/-- A program that is made of the tokens of a source is read back from its dump. -/
theorem Program.ofDump?_of_slots {p : Program} (h : ∀ s ∈ p, s.Slot ts) :
    Program.ofDump? p.dump = some (Program.reline Token.nowhere p) := by
  have hjsons := Stmt.ofJsons?_jsons fun s hs => (h s hs).ofJson?_json hts
  rw [ofDump?, Program.dump, Json.read?_text]
  exact hjsons

end

/-- What is read of a source is made of its tokens. -/
theorem Reading.slots (source : String) (nesting : Nat) :
    ∀ s ∈ (Reading.ofSource source nesting).program, s.Slot (Lox.scan source).tokens := by
  have hgives : Parser.Gives (Lox.scan source).tokens 0 (Parser.AllListed _ 0)
      (Parser.programOf nesting (Lox.scan source).tokens) := Parser.programOf_gives _ _
  have hreply : Parser.programOf nesting (Lox.scan source).tokens (Lox.scan source).tokens =
      ⟨.ok (Reading.ofSource source nesting).program, (Reading.ofSource source nesting).reply.rest,
        (Reading.ofSource source nesting).reply.faults⟩ := by
    rw [← Reading.result_eq source nesting]
    rfl
  exact (hgives _ _ _ _ (List.Subset.refl _) hreply).2.1

section

variable {g : Token → Int}

mutual

theorem Outline.json_reline (o : Outline) : (o.reline g).json = o.json := by
  cases o with
  | list items => rw [reline, json, Outline.jsons_relineAll items, json]
  | node kind parts => rw [reline, json, Outline.jsons_relineAll parts, json]
  | _ => rfl

theorem Outline.jsons_relineAll (os : List Outline) : jsons (relineAll g os) = jsons os := by
  match os with
  | [] => rfl
  | o :: os => rw [relineAll, jsons, Outline.json_reline o, Outline.jsons_relineAll os, jsons]

end

theorem Program.dump_reline (p : Program) : Program.dump (Program.reline g p) = p.dump := by
  rw [dump, Program.json, Stmt.outlines_reline, Outline.jsons_relineAll]
  rfl

end

/-- The program that is read of a source has a dump. It is decoded to the program with its tokens on
no line, so two sources have the same dump if and only if their programs are the same but for the
lines of the tokens. -/
theorem Reading.ofDump_dump (nesting : Nat) :
    (∀ source,
      Program.json? (Reading.ofSource source nesting).program =
        .ok (Program.json (Reading.ofSource source nesting).program) ∧
      Program.ofDump? (Reading.ofSource source nesting).program.dump =
        some (Program.reline Token.nowhere (Reading.ofSource source nesting).program)) ∧
    ∀ source other,
      (Reading.ofSource source nesting).program.dump =
          (Reading.ofSource other nesting).program.dump ↔
        Program.reline Token.nowhere (Reading.ofSource source nesting).program =
          Program.reline Token.nowhere (Reading.ofSource other nesting).program := by
  have hdump (source : String) : Program.ofDump? (Reading.ofSource source nesting).program.dump =
      some (Program.reline Token.nowhere (Reading.ofSource source nesting).program) :=
    Program.ofDump?_of_slots (fun _ => Token.ofLexeme_of_mem_scan) (Reading.slots source nesting)
  refine ⟨fun source => ⟨?_, hdump source⟩, fun source other => ⟨fun h => ?_, fun h => ?_⟩⟩
  · have hproper := Stmt.allProper_outlines fun s hs =>
      (Reading.slots source nesting s hs).proper_outline
    rw [Program.json?, hproper.blankIn?_eq]
  · have hsource := hdump source
    rw [h, hdump other] at hsource
    exact (Option.some.inj hsource).symm
  · rw [← Program.dump_reline, h, Program.dump_reline]

end Lox
