import Lox.Tree.Outline
import Lox.Text.Quoted

/-! # Drawings

A program as a graph in the dot language. The program itself is vertex 1; the nodes of its trees
follow in the order in which they are met, each before what it holds. An edge comes after all that
hangs on it, and is labelled with the name of the part, and with an index if the part is a list.
-/

namespace Lox

inductive Shape
  | doubleoctagon
  | box
  | ellipse
  deriving DecidableEq

def Shape.name : Shape → String
  | doubleoctagon => "doubleoctagon"
  | box => "box"
  | ellipse => "ellipse"

inductive Mark
  | vertex (id : Nat) (label : String) (shape : Shape)
  /-- The place of a statement that could not be read, or of an expression that is missing. -/
  | flaw (id : Nat)
  | edge (source target : Nat) (label : String)
  deriving DecidableEq

namespace Outline

/-- The text of the first token among the parts. -/
def headLexeme : List Outline → String
  | token t :: _ => t.lexeme
  | _ :: parts => headLexeme parts
  | [] => ""

/-- A literal in a drawing: a string is quoted, all else is as programs print it. -/
def literalDetail (v : Value) : String :=
  match v with
  | .string s => Text.quoted s
  | v =>
    match v.display with
    | .ok text => text
    | .error _ => ""

def detail (kind : NodeKind) (parts : List Outline) : String :=
  match kind, parts with
  | .literal, [literal v] => literalDetail v
  | .unary, _ | .binary, _ | .logical, _ | .var, _ | .assign, _ | .declare, _ | .get, _ | .set, _
  | .function, _ | .classDef, _ => headLexeme parts
  | _, _ => ""

/-- The label of a node. Its two lines are divided by a backslash and an `n`. -/
def label (kind : NodeKind) (parts : List Outline) : String :=
  let d := detail kind parts
  if d = "" then kind.title else kind.title ++ "\\n" ++ d

def isNode : Outline → Bool
  | node .. => true
  | _ => false

def shape (kind : NodeKind) : Shape := if kind.isStatement then .box else .ellipse

mutual

/-- The marks of an outline whose vertex is `id`, and the first number not used. -/
def draw (id : Nat) : Outline → List Mark × Nat
  | node kind parts =>
    let (marks, next) := drawParts id (id + 1) kind.fields parts
    (.vertex id (label kind parts) (shape kind) :: marks, next)
  | failed => ([.flaw id], id + 1)
  | _ => ([], id)

def drawParts (parent next : Nat) : List String → List Outline → List Mark × Nat
  | name :: names, list items :: parts =>
    let (marks, next) := drawItems parent next (fun i => name ++ "[" ++ toString i ++ "]") 0 items
    let (more, next) := drawParts parent next names parts
    (marks ++ more, next)
  | name :: names, part :: parts =>
    if part.isNode then
      let (marks, after) := draw next part
      let (more, last) := drawParts parent after names parts
      (marks ++ .edge parent next name :: more, last)
    else drawParts parent next names parts
  | _, _ => ([], next)

/-- The marks of the items of a list, the first of which has index `i`. Tokens are not drawn. -/
def drawItems (parent next : Nat) (name : Nat → String) (i : Nat) : List Outline → List Mark × Nat
  | [] => ([], next)
  | token _ :: items => drawItems parent next name (i + 1) items
  | item :: items =>
    let (marks, after) := draw next item
    let (more, last) := drawItems parent after name (i + 1) items
    (marks ++ .edge parent next (name i) :: more, last)

end

mutual

def overflow? : Outline → Option Overflow
  | literal v =>
    match v.display with
    | .ok _ => none
    | .error e => some e
  | list items => overflowIn? items
  | node _ parts => overflowIn? parts
  | _ => none

def overflowIn? : List Outline → Option Overflow
  | [] => none
  | o :: os => o.overflow?.or (overflowIn? os)

end

end Outline

def Program.marks (p : Program) : List Mark :=
  .vertex 1 "Program" .doubleoctagon :: (Outline.drawItems 1 2 toString 0 (Stmt.outlines p)).1

namespace Drawing

def keywords : List String := ["node", "edge", "graph", "digraph", "subgraph", "strict"]

def isName : List Char → Bool
  | [] => false
  | c :: cs => (c.isAlpha || c == '_') && cs.all fun d => d.isAlphanum || d == '_'

def isUnsignedNumeral (cs : List Char) : Bool :=
  let whole := cs.takeWhile Char.isDigit
  match cs.dropWhile Char.isDigit with
  | [] => whole ≠ []
  | '.' :: fraction => fraction.all Char.isDigit && (whole ≠ [] || fraction ≠ [])
  | _ => false

def isNumeral : List Char → Bool
  | '-' :: cs => isUnsignedNumeral cs
  | cs => isUnsignedNumeral cs

def isMarkup (cs : List Char) : Bool :=
  decide (2 ≤ cs.length) && cs.head? == some '<' && cs.getLast? == some '>'

/-- Put a backslash before each double quote that has an even number of them already; `odd` tells of
those before. -/
def escapeQuotes (odd : Bool) : List Char → List Char
  | [] => []
  | '\\' :: cs => '\\' :: escapeQuotes (!odd) cs
  | '"' :: cs => (if odd then ['"'] else ['\\', '"']) ++ escapeQuotes false cs
  | c :: cs => c :: escapeQuotes false cs

/-- The value of an attribute: bare if it is a name other than a keyword, a numeral or markup. -/
def attributeValue (s : String) : String :=
  let cs := s.toList
  let bare := isMarkup cs || (isName cs || isNumeral cs) && !keywords.contains s.toLower
  if bare then s else String.ofList ('"' :: escapeQuotes false cs ++ ['"'])

end Drawing

/-- The text of a line, whose values are written by `quote`. -/
def Mark.text (quote : String → String) : Mark → String
  | vertex id label shape =>
    "\tn" ++ toString id ++ " [label=" ++ quote label ++ " shape=" ++ quote shape.name ++ "]\n"
  | flaw id =>
    "\tn" ++ toString id ++ " [label=" ++ quote "parse error" ++ " color=" ++ quote "red"
      ++ " shape=" ++ quote Shape.box.name ++ "]\n"
  | edge source target label =>
    "\tn" ++ toString source ++ " -> n" ++ toString target ++ " [label=" ++ quote label ++ "]\n"

/-- The drawing of a program. How deep a tree can be drawn is not modelled: no stack runs out. -/
def Program.drawing (p : Program) (quote : String → String := Drawing.attributeValue) : String :=
  "digraph \x7b\n\tgraph [rankdir=" ++ quote "TB" ++ "]\n\tnode [fontsize=" ++ quote "10"
    ++ "]\n\tedge [fontsize=" ++ quote "8" ++ "]\n" ++ String.join (p.marks.map (Mark.text quote))
    ++ "\x7d\n"

/-- The drawing of a program, unless a literal of it cannot be displayed. -/
def Program.drawing? (p : Program) (quote : String → String := Drawing.attributeValue) :
    Except Overflow String :=
  match Outline.overflowIn? (Stmt.outlines p) with
  | some e => .error e
  | none => .ok (p.drawing quote)

end Lox
