import Lox.Tree.Outline

/-! # Printed trees

A tree in parentheses: each node is its head, then its parts, with one space between. Names,
literals and `this` stand by themselves.
-/

namespace Lox

def parenthesized (head : String) (parts : List String) : String :=
  "(" ++ String.intercalate " " (head :: parts) ++ ")"

mutual

def Expr.printed : Expr → String
  | .literal v => v.literal
  | .grouping e => parenthesized "group" [e.printed]
  | .unary op e => parenthesized op.lexeme [e.printed]
  | .binary l op r => parenthesized op.lexeme [l.printed, r.printed]
  | .logical l op r => parenthesized op.lexeme [l.printed, r.printed]
  | .ternary c l r => parenthesized "?:" [c.printed, l.printed, r.printed]
  | .var n => n.lexeme
  | .assign n e => parenthesized "=" [n.lexeme, e.printed]
  | .call f _ args => parenthesized "call" (f.printed :: Expr.printedAll args)
  | .get o n => parenthesized "." [o.printed, n.lexeme]
  | .set o n e => parenthesized ".=" [o.printed, n.lexeme, e.printed]
  | .super _ m => parenthesized "super" [m.lexeme]
  | .this _ => "this"
  | .blank => ""
  | .missing => "<error>"

def Expr.printedAll : List Expr → List String
  | [] => []
  | e :: es => e.printed :: Expr.printedAll es

end

def Expr.printedParts : Option Expr → List String
  | none => []
  | some e => [e.printed]

mutual

def Stmt.printed : Stmt → String
  | .failed => "<error>"
  | .expression e => parenthesized ";" [e.printed]
  | .print e => parenthesized "print" [e.printed]
  | .declare n e => parenthesized "var" (n.lexeme :: Expr.printedParts e)
  | .block body => parenthesized "block" (Stmt.printedAll body)
  | .branch c t none => parenthesized "if" [c.printed, t.printed]
  | .branch c t (some e) => parenthesized "if" [c.printed, t.printed, e.printed]
  | .loop c body => parenthesized "while" [c.printed, body.printed]
  | .function n params body =>
    parenthesized "fun"
      (n.lexeme :: ("(" ++ String.intercalate " " (params.map Token.lexeme) ++ ")")
        :: Stmt.printedAll body)
  | .classDef n none methods => parenthesized "class" (n.lexeme :: Stmt.printedAll methods)
  | .classDef n (some s) methods =>
    parenthesized "class" (n.lexeme :: "<" :: s.lexeme :: Stmt.printedAll methods)
  | .giveBack _ e => parenthesized "return" (Expr.printedParts e)
  | .loose e => e.printed
  | .blank => ""
  | .blankNode => ""

def Stmt.printedAll : List Stmt → List String
  | [] => []
  | s :: ss => s.printed :: Stmt.printedAll ss

end

/-- One statement a line. How deep a tree can be printed is not modelled: no stack runs out. -/
def Program.printed (p : Program) : String := String.intercalate "\n" (p.map Stmt.printed)

/-- The printed tree, unless a node of it is blank: such a node has no text. -/
def Stmt.printed? (s : Stmt) : Except NodeKind String :=
  match s.outline.blank? with
  | some kind => .error kind
  | none => .ok s.printed

def Program.printed? (p : Program) : Except NodeKind String :=
  match Outline.blankIn? (Stmt.outlines p) with
  | some kind => .error kind
  | none => .ok p.printed

end Lox
