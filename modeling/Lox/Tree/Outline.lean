import Lox.Tree.Basic

/-! # Outlines

The outline of a tree shows all its nodes alike: a kind and the parts of the node in a fixed order.
Dumps, drawings and the search for a tree's first token work on outlines.
-/

namespace Lox

inductive NodeKind
  | literal | grouping | unary | binary | logical | ternary | var | assign
  | call | get | set | super | this
  | expression | print | declare | block | branch | loop | function | classDef | giveBack
  | blankExpr | blankStmt | blankNode
  deriving DecidableEq

namespace NodeKind

/-- The name in drawings. -/
def title : NodeKind → String
  | literal => "Literal"
  | grouping => "Grouping"
  | unary => "UnaryOp"
  | binary => "BinaryOp"
  | logical => "LogicalOp"
  | ternary => "Ternary"
  | var => "Variable"
  | assign => "Assignment"
  | call => "Call"
  | get => "Get"
  | set => "Set"
  | super => "Super"
  | this => "This"
  | expression => "ExpressionStatement"
  | print => "PrintStatement"
  | declare => "VariableDeclaration"
  | block => "Block"
  | branch => "IfStatement"
  | loop => "WhileStatement"
  | function => "FunctionDeclaration"
  | classDef => "ClassDeclaration"
  | giveBack => "ReturnStatement"
  | blankExpr => "Expr"
  | blankStmt => "Stmt"
  | blankNode => "AST"

/-- The name in dumps. -/
def tag : NodeKind → String
  | literal => "Literal"
  | grouping => "Grouping"
  | unary => "Unary"
  | binary => "Binary"
  | logical => "Logical"
  | ternary => "Ternary"
  | var => "Variable"
  | assign => "Assign"
  | call => "Call"
  | get => "Get"
  | set => "Set"
  | super => "Super"
  | this => "This"
  | expression => "ExprStmt"
  | print => "Print"
  | declare => "Var"
  | block => "Block"
  | branch => "If"
  | loop => "While"
  | function => "Function"
  | classDef => "Class"
  | giveBack => "Return"
  | blankExpr => "Expr"
  | blankStmt => "Stmt"
  | blankNode => "ASTNode"

/-- The names of the parts, in order. -/
def fields : NodeKind → List String
  | literal => ["value"]
  | grouping => ["expression"]
  | unary => ["operator", "right"]
  | binary => ["left", "operator", "right"]
  | logical => ["left", "operator", "right"]
  | ternary => ["condition", "left", "right"]
  | var => ["name"]
  | assign => ["name", "value"]
  | call => ["callee", "paren", "arguments"]
  | get => ["object", "name"]
  | set => ["object", "name", "value"]
  | super => ["keyword", "method"]
  | this => ["keyword"]
  | expression => ["expression"]
  | print => ["expression"]
  | declare => ["name", "initializer"]
  | block => ["statements"]
  | branch => ["condition", "then_branch", "else_branch"]
  | loop => ["condition", "body"]
  | function => ["name", "params", "body"]
  | classDef => ["name", "superclass", "methods"]
  | giveBack => ["keyword", "value"]
  | blankExpr => []
  | blankStmt => []
  | blankNode => []

def isStatement : NodeKind → Bool
  | expression | print | declare | block | branch | loop => true
  | function | classDef | giveBack | blankStmt => true
  | _ => false

def isBlank : NodeKind → Bool
  | blankExpr | blankStmt | blankNode => true
  | _ => false

end NodeKind

inductive Outline
  /-- A statement that could not be read, or an expression that is missing. -/
  | failed
  /-- An optional part that is not there. -/
  | absent
  | token (t : Token)
  | literal (v : Value)
  | list (items : List Outline)
  | node (kind : NodeKind) (parts : List Outline)

mutual

def Expr.outline : Expr → Outline
  | .literal v => .node .literal [.literal v]
  | .grouping e => .node .grouping [e.outline]
  | .unary op e => .node .unary [.token op, e.outline]
  | .binary l op r => .node .binary [l.outline, .token op, r.outline]
  | .logical l op r => .node .logical [l.outline, .token op, r.outline]
  | .ternary c l r => .node .ternary [c.outline, l.outline, r.outline]
  | .var n => .node .var [.token n]
  | .assign n e => .node .assign [.token n, e.outline]
  | .call f paren args => .node .call [f.outline, .token paren, .list (Expr.outlines args)]
  | .get o n => .node .get [o.outline, .token n]
  | .set o n e => .node .set [o.outline, .token n, e.outline]
  | .super k m => .node .super [.token k, .token m]
  | .this k => .node .this [.token k]
  | .blank => .node .blankExpr []
  | .missing => .failed

def Expr.outlines : List Expr → List Outline
  | [] => []
  | e :: es => e.outline :: Expr.outlines es

end

def Expr.outline? : Option Expr → Outline
  | none => .absent
  | some e => e.outline

mutual

def Stmt.outline : Stmt → Outline
  | .failed => .failed
  | .expression e => .node .expression [e.outline]
  | .print e => .node .print [e.outline]
  | .declare n e => .node .declare [.token n, Expr.outline? e]
  | .block body => .node .block [.list (Stmt.outlines body)]
  | .branch c t none => .node .branch [c.outline, t.outline, .absent]
  | .branch c t (some e) => .node .branch [c.outline, t.outline, e.outline]
  | .loop c body => .node .loop [c.outline, body.outline]
  | .function n params body =>
    .node .function [.token n, .list (params.map .token), .list (Stmt.outlines body)]
  | .classDef n none methods => .node .classDef [.token n, .absent, .list (Stmt.outlines methods)]
  | .classDef n (some s) methods =>
    .node .classDef [.token n, .node .var [.token s], .list (Stmt.outlines methods)]
  | .giveBack k e => .node .giveBack [.token k, Expr.outline? e]
  | .loose e => e.outline
  | .blank => .node .blankStmt []
  | .blankNode => .node .blankNode []

def Stmt.outlines : List Stmt → List Outline
  | [] => []
  | s :: ss => s.outline :: Stmt.outlines ss

end

namespace Outline

mutual

/-- How many outlines it holds, itself included. -/
def size : Outline → Nat
  | list items => sizes items + 1
  | node _ parts => sizes parts + 1
  | _ => 1

def sizes : List Outline → Nat
  | [] => 0
  | o :: os => o.size + sizes os

end

theorem sizes_append (os ps : List Outline) : sizes (os ++ ps) = sizes os + sizes ps := by
  induction os with
  | nil => simp [sizes]
  | cons o os ih => simp [sizes, ih, Nat.add_assoc]

theorem size_pos (o : Outline) : 0 < o.size := by
  cases o <;> simp [size]

/-- The first token of the pending outlines. What is pending is looked at in order; a list or a node
is replaced by what it holds. -/
def firstToken? : List Outline → Option Token
  | [] => none
  | token t :: _ => some t
  | list items :: pending => firstToken? (items ++ pending)
  | node _ parts :: pending => firstToken? (parts ++ pending)
  | _ :: pending => firstToken? pending
termination_by pending => sizes pending
decreasing_by
  · simp [sizes, size, sizes_append]
  · simp [sizes, size, sizes_append]
  · have := size_pos (by assumption)
    simp [sizes, this]

mutual

def blank? : Outline → Option NodeKind
  | list items => blankIn? items
  | node kind parts => if kind.isBlank then some kind else blankIn? parts
  | _ => none

def blankIn? : List Outline → Option NodeKind
  | [] => none
  | o :: os => o.blank?.or (blankIn? os)

end

mutual

/-- Whether two trees are equal: literals of one type and equal, tokens that are the same. They are
compared part by part up to the first difference, and lists of unequal length not at all. Two blank
nodes of one kind have nothing to be compared by: then there is no answer, but that kind. -/
def same? : Outline → Outline → Except NodeKind Bool
  | failed, failed => .ok true
  | absent, absent => .ok true
  | token t, token u => .ok (t.same u)
  | literal v, literal w => .ok (v.sameLiteral w)
  | list items, list items' =>
    if items.length = items'.length then sameAll? items items' else .ok false
  | node kind parts, node kind' parts' =>
    if kind ≠ kind' then .ok false
    else if kind.isBlank then .error kind
    else sameAll? parts parts'
  | _, _ => .ok false

def sameAll? : List Outline → List Outline → Except NodeKind Bool
  | [], [] => .ok true
  | o :: os, p :: ps =>
    match o.same? p with
    | .ok true => sameAll? os ps
    | answer => answer
  | _, _ => .ok false

end

end Outline
end Lox
