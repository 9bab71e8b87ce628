import Lox.Token.Basic

/-! # Programs as trees

Expressions and statements. Calls, properties, `super`, `this`, functions, classes and `return` have
their trees, but no program text is read as one and they cannot be run: only hand-made programs hold
them. The same is true of the blank nodes, which are of no kind, of an expression that is missing,
and of one that stands loose in a list of statements.
-/

namespace Lox

inductive Expr
  | literal (value : Value)
  | grouping (inner : Expr)
  | unary (operator : Token) (right : Expr)
  | binary (left : Expr) (operator : Token) (right : Expr)
  | logical (left : Expr) (operator : Token) (right : Expr)
  | ternary (condition left right : Expr)
  | var (name : Token)
  | assign (name : Token) (value : Expr)
  | call (callee : Expr) (paren : Token) (arguments : List Expr)
  | get (object : Expr) (name : Token)
  | set (object : Expr) (name : Token) (value : Expr)
  | super (keyword method : Token)
  | this (keyword : Token)
  | blank
  /-- Where an expression should stand. -/
  | missing

inductive Stmt
  /-- Where a statement could not be read. -/
  | failed
  | expression (value : Expr)
  | print (value : Expr)
  | declare (name : Token) (initializer : Option Expr)
  | block (body : List Stmt)
  | branch (condition : Expr) (whenTrue : Stmt) (whenFalse : Option Stmt)
  | loop (condition : Expr) (body : Stmt)
  | function (name : Token) (params : List Token) (body : List Stmt)
  | classDef (name : Token) (superclass : Option Token) (methods : List Stmt)
  | giveBack (keyword : Token) (value : Option Expr)
  | loose (value : Expr)
  | blank
  /-- A blank that is not even known to be a statement. -/
  | blankNode

/-- The statements of a program in order; those that could not be read are `Stmt.failed`. -/
abbrev Program := List Stmt

end Lox
