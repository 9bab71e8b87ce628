import Lox.Tree.Basic

/-! # Resolved programs

A resolved program tells for each variable how many scopes outwards it is. The distances come from
the text alone: in each open block some names have been declared so far, and a variable belongs to
the innermost block that has declared its name, or else to the global scope.
-/

namespace Lox

/-- Where a variable is: how many scopes outwards, and whether that is the global scope. -/
structure Distance where
  hops : Nat
  isGlobal : Bool
  deriving DecidableEq

def Distance.outer (d : Distance) : Distance := { d with hops := d.hops + 1 }

/-- An expression with a distance for each variable. What cannot be run is kept as it is. -/
inductive BoundExpr
  | literal (value : Value)
  | grouping (inner : BoundExpr)
  | unary (operator : Token) (right : BoundExpr)
  | binary (left : BoundExpr) (operator : Token) (right : BoundExpr)
  | logical (left : BoundExpr) (operator : Token) (right : BoundExpr)
  | ternary (condition left right : BoundExpr)
  | var (name : Token) (distance : Distance)
  | assign (name : Token) (distance : Distance) (value : BoundExpr)
  | other (e : Expr)

inductive BoundStmt
  | expression (value : BoundExpr)
  | print (value : BoundExpr)
  | declare (name : Token) (initializer : Option BoundExpr)
  | block (body : List BoundStmt)
  | branch (condition : BoundExpr) (whenTrue : BoundStmt) (whenFalse : Option BoundStmt)
  | loop (condition : BoundExpr) (body : BoundStmt)
  | other (s : Stmt)

def BoundExpr.plain : BoundExpr → Expr
  | literal v => .literal v
  | grouping e => .grouping e.plain
  | unary operator right => .unary operator right.plain
  | binary left operator right => .binary left.plain operator right.plain
  | logical left operator right => .logical left.plain operator right.plain
  | ternary c l r => .ternary c.plain l.plain r.plain
  | var name _ => .var name
  | assign name _ value => .assign name value.plain
  | other e => e

mutual

def BoundStmt.plain : BoundStmt → Stmt
  | expression e => .expression e.plain
  | print e => .print e.plain
  | declare name initializer => .declare name (initializer.map BoundExpr.plain)
  | block body => .block (plainAll body)
  | branch c t none => .branch c.plain t.plain none
  | branch c t (some f) => .branch c.plain t.plain (some f.plain)
  | loop c body => .loop c.plain body.plain
  | other s => s

def BoundStmt.plainAll : List BoundStmt → List Stmt
  | [] => []
  | s :: p => s.plain :: plainAll p

end

def BoundExpr.resolved : BoundExpr → Bool
  | literal _ | var _ _ => true
  | grouping e | unary _ e | assign _ _ e => e.resolved
  | binary l _ r | logical l _ r => l.resolved && r.resolved
  | ternary c l r => c.resolved && l.resolved && r.resolved
  | other _ => false

mutual

def BoundStmt.resolved : BoundStmt → Bool
  | expression e | print e | declare _ (some e) => e.resolved
  | declare _ none => true
  | block body => resolvedAll body
  | branch c t none => c.resolved && t.resolved
  | branch c t (some f) => c.resolved && t.resolved && f.resolved
  | loop c body => c.resolved && body.resolved
  | other _ => false

def BoundStmt.resolvedAll : List BoundStmt → Bool
  | [] => true
  | s :: p => s.resolved && resolvedAll p

end

/-- The distance of the innermost block that has declared the name; of the global scope if none
has. -/
def distance (name : String) : (blocks : List (List String)) → Distance
  | [] => ⟨0, true⟩
  | names :: blocks => if name ∈ names then ⟨0, false⟩ else (distance name blocks).outer

/-- A variable is in the global scope if and only if no open block has declared it. -/
theorem isGlobal_distance_iff {name : String} {blocks : List (List String)} :
    (distance name blocks).isGlobal ↔ ∀ names ∈ blocks, name ∉ names := by
  induction blocks with
  | nil => simp [distance]
  | cons names blocks ih =>
    rw [distance, List.forall_mem_cons]
    by_cases hn : name ∈ names
    · simp [hn]
    · simp [hn, Distance.outer, ih]

/-- Declare a name in the innermost block, if one is open. -/
def declareIn (name : String) : List (List String) → List (List String)
  | [] => []
  | names :: blocks => (name :: names) :: blocks

def Expr.resolve (blocks : List (List String)) : Expr → BoundExpr
  | .literal v => .literal v
  | .grouping e => .grouping (e.resolve blocks)
  | .unary operator right => .unary operator (right.resolve blocks)
  | .binary left operator right => .binary (left.resolve blocks) operator (right.resolve blocks)
  | .logical left operator right => .logical (left.resolve blocks) operator (right.resolve blocks)
  | .ternary c l r => .ternary (c.resolve blocks) (l.resolve blocks) (r.resolve blocks)
  | .var name => .var name (distance name.lexeme blocks)
  | .assign name value => .assign name (distance name.lexeme blocks) (value.resolve blocks)
  | e => .other e

/-- The names declared after a statement. -/
def Stmt.after (blocks : List (List String)) : Stmt → List (List String)
  | .declare name _ => declareIn name.lexeme blocks
  | _ => blocks

mutual

def Stmt.resolve (blocks : List (List String)) : Stmt → BoundStmt
  | .expression e => .expression (e.resolve blocks)
  | .print e => .print (e.resolve blocks)
  | .declare name initializer => .declare name (initializer.map (Expr.resolve blocks))
  | .block body => .block (resolveAll ([] :: blocks) body)
  | .branch c t none => .branch (c.resolve blocks) (t.resolve blocks) none
  | .branch c t (some f) =>
    .branch (c.resolve blocks) (t.resolve blocks) (some (f.resolve blocks))
  | .loop c body => .loop (c.resolve blocks) (body.resolve blocks)
  | s => .other s

def Stmt.resolveAll (blocks : List (List String)) : List Stmt → List BoundStmt
  | [] => []
  | s :: p => s.resolve blocks :: resolveAll (s.after blocks) p

end

/-- No block is open at the start of a program. -/
def Program.resolve (p : Program) : List BoundStmt := Stmt.resolveAll [] p

theorem Expr.plain_resolve (blocks : List (List String)) (e : Expr) :
    (e.resolve blocks).plain = e := by
  match e with
  | .literal _ | .var _ => rfl
  | .grouping e => simp [resolve, BoundExpr.plain, e.plain_resolve blocks]
  | .unary _ r => simp [resolve, BoundExpr.plain, r.plain_resolve blocks]
  | .binary l _ r => simp [resolve, BoundExpr.plain, l.plain_resolve blocks, r.plain_resolve blocks]
  | .logical l _ r =>
    simp [resolve, BoundExpr.plain, l.plain_resolve blocks, r.plain_resolve blocks]
  | .ternary c l r =>
    simp [resolve, BoundExpr.plain, c.plain_resolve blocks, l.plain_resolve blocks,
      r.plain_resolve blocks]
  | .assign _ v => simp [resolve, BoundExpr.plain, v.plain_resolve blocks]
  | .call .. | .get .. | .set .. | .super .. | .this .. | .blank | .missing => rfl

mutual

theorem Stmt.plain_resolve (blocks : List (List String)) (s : Stmt) :
    (s.resolve blocks).plain = s := by
  match s with
  | .expression e | .print e => simp [resolve, BoundStmt.plain, e.plain_resolve blocks]
  | .declare name none => rfl
  | .declare name (some e) => simp [resolve, BoundStmt.plain, e.plain_resolve blocks]
  | .block body => simp [resolve, BoundStmt.plain, Stmt.plainAll_resolveAll ([] :: blocks) body]
  | .branch c t none =>
    simp [resolve, BoundStmt.plain, c.plain_resolve blocks, t.plain_resolve blocks]
  | .branch c t (some f) =>
    simp [resolve, BoundStmt.plain, c.plain_resolve blocks, t.plain_resolve blocks,
      f.plain_resolve blocks]
  | .loop c body =>
    simp [resolve, BoundStmt.plain, c.plain_resolve blocks, body.plain_resolve blocks]
  | .failed | .function .. | .classDef .. | .giveBack .. | .loose _ | .blank | .blankNode => rfl

theorem Stmt.plainAll_resolveAll (blocks : List (List String)) (p : List Stmt) :
    BoundStmt.plainAll (Stmt.resolveAll blocks p) = p := by
  match p with
  | [] => rfl
  | s :: p =>
    simp [resolveAll, BoundStmt.plainAll, s.plain_resolve blocks,
      Stmt.plainAll_resolveAll (s.after blocks) p]

end

def Expr.resolvable : Expr → Bool
  | .literal _ | .var _ => true
  | .grouping e | .unary _ e | .assign _ e => e.resolvable
  | .binary l _ r | .logical l _ r => l.resolvable && r.resolvable
  | .ternary c l r => c.resolvable && l.resolvable && r.resolvable
  | _ => false

def Stmt.declares : Stmt → Bool
  | .declare .. => true
  | _ => false

mutual

/-- All parts can be run, and declarations stand in blocks only, or alone. -/
def Stmt.resolvable : Stmt → Bool
  | .expression e | .print e | .declare _ (some e) => e.resolvable
  | .declare _ none => true
  | .block body => resolvableAll body
  | .branch c t none => c.resolvable && (t.resolvable && !t.declares)
  | .branch c t (some f) =>
    c.resolvable && (t.resolvable && !t.declares) && (f.resolvable && !f.declares)
  | .loop c body => c.resolvable && (body.resolvable && !body.declares)
  | _ => false

def Stmt.resolvableAll : List Stmt → Bool
  | [] => true
  | s :: p => s.resolvable && resolvableAll p

end

/-- Every variable of what can be resolved gets a distance. -/
theorem Expr.resolved_resolve (blocks : List (List String)) {e : Expr} (h : e.resolvable) :
    (e.resolve blocks).resolved := by
  match e with
  | .literal _ | .var _ => rfl
  | .grouping e | .unary _ e | .assign _ e => exact e.resolved_resolve blocks h
  | .binary l _ r | .logical l _ r =>
    obtain ⟨hl, hr⟩ := Bool.and_eq_true_iff.mp h
    exact Bool.and_eq_true_iff.mpr ⟨l.resolved_resolve blocks hl, r.resolved_resolve blocks hr⟩
  | .ternary c l r =>
    simp only [resolvable, Bool.and_eq_true] at h
    simp only [resolve, BoundExpr.resolved, Bool.and_eq_true]
    exact ⟨⟨c.resolved_resolve blocks h.1.1, l.resolved_resolve blocks h.1.2⟩,
      r.resolved_resolve blocks h.2⟩
  | .call .. | .get .. | .set .. | .super .. | .this .. | .blank | .missing => cases h

mutual

theorem Stmt.resolved_resolve (blocks : List (List String)) {s : Stmt} (h : s.resolvable) :
    (s.resolve blocks).resolved := by
  match s with
  | .expression e | .print e | .declare _ (some e) => exact e.resolved_resolve blocks h
  | .declare _ none => rfl
  | .block body => exact Stmt.resolvedAll_resolveAll ([] :: blocks) h
  | .branch c t none =>
    simp only [resolvable, Bool.and_eq_true] at h
    simp only [resolve, BoundStmt.resolved, Bool.and_eq_true]
    exact ⟨c.resolved_resolve blocks h.1, t.resolved_resolve blocks h.2.1⟩
  | .branch c t (some f) =>
    simp only [resolvable, Bool.and_eq_true] at h
    simp only [resolve, BoundStmt.resolved, Bool.and_eq_true]
    exact ⟨⟨c.resolved_resolve blocks h.1.1, t.resolved_resolve blocks h.1.2.1⟩,
      f.resolved_resolve blocks h.2.1⟩
  | .loop c body =>
    simp only [resolvable, Bool.and_eq_true] at h
    simp only [resolve, BoundStmt.resolved, Bool.and_eq_true]
    exact ⟨c.resolved_resolve blocks h.1, body.resolved_resolve blocks h.2.1⟩
  | .failed | .function .. | .classDef .. | .giveBack .. | .loose _ | .blank | .blankNode => cases h

theorem Stmt.resolvedAll_resolveAll (blocks : List (List String)) {p : List Stmt}
    (h : Stmt.resolvableAll p) : BoundStmt.resolvedAll (Stmt.resolveAll blocks p) := by
  match p with
  | [] => rfl
  | s :: p =>
    obtain ⟨hs, hp⟩ := Bool.and_eq_true_iff.mp h
    exact Bool.and_eq_true_iff.mpr
      ⟨s.resolved_resolve blocks hs, Stmt.resolvedAll_resolveAll (s.after blocks) hp⟩

end

end Lox
