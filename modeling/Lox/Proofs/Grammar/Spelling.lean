import Lox.Grammar.Statement

/-! # Trees and the tokens that spell them

Which tokens are which expression, statement or list of declarations. Unlike the grammar these
relations leave no choice: an `else` belongs to the nearest `if` without one, and operators of a
level are grouped to the left.
-/

namespace Lox

mutual

/-- By the rule, the tokens are the expression. -/
inductive Rule.Spells : Rule → List Token → Expr → Prop
  | assign {name equals : Token} {ts : List Token} {value : Expr} :
      name.kind = .identifier → equals.kind = .equal → Rule.assignment.Spells ts value →
      Rule.assignment.Spells (name :: equals :: ts) (.assign name value)
  | ofTernary {ts : List Token} {e : Expr} :
      Rule.ternary.Spells ts e → Rule.assignment.Spells ts e
  | choice {question colon : Token} {cs ls rs : List Token} {c l r : Expr} :
      question.kind = .questionMark → colon.kind = .colon → (Rule.level .or).Spells cs c →
      Rule.assignment.Spells ls l → Rule.assignment.Spells rs r →
      Rule.ternary.Spells (cs ++ question :: (ls ++ colon :: rs)) (.ternary c l r)
  | ofOr {ts : List Token} {e : Expr} : (Rule.level .or).Spells ts e → Rule.ternary.Spells ts e
  | chain {l : Level} {us vs : List Token} {left e : Expr} :
      l.operand.Spells us left → l.Extends left vs e → (Rule.level l).Spells (us ++ vs) e
  | unary {operator : Token} {ts : List Token} {e : Expr} :
      operator.kind = .bang ∨ operator.kind = .minus → Rule.unary.Spells ts e →
      Rule.unary.Spells (operator :: ts) (.unary operator e)
  | ofPrimary {ts : List Token} {e : Expr} : Rule.primary.Spells ts e → Rule.unary.Spells ts e
  | no {t : Token} : t.kind = .kwFalse → Rule.primary.Spells [t] (.literal (.bool false))
  | yes {t : Token} : t.kind = .kwTrue → Rule.primary.Spells [t] (.literal (.bool true))
  | nil {t : Token} : t.kind = .kwNil → Rule.primary.Spells [t] (.literal .nil)
  | literal {t : Token} : t.kind = .number ∨ t.kind = .string →
      Rule.primary.Spells [t] (.literal t.literal)
  | var {t : Token} : t.kind = .identifier → Rule.primary.Spells [t] (.var t)
  | grouping {opening closing : Token} {ts : List Token} {e : Expr} :
      opening.kind = .leftParen → closing.kind = .rightParen → Rule.assignment.Spells ts e →
      Rule.primary.Spells (opening :: (ts ++ [closing])) (.grouping e)

/-- The tokens are operators of the level with an operand each, and group with `left` to the last
expression. -/
inductive Level.Extends : Level → Expr → List Token → Expr → Prop
  | done {l : Level} {left : Expr} : l.Extends left [] left
  | operator {l : Level} {operator : Token} {us vs : List Token} {left right e : Expr} :
      l.hasOperator operator.kind → l.operand.Spells us right →
      l.Extends (l.join left operator right) vs e → l.Extends left (operator :: (us ++ vs)) e

end

inductive SpellsOptional : List Token → Option Expr → Prop
  | absent : SpellsOptional [] none
  | present {ts : List Token} {e : Expr} : Rule.assignment.Spells ts e → SpellsOptional ts (some e)

inductive SpellsVariable : List Token → Stmt → Prop
  | plain {keyword name semicolon : Token} : keyword.kind = .kwVar → name.kind = .identifier →
      semicolon.kind = .semicolon → SpellsVariable [keyword, name, semicolon] (.declare name none)
  | initial {keyword name equals semicolon : Token} {ts : List Token} {e : Expr} :
      keyword.kind = .kwVar → name.kind = .identifier → equals.kind = .equal →
      Rule.assignment.Spells ts e → semicolon.kind = .semicolon →
      SpellsVariable (keyword :: name :: equals :: (ts ++ [semicolon])) (.declare name (some e))

inductive SpellsExpressionStatement : List Token → Stmt → Prop
  | mk {semicolon : Token} {ts : List Token} {e : Expr} :
      Rule.assignment.Spells ts e → semicolon.kind = .semicolon →
      SpellsExpressionStatement (ts ++ [semicolon]) (.expression e)

inductive SpellsFirst : List Token → Option Stmt → Prop
  | absent {semicolon : Token} : semicolon.kind = .semicolon → SpellsFirst [semicolon] none
  | declare {ts : List Token} {s : Stmt} : SpellsVariable ts s → SpellsFirst ts (some s)
  | expression {ts : List Token} {s : Stmt} :
      SpellsExpressionStatement ts s → SpellsFirst ts (some s)

mutual

/-- The tokens are the statement; the last part tells whether an `else` right after them would
belong to it. -/
inductive SpellsStatement : List Token → Stmt → Bool → Prop
  | expression {ts : List Token} {s : Stmt} :
      SpellsExpressionStatement ts s → SpellsStatement ts s false
  | print {keyword semicolon : Token} {ts : List Token} {e : Expr} : keyword.kind = .kwPrint →
      Rule.assignment.Spells ts e → semicolon.kind = .semicolon →
      SpellsStatement (keyword :: (ts ++ [semicolon])) (.print e) false
  | block {opening closing : Token} {ts : List Token} {body : List Stmt} :
      opening.kind = .leftBrace → SpellsDeclarations ts body → closing.kind = .rightBrace →
      SpellsStatement (opening :: (ts ++ [closing])) (.block body) false
  | loop {keyword opening closing : Token} {cs ts : List Token} {c : Expr} {body : Stmt}
      {dangling : Bool} : keyword.kind = .kwWhile → opening.kind = .leftParen →
      Rule.assignment.Spells cs c → closing.kind = .rightParen →
      SpellsStatement ts body dangling →
      SpellsStatement (keyword :: opening :: (cs ++ closing :: ts)) (.loop c body) dangling
  | forLoop {keyword opening semicolon closing : Token} {fs cs ss ts : List Token}
      {first : Option Stmt} {c step : Option Expr} {body : Stmt} {dangling : Bool} :
      keyword.kind = .kwFor → opening.kind = .leftParen → SpellsFirst fs first →
      SpellsOptional cs c → semicolon.kind = .semicolon → SpellsOptional ss step →
      closing.kind = .rightParen → SpellsStatement ts body dangling →
      SpellsStatement (keyword :: opening :: (fs ++ (cs ++ semicolon :: (ss ++ closing :: ts))))
        (.forLoop first c step body) dangling
  | branch {keyword opening closing : Token} {cs ts : List Token} {c : Expr} {whenTrue : Stmt}
      {dangling : Bool} : keyword.kind = .kwIf → opening.kind = .leftParen →
      Rule.assignment.Spells cs c → closing.kind = .rightParen →
      SpellsStatement ts whenTrue dangling →
      SpellsStatement (keyword :: opening :: (cs ++ closing :: ts)) (.branch c whenTrue none) true
  | branchElse {keyword opening closing keyword' : Token} {cs ts us : List Token} {c : Expr}
      {whenTrue whenFalse : Stmt} {dangling : Bool} : keyword.kind = .kwIf →
      opening.kind = .leftParen → Rule.assignment.Spells cs c → closing.kind = .rightParen →
      SpellsStatement ts whenTrue false → keyword'.kind = .kwElse →
      SpellsStatement us whenFalse dangling →
      SpellsStatement (keyword :: opening :: (cs ++ closing :: (ts ++ keyword' :: us)))
        (.branch c whenTrue (some whenFalse)) dangling

inductive SpellsDeclaration : List Token → Stmt → Prop
  | declare {ts : List Token} {s : Stmt} : SpellsVariable ts s → SpellsDeclaration ts s
  | statement {ts : List Token} {s : Stmt} {dangling : Bool} :
      SpellsStatement ts s dangling → SpellsDeclaration ts s

inductive SpellsDeclarations : List Token → List Stmt → Prop
  | nil : SpellsDeclarations [] []
  | cons {us vs : List Token} {s : Stmt} {p : List Stmt} : SpellsDeclaration us s →
      SpellsDeclarations vs p → SpellsDeclarations (us ++ vs) (s :: p)

end

/-- The tokens are a `for` with these clauses and this body. -/
inductive SpellsFor (ts : List Token) (first : Option Stmt) (condition step : Option Expr)
    (body : Stmt) : Prop
  | mk {keyword opening semicolon closing : Token} {fs cs ss us : List Token} {dangling : Bool} :
      keyword.kind = .kwFor → opening.kind = .leftParen → SpellsFirst fs first →
      SpellsOptional cs condition → semicolon.kind = .semicolon → SpellsOptional ss step →
      closing.kind = .rightParen → SpellsStatement us body dangling →
      ts = keyword :: opening :: (fs ++ (cs ++ semicolon :: (ss ++ closing :: us))) →
      SpellsFor ts first condition step body

def Kind.startsExpression : Kind → Bool
  | .bang | .minus | .kwFalse | .kwTrue | .kwNil | .number | .string | .identifier => true
  | .leftParen => true
  | _ => false

theorem Rule.Spells.head {r : Rule} {ts : List Token} {e : Expr} (h : r.Spells ts e) :
    ∃ t us, ts = t :: us ∧ t.kind.startsExpression := by
  match h with
  | .assign hn _ _ => exact ⟨_, _, rfl, by rw [hn]; rfl⟩
  | .ofTernary h | .ofOr h | .ofPrimary h => exact h.head
  | .choice _ _ h _ _ | .chain h _ =>
    obtain ⟨t, us, rfl, ht⟩ := h.head
    exact ⟨t, _, rfl, ht⟩
  | .unary ho _ => exact ⟨_, _, rfl, by rcases ho with ho | ho <;> rw [ho] <;> rfl⟩
  | .no ht | .yes ht | .nil ht | .var ht => exact ⟨_, _, rfl, by rw [ht]; rfl⟩
  | .literal ht => exact ⟨_, _, rfl, by rcases ht with ht | ht <;> rw [ht] <;> rfl⟩
  | .grouping ho _ _ => exact ⟨_, _, rfl, by rw [ho]; rfl⟩

theorem Rule.Spells.head_of_primary {ts : List Token} {e : Expr} (h : Rule.primary.Spells ts e) :
    ∃ t us, ts = t :: us ∧ t.kind ≠ .bang ∧ t.kind ≠ .minus := by
  cases h with
  | no ht | yes ht | nil ht | var ht => exact ⟨_, _, rfl, by simp [ht]⟩
  | literal ht => exact ⟨_, _, rfl, by rcases ht with ht | ht <;> simp [ht]⟩
  | grouping ho _ _ => exact ⟨_, _, rfl, by simp [ho]⟩

theorem Level.join_ne_var (l : Level) (left : Expr) (operator : Token) (right : Expr)
    (name : Token) : l.join left operator right ≠ .var name := by
  cases l <;> simp [Level.join]

theorem Level.Extends.eq_of_var {l : Level} {left e : Expr} {ts : List Token} {name : Token}
    (h : l.Extends left ts e) (he : e = .var name) : left = .var name ∧ ts = [] := by
  match h with
  | .done => exact ⟨he, rfl⟩
  | .operator _ _ h => exact absurd (h.eq_of_var he).1 (l.join_ne_var _ _ _ _)

theorem Level.Extends.single {l : Level} {left right : Expr} {operator : Token} {us : List Token}
    (ho : l.hasOperator operator.kind) (hr : l.operand.Spells us right) :
    l.Extends left (operator :: us) (l.join left operator right) := by
  rw [← List.append_nil us]
  exact .operator ho hr .done

theorem Level.Extends.snoc {l : Level} {left right e : Expr} {operator : Token}
    {ts us : List Token} (h : l.Extends left ts e) (ho : l.hasOperator operator.kind)
    (hr : l.operand.Spells us right) :
    l.Extends left (ts ++ operator :: us) (l.join e operator right) := by
  match h with
  | .done => exact .single ho hr
  | .operator ho' hr' hx =>
    rw [List.cons_append, List.append_assoc]
    exact .operator ho' hr' (hx.snoc ho hr)

theorem Rule.Spells.snoc {l : Level} {left right : Expr} {operator : Token} {us vs : List Token}
    (h : (Rule.level l).Spells us left) (ho : l.hasOperator operator.kind)
    (hr : l.operand.Spells vs right) :
    (Rule.level l).Spells (us ++ operator :: vs) (l.join left operator right) := by
  cases h with
  | chain hu hx =>
    rw [List.append_assoc]
    exact .chain hu (hx.snoc ho hr)

theorem Rule.Spells.operand_of_var {l : Level} {ts : List Token} {name : Token}
    (h : (Rule.level l).Spells ts (.var name)) : l.operand.Spells ts (.var name) := by
  cases h with
  | chain h hx =>
    obtain ⟨rfl, rfl⟩ := hx.eq_of_var rfl
    rwa [List.append_nil]

theorem Rule.Spells.eq_of_var {ts : List Token} {name : Token}
    (h : Rule.ternary.Spells ts (.var name)) : ts = [name] ∧ name.kind = .identifier := by
  cases h with
  | ofOr h =>
    have h : Rule.unary.Spells ts (.var name) :=
      h.operand_of_var.operand_of_var.operand_of_var.operand_of_var.operand_of_var.operand_of_var
    cases h with
    | ofPrimary h =>
      cases h with
      | var hn => exact ⟨rfl, hn⟩

theorem SpellsVariable.head {ts : List Token} {s : Stmt} (h : SpellsVariable ts s) :
    ∃ t us, ts = t :: us ∧ t.kind = .kwVar := by
  cases h with
  | plain hk _ _ | initial hk _ _ _ _ => exact ⟨_, _, rfl, hk⟩

theorem SpellsExpressionStatement.head {ts : List Token} {s : Stmt}
    (h : SpellsExpressionStatement ts s) : ∃ t us, ts = t :: us ∧ t.kind.startsExpression := by
  cases h with
  | mk h _ =>
    obtain ⟨t, us, rfl, ht⟩ := h.head
    exact ⟨t, _, rfl, ht⟩

def Kind.startsDeclaration (k : Kind) : Bool :=
  k.startsExpression || k == .leftBrace || k.startsStatement

theorem SpellsStatement.head {ts : List Token} {s : Stmt} {dangling : Bool}
    (h : SpellsStatement ts s dangling) :
    ∃ t us, ts = t :: us ∧ t.kind.startsDeclaration ∧ t.kind ≠ .kwVar := by
  cases h with
  | expression h =>
    obtain ⟨t, us, rfl, ht⟩ := h.head
    exact ⟨t, us, rfl, by simp [Kind.startsDeclaration, ht], fun hk => by rw [hk] at ht; cases ht⟩
  | print hk _ _ | block hk _ _ | loop hk _ _ _ _ | forLoop hk _ _ _ _ _ _ _
  | branch hk _ _ _ _ | branchElse hk _ _ _ _ _ _ =>
    exact ⟨_, _, rfl, by rw [hk]; rfl, by rw [hk]; decide⟩

theorem SpellsDeclaration.head {ts : List Token} {s : Stmt} (h : SpellsDeclaration ts s) :
    ∃ t us, ts = t :: us ∧ t.kind.startsDeclaration := by
  cases h with
  | declare h =>
    obtain ⟨t, us, rfl, ht⟩ := h.head
    exact ⟨t, us, rfl, by rw [ht]; rfl⟩
  | statement h =>
    obtain ⟨t, us, rfl, ht, _⟩ := h.head
    exact ⟨t, us, rfl, ht⟩

end Lox
