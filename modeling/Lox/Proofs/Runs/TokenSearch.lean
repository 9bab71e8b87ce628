import Lox.Run.Machine

/-! # The search for the first token

The search keeps a list of pending outlines in place of recursion. A turn of it leaves the tokens of
what is pending as they are, in their order, and makes what is pending smaller. So the search ends,
and what it finds is the first token of the tree from the left.
-/

namespace Lox

mutual

/-- The tokens of an expression, in the order of the parts of its nodes. -/
def Expr.tokens : Expr → List Token
  | .literal _ => []
  | .grouping e => e.tokens
  | .unary operator e => operator :: e.tokens
  | .binary l operator r | .logical l operator r => l.tokens ++ operator :: r.tokens
  | .ternary c l r => c.tokens ++ (l.tokens ++ r.tokens)
  | .var name => [name]
  | .assign name e => name :: e.tokens
  | .call f paren arguments => f.tokens ++ paren :: Expr.tokensIn arguments
  | .get object name => object.tokens ++ [name]
  | .set object name e => object.tokens ++ name :: e.tokens
  | .super keyword method => [keyword, method]
  | .this keyword => [keyword]
  | .blank | .missing => []

def Expr.tokensIn : List Expr → List Token
  | [] => []
  | e :: es => e.tokens ++ Expr.tokensIn es

end

def Expr.tokens? : Option Expr → List Token
  | none => []
  | some e => e.tokens

mutual

def Stmt.tokens : Stmt → List Token
  | .expression e | .print e | .loose e => e.tokens
  | .declare name initializer => name :: Expr.tokens? initializer
  | .block body => Program.tokens body
  | .branch c whenTrue none => c.tokens ++ whenTrue.tokens
  | .branch c whenTrue (some whenFalse) => c.tokens ++ (whenTrue.tokens ++ whenFalse.tokens)
  | .loop c body => c.tokens ++ body.tokens
  | .function name params body => name :: (params ++ Program.tokens body)
  | .classDef name superclass methods => name :: (superclass.toList ++ Program.tokens methods)
  | .giveBack keyword value => keyword :: Expr.tokens? value
  | .failed | .blank | .blankNode => []

def Program.tokens : List Stmt → List Token
  | [] => []
  | s :: p => s.tokens ++ Program.tokens p

end

namespace Outline

mutual

def tokens : Outline → List Token
  | token t => [t]
  | list items => tokensIn items
  | node _ parts => tokensIn parts
  | failed | absent | literal _ => []

def tokensIn : List Outline → List Token
  | [] => []
  | o :: os => o.tokens ++ tokensIn os

end

theorem tokensIn_append (os ps : List Outline) :
    tokensIn (os ++ ps) = tokensIn os ++ tokensIn ps := by
  induction os with
  | nil => rfl
  | cons o os ih => rw [List.cons_append, tokensIn, tokensIn, ih, List.append_assoc]

theorem tokensIn_map_token (ts : List Token) : tokensIn (ts.map token) = ts := by
  induction ts with
  | nil => rfl
  | cons t ts ih => rw [List.map_cons, tokensIn, tokens, ih, List.singleton_append]

end Outline

mutual

theorem Expr.tokens_outline (e : Expr) : e.outline.tokens = e.tokens := by
  cases e with
  | grouping e | unary _ e | assign _ e | get e _ =>
    simp [outline, tokens, Outline.tokens, Outline.tokensIn, Expr.tokens_outline e]
  | binary l _ r | logical l _ r | set l _ r =>
    simp [outline, tokens, Outline.tokens, Outline.tokensIn, Expr.tokens_outline l,
      Expr.tokens_outline r]
  | ternary c l r =>
    simp [outline, tokens, Outline.tokens, Outline.tokensIn, Expr.tokens_outline c,
      Expr.tokens_outline l, Expr.tokens_outline r]
  | call f _ arguments =>
    simp [outline, tokens, Outline.tokens, Outline.tokensIn, Expr.tokens_outline f,
      Expr.tokensIn_outlines arguments]
  | literal | var | super | this | blank | missing => rfl

theorem Expr.tokensIn_outlines (es : List Expr) :
    Outline.tokensIn (Expr.outlines es) = Expr.tokensIn es := by
  cases es with
  | nil => rfl
  | cons e es =>
    rw [Expr.outlines, Outline.tokensIn, Expr.tokensIn, Expr.tokens_outline e,
      Expr.tokensIn_outlines es]

end

theorem Expr.tokens_outline? (e : Option Expr) : (Expr.outline? e).tokens = Expr.tokens? e := by
  cases e with
  | none => rfl
  | some e => exact e.tokens_outline

mutual

theorem Stmt.tokens_outline (s : Stmt) : s.outline.tokens = s.tokens := by
  cases s with
  | expression e | print e | loose e =>
    simp [outline, tokens, Outline.tokens, Outline.tokensIn, Expr.tokens_outline]
  | declare _ e | giveBack _ e =>
    simp [outline, tokens, Outline.tokens, Outline.tokensIn, Expr.tokens_outline?]
  | block body =>
    simp [outline, tokens, Outline.tokens, Outline.tokensIn, Stmt.tokensIn_outlines body]
  | branch c whenTrue whenFalse =>
    cases whenFalse with
    | none =>
      simp [outline, tokens, Outline.tokens, Outline.tokensIn, Expr.tokens_outline,
        Stmt.tokens_outline whenTrue]
    | some whenFalse =>
      simp [outline, tokens, Outline.tokens, Outline.tokensIn, Expr.tokens_outline,
        Stmt.tokens_outline whenTrue, Stmt.tokens_outline whenFalse]
  | loop c body =>
    simp [outline, tokens, Outline.tokens, Outline.tokensIn, Expr.tokens_outline,
      Stmt.tokens_outline body]
  | function _ params body =>
    simp [outline, tokens, Outline.tokens, Outline.tokensIn, Outline.tokensIn_map_token,
      Stmt.tokensIn_outlines body]
  | classDef _ superclass methods =>
    cases superclass <;>
      simp [outline, tokens, Outline.tokens, Outline.tokensIn, Stmt.tokensIn_outlines methods]
  | failed | blank | blankNode => rfl

theorem Stmt.tokensIn_outlines (p : List Stmt) :
    Outline.tokensIn (Stmt.outlines p) = Program.tokens p := by
  cases p with
  | nil => rfl
  | cons s p =>
    rw [Stmt.outlines, Outline.tokensIn, Program.tokens, Stmt.tokens_outline s,
      Stmt.tokensIn_outlines p]

end

namespace Outline

/-- A turn of the search with the outline that is pending first: a list or a node is replaced by
what it holds, and an outline that holds nothing is dropped. There is no turn with a token. -/
inductive Turn : List Outline → List Outline → Prop
  | list {items pending : List Outline} : Turn (list items :: pending) (items ++ pending)
  | node {kind : NodeKind} {parts pending : List Outline} :
      Turn (node kind parts :: pending) (parts ++ pending)
  | literal {v : Value} {pending : List Outline} : Turn (literal v :: pending) pending
  | absent {pending : List Outline} : Turn (absent :: pending) pending
  | failed {pending : List Outline} : Turn (failed :: pending) pending

inductive Turns : Nat → List Outline → List Outline → Prop
  | done {os : List Outline} : Turns 0 os os
  | turn {n : Nat} {os ps qs : List Outline} : Turn os ps → Turns n ps qs → Turns (n + 1) os qs

variable {os ps : List Outline} {n : Nat}

theorem Turn.tokensIn_eq (h : Turn os ps) : tokensIn ps = tokensIn os := by
  cases h with
  | list | node => rw [tokensIn_append, tokensIn, tokens]
  | literal | absent | failed => rfl

theorem Turn.sizes_lt (h : Turn os ps) : sizes ps < sizes os := by
  cases h with
  | list | node => simp [sizes, size, sizes_append]
  | literal | absent | failed => simp [sizes, size]

theorem Turn.firstToken?_eq (h : Turn os ps) : firstToken? ps = firstToken? os := by
  cases h <;> simp [firstToken?]

theorem Turns.firstToken?_eq (h : Turns n os ps) : firstToken? ps = firstToken? os := by
  induction h with
  | done => rfl
  | turn h _ ih => rw [ih, h.firstToken?_eq]

/-- Each turn makes what is pending smaller, so there are not many. -/
theorem Turns.sizes_le (h : Turns n os ps) : n + sizes ps ≤ sizes os := by
  induction h with
  | done => omega
  | turn h _ ih =>
    have := h.sizes_lt
    omega

theorem token_or_turn (o : Outline) (os : List Outline) :
    (∃ t, o = token t) ∨ ∃ ps, Turn (o :: os) ps := by
  cases o with
  | token t => exact .inl ⟨t, rfl⟩
  | list items => exact .inr ⟨_, .list⟩
  | node kind parts => exact .inr ⟨_, .node⟩
  | literal v => exact .inr ⟨_, .literal⟩
  | absent => exact .inr ⟨_, .absent⟩
  | failed => exact .inr ⟨_, .failed⟩

/-- The turns bring the first token to the front, or leave nothing if there is no token. -/
theorem exists_turns (os : List Outline) :
    ∃ n ps, Turns n os ps ∧ ps.head? = (tokensIn os).head?.map token := by
  cases os with
  | nil => exact ⟨0, [], .done, rfl⟩
  | cons o os =>
    obtain ⟨t, rfl⟩ | ⟨ps, hturn⟩ := token_or_turn o os
    · exact ⟨0, _, .done, rfl⟩
    · have := hturn.sizes_lt
      obtain ⟨n, qs, hturns, hhead⟩ := exists_turns ps
      exact ⟨n + 1, qs, .turn hturn hturns, hturn.tokensIn_eq ▸ hhead⟩
termination_by sizes os

/-- What the search finds is the first of the tokens. -/
theorem firstToken?_eq_head? (os : List Outline) : firstToken? os = (tokensIn os).head? := by
  obtain ⟨n, ps, hturns, hhead⟩ := exists_turns os
  rw [← hturns.firstToken?_eq]
  cases ht : (tokensIn os).head? with
  | none =>
    rw [ht, Option.map_none, List.head?_eq_none_iff] at hhead
    rw [hhead, firstToken?]
  | some t =>
    rw [ht, Option.map_some] at hhead
    obtain ⟨qs, rfl⟩ := List.head?_eq_some_iff.mp hhead
    rw [firstToken?]

end Outline

theorem Stmt.tokensIn_outline (s : Stmt) : Outline.tokensIn [s.outline] = s.tokens := by
  rw [Outline.tokensIn, Outline.tokensIn, List.append_nil, tokens_outline]

theorem Stmt.firstToken_eq (s : Stmt) : s.firstToken = s.tokens.headD (.eof 1) := by
  rw [firstToken, Outline.firstToken?_eq_head?, tokensIn_outline, List.headD_eq_head?_getD]

/-- The first token of a statement is the first of its tokens from the left, and one of kind `eof`
if it has none. The search takes at most as many turns as the tree has parts, and ends with that
token in front. An expression is such a tree as well, as a statement that is loose. -/
theorem Stmt.firstToken_leftmost (s : Stmt) :
    s.firstToken = s.tokens.headD (.eof 1) ∧
      ∃ n ≤ s.outline.size, ∃ os, Outline.Turns n [s.outline] os ∧
        os.head? = s.tokens.head?.map Outline.token := by
  obtain ⟨n, os, hturns, hhead⟩ := Outline.exists_turns [s.outline]
  have hsize := hturns.sizes_le
  rw [Outline.sizes, Outline.sizes] at hsize
  rw [tokensIn_outline] at hhead
  exact ⟨s.firstToken_eq, n, by omega, os, hturns, hhead⟩

end Lox
