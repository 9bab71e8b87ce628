import Lox.Grammar.Statement

/-! # What parsers do with the next token

One equation for each way a parser can meet the next token.
-/

namespace Lox.Parser

variable {α β : Type} {t : Token} {ts : List Token}

@[simp] theorem peek_cons : peek (t :: ts) = ⟨.ok t, t :: ts, []⟩ := rfl

theorem skip_cons (h : t.kind ≠ .eof) : skip (t :: ts) = ⟨.ok (), ts, []⟩ := by
  simp [skip, h]

theorem accept_some {accepted : Kind → Bool} (h : t.kind ≠ .eof) (ha : accepted t.kind) :
    accept accepted (t :: ts) = ⟨.ok (some t), ts, []⟩ := by
  simp [accept, h, ha]

theorem accept_none {accepted : Kind → Bool} (h : t.kind = .eof ∨ accepted t.kind = false) :
    accept accepted (t :: ts) = ⟨.ok none, t :: ts, []⟩ := by
  rcases h with h | h <;> simp [accept, h]

theorem accept_kind {k : Kind} (h : t.kind = k) (hk : k ≠ .eof) :
    accept (· == k) (t :: ts) = ⟨.ok (some t), ts, []⟩ :=
  accept_some (h ▸ hk) (beq_iff_eq.mpr h)

theorem accept_kind_none {k : Kind} (h : t.kind ≠ k) :
    accept (· == k) (t :: ts) = ⟨.ok none, t :: ts, []⟩ :=
  accept_none (.inr (beq_false_of_ne h))

theorem accepts_true {k : Kind} (h : t.kind = k) (hk : k ≠ .eof) :
    accepts k (t :: ts) = ⟨.ok true, ts, []⟩ := by
  rw [accepts, bind_ok (accept_kind h hk)]; rfl

theorem accepts_false {k : Kind} (h : t.kind ≠ k) :
    accepts k (t :: ts) = ⟨.ok false, t :: ts, []⟩ := by
  rw [accepts, bind_ok (accept_kind_none h)]; rfl

theorem ifAccepts_true {k : Kind} {p q : Parser α} (h : t.kind = k) (hk : k ≠ .eof) :
    (do if ← accepts k then p else q : Parser α) (t :: ts) = p ts := by
  rw [bind_ok (accepts_true h hk)]; rfl

theorem ifAccepts_false {k : Kind} {p q : Parser α} (h : t.kind ≠ k) :
    (do if ← accepts k then p else q : Parser α) (t :: ts) = q (t :: ts) := by
  rw [bind_ok (accepts_false h)]; rfl

theorem expect_ok {k : Kind} (e : SyntaxError) (h : t.kind = k) (hk : k ≠ .eof) :
    expect k e (t :: ts) = ⟨.ok t, ts, []⟩ := by
  rw [expect, bind_ok (accept_kind h hk)]; rfl

theorem expect_error {k : Kind} (e : SyntaxError) (h : t.kind ≠ k) :
    expect k e (t :: ts) = ⟨.error (.raised e), t :: ts, [⟨t, e⟩]⟩ := by
  rw [expect, bind_ok (accept_kind_none h)]; rfl

theorem check_cons {k : Kind} :
    check k (t :: ts) = ⟨.ok (t.kind != .eof && t.kind == k), t :: ts, []⟩ := rfl

theorem atEnd_cons : atEnd (t :: ts) = ⟨.ok (t.kind == .eof), t :: ts, []⟩ := rfl

theorem optional_true {k : Kind} {p : Parser α} {f : Option α → Parser β} (h : t.kind = k)
    (hk : k ≠ .eof) :
    (do
      let x ← if ← accepts k then some <$> p else pure none
      f x : Parser β) (t :: ts) = (p >>= fun a => f (some a)) ts := by
  rw [ifAccepts_true h hk, map_eq_pure_bind, bind_assoc]
  simp only [pure_bind]

theorem optional_false {k : Kind} {p : Parser α} {f : Option α → Parser β} (h : t.kind ≠ k) :
    (do
      let x ← if ← accepts k then some <$> p else pure none
      f x : Parser β) (t :: ts) = f none (t :: ts) := by
  rw [ifAccepts_false h, pure_bind]

theorem unless_true {k : Kind} {p : Parser α} {f : Option α → Parser β} (h : t.kind = k)
    (hk : k ≠ .eof) :
    (do
      let x ← if ← check k then pure none else some <$> p
      f x : Parser β) (t :: ts) = f none (t :: ts) := by
  subst h
  rw [bind_ok check_cons]
  simp [hk]

theorem unless_false {k : Kind} {p : Parser α} {f : Option α → Parser β} (h : t.kind ≠ k) :
    (do
      let x ← if ← check k then pure none else some <$> p
      f x : Parser β) (t :: ts) = (p >>= fun a => f (some a)) (t :: ts) := by
  rw [bind_ok check_cons]
  simp [h]

theorem primary_cons (inner : Parser Expr) :
    primary inner (t :: ts) =
      match t.kind with
      | .kwFalse => ⟨.ok (.literal (.bool false)), ts, []⟩
      | .kwTrue => ⟨.ok (.literal (.bool true)), ts, []⟩
      | .kwNil => ⟨.ok (.literal .nil), ts, []⟩
      | .number | .string => ⟨.ok (.literal t.literal), ts, []⟩
      | .identifier => ⟨.ok (.var t), ts, []⟩
      | .leftParen => (do
          let e ← inner
          let _ ← expect .rightParen .expectParenAfterExpression
          return .grouping e : Parser Expr) ts
      | _ => ⟨.error (.raised .expectExpression), t :: ts, [⟨t, .expectExpression⟩]⟩ := by
  rw [primary, bind_ok peek_cons]
  cases h : t.kind <;> dsimp only
  case kwFalse | kwTrue | kwNil | number | string | identifier | leftParen =>
    rw [bind_ok (skip_cons (by rw [h]; decide))]
    rfl
  all_goals rfl

/-- What a statement is, is told by its first token. -/
theorem statement_cons (depth : Nat) :
    statement (depth + 1) (t :: ts) =
      match t.kind with
      | .kwFor => forStatement depth (statement depth) ts
      | .kwIf => ifStatement depth (statement depth) ts
      | .kwPrint => printStatement depth ts
      | .kwWhile => whileStatement depth (statement depth) ts
      | .leftBrace => (.block <$> blockOf (declaration depth) ts : Parser Stmt) ts
      | _ => expressionStatement depth (t :: ts) := by
  rw [statement]
  cases h : t.kind <;> dsimp only
  case kwFor => rw [ifAccepts_true h (by decide)]
  case kwIf => rw [ifAccepts_false (by simp [h]), ifAccepts_true h (by decide)]
  case kwPrint =>
    rw [ifAccepts_false (by simp [h]), ifAccepts_false (by simp [h]), ifAccepts_true h (by decide)]
  case kwWhile =>
    rw [ifAccepts_false (by simp [h]), ifAccepts_false (by simp [h]), ifAccepts_false (by simp [h]),
      ifAccepts_true h (by decide)]
  case leftBrace =>
    rw [ifAccepts_false (by simp [h]), ifAccepts_false (by simp [h]), ifAccepts_false (by simp [h]),
      ifAccepts_false (by simp [h])]
    exact ifAccepts_true h (by decide)
  all_goals
    rw [ifAccepts_false (by simp [h]), ifAccepts_false (by simp [h]), ifAccepts_false (by simp [h]),
      ifAccepts_false (by simp [h])]
    exact ifAccepts_false (by simp [h])

theorem blockOf_cons {declaration : Parser Stmt} {c : Token} {clock : List Token} :
    blockOf declaration (c :: clock) (t :: ts) =
      if t.kind = .rightBrace then ⟨.ok [], ts, []⟩
      else if t.kind = .eof then
        ⟨.error (.raised .expectBraceAfterBlock), t :: ts, [⟨t, .expectBraceAfterBlock⟩]⟩
      else (do
        let s ← declaration
        (s :: ·) <$> blockOf declaration clock : Parser (List Stmt)) (t :: ts) := by
  rw [blockOf, bind_ok check_cons]
  simp only [bind_ok atEnd_cons, List.nil_append]
  by_cases hb : t.kind = .rightBrace
  · simp [hb, bind_ok (expect_ok _ hb (by decide)), pure_apply]
  · by_cases he : t.kind = .eof
    · simp [he, bind_error (expect_error _ hb)]
    · simp [hb, he]

theorem programOf_cons {depth : Nat} {c : Token} {clock : List Token} :
    programOf depth (c :: clock) (t :: ts) =
      if t.kind = .eof then ⟨.ok [], t :: ts, []⟩
      else (do
        let s ← topLevel depth
        (s :: ·) <$> programOf depth clock : Parser Program) (t :: ts) := by
  rw [programOf, bind_ok atEnd_cons]
  by_cases h : t.kind = .eof
  · simp [h, pure_apply]
  · simp [h]

end Lox.Parser
