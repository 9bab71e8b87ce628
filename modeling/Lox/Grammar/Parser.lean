import Lox.Tree.Basic

/-! # Parsers

A parser reads from the front of a list of tokens. Its reply holds a result or the reason why there
is none, the tokens that are left, and the faults found on the way, in order. A parser that stops
keeps its faults and its place.
-/

namespace Lox

inductive SyntaxError
  | expectExpression
  | expectColonOfTernary
  | expectParenAfterExpression
  | expectVariableName
  | expectSemicolonAfterDeclaration
  | expectSemicolonAfterExpression
  | expectSemicolonAfterValue
  | expectParenAfterFor
  | expectSemicolonAfterCondition
  | expectParenAfterClauses
  | expectParenAfterIf
  | expectParenAfterIfCondition
  | expectParenAfterWhile
  | expectParenAfterWhileCondition
  | expectBraceAfterBlock
  | invalidTarget
  | tooDeep
  deriving DecidableEq

namespace SyntaxError

def message : SyntaxError → String
  | expectExpression => "Expect expression."
  | expectColonOfTernary => "Expect : after ternary expression."
  | expectParenAfterExpression => "Expect ')' after expression."
  | expectVariableName => "Expect variable name."
  | expectSemicolonAfterDeclaration => "Expect ';' after variable declaration."
  | expectSemicolonAfterExpression => "Expect ';' after expression."
  | expectSemicolonAfterValue => "Expect ';' after value."
  | expectParenAfterFor => "Expect '(' after 'for'."
  | expectSemicolonAfterCondition => "Expect ';' after loop condition."
  | expectParenAfterClauses => "Expect ')' after for clauses."
  | expectParenAfterIf => "Expect '(' after 'if'."
  | expectParenAfterIfCondition => "Expect ')' after if condition."
  | expectParenAfterWhile => "Expect '(' after 'while'."
  | expectParenAfterWhileCondition => "Expect ')' after while condition."
  | expectBraceAfterBlock => "Expect \x27\x7d' after block."
  | invalidTarget => "Invalid assignment target."
  | tooDeep => "Expression nesting too deep."

/-- Whether the statement with the error is given up where the error is found, and reading goes on
after it. -/
def isRaised : SyntaxError → Bool
  | invalidTarget | tooDeep => false
  | _ => true

end SyntaxError

structure Fault where
  token : Token
  error : SyntaxError
  deriving DecidableEq

/-- Why a parser has no result. -/
inductive Stop
  /-- The error has been noted as a fault. -/
  | raised (error : SyntaxError)
  /-- The rules are nested deeper than allowed. -/
  | tooDeep
  /-- A token was wanted after the last one. -/
  | pastEnd
  deriving DecidableEq

structure Reply (α : Type) where
  result : Except Stop α
  rest : List Token
  faults : List Fault

def Parser (α : Type) : Type := List Token → Reply α

namespace Parser

protected def pure {α : Type} (a : α) : Parser α := fun ts => ⟨.ok a, ts, []⟩

protected def bind {α β : Type} (p : Parser α) (f : α → Parser β) : Parser β := fun ts =>
  match p ts with
  | ⟨.ok a, rest, faults⟩ =>
    let reply := f a rest
    { reply with faults := faults ++ reply.faults }
  | ⟨.error stop, rest, faults⟩ => ⟨.error stop, rest, faults⟩

protected def map {α β : Type} (f : α → β) (p : Parser α) : Parser β := fun ts =>
  let reply := p ts
  { reply with result := reply.result.map f }

@[always_inline] instance : Monad Parser where
  map := Parser.map
  pure := Parser.pure
  bind := Parser.bind

theorem pure_apply {α : Type} (a : α) (ts : List Token) :
    (pure a : Parser α) ts = ⟨.ok a, ts, []⟩ := rfl

theorem map_apply {α β : Type} (f : α → β) (p : Parser α) (ts : List Token) :
    (f <$> p) ts = ⟨(p ts).result.map f, (p ts).rest, (p ts).faults⟩ := rfl

theorem bind_ok {α β : Type} {p : Parser α} {ts rest : List Token} {a : α} {faults : List Fault}
    (h : p ts = ⟨.ok a, rest, faults⟩) (f : α → Parser β) :
    (p >>= f) ts = ⟨(f a rest).result, (f a rest).rest, faults ++ (f a rest).faults⟩ := by
  simp only [bind, Parser.bind, h]

theorem bind_error {α β : Type} {p : Parser α} {ts rest : List Token} {s : Stop}
    {faults : List Fault} (h : p ts = ⟨.error s, rest, faults⟩) (f : α → Parser β) :
    (p >>= f) ts = ⟨.error s, rest, faults⟩ := by
  simp only [bind, Parser.bind, h]

theorem bind_pure_eq_map {α β : Type} (f : α → β) (p : Parser α) :
    (p >>= fun a => pure (f a)) = f <$> p := by
  funext ts
  rw [map_apply]
  rcases h : p ts with ⟨r, rest, faults⟩
  cases r with
  | error s => rw [bind_error h]; rfl
  | ok a => rw [bind_ok h, pure_apply, List.append_nil]; rfl

theorem bind_bind {α β γ : Type} (p : Parser α) (f : α → Parser β) (g : β → Parser γ) :
    (p >>= f >>= g) = p >>= fun a => f a >>= g := by
  funext ts
  rcases h : p ts with ⟨r, rest, faults⟩
  cases r with
  | error s => rw [bind_error h, bind_error (bind_error h f)]
  | ok a =>
    have hf := bind_ok h f
    rcases h' : f a rest with ⟨r', rest', faults'⟩
    rw [h'] at hf
    cases r' with
    | error s => rw [bind_ok h, bind_error hf, bind_error h']
    | ok b => rw [bind_ok h, bind_ok hf, bind_ok h', List.append_assoc]

instance : LawfulMonad Parser :=
  .mk' Parser
    (fun p => by
      funext ts
      rw [map_apply]
      rcases p ts with ⟨r, rest, faults⟩
      cases r <;> rfl)
    (fun a f => by
      funext ts
      rw [bind_ok (pure_apply a ts)]
      rfl)
    bind_bind
    (fun _ _ => rfl)
    (fun _ _ => rfl)
    (fun _ _ => rfl)
    bind_pure_eq_map
    (fun _ _ => rfl)

def stop {α : Type} (s : Stop) : Parser α := fun ts => ⟨.error s, ts, []⟩

def peek : Parser Token := fun
  | [] => stop .pastEnd []
  | t :: ts => ⟨.ok t, t :: ts, []⟩

def note (t : Token) (e : SyntaxError) : Parser Unit := fun ts => ⟨.ok (), ts, [⟨t, e⟩]⟩

def raise {α : Type} (t : Token) (e : SyntaxError) : Parser α := fun ts =>
  ⟨.error (.raised e), ts, [⟨t, e⟩]⟩

def atEnd : Parser Bool := do return (← peek).kind == .eof

/-- Move over the next token, unless it is the last. -/
def skip : Parser Unit := fun
  | [] => stop .pastEnd []
  | t :: ts => ⟨.ok (), if t.kind = .eof then t :: ts else ts, []⟩

/-- Whether the next token is of the kind, and not the end. -/
def check (k : Kind) : Parser Bool := do
  let t ← peek
  return t.kind != .eof && t.kind == k

/-- Move over the next token if its kind is accepted; never over the end. -/
def accept (accepted : Kind → Bool) : Parser (Option Token) := fun
  | [] => stop .pastEnd []
  | t :: ts =>
    if t.kind != .eof && accepted t.kind then ⟨.ok (some t), ts, []⟩ else ⟨.ok none, t :: ts, []⟩

def accepts (k : Kind) : Parser Bool := do return (← accept (· == k)).isSome

def expect (k : Kind) (e : SyntaxError) : Parser Token := do
  match ← accept (· == k) with
  | some t => return t
  | none => raise (← peek) e

end Parser
end Lox
