import Lox.Grammar.Statement

/-! # Cursors

A cursor is a place in a fixed list of tokens. Parsers run at a cursor and move it to where they
end. Unlike a parser, a cursor can look back.
-/

namespace Lox

structure Cursor where
  tokens : List Token
  position : Nat

namespace Cursor

/-- What a parser replies at the cursor, and the cursor after it. -/
def run {α : Type} (c : Cursor) (p : Parser α) : Reply α × Cursor :=
  let reply := p (c.tokens.drop c.position)
  (reply, { c with position := c.tokens.length - reply.rest.length })

/-- The token before the cursor. At the start it is the last of all. -/
def previous? (c : Cursor) : Option Token :=
  if c.position = 0 then c.tokens.getLast? else c.tokens[c.position - 1]?

/-- Move over the next token, unless it is the last, and look back. -/
def advance (c : Cursor) : Except Stop Token × Cursor :=
  match c.run Parser.skip with
  | (⟨.error e, _, _⟩, c) => (.error e, c)
  | (⟨.ok _, _, _⟩, c) =>
    match c.previous? with
    | none => (.error .pastEnd, c)
    | some t => (.ok t, c)

end Cursor
end Lox
