import Lox.Token.Basic

/-! # The grammar and its language

A phrase describes lists of tokens by their kinds. The grammar has a phrase for every symbol, and
what a phrase derives is the least language that agrees with the grammar.
-/

namespace Lox.Grammar

inductive Symbol
  | program | declaration | variable
  | statement | forLoop | branch | print | loop | block | expressionStatement
  | expression | assignment | ternary
  | or | and | equality | comparison | term | factor | unary | primary
  deriving DecidableEq

inductive Phrase
  | kind (k : Kind)
  | symbol (s : Symbol)
  | seq (p q : Phrase)
  | alt (p q : Phrase)
  | opt (p : Phrase)
  | many (p : Phrase)

namespace Phrase

instance : Append Phrase := ⟨seq⟩

instance : OrOp Phrase := ⟨alt⟩

def operators (operand : Symbol) (operator : Phrase) : Phrase :=
  symbol operand ++ many (operator ++ symbol operand)

def parenthesised (p : Phrase) : Phrase := kind .leftParen ++ p ++ kind .rightParen

end Phrase

open Phrase

/-- The grammar of programs. Only a name can be assigned to. -/
def rules : Symbol → Phrase
  | .program => many (symbol .declaration)
  | .declaration => symbol .variable ||| symbol .statement
  | .variable => kind .kwVar ++ kind .identifier ++
      opt (kind .equal ++ symbol .expression) ++ kind .semicolon
  | .statement => symbol .forLoop ||| symbol .branch ||| symbol .print ||| symbol .loop |||
      symbol .block ||| symbol .expressionStatement
  | .forLoop => kind .kwFor ++ parenthesised
      ((symbol .variable ||| symbol .expressionStatement ||| kind .semicolon) ++
        opt (symbol .expression) ++ kind .semicolon ++ opt (symbol .expression)) ++
      symbol .statement
  | .branch => kind .kwIf ++ parenthesised (symbol .expression) ++ symbol .statement ++
      opt (kind .kwElse ++ symbol .statement)
  | .print => kind .kwPrint ++ symbol .expression ++ kind .semicolon
  | .loop => kind .kwWhile ++ parenthesised (symbol .expression) ++ symbol .statement
  | .block => kind .leftBrace ++ many (symbol .declaration) ++ kind .rightBrace
  | .expressionStatement => symbol .expression ++ kind .semicolon
  | .expression => symbol .assignment
  | .assignment => kind .identifier ++ kind .equal ++ symbol .assignment ||| symbol .ternary
  | .ternary => symbol .or ++
      opt (kind .questionMark ++ symbol .expression ++ kind .colon ++ symbol .expression)
  | .or => operators .and (kind .kwOr)
  | .and => operators .equality (kind .kwAnd)
  | .equality => operators .comparison (kind .bangEqual ||| kind .equalEqual)
  | .comparison => operators .term
      (kind .greater ||| kind .greaterEqual ||| kind .less ||| kind .lessEqual)
  | .term => operators .factor (kind .minus ||| kind .plus)
  | .factor => operators .unary (kind .slash ||| kind .star)
  | .unary => (kind .bang ||| kind .minus) ++ symbol .unary ||| symbol .primary
  | .primary => kind .number ||| kind .string ||| kind .kwTrue ||| kind .kwFalse ||| kind .kwNil |||
      kind .identifier ||| parenthesised (symbol .expression)

inductive Derives (g : Symbol → Phrase) : Phrase → List Token → Prop
  | kind (t : Token) : Derives g (kind t.kind) [t]
  | symbol {s ts} : Derives g (g s) ts → Derives g (symbol s) ts
  | seq {p q us vs} : Derives g p us → Derives g q vs → Derives g (p ++ q) (us ++ vs)
  | left {p q ts} : Derives g p ts → Derives g (p ||| q) ts
  | right {p q ts} : Derives g q ts → Derives g (p ||| q) ts
  | none {p} : Derives g (opt p) []
  | some {p ts} : Derives g p ts → Derives g (opt p) ts
  | nil {p} : Derives g (many p) []
  | cons {p us vs} : Derives g p us → Derives g (many p) vs → Derives g (many p) (us ++ vs)

namespace Phrase

/-- The language of a phrase, given one for every symbol. -/
def Language (L : Symbol → List Token → Prop) : Phrase → List Token → Prop
  | kind k, ts => ∃ t : Token, t.kind = k ∧ ts = [t]
  | symbol s, ts => L s ts
  | seq p q, ts => ∃ us vs, ts = us ++ vs ∧ p.Language L us ∧ q.Language L vs
  | alt p q, ts => p.Language L ts ∨ q.Language L ts
  | opt p, ts => ts = [] ∨ p.Language L ts
  | many p, ts => ∃ pieces : List (List Token), ts = pieces.flatten ∧
      ∀ us ∈ pieces, p.Language L us

variable {L : Symbol → List Token → Prop} {p q : Phrase} {k : Kind} {ts : List Token}

@[simp] theorem language_kind : (kind k).Language L ts ↔ ∃ t : Token, t.kind = k ∧ ts = [t] :=
  Iff.rfl

@[simp] theorem language_alt : (p ||| q).Language L ts ↔ p.Language L ts ∨ q.Language L ts :=
  Iff.rfl

end Phrase

/-- What a grammar derives lies in every family of languages that the grammar's phrases stay in. -/
theorem Derives.least {g : Symbol → Phrase} {L : Symbol → List Token → Prop}
    (hL : ∀ s ts, (g s).Language L ts → L s ts) {p : Phrase} {ts : List Token}
    (h : Derives g p ts) : p.Language L ts := by
  induction h with
  | kind t => exact ⟨t, rfl, rfl⟩
  | symbol _ ih => exact hL _ _ ih
  | seq _ _ ih ih' => exact ⟨_, _, rfl, ih, ih'⟩
  | left _ ih => exact Or.inl ih
  | right _ ih => exact Or.inr ih
  | none => exact Or.inl rfl
  | some _ ih => exact Or.inr ih
  | nil => exact ⟨[], rfl, by simp⟩
  | cons _ _ ih ih' =>
    obtain ⟨pieces, rfl, hp⟩ := ih'
    exact ⟨_ :: pieces, rfl, by simpa using ⟨ih, hp⟩⟩

end Lox.Grammar
