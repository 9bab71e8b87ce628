import Lox.Proofs.Grammar.Completeness
import Lox.Proofs.Grammar.Language

/-! # The parser recognises the grammar

What the grammar derives is what spells a program. The grammar leaves open where an `else` belongs;
if it has been derived with an outer `if`, it can be moved to the nearest one.
-/

namespace Lox

open Grammar Phrase

namespace Level

def symbol : Level → Symbol
  | or => .or
  | and => .and
  | equality => .equality
  | comparison => .comparison
  | term => .term
  | factor => .factor

def operators : Level → Phrase
  | or => kind .kwOr
  | and => kind .kwAnd
  | equality => kind .bangEqual ||| kind .equalEqual
  | comparison => kind .greater ||| kind .greaterEqual ||| kind .less ||| kind .lessEqual
  | term => kind .minus ||| kind .plus
  | factor => kind .slash ||| kind .star

end Level

def Rule.symbol : Rule → Symbol
  | assignment => .assignment
  | ternary => .ternary
  | level l => l.symbol
  | unary => .unary
  | primary => .primary

theorem rules_level (l : Level) :
    rules l.symbol = Phrase.operators l.operand.symbol l.operators := by
  cases l <;> rfl

namespace Grammar.Derives

variable {g : Symbol → Phrase} {t : Token} {k : Kind}

theorem token (h : t.kind = k) : Derives g (Phrase.kind k) [t] := h ▸ .kind t

theorem congr {p : Phrase} {us vs : List Token} (h : Derives g p us) (he : us = vs) :
    Derives g p vs := he ▸ h

theorem parenthesised {opening closing : Token} {p : Phrase} {ts : List Token}
    (ho : opening.kind = .leftParen) (h : Derives g p ts) (hc : closing.kind = .rightParen) :
    Derives g (parenthesised p) ([opening] ++ ts ++ [closing]) :=
  .seq (.seq (token ho) h) (token hc)

end Grammar.Derives

theorem Level.derives_operators {g : Symbol → Phrase} {l : Level} {t : Token}
    (h : l.hasOperator t.kind) : Derives g l.operators [t] := by
  cases l <;> simp only [hasOperator, Bool.or_eq_true, beq_iff_eq] at h
  case or | and => exact .token h
  case equality | term | factor => exact h.elim (.left ∘ .token) (.right ∘ .token)
  case comparison =>
    rcases h with ((h | h) | h) | h
    · exact .left (.left (.left (.token h)))
    · exact .left (.left (.right (.token h)))
    · exact .left (.right (.token h))
    · exact .right (.token h)

theorem derives_primary {g : Symbol → Phrase} {t : Token}
    (h : t.kind ∈ [.number, .string, .kwTrue, .kwFalse, .kwNil, .identifier]) :
    Derives g (rules .primary) [t] := by
  simp only [List.mem_cons, List.not_mem_nil, or_false] at h
  rcases h with h | h | h | h | h | h
  · exact .left (.left (.left (.left (.left (.left (.token h))))))
  · exact .left (.left (.left (.left (.left (.right (.token h))))))
  · exact .left (.left (.left (.left (.right (.token h)))))
  · exact .left (.left (.left (.right (.token h))))
  · exact .left (.left (.right (.token h)))
  · exact .left (.right (.token h))

mutual

theorem Rule.Spells.derives {r : Rule} {ts : List Token} {e : Expr} (h : r.Spells ts e) :
    Derives rules (.symbol r.symbol) ts := by
  match h with
  | .assign hn hk h => exact .symbol (.left (.seq (.seq (.token hn) (.token hk)) h.derives))
  | .ofTernary h => exact .symbol (.right h.derives)
  | @Rule.Spells.choice q c _ ls _ _ _ _ hq hc hcs hls hrs =>
    have hx : Derives rules (opt (kind .questionMark ++ symbol .expression ++ kind .colon ++
        symbol .expression)) ([q] ++ ls ++ [c] ++ _) :=
      .some (.seq (.seq (.seq (.token hq) (.symbol hls.derives)) (.token hc)) (.symbol hrs.derives))
    simp only [List.append_assoc, List.cons_append, List.nil_append] at hx
    exact .symbol (.seq hcs.derives hx)
  | @Rule.Spells.ofOr ts _ h =>
    rw [← List.append_nil ts]
    exact .symbol (.seq h.derives .none)
  | .chain (l := l) hu hx =>
    refine .symbol ?_
    rw [Rule.symbol, rules_level]
    exact .seq hu.derives hx.derives
  | .unary ho h =>
    exact .symbol (.left (.seq (ho.elim (.left ∘ .token) (.right ∘ .token)) h.derives))
  | .ofPrimary h => exact .symbol (.right h.derives)
  | .literal ht => rcases ht with ht | ht <;> exact .symbol (derives_primary (by simp [ht]))
  | .yes ht | .no ht | .nil ht | .var ht => exact .symbol (derives_primary (by simp [ht]))
  | .grouping ho hc h => exact .symbol (.right (.parenthesised ho (.symbol h.derives) hc))

theorem Level.Extends.derives {l : Level} {left e : Expr} {ts : List Token}
    (h : l.Extends left ts e) :
    Derives rules (many (l.operators ++ symbol l.operand.symbol)) ts := by
  match h with
  | .done => exact .nil
  | .operator ho hu hx =>
    exact .cons (.seq (Level.derives_operators ho) hu.derives) hx.derives

end

theorem SpellsOptional.derives {ts : List Token} {x : Option Expr} (h : SpellsOptional ts x) :
    Derives rules (opt (symbol .expression)) ts := by
  cases h with
  | absent => exact .none
  | present h => exact .some (.symbol h.derives)

theorem SpellsVariable.derives {ts : List Token} {s : Stmt} (h : SpellsVariable ts s) :
    Derives rules (symbol .variable) ts := by
  cases h with
  | plain hk hn hs => exact .symbol (.seq (.seq (.seq (.token hk) (.token hn)) .none) (.token hs))
  | initial hk hn hq he hs =>
    have hi : Derives rules (opt (kind .equal ++ symbol .expression)) ([_] ++ _) :=
      .some (.seq (.token hq) (.symbol he.derives))
    exact .symbol (.seq (.seq (.seq (.token hk) (.token hn)) hi) (.token hs))

theorem SpellsExpressionStatement.derives {ts : List Token} {s : Stmt}
    (h : SpellsExpressionStatement ts s) : Derives rules (symbol .expressionStatement) ts := by
  cases h with
  | mk he hs => exact .symbol (.seq (.symbol he.derives) (.token hs))

theorem SpellsFirst.derives {ts : List Token} {first : Option Stmt} (h : SpellsFirst ts first) :
    Derives rules (symbol .variable ||| symbol .expressionStatement ||| kind .semicolon) ts := by
  cases h with
  | absent hs => exact .right (.token hs)
  | declare h => exact .left (.left h.derives)
  | expression h => exact .left (.right h.derives)

theorem condition_derives {opening closing : Token} {cs : List Token} {c : Expr}
    (ho : opening.kind = .leftParen) (hc : Rule.assignment.Spells cs c)
    (hx : closing.kind = .rightParen) :
    Derives rules (parenthesised (symbol .expression)) ([opening] ++ cs ++ [closing]) :=
  .parenthesised ho (.symbol hc.derives) hx

theorem derives_statement {g : Symbol → Phrase} {s : Symbol} {ts : List Token}
    (hs : s ∈ [.forLoop, .branch, .print, .loop, .block, .expressionStatement])
    (h : Derives g (symbol s) ts) : Derives g (rules .statement) ts := by
  simp only [List.mem_cons, List.not_mem_nil, or_false] at hs
  rcases hs with rfl | rfl | rfl | rfl | rfl | rfl
  · exact .left (.left (.left (.left (.left h))))
  · exact .left (.left (.left (.left (.right h))))
  · exact .left (.left (.left (.right h)))
  · exact .left (.left (.right h))
  · exact .left (.right h)
  · exact .right h

mutual

theorem SpellsStatement.derives {ts : List Token} {s : Stmt} {dangling : Bool}
    (h : SpellsStatement ts s dangling) : Derives rules (symbol .statement) ts := by
  match h with
  | .expression h => exact .symbol (derives_statement (by simp) h.derives)
  | .print hk he hs =>
    have hp : Derives rules (symbol .print) _ :=
      .symbol (.seq (.seq (.token hk) (.symbol he.derives)) (.token hs))
    exact .symbol (derives_statement (by simp) hp)
  | .block ho hb hc =>
    have hp : Derives rules (symbol .block) _ :=
      .symbol (.seq (.seq (.token ho) hb.derives) (.token hc))
    exact .symbol (derives_statement (by simp) hp)
  | .loop hk ho hc hx hb =>
    have hp := condition_derives ho hc hx
    have hl : Derives rules (symbol .loop) _ := .symbol (.seq (.seq (.token hk) hp) hb.derives)
    exact .symbol (derives_statement (by simp) (hl.congr (by simp)))
  | .forLoop hk ho hf hc hs hstep hx hb =>
    have hclauses := Derives.seq (.seq (.seq hf.derives hc.derives) (.token hs)) hstep.derives
    have hp := Derives.parenthesised ho hclauses hx
    have hl : Derives rules (symbol .forLoop) _ :=
      .symbol (.seq (.seq (.token hk) hp) hb.derives)
    exact .symbol (derives_statement (by simp) (hl.congr (by simp)))
  | .branch hk ho hc hx ht =>
    have hp := condition_derives ho hc hx
    have hb : Derives rules (symbol .branch) _ :=
      .symbol (.seq (.seq (.seq (.token hk) hp) ht.derives) .none)
    exact .symbol (derives_statement (by simp) (hb.congr (by simp)))
  | .branchElse hk ho hc hx ht hk' hf =>
    have hp := condition_derives ho hc hx
    have he := Derives.some (.seq (.token hk') hf.derives)
    have hb : Derives rules (symbol .branch) _ :=
      .symbol (.seq (.seq (.seq (.token hk) hp) ht.derives) he)
    exact .symbol (derives_statement (by simp) (hb.congr (by simp)))

theorem SpellsDeclaration.derives {ts : List Token} {s : Stmt} (h : SpellsDeclaration ts s) :
    Derives rules (symbol .declaration) ts := by
  match h with
  | .declare h => exact .symbol (.left h.derives)
  | .statement h => exact .symbol (.right h.derives)

theorem SpellsDeclarations.derives {ts : List Token} {p : List Stmt}
    (h : SpellsDeclarations ts p) : Derives rules (many (symbol .declaration)) ts := by
  match h with
  | .nil => exact .nil
  | .cons hs hp => exact .cons hs.derives hp.derives

end

namespace SpellsStatement

/-- An `else` after a statement that it would belong to belongs to an `if` inside. -/
theorem attach {ts us : List Token} {s whenFalse : Stmt} {dangling dangling' : Bool}
    {keyword : Token} (h : SpellsStatement ts s dangling) (hd : dangling = true)
    (hk : keyword.kind = .kwElse) (hf : SpellsStatement us whenFalse dangling') :
    ∃ s dangling, SpellsStatement (ts ++ keyword :: us) s dangling := by
  match h with
  | .expression _ | .print _ _ _ | .block _ _ _ => cases hd
  | .loop hw ho hc hx hb =>
    obtain ⟨_, _, hs⟩ := hb.attach hd hk hf
    exact ⟨_, _, by simpa using SpellsStatement.loop hw ho hc hx hs⟩
  | .forLoop hw ho hfirst hc hsemi hstep hx hb =>
    obtain ⟨_, _, hs⟩ := hb.attach hd hk hf
    exact ⟨_, _, by simpa using SpellsStatement.forLoop hw ho hfirst hc hsemi hstep hx hs⟩
  | @SpellsStatement.branch _ _ _ _ _ _ _ false hw ho hc hx ht =>
    exact ⟨_, _, by simpa using SpellsStatement.branchElse hw ho hc hx ht hk hf⟩
  | @SpellsStatement.branch _ _ _ _ _ _ _ true hw ho hc hx ht =>
    obtain ⟨_, _, hs⟩ := ht.attach rfl hk hf
    exact ⟨_, _, by simpa using SpellsStatement.branch hw ho hc hx hs⟩
  | .branchElse hw ho hc hx ht he hs =>
    obtain ⟨_, _, hs⟩ := hs.attach hd hk hf
    exact ⟨_, _, by simpa using SpellsStatement.branchElse hw ho hc hx ht he hs⟩

theorem branchElse_of_any {keyword opening closing keyword' : Token} {cs ts us : List Token}
    {c : Expr} {whenTrue whenFalse : Stmt} {dangling dangling' : Bool} (hk : keyword.kind = .kwIf)
    (ho : opening.kind = .leftParen) (hc : Rule.assignment.Spells cs c)
    (hx : closing.kind = .rightParen) (ht : SpellsStatement ts whenTrue dangling)
    (hk' : keyword'.kind = .kwElse) (hf : SpellsStatement us whenFalse dangling') :
    ∃ s dangling, SpellsStatement
      (keyword :: opening :: (cs ++ closing :: (ts ++ keyword' :: us))) s dangling := by
  cases dangling with
  | false => exact ⟨_, _, .branchElse hk ho hc hx ht hk' hf⟩
  | true =>
    obtain ⟨_, _, hs⟩ := ht.attach rfl hk' hf
    exact ⟨_, _, .branch hk ho hc hx hs⟩

end SpellsStatement

/-- The tokens spell what the symbol stands for. -/
def Grammar.Symbol.Spelt : Symbol → List Token → Prop
  | .program, ts => ∃ p, SpellsDeclarations ts p
  | .declaration, ts => ∃ s, SpellsDeclaration ts s
  | .variable, ts => ∃ s, SpellsVariable ts s
  | .expressionStatement, ts => ∃ s, SpellsExpressionStatement ts s
  | .statement, ts | .forLoop, ts | .branch, ts | .print, ts | .loop, ts | .block, ts =>
    ∃ s dangling, SpellsStatement ts s dangling
  | .expression, ts | .assignment, ts => ∃ e, Rule.assignment.Spells ts e
  | .ternary, ts => ∃ e, Rule.ternary.Spells ts e
  | .or, ts => ∃ e, (Rule.level .or).Spells ts e
  | .and, ts => ∃ e, (Rule.level .and).Spells ts e
  | .equality, ts => ∃ e, (Rule.level .equality).Spells ts e
  | .comparison, ts => ∃ e, (Rule.level .comparison).Spells ts e
  | .term, ts => ∃ e, (Rule.level .term).Spells ts e
  | .factor, ts => ∃ e, (Rule.level .factor).Spells ts e
  | .unary, ts => ∃ e, Rule.unary.Spells ts e
  | .primary, ts => ∃ e, Rule.primary.Spells ts e

section

variable {ts : List Token}

theorem language_parenthesised {L : Symbol → List Token → Prop} {p : Phrase} :
    (parenthesised p).Language L ts ↔ ∃ opening us closing, ts = opening :: (us ++ [closing]) ∧
      opening.kind = .leftParen ∧ p.Language L us ∧ closing.kind = .rightParen := by
  constructor
  · rintro ⟨_, _, rfl, ⟨_, us, rfl, ⟨opening, ho, rfl⟩, h⟩, closing, hc, rfl⟩
    exact ⟨opening, us, closing, rfl, ho, h, hc⟩
  · rintro ⟨opening, us, closing, rfl, ho, h, hc⟩
    exact ⟨[opening] ++ us, [closing], rfl, ⟨_, _, rfl, ⟨opening, ho, rfl⟩, h⟩, closing, hc, rfl⟩

theorem spelt_rule (r : Rule) : r.symbol.Spelt ts ↔ ∃ e, r.Spells ts e := by
  cases r with
  | level l => cases l <;> exact Iff.rfl
  | _ => exact Iff.rfl

theorem language_operators {l : Level} {L : Symbol → List Token → Prop}
    (h : l.operators.Language L ts) : ∃ t, ts = [t] ∧ l.hasOperator t.kind := by
  cases l <;>
    simp only [Level.operators, language_alt, language_kind, Level.hasOperator, Bool.or_eq_true,
      beq_iff_eq] at h ⊢ <;> grind

theorem extends_of_pieces {l : Level} {pieces : List (List Token)} {left : Expr}
    (h : ∀ us ∈ pieces, (l.operators ++ symbol l.operand.symbol).Language Symbol.Spelt us) :
    ∃ e, l.Extends left pieces.flatten e := by
  induction pieces generalizing left with
  | nil => exact ⟨left, .done⟩
  | cons us pieces ih =>
    obtain ⟨⟨_, vs, rfl, hop, hv⟩, hp⟩ := List.forall_mem_cons.mp h
    obtain ⟨operator, rfl, ho⟩ := language_operators hop
    obtain ⟨right, hr⟩ := (spelt_rule l.operand).mp hv
    obtain ⟨e, he⟩ : ∃ e, l.Extends (l.join left operator right) pieces.flatten e := ih hp
    exact ⟨e, .operator ho hr he⟩

theorem spelt_level (l : Level) (h : (rules l.symbol).Language Symbol.Spelt ts) :
    ∃ e, (Rule.level l).Spells ts e := by
  rw [rules_level] at h
  obtain ⟨us, _, rfl, hu, pieces, rfl, hp⟩ := h
  obtain ⟨left, hl⟩ := (spelt_rule l.operand).mp hu
  obtain ⟨e, he⟩ := extends_of_pieces hp
  exact ⟨e, .chain hl he⟩

theorem spelt_primary (h : (rules .primary).Language Symbol.Spelt ts) :
    ∃ e, Rule.primary.Spells ts e := by
  rcases h with (((((⟨t, ht, rfl⟩ | ⟨t, ht, rfl⟩) | ⟨t, ht, rfl⟩) | ⟨t, ht, rfl⟩) | ⟨t, ht, rfl⟩) |
    ⟨t, ht, rfl⟩) | h
  · exact ⟨_, .literal (.inl ht)⟩
  · exact ⟨_, .literal (.inr ht)⟩
  · exact ⟨_, .yes ht⟩
  · exact ⟨_, .no ht⟩
  · exact ⟨_, .nil ht⟩
  · exact ⟨_, .var ht⟩
  · obtain ⟨opening, us, closing, rfl, ho, ⟨e, he⟩, hc⟩ := language_parenthesised.mp h
    exact ⟨_, .grouping ho hc he⟩

theorem spelt_assignment (h : (rules .assignment).Language Symbol.Spelt ts) :
    ∃ e, Rule.assignment.Spells ts e := by
  rcases h with ⟨_, vs, rfl, ⟨_, _, rfl, ⟨name, hn, rfl⟩, equals, hk, rfl⟩, e, he⟩ | ⟨e, he⟩
  · exact ⟨_, .assign hn hk he⟩
  · exact ⟨e, .ofTernary he⟩

theorem spelt_ternary (h : (rules .ternary).Language Symbol.Spelt ts) :
    ∃ e, Rule.ternary.Spells ts e := by
  obtain ⟨cs, _, rfl, ⟨c, hc⟩, rfl | ⟨_, rs, rfl, ⟨_, _, rfl, ⟨_, ls, rfl, ⟨question, hq, rfl⟩,
    l, hl⟩, colon, hk, rfl⟩, r, hr⟩⟩ := h
  · exact ⟨c, by simpa using Rule.Spells.ofOr hc⟩
  · exact ⟨_, by simpa using Rule.Spells.choice hq hk hc hl hr⟩

theorem spelt_unary (h : (rules .unary).Language Symbol.Spelt ts) :
    ∃ e, Rule.unary.Spells ts e := by
  rcases h with ⟨_, vs, rfl, ⟨t, ht, rfl⟩ | ⟨t, ht, rfl⟩, e, he⟩ | ⟨e, he⟩
  · exact ⟨_, .unary (.inl ht) he⟩
  · exact ⟨_, .unary (.inr ht) he⟩
  · exact ⟨e, .ofPrimary he⟩

theorem spelt_optional (h : (opt (symbol .expression)).Language Symbol.Spelt ts) :
    ∃ x, SpellsOptional ts x := by
  rcases h with rfl | ⟨e, he⟩
  · exact ⟨none, .absent⟩
  · exact ⟨some e, .present he⟩

theorem spelt_variable (h : (rules .variable).Language Symbol.Spelt ts) :
    ∃ s, SpellsVariable ts s := by
  obtain ⟨_, _, rfl, ⟨_, _, rfl, ⟨_, _, rfl, ⟨keyword, hk, rfl⟩, name, hn, rfl⟩,
    rfl | ⟨_, es, rfl, ⟨equals, hq, rfl⟩, e, he⟩⟩, semicolon, hs, rfl⟩ := h
  · exact ⟨_, .plain hk hn hs⟩
  · exact ⟨_, .initial hk hn hq he hs⟩

theorem spelt_declarations {pieces : List (List Token)}
    (h : ∀ us ∈ pieces, (symbol .declaration).Language Symbol.Spelt us) :
    ∃ p, SpellsDeclarations pieces.flatten p := by
  induction pieces with
  | nil => exact ⟨[], .nil⟩
  | cons us pieces ih =>
    obtain ⟨⟨s, hs⟩, hp⟩ := List.forall_mem_cons.mp h
    obtain ⟨p, hp⟩ := ih hp
    exact ⟨s :: p, .cons hs hp⟩

theorem spelt_first
    (h : (symbol .variable ||| symbol .expressionStatement ||| kind .semicolon).Language
      Symbol.Spelt ts) : ∃ first, SpellsFirst ts first := by
  rcases h with (⟨s, hs⟩ | ⟨s, hs⟩) | ⟨t, ht, rfl⟩
  · exact ⟨some s, .declare hs⟩
  · exact ⟨some s, .expression hs⟩
  · exact ⟨none, .absent ht⟩

theorem spelt_for (h : (rules .forLoop).Language Symbol.Spelt ts) : Symbol.Spelt .forLoop ts := by
  obtain ⟨_, us, rfl, ⟨_, _, rfl, ⟨keyword, hk, rfl⟩, hp⟩, body, dangling, hb⟩ := h
  obtain ⟨opening, _, closing, rfl, ho, ⟨_, _, rfl, ⟨_, _, rfl, ⟨fs, cs, rfl, hf, hc⟩, semicolon,
    hs, rfl⟩, hstep⟩, hx⟩ := language_parenthesised.mp hp
  obtain ⟨first, hf⟩ := spelt_first hf
  obtain ⟨c, hc⟩ := spelt_optional hc
  obtain ⟨step, hstep⟩ := spelt_optional hstep
  exact ⟨_, _, by simpa using SpellsStatement.forLoop hk ho hf hc hs hstep hx hb⟩

theorem spelt_loop (h : (rules .loop).Language Symbol.Spelt ts) : Symbol.Spelt .loop ts := by
  obtain ⟨_, us, rfl, ⟨_, _, rfl, ⟨keyword, hk, rfl⟩, hp⟩, body, dangling, hb⟩ := h
  obtain ⟨opening, cs, closing, rfl, ho, ⟨c, hc⟩, hx⟩ := language_parenthesised.mp hp
  exact ⟨_, _, by simpa using SpellsStatement.loop hk ho hc hx hb⟩

theorem spelt_branch (h : (rules .branch).Language Symbol.Spelt ts) :
    Symbol.Spelt .branch ts := by
  obtain ⟨_, _, rfl, ⟨_, us, rfl, ⟨_, _, rfl, ⟨keyword, hk, rfl⟩, hp⟩, s, dangling, hs⟩, hx⟩ := h
  obtain ⟨opening, cs, closing, rfl, ho, ⟨c, hc⟩, hx'⟩ := language_parenthesised.mp hp
  rcases hx with rfl | ⟨_, _, rfl, ⟨keyword', hk', rfl⟩, s', dangling', hs'⟩
  · exact ⟨_, _, by simpa using SpellsStatement.branch hk ho hc hx' hs⟩
  · obtain ⟨_, _, h⟩ := SpellsStatement.branchElse_of_any hk ho hc hx' hs hk' hs'
    exact ⟨_, _, by simpa using h⟩

end

theorem spelt_of_rules (s : Symbol) (ts : List Token) (h : (rules s).Language Symbol.Spelt ts) :
    s.Spelt ts := by
  cases s with
  | program =>
    obtain ⟨pieces, rfl, hp⟩ := h
    exact spelt_declarations hp
  | declaration =>
    rcases h with ⟨s, hs⟩ | ⟨s, dangling, hs⟩
    · exact ⟨s, .declare hs⟩
    · exact ⟨s, .statement hs⟩
  | «variable» => exact spelt_variable h
  | statement =>
    rcases h with ((((h | h) | h) | h) | h) | ⟨s, hs⟩
    · exact h
    · exact h
    · exact h
    · exact h
    · exact h
    · exact ⟨s, false, .expression hs⟩
  | forLoop => exact spelt_for h
  | branch => exact spelt_branch h
  | print =>
    obtain ⟨_, _, rfl, ⟨_, es, rfl, ⟨keyword, hk, rfl⟩, e, he⟩, semicolon, hs, rfl⟩ := h
    exact ⟨_, _, .print hk he hs⟩
  | loop => exact spelt_loop h
  | block =>
    obtain ⟨_, _, rfl, ⟨_, _, rfl, ⟨opening, ho, rfl⟩, pieces, rfl, hp⟩, closing, hc, rfl⟩ := h
    obtain ⟨body, hb⟩ := spelt_declarations hp
    exact ⟨_, _, .block ho hb hc⟩
  | expressionStatement =>
    obtain ⟨es, _, rfl, ⟨e, he⟩, semicolon, hs, rfl⟩ := h
    exact ⟨_, .mk he hs⟩
  | expression => exact h
  | assignment => exact spelt_assignment h
  | ternary => exact spelt_ternary h
  | or => exact spelt_level .or h
  | and => exact spelt_level .and h
  | equality => exact spelt_level .equality h
  | comparison => exact spelt_level .comparison h
  | term => exact spelt_level .term h
  | factor => exact spelt_level .factor h
  | unary => exact spelt_unary h
  | primary => exact spelt_primary h

/-- The grammar derives what spells a program. -/
theorem derives_program_iff {ts : List Token} :
    Derives rules (symbol .program) ts ↔ ∃ p, SpellsDeclarations ts p :=
  ⟨fun h => h.least spelt_of_rules, fun ⟨_, h⟩ => .symbol h.derives⟩

namespace Parser

/-- A program whose rules are not nested too deeply is read without a fault if and only if the
grammar derives its tokens. -/
theorem faults_eq_nil_iff_derives {d : Nat} {ts : List Token} {e : Token}
    (hts : ∀ t ∈ ts, t.kind ≠ .eof) (he : e.kind = .eof)
    (hd : ∀ f ∈ (program d (ts ++ [e])).faults, f.error ≠ .tooDeep) :
    (program d (ts ++ [e])).faults = [] ↔ Derives rules (symbol .program) ts := by
  rw [derives_program_iff]
  constructor
  · intro h
    obtain ⟨p, _, hp⟩ := program_sound hts he h
    exact ⟨p, hp⟩
  · rintro ⟨p, hp⟩
    obtain ⟨n, hn⟩ := program_complete hp he
    rcases Nat.lt_or_ge d n with hlt | hge
    · obtain ⟨f, hf, hk⟩ := (hn d).2 hlt
      exact absurd hk (hd f hf)
    · rw [(hn d).1 hge]

theorem nested_branches_derived :
    Derives rules (symbol .program) (List.map (fun k => ⟨k, "", .nil, 1⟩)
      [.kwIf, .leftParen, .identifier, .rightParen, .kwIf, .leftParen, .identifier, .rightParen,
        .kwPrint, .identifier, .semicolon, .kwElse, .identifier, .equal, .number, .questionMark,
        .string, .colon, .kwNil, .semicolon]) :=
  (faults_eq_nil_iff_derives (d := nestingLimit) (e := .eof 1) (by decide) rfl (by decide)).mp
    rfl

end Parser
end Lox
