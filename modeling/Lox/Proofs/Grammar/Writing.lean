import Lox.Proofs.Grammar.Completeness

/-! # Trees written as tokens

A canonical tree is one whose parts can stand where they are without more parentheses than it
holds. Written as tokens and read again, it is the same tree.
-/

namespace Lox

/-- What is written for a part of a tree. -/
inductive Piece
  /-- A token of the kind, whatever its text and line. -/
  | mark (k : Kind)
  /-- The token, which is part of the tree. -/
  | token (t : Token)
  /-- A token that denotes the value. -/
  | literal (v : Value)

namespace Piece

def fits : Piece → Token → Bool
  | mark k, t => t.kind == k
  | token u, t => t == u
  | literal .nil, t => t.kind == .kwNil
  | literal (.bool b), t => t.kind == if b then .kwTrue else .kwFalse
  | literal (.number n), t => t.kind == .number && t.literal == .number n
  | literal (.string s), t => t.kind == .string && t.literal == .string s

end Piece

/-- Whether the tokens are the pieces, one for one. -/
def writes : List Piece → List Token → Bool
  | [], [] => true
  | p :: ps, t :: ts => p.fits t && writes ps ts
  | _, _ => false

theorem writes_nil {ts : List Token} : writes [] ts ↔ ts = [] := by
  cases ts <;> simp [writes]

theorem writes_cons {p : Piece} {ps : List Piece} {ts : List Token} :
    writes (p :: ps) ts ↔ ∃ t us, ts = t :: us ∧ p.fits t ∧ writes ps us := by
  cases ts <;> simp [writes, and_assoc]

theorem writes_append {ps qs : List Piece} {ts : List Token} :
    writes (ps ++ qs) ts ↔ ∃ us vs, ts = us ++ vs ∧ writes ps us ∧ writes qs vs := by
  induction ps generalizing ts with
  | nil =>
    simp only [List.nil_append, writes_nil]
    constructor
    · intro h
      exact ⟨[], ts, rfl, rfl, h⟩
    · rintro ⟨_, vs, rfl, rfl, h⟩
      exact h
  | cons p ps ih =>
    simp only [List.cons_append, writes_cons, ih]
    constructor
    · rintro ⟨t, _, rfl, hp, us, vs, rfl, hu, hv⟩
      exact ⟨t :: us, vs, rfl, ⟨t, us, rfl, hp, hu⟩, hv⟩
    · rintro ⟨_, vs, rfl, ⟨t, us, rfl, hp, hu⟩, hv⟩
      exact ⟨t, us ++ vs, rfl, hp, us, vs, rfl, hu, hv⟩

def Expr.pieces : Expr → List Piece
  | .literal v => [.literal v]
  | .grouping e => .mark .leftParen :: (e.pieces ++ [.mark .rightParen])
  | .unary operator right => .token operator :: right.pieces
  | .binary left operator right | .logical left operator right =>
    left.pieces ++ .token operator :: right.pieces
  | .ternary c l r =>
    c.pieces ++ .mark .questionMark :: (l.pieces ++ .mark .colon :: r.pieces)
  | .var name => [.token name]
  | .assign name value => .token name :: .mark .equal :: value.pieces
  | _ => []

mutual

def Stmt.pieces : Stmt → List Piece
  | .expression e => e.pieces ++ [.mark .semicolon]
  | .print e => .mark .kwPrint :: (e.pieces ++ [.mark .semicolon])
  | .declare name none => [.mark .kwVar, .token name, .mark .semicolon]
  | .declare name (some e) =>
    .mark .kwVar :: .token name :: .mark .equal :: (e.pieces ++ [.mark .semicolon])
  | .block body => .mark .leftBrace :: (Program.pieces body ++ [.mark .rightBrace])
  | .branch c t none =>
    .mark .kwIf :: .mark .leftParen :: (c.pieces ++ .mark .rightParen :: t.pieces)
  | .branch c t (some f) => .mark .kwIf :: .mark .leftParen ::
    (c.pieces ++ .mark .rightParen :: (t.pieces ++ .mark .kwElse :: f.pieces))
  | .loop c body =>
    .mark .kwWhile :: .mark .leftParen :: (c.pieces ++ .mark .rightParen :: body.pieces)
  | _ => []

def Program.pieces : List Stmt → List Piece
  | [] => []
  | s :: p => s.pieces ++ Program.pieces p

end

/-- The rank of the tightest rule that an expression is read by. -/
def Expr.rank : Expr → Nat
  | .assign .. | .ternary .. => Rule.assignment.rank
  | .logical _ operator _ | .binary _ operator _ => operator.kind.rank
  | .unary .. => Rule.unary.rank
  | _ => Rule.primary.rank

/-- Every operator is of the kind for its node, and every operand binds as tightly as its place
needs. -/
def Expr.canonical : Expr → Bool
  | .literal _ => true
  | .grouping e => e.canonical
  | .unary operator right =>
    (operator.kind == .bang || operator.kind == .minus) && right.canonical &&
      Rule.unary.rank ≤ right.rank
  | .binary left operator right =>
    Level.equality.rank ≤ operator.kind.rank && left.canonical && right.canonical &&
      operator.kind.rank ≤ left.rank && operator.kind.rank < right.rank
  | .logical left operator right =>
    (operator.kind == .kwOr || operator.kind == .kwAnd) && left.canonical && right.canonical &&
      operator.kind.rank ≤ left.rank && operator.kind.rank < right.rank
  | .ternary c l r => c.canonical && l.canonical && r.canonical && Level.or.rank ≤ c.rank
  | .var name => name.kind == .identifier
  | .assign name value => name.kind == .identifier && value.canonical
  | _ => false

/-- Whether an `else` after the statement would belong to it. -/
def Stmt.dangling : Stmt → Bool
  | .branch _ _ none => true
  | .branch _ _ (some f) => f.dangling
  | .loop _ body => body.dangling
  | _ => false

mutual

/-- Declarations stand directly in a block or in the program only, and no branch before an `else`
would take the `else` for itself. -/
def Stmt.canonical (inBlock : Bool) : Stmt → Bool
  | .expression e | .print e => e.canonical
  | .declare name none => inBlock && name.kind == .identifier
  | .declare name (some e) => inBlock && name.kind == .identifier && e.canonical
  | .block body => Program.canonical body
  | .branch c t none => c.canonical && t.canonical false
  | .branch c t (some f) => c.canonical && t.canonical false && f.canonical false && !t.dangling
  | .loop c body => c.canonical && body.canonical false
  | _ => false

def Program.canonical : List Stmt → Bool
  | [] => true
  | s :: p => s.canonical true && Program.canonical p

end

def Rule.looser : Rule → Rule
  | assignment | ternary | level .or => assignment
  | level .and => level .or
  | level .equality => level .and
  | level .comparison => level .equality
  | level .term => level .comparison
  | level .factor => level .term
  | unary => level .factor
  | primary => unary

theorem Rule.looser_rank {r : Rule} (h : 1 < r.rank) : r.looser.rank + 1 = r.rank := by
  cases r with
  | level l => cases l <;> rfl
  | assignment | ternary => exact absurd h (by decide)
  | _ => rfl

theorem Rule.eq_of_rank {r r' : Rule} (h : r.rank = r'.rank) (hr : r ≠ .ternary)
    (hr' : r' ≠ .ternary) : r = r' := by
  rcases r with _ | _ | ⟨_ | _ | _ | _ | _ | _⟩ | _ | _ <;>
    rcases r' with _ | _ | ⟨_ | _ | _ | _ | _ | _⟩ | _ | _ <;> first | rfl | contradiction

namespace Rule.Spells

variable {ts : List Token} {e : Expr}

theorem level {l : Level} (h : l.operand.Spells ts e) : (Rule.level l).Spells ts e := by
  rw [← List.append_nil ts]
  exact .chain h .done

theorem looser {r : Rule} (h : r.Spells ts e) : r.looser.Spells ts e := by
  cases r with
  | assignment => exact h
  | ternary => exact .ofTernary h
  | level l =>
    cases l with
    | or => exact .ofTernary (.ofOr h)
    | _ => exact .level h
  | unary => exact .level h
  | primary => exact .ofPrimary h

/-- What is spelt by a rule is spelt by every looser rule, but for the one that reads only targets
and conditions. -/
theorem loosen {r r' : Rule} (h : r'.Spells ts e) (hr : r ≠ .ternary) (hle : r.rank ≤ r'.rank) :
    r.Spells ts e := by
  induction hn : r'.rank - r.rank generalizing r' with
  | zero =>
    by_cases ht : r' = .ternary
    · subst ht
      obtain rfl : r = .assignment :=
        Rule.eq_of_rank (Nat.le_antisymm hle r.rank_pos) hr nofun
      exact .ofTernary h
    · obtain rfl : r = r' := Rule.eq_of_rank (by omega) hr ht
      exact h
  | succ n ih =>
    have hl := Rule.looser_rank (r := r') (by have := r.rank_pos; omega)
    exact ih h.looser (by omega) (by omega)

end Rule.Spells

theorem writes_mark {k : Kind} {ps : List Piece} {ts : List Token} :
    writes (.mark k :: ps) ts ↔ ∃ t us, ts = t :: us ∧ t.kind = k ∧ writes ps us := by
  simp only [writes_cons, Piece.fits, beq_iff_eq]

theorem writes_token {u : Token} {ps : List Piece} {ts : List Token} :
    writes (.token u :: ps) ts ↔ ∃ us, ts = u :: us ∧ writes ps us := by
  simp only [writes_cons, Piece.fits, beq_iff_eq]
  constructor
  · rintro ⟨_, us, rfl, rfl, h⟩
    exact ⟨us, rfl, h⟩
  · rintro ⟨us, rfl, h⟩
    exact ⟨u, us, rfl, rfl, h⟩

theorem writes_last {k : Kind} {ps : List Piece} {ts : List Token} :
    writes (ps ++ [.mark k]) ts ↔ ∃ us t, ts = us ++ [t] ∧ writes ps us ∧ t.kind = k := by
  rw [writes_append]
  constructor
  · rintro ⟨us, vs, rfl, hu, hv⟩
    obtain ⟨t, _, rfl, ht, hn⟩ := writes_mark.mp hv
    obtain rfl := writes_nil.mp hn
    exact ⟨us, t, rfl, hu, ht⟩
  · rintro ⟨us, t, rfl, hu, ht⟩
    exact ⟨us, [t], rfl, hu, writes_mark.mpr ⟨t, [], rfl, ht, rfl⟩⟩

theorem spells_literal {v : Value} {ts : List Token} (h : writes [.literal v] ts) :
    Rule.primary.Spells ts (.literal v) := by
  obtain ⟨t, _, rfl, ht, hn⟩ := writes_cons.mp h
  obtain rfl := writes_nil.mp hn
  cases v with
  | nil => exact .nil (beq_iff_eq.mp ht)
  | bool b =>
    have ht := beq_iff_eq.mp ht
    cases b with
    | false => exact .no ht
    | true => exact .yes ht
  | number n =>
    obtain ⟨hk, hv⟩ := Bool.and_eq_true_iff.mp ht
    rw [← beq_iff_eq.mp hv]
    exact .literal (.inl (beq_iff_eq.mp hk))
  | string s =>
    obtain ⟨hk, hv⟩ := Bool.and_eq_true_iff.mp ht
    rw [← beq_iff_eq.mp hv]
    exact .literal (.inr (beq_iff_eq.mp hk))

theorem Kind.exists_level {k : Kind} (h : Level.or.rank ≤ k.rank) :
    ∃ l : Level, l.hasOperator k := by
  cases k
  case kwOr => exact ⟨.or, rfl⟩
  case kwAnd => exact ⟨.and, rfl⟩
  case bangEqual | equalEqual => exact ⟨.equality, rfl⟩
  case greater | greaterEqual | less | lessEqual => exact ⟨.comparison, rfl⟩
  case minus | plus => exact ⟨.term, rfl⟩
  case slash | star => exact ⟨.factor, rfl⟩
  all_goals exact absurd h (by decide)

theorem Level.join_eq_binary {l : Level} (h : Level.equality.rank ≤ l.rank) (left : Expr)
    (operator : Token) (right : Expr) :
    l.join left operator right = .binary left operator right := by
  cases l <;> first | rfl | exact absurd h (by decide)

theorem Level.join_eq_logical {l : Level} (h : l.rank ≤ Level.and.rank) (left : Expr)
    (operator : Token) (right : Expr) :
    l.join left operator right = .logical left operator right := by
  cases l <;> first | rfl | exact absurd h (by decide)

theorem Expr.rank_pos {e : Expr} (h : e.canonical) : 0 < e.rank := by
  cases e with
  | binary left operator right =>
    simp only [Expr.canonical, Bool.and_eq_true, decide_eq_true_eq] at h
    exact Nat.lt_of_lt_of_le (Nat.zero_lt_succ _) h.1.1.1.1
  | logical left operator right =>
    simp only [Expr.canonical, Bool.and_eq_true, Bool.or_eq_true, beq_iff_eq] at h
    rcases h.1.1.1.1 with ho | ho <;> rw [rank, ho] <;> decide
  | assign | ternary => exact Rule.rank_pos .assignment
  | unary => exact Rule.rank_pos .unary
  | _ => exact Rule.rank_pos .primary

theorem Level.operand_ne_ternary (l : Level) : l.operand ≠ .ternary := by
  cases l <;> nofun

theorem spells_operator {operator : Token} {left right : Expr} {us vs : List Token} {l : Level}
    {r : Rule} (ho : l.hasOperator operator.kind) (hr : r ≠ .ternary)
    (hle : r.rank ≤ operator.kind.rank) (hl : (Rule.level l).Spells us left)
    (hright : l.operand.Spells vs right) :
    r.Spells (us ++ operator :: vs) (l.join left operator right) :=
  (hl.snoc ho hright).loosen hr (by rwa [Rule.rank, ← (l.hasOperator_iff _).mp ho])

theorem Expr.spells_of_canonical {e : Expr} {ts : List Token} {r : Rule} (h : e.canonical)
    (hw : writes e.pieces ts) (hr : r ≠ .ternary) (hle : r.rank ≤ e.rank) : r.Spells ts e := by
  match e with
  | .literal v => exact (spells_literal hw).loosen hr hle
  | .grouping e =>
    obtain ⟨opening, us, rfl, ho, hu⟩ := writes_mark.mp hw
    obtain ⟨us, closing, rfl, hu, hc⟩ := writes_last.mp hu
    exact (Rule.Spells.grouping ho hc
      (e.spells_of_canonical h hu nofun (rank_pos h))).loosen hr hle
  | .unary operator right =>
    simp only [canonical, Bool.and_eq_true, Bool.or_eq_true, beq_iff_eq, decide_eq_true_eq] at h
    obtain ⟨⟨ho, hc⟩, hrank⟩ := h
    obtain ⟨us, rfl, hu⟩ := writes_token.mp hw
    exact (Rule.Spells.unary ho (right.spells_of_canonical hc hu nofun hrank)).loosen hr hle
  | .binary left operator right =>
    simp only [canonical, Bool.and_eq_true, decide_eq_true_eq] at h
    obtain ⟨⟨⟨⟨ho, hcl⟩, hcr⟩, hl⟩, hright⟩ := h
    obtain ⟨us, _, rfl, hu, hw'⟩ := writes_append.mp hw
    obtain ⟨vs, rfl, hv⟩ := writes_token.mp hw'
    obtain ⟨l, hk⟩ := Kind.exists_level (Nat.le_trans (by decide) ho)
    have hrank := (l.hasOperator_iff _).mp hk
    rw [hrank] at ho hl hright
    rw [← l.join_eq_binary ho]
    exact spells_operator hk hr hle (left.spells_of_canonical hcl hu nofun hl)
      (right.spells_of_canonical hcr hv l.operand_ne_ternary (l.operand_rank ▸ hright))
  | .logical left operator right =>
    simp only [canonical, Bool.and_eq_true, Bool.or_eq_true, beq_iff_eq, decide_eq_true_eq] at h
    obtain ⟨⟨⟨⟨ho, hcl⟩, hcr⟩, hl⟩, hright⟩ := h
    obtain ⟨us, _, rfl, hu, hw'⟩ := writes_append.mp hw
    obtain ⟨vs, rfl, hv⟩ := writes_token.mp hw'
    obtain ⟨l, hk⟩ : ∃ l : Level, l.hasOperator operator.kind :=
      Kind.exists_level (by rcases ho with ho | ho <;> rw [ho] <;> decide)
    have hrank := (l.hasOperator_iff _).mp hk
    rw [hrank] at hl hright
    rw [← l.join_eq_logical (by rw [← hrank]; rcases ho with ho | ho <;> rw [ho] <;> decide)]
    exact spells_operator hk hr hle (left.spells_of_canonical hcl hu nofun hl)
      (right.spells_of_canonical hcr hv l.operand_ne_ternary (l.operand_rank ▸ hright))
  | .ternary c left right =>
    simp only [canonical, Bool.and_eq_true, decide_eq_true_eq] at h
    obtain ⟨⟨⟨hc, hl⟩, hright⟩, hrank⟩ := h
    obtain ⟨cs, _, rfl, hcs, hw₁⟩ := writes_append.mp hw
    obtain ⟨question, _, rfl, hq, hw₂⟩ := writes_mark.mp hw₁
    obtain ⟨ls, _, rfl, hls, hw₃⟩ := writes_append.mp hw₂
    obtain ⟨colon, rs, rfl, hk, hrs⟩ := writes_mark.mp hw₃
    exact (Rule.Spells.choice hq hk (c.spells_of_canonical hc hcs nofun hrank)
      (left.spells_of_canonical hl hls nofun (rank_pos hl))
      (right.spells_of_canonical hright hrs nofun (rank_pos hright))).loosen hr hle
  | .var name =>
    obtain ⟨_, rfl, hn⟩ := writes_token.mp hw
    obtain rfl := writes_nil.mp hn
    exact (Rule.Spells.var (beq_iff_eq.mp h)).loosen hr hle
  | .assign name value =>
    simp only [canonical, Bool.and_eq_true, beq_iff_eq] at h
    obtain ⟨_, rfl, hw'⟩ := writes_token.mp hw
    obtain ⟨equals, us, rfl, hk, hu⟩ := writes_mark.mp hw'
    exact (Rule.Spells.assign h.1 hk
      (value.spells_of_canonical h.2 hu nofun (rank_pos h.2))).loosen hr hle
  | .call .. | .get .. | .set .. | .super .. | .this .. | .blank | .missing => cases h

theorem Expr.spells_assignment {e : Expr} {ts : List Token} (h : e.canonical)
    (hw : writes e.pieces ts) : Rule.assignment.Spells ts e :=
  e.spells_of_canonical h hw nofun (rank_pos h)

theorem spells_variable {name : Token} {initializer : Option Expr} {ts : List Token}
    (h : (Stmt.declare name initializer).canonical true)
    (hw : writes (Stmt.declare name initializer).pieces ts) :
    SpellsVariable ts (.declare name initializer) := by
  cases initializer with
  | none =>
    obtain ⟨keyword, _, rfl, hk, hw₁⟩ := writes_mark.mp hw
    obtain ⟨_, rfl, hw₂⟩ := writes_token.mp hw₁
    obtain ⟨semicolon, _, rfl, hs, hw₃⟩ := writes_mark.mp hw₂
    obtain rfl := writes_nil.mp hw₃
    exact .plain hk (beq_iff_eq.mp h) hs
  | some e =>
    obtain ⟨hn, he⟩ := Bool.and_eq_true_iff.mp h
    obtain ⟨keyword, _, rfl, hk, hw₁⟩ := writes_mark.mp hw
    obtain ⟨_, rfl, hw₂⟩ := writes_token.mp hw₁
    obtain ⟨equals, _, rfl, hq, hw₃⟩ := writes_mark.mp hw₂
    obtain ⟨us, semicolon, rfl, hu, hs⟩ := writes_last.mp hw₃
    exact .initial hk (beq_iff_eq.mp hn) hq (e.spells_assignment he hu) hs

theorem writes_condition {c : Expr} {k : Kind} {ps : List Piece} {ts : List Token}
    (hc : c.canonical)
    (hw : writes (.mark k :: .mark .leftParen :: (c.pieces ++ .mark .rightParen :: ps)) ts) :
    ∃ keyword opening cs closing us, ts = keyword :: opening :: (cs ++ closing :: us) ∧
      keyword.kind = k ∧ opening.kind = .leftParen ∧ Rule.assignment.Spells cs c ∧
      closing.kind = .rightParen ∧ writes ps us := by
  obtain ⟨keyword, _, rfl, hk, hw₁⟩ := writes_mark.mp hw
  obtain ⟨opening, _, rfl, ho, hw₂⟩ := writes_mark.mp hw₁
  obtain ⟨cs, _, rfl, hcs, hw₃⟩ := writes_append.mp hw₂
  obtain ⟨closing, us, rfl, hx, hu⟩ := writes_mark.mp hw₃
  exact ⟨keyword, opening, cs, closing, us, rfl, hk, ho, c.spells_assignment hc hcs, hx, hu⟩

mutual

theorem Stmt.spells_of_canonical {s : Stmt} {ts : List Token} (h : s.canonical false)
    (hw : writes s.pieces ts) : SpellsStatement ts s s.dangling := by
  match s with
  | .expression e =>
    obtain ⟨us, semicolon, rfl, hu, hs⟩ := writes_last.mp hw
    exact .expression (.mk (e.spells_assignment h hu) hs)
  | .print e =>
    obtain ⟨keyword, _, rfl, hk, hw₁⟩ := writes_mark.mp hw
    obtain ⟨us, semicolon, rfl, hu, hs⟩ := writes_last.mp hw₁
    exact .print hk (e.spells_assignment h hu) hs
  | .block body =>
    obtain ⟨opening, _, rfl, ho, hw₁⟩ := writes_mark.mp hw
    obtain ⟨us, closing, rfl, hu, hx⟩ := writes_last.mp hw₁
    exact .block ho (Program.spells_of_canonical h hu) hx
  | .branch c t none =>
    obtain ⟨hc, ht⟩ := Bool.and_eq_true_iff.mp h
    obtain ⟨keyword, opening, cs, closing, us, rfl, hk, ho, hcs, hx, hu⟩ := writes_condition hc hw
    exact .branch hk ho hcs hx (t.spells_of_canonical ht hu)
  | .branch c t (some f) =>
    simp only [Stmt.canonical, Bool.and_eq_true, Bool.not_eq_true'] at h
    obtain ⟨⟨⟨hc, ht⟩, hf⟩, hd⟩ := h
    obtain ⟨keyword, opening, cs, closing, _, rfl, hk, ho, hcs, hx, hw₁⟩ := writes_condition hc hw
    obtain ⟨us, _, rfl, hu, hw₂⟩ := writes_append.mp hw₁
    obtain ⟨keyword', vs, rfl, hk', hv⟩ := writes_mark.mp hw₂
    exact .branchElse hk ho hcs hx (hd ▸ t.spells_of_canonical ht hu) hk'
      (f.spells_of_canonical hf hv)
  | .loop c body =>
    obtain ⟨hc, hb⟩ := Bool.and_eq_true_iff.mp h
    obtain ⟨keyword, opening, cs, closing, us, rfl, hk, ho, hcs, hx, hu⟩ := writes_condition hc hw
    exact .loop hk ho hcs hx (body.spells_of_canonical hb hu)
  | .declare _ none | .declare _ (some _) => cases h
  | .failed | .function .. | .classDef .. | .giveBack .. | .loose _ | .blank | .blankNode => cases h

theorem Program.spells_of_canonical {p : List Stmt} {ts : List Token} (h : Program.canonical p)
    (hw : writes (Program.pieces p) ts) : SpellsDeclarations ts p := by
  match p with
  | [] =>
    obtain rfl := writes_nil.mp hw
    exact .nil
  | s :: p =>
    obtain ⟨hs, hp⟩ := Bool.and_eq_true_iff.mp h
    obtain ⟨us, vs, rfl, hu, hv⟩ := writes_append.mp hw
    refine .cons ?_ (Program.spells_of_canonical hp hv)
    match s with
    | .declare name initializer => exact .declare (spells_variable hs hu)
    | .expression _ | .print _ | .block _ | .branch _ _ none | .branch _ _ (some _) | .loop _ _ =>
      exact .statement (Stmt.spells_of_canonical hs hu)
    | .failed | .function .. | .classDef .. | .giveBack .. | .loose _ | .blank | .blankNode =>
      cases hs

end

/-- A canonical program is read back from what is written for it, given depth enough; at any smaller
depth there is a fault because of the depth. -/
theorem Parser.program_of_writes {p : Program} {ts : List Token} {e : Token}
    (h : Program.canonical p) (hw : writes (Program.pieces p) ts) (he : e.kind = .eof) :
    ∃ n, ∀ depth, (n ≤ depth → program depth (ts ++ [e]) = ⟨.ok p, [e], []⟩) ∧
      (depth < n → ∃ f ∈ (program depth (ts ++ [e])).faults, f.error = .tooDeep) :=
  program_complete (Program.spells_of_canonical h hw) he

theorem Parser.program_of_writes_branches :
    ∃ n, ∀ depth, n ≤ depth →
      program depth (List.map (fun k => ⟨k, "", .nil, 1⟩) [.kwIf, .leftParen, .identifier,
        .rightParen, .kwIf, .leftParen, .identifier, .equal, .identifier, .rightParen, .identifier,
        .minus, .identifier, .minus, .minus, .identifier, .star, .identifier, .semicolon, .kwElse,
        .kwPrint, .kwNil, .semicolon] ++ [.eof 1]) =
      ⟨.ok (
        let a : Token := ⟨.identifier, "", .nil, 1⟩
        let minus : Token := ⟨.minus, "", .nil, 1⟩
        let product := Expr.binary (.unary minus (.var a)) ⟨.star, "", .nil, 1⟩ (.var a)
        let sum := Expr.binary (.binary (.var a) minus (.var a)) minus product
        [.branch (.var a) (.branch (.assign a (.var a)) (.expression sum)
          (some (.print (.literal .nil)))) none]), [.eof 1], []⟩ :=
  (program_of_writes (by decide) (by decide) rfl).imp fun _ hn depth => (hn depth).1

end Lox
