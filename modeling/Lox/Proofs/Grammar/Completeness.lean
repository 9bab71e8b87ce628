import Lox.Proofs.Grammar.Soundness

/-! # What the tokens spell is read without a fault

A parser that reads takes exactly its tokens and leaves no fault, given depth enough; at any
smaller depth it stops because of the depth. It only has to see that what follows does not go on
with the same phrase.
-/

namespace Lox

/-- How tightly a token of the kind binds what is before it; zero if it does not. -/
def Kind.rank : Kind → Nat
  | .equal | .questionMark => 1
  | .kwOr => 2
  | .kwAnd => 3
  | .bangEqual | .equalEqual => 4
  | .greater | .greaterEqual | .less | .lessEqual => 5
  | .minus | .plus => 6
  | .slash | .star => 7
  | _ => 0

def Level.rank : Level → Nat
  | or => 2
  | and => 3
  | equality => 4
  | comparison => 5
  | term => 6
  | factor => 7

/-- The rank of the loosest tokens that the rule can go on with. An assignment can be the last part
of what is read by the ternary rule. -/
def Rule.rank : Rule → Nat
  | assignment | ternary => 1
  | level l => l.rank
  | unary => 8
  | primary => 9

theorem Level.hasOperator_iff (l : Level) (k : Kind) : l.hasOperator k ↔ k.rank = l.rank := by
  cases l <;> cases k <;> simp [hasOperator, Kind.rank, rank]

theorem Level.operand_rank (l : Level) : l.operand.rank = l.rank + 1 := by
  cases l <;> rfl

theorem Rule.rank_pos (r : Rule) : 0 < r.rank := by
  cases r with
  | level l => cases l <;> decide
  | _ => decide

/-- There is a next token, and the rule does not go on with it. -/
def StopsAt (r : Rule) (rest : List Token) : Prop :=
  ∃ t us, rest = t :: us ∧ t.kind.rank < r.rank

theorem StopsAt.mono {r r' : Rule} {rest : List Token} (h : StopsAt r rest)
    (hr : r.rank ≤ r'.rank) : StopsAt r' rest := by
  obtain ⟨t, us, rfl, ht⟩ := h
  exact ⟨t, us, rfl, by omega⟩

theorem StopsAt.of_rank_zero {r : Rule} {t : Token} {us : List Token} (h : t.kind.rank = 0) :
    StopsAt r (t :: us) :=
  ⟨t, us, rfl, h ▸ r.rank_pos⟩

theorem stopsAt_of_kind {r : Rule} {t : Token} {us : List Token} {k : Kind} (h : t.kind = k)
    (hk : k.rank < r.rank) : StopsAt r (t :: us) :=
  ⟨t, us, rfl, h ▸ hk⟩

theorem Level.ne_eof_of_hasOperator {l : Level} {k : Kind} (h : l.hasOperator k) : k ≠ .eof := by
  rintro rfl
  have h := (l.hasOperator_iff _).mp h
  cases l <;> cases h

theorem Level.Extends.stopsAt {l : Level} {left e : Expr} {ts rest : List Token}
    (h : l.Extends left ts e) (hr : StopsAt (.level l) rest) : StopsAt l.operand (ts ++ rest) := by
  cases h with
  | done => exact hr.mono (by rw [l.operand_rank]; exact Nat.le_succ _)
  | operator ho _ _ =>
    refine ⟨_, _, rfl, ?_⟩
    rw [(l.hasOperator_iff _).mp ho, l.operand_rank]
    exact Nat.lt_succ_self _

/-- There is a next token, and it is not an `else` that would belong to what is before. -/
def Follows (dangling : Bool) (rest : List Token) : Prop :=
  ∃ t us, rest = t :: us ∧ (dangling = true → t.kind ≠ .kwElse)

theorem SpellsDeclarations.follows {p : List Stmt} {t : Token} {more : List Token}
    (h : SpellsDeclarations ts p) (ht : t.kind = .rightBrace ∨ t.kind = .eof) :
    Follows true (ts ++ [t] ++ more) := by
  cases h with
  | nil => exact ⟨t, more, rfl, fun _ => by rcases ht with ht | ht <;> simp [ht]⟩
  | cons hs _ =>
    obtain ⟨u, us, rfl, hu⟩ := hs.head
    exact ⟨u, _, rfl, fun _ hk => by rw [hk] at hu; cases hu⟩

namespace Parser

variable {α β : Type} {ts us vs rest : List Token}

theorem bind_of_silent {p : Parser α} {a : α} (h : p ts = ⟨.ok a, rest, []⟩) (f : α → Parser β) :
    (p >>= f) ts = f a rest := by
  rw [bind_ok h]
  rfl

/-- From some depth on `p` reads `ts` as `a` when `rest` follows, and at any smaller depth it stops
because of the depth. -/
def Reads (p : Nat → Parser α) (ts : List Token) (a : α) (rest : List Token) : Prop :=
  ∃ n, ∀ d, (n ≤ d → p d (ts ++ rest) = ⟨.ok a, rest, []⟩) ∧
    (d < n → ∃ left, p d (ts ++ rest) = ⟨.error .tooDeep, left, []⟩)

namespace Reads

variable {p q : Nat → Parser α} {a : α}

theorem pure (a : α) : Reads (fun _ => pure a) [] a rest :=
  ⟨0, fun _ => ⟨fun _ => rfl, fun h => absurd h (Nat.not_lt_zero _)⟩⟩

theorem expect {t : Token} {k : Kind} (e : SyntaxError) (h : t.kind = k) (hk : k ≠ .eof) :
    Reads (fun _ => expect k e) [t] t rest :=
  ⟨0, fun _ => ⟨fun _ => expect_ok e h hk, fun h => absurd h (Nat.not_lt_zero _)⟩⟩

theorem bind {f : Nat → α → Parser β} {b : β} (h : Reads p us a (vs ++ rest))
    (h' : Reads (fun d => f d a) vs b rest) :
    Reads (fun d => p d >>= f d) (us ++ vs) b rest := by
  obtain ⟨m, hm⟩ := h
  obtain ⟨n, hn⟩ := h'
  refine ⟨max m n, fun d => ⟨fun hd => ?_, fun hd => ?_⟩⟩ <;> rw [List.append_assoc]
  · exact (bind_of_silent ((hm d).1 (by omega)) (f d)).trans ((hn d).1 (by omega))
  · rcases Nat.lt_or_ge d m with hlt | hge
    · obtain ⟨left, hl⟩ := (hm d).2 hlt
      exact ⟨left, bind_error hl _⟩
    · obtain ⟨left, hl⟩ := (hn d).2 (by omega)
      exact ⟨left, (bind_of_silent ((hm d).1 hge) (f d)).trans hl⟩

theorem bind_cons {f : Nat → α → Parser β} {b : β} {t : Token} (h : Reads p [t] a (vs ++ rest))
    (h' : Reads (fun d => f d a) vs b rest) : Reads (fun d => p d >>= f d) (t :: vs) b rest :=
  h.bind h'

theorem last {f : Nat → α → Parser β} {b : β} (h : Reads p ts a rest)
    (h' : Reads (fun d => f d a) [] b rest) : Reads (fun d => p d >>= f d) ts b rest := by
  rw [← List.append_nil ts]
  exact h.bind h'

theorem congr (h : Reads q vs a rest) (he : ∀ d, p d (ts ++ rest) = q d (vs ++ rest)) :
    Reads p ts a rest := by
  obtain ⟨n, hn⟩ := h
  exact ⟨n, fun d => by rw [he]; exact hn d⟩

theorem map {g : α → β} (h : Reads p ts a rest) : Reads (fun d => g <$> p d) ts (g a) rest := by
  obtain ⟨n, hn⟩ := h
  refine ⟨n, fun d => ⟨fun hd => ?_, fun hd => ?_⟩⟩
  · exact (map_apply g (p d) _).trans (by rw [(hn d).1 hd]; rfl)
  · obtain ⟨left, hl⟩ := (hn d).2 hd
    exact ⟨left, (map_apply g (p d) _).trans (by rw [hl]; rfl)⟩

theorem succ (h : Reads q ts a rest) (hz : p 0 = stop .tooDeep)
    (hs : ∀ d, p (d + 1) (ts ++ rest) = q d (ts ++ rest)) : Reads p ts a rest := by
  obtain ⟨n, hn⟩ := h
  refine ⟨n + 1, fun d => ?_⟩
  cases d with
  | zero => exact ⟨fun hd => absurd hd (by omega), fun _ => ⟨ts ++ rest, by rw [hz]; rfl⟩⟩
  | succ d =>
    rw [hs]
    exact ⟨fun hd => (hn d).1 (by omega), fun hd => (hn d).2 (by omega)⟩

theorem accept_none {accepted : Kind → Bool} {f : Nat → Option Token → Parser β} {b : β}
    {t : Token} (ht : accepted t.kind = false) (h : Reads (fun d => f d none) [] b (t :: us)) :
    Reads (fun d => accept accepted >>= f d) [] b (t :: us) :=
  h.congr fun _ => bind_ok (Parser.accept_none (.inr ht)) _

theorem accept_some {accepted : Kind → Bool} {f : Nat → Option Token → Parser β} {b : β}
    {t : Token} (hk : t.kind ≠ .eof) (ht : accepted t.kind)
    (h : Reads (fun d => f d (some t)) ts b rest) :
    Reads (fun d => accept accepted >>= f d) (t :: ts) b rest :=
  h.congr fun _ => bind_ok (Parser.accept_some hk ht) _

end Reads

theorem rule_succ {r : Rule} {e : Expr} (h : Reads (fun d => rule (d + 1) r) ts e rest) :
    Reads (rule · r) ts e rest :=
  h.succ rfl fun _ => rfl

theorem unary_of_primary {t : Token} {e : Expr} (h : Reads (rule · .primary) (t :: ts) e rest)
    (hb : t.kind ≠ .bang) (hm : t.kind ≠ .minus) : Reads (rule · .unary) (t :: ts) e rest :=
  h.succ rfl fun _ => bind_of_silent (accept_none (.inr (by simp [hb, hm]))) _

theorem chain_done {l : Level} {operand : Nat → Parser Expr} {clock : List Token} {left : Expr}
    (hc : clock ≠ []) (hr : StopsAt (.level l) rest) :
    Reads (fun d => chain l (operand d) clock left) [] left rest := by
  obtain ⟨c, clock, rfl⟩ := List.exists_cons_of_ne_nil hc
  obtain ⟨t, us, rfl, ht⟩ := hr
  refine Reads.accept_none ?_ (.pure left)
  rw [← Bool.not_eq_true, l.hasOperator_iff]
  exact Nat.ne_of_lt ht

theorem level_of_chain {l : Level} {left e : Expr}
    (h : Reads (rule · l.operand) us left (vs ++ rest))
    (hc : Reads (fun d => chain l (rule d l.operand) (us ++ vs ++ rest) left) vs e rest) :
    Reads (rule · (.level l)) (us ++ vs) e rest :=
  (h.bind (f := fun d left => chain l (rule d l.operand) (us ++ vs ++ rest) left) hc).succ rfl
    fun _ => rfl

theorem level_of_operand {l : Level} {e : Expr} (h : Reads (rule · l.operand) ts e rest)
    (hr : StopsAt (.level l) rest) : Reads (rule · (.level l)) ts e rest := by
  have hn : ts ++ [] ++ rest ≠ [] := by
    obtain ⟨t, us, rfl, _⟩ := hr
    simp
  rw [← List.append_nil ts]
  exact level_of_chain h (chain_done hn hr)

theorem ternary_of_or {t : Token} {e : Expr} (h : Reads (rule · (.level .or)) ts e (t :: rest))
    (hk : t.kind ≠ .questionMark) : Reads (rule · .ternary) ts e (t :: rest) := by
  refine rule_succ (.last h ?_)
  exact .accept_none (beq_false_of_ne hk) (.pure e)

theorem assignment_of_ternary {t : Token} {e : Expr} (h : Reads (rule · .ternary) ts e (t :: rest))
    (hk : t.kind ≠ .equal) : Reads (rule · .assignment) ts e (t :: rest) := by
  refine rule_succ (.last h ?_)
  exact .accept_none (beq_false_of_ne hk) (.pure e)

theorem primary_token {t : Token} {e : Expr}
    (h : ∀ inner, primary inner (t :: rest) = ⟨.ok e, rest, []⟩) :
    Reads (rule · .primary) [t] e rest :=
  rule_succ ((Reads.pure e).congr fun _ => h _)

/-- The target of an assignment is read by the ternary rule. -/
theorem target_reads {name equals : Token} (hn : name.kind = .identifier)
    (hk : equals.kind = .equal) :
    Reads (rule · .ternary) [name] (.var name) (equals :: rest) := by
  have hp : Reads (rule · .primary) [name] (.var name) (equals :: rest) :=
    primary_token fun inner => by rw [primary_cons, hn]
  have hu : Reads (rule · .unary) [name] (.var name) (equals :: rest) :=
    unary_of_primary hp (by simp [hn]) (by simp [hn])
  have hl : ∀ l, Reads (rule · l.operand) [name] (.var name) (equals :: rest) →
      Reads (rule · (.level l)) [name] (.var name) (equals :: rest) := fun l h =>
    level_of_operand h (stopsAt_of_kind hk (by cases l <;> decide))
  exact ternary_of_or
    (hl .or (hl .and (hl .equality (hl .comparison (hl .term (hl .factor hu)))))) (by simp [hk])

mutual

theorem rule_reads {r : Rule} {ts rest : List Token} {e : Expr} (h : r.Spells ts e)
    (hr : StopsAt r rest) : Reads (rule · r) ts e rest := by
  match h with
  | .assign hn hk hv =>
    refine rule_succ (.bind_cons (target_reads hn hk) ?_)
    refine .accept_some (by rw [hk]; decide) (beq_iff_eq.mpr hk) ?_
    exact (rule_reads hv hr).last (.pure _)
  | .ofTernary h =>
    have hl : Reads (rule · .ternary) _ _ rest := rule_reads h hr
    obtain ⟨t, us, rfl, ht⟩ := hr
    exact assignment_of_ternary hl fun hk => absurd ht (by rw [hk]; decide)
  | .choice hq hc hcs hls hrs =>
    refine rule_succ (.bind (rule_reads hcs (stopsAt_of_kind hq (by decide))) ?_)
    refine .accept_some (by rw [hq]; decide) (beq_iff_eq.mpr hq) ?_
    refine .bind (rule_reads hls (stopsAt_of_kind hc (by decide))) ?_
    refine .bind_cons (.expect _ hc (by decide)) ?_
    exact (rule_reads hrs hr).last (.pure _)
  | .ofOr h =>
    have hl : Reads (rule · (.level .or)) _ _ rest := rule_reads h (hr.mono (by decide))
    obtain ⟨t, us, rfl, ht⟩ := hr
    exact ternary_of_or hl fun hk => absurd ht (by rw [hk]; decide)
  | @Rule.Spells.chain l us vs _ _ hu hx =>
    have hn : vs.length < (us ++ vs ++ rest).length := by
      obtain ⟨t, ws, rfl, _⟩ := hr
      simp only [List.length_append, List.length_cons]
      omega
    exact level_of_chain (rule_reads hu (hx.stopsAt hr)) (chain_reads hx hn hr)
  | .unary ho h =>
    refine rule_succ (.accept_some ?_ (by simpa using ho) ?_)
    · rcases ho with ho | ho <;> rw [ho] <;> decide
    · exact (rule_reads h hr).last (.pure _)
  | .ofPrimary h =>
    have hp : Reads (rule · .primary) _ _ rest := rule_reads h (hr.mono (by decide))
    obtain ⟨t, us, rfl, ht⟩ := h.head_of_primary
    exact unary_of_primary hp ht.1 ht.2
  | .no ht | .yes ht | .nil ht | .var ht =>
    exact primary_token fun inner => by rw [primary_cons, ht]
  | .literal ht =>
    exact primary_token fun inner => by rcases ht with ht | ht <;> rw [primary_cons, ht]
  | @Rule.Spells.grouping _ closing ts e ho hc h =>
    have hb : Reads (fun d => (do
        let e ← rule d .assignment
        let _ ← expect .rightParen .expectParenAfterExpression
        return .grouping e : Parser Expr)) (ts ++ [closing]) (.grouping e) rest := by
      refine .bind (rule_reads h (stopsAt_of_kind hc (by decide))) ?_
      exact .last (.expect _ hc (by decide)) (.pure _)
    exact rule_succ (hb.congr fun _ => by rw [List.cons_append, rule, primary_cons, ho])

theorem chain_reads {l : Level} {left e : Expr} {vs rest : List Token} (h : l.Extends left vs e)
    {clock : List Token} (hc : vs.length < clock.length) (hr : StopsAt (.level l) rest) :
    Reads (fun d => chain l (rule d l.operand) clock left) vs e rest := by
  match h with
  | .done => exact chain_done (List.ne_nil_of_length_pos (by omega)) hr
  | @Level.Extends.operator _ _ us vs _ _ _ ho hu hx =>
    obtain ⟨c, clock, rfl⟩ := List.exists_cons_of_length_pos (l := clock) (by omega)
    have hc' : vs.length < clock.length := by
      simp only [List.length_cons, List.length_append] at hc
      omega
    refine .accept_some (l.ne_eof_of_hasOperator ho) ho ?_
    exact (rule_reads hu (hx.stopsAt hr)).bind (chain_reads hx hc' hr)

end

namespace Reads

variable {a : α} {b : β} {t : Token} {k : Kind}

theorem token {f : Nat → Token → Parser β} {e : SyntaxError} (h : t.kind = k) (hk : k ≠ .eof)
    (hf : Reads (fun d => f d t) ts b rest) :
    Reads (fun d => Parser.expect k e >>= f d) (t :: ts) b rest :=
  .bind_cons (.expect e h hk) hf

theorem expression {f : Nat → Expr → Parser β} {e : Expr} (h : Rule.assignment.Spells us e)
    (ht : t.kind.rank = 0) (hf : Reads (fun d => f d e) (t :: vs) b rest) :
    Reads (fun d => Parser.expression d >>= f d) (us ++ t :: vs) b rest :=
  .bind (rule_reads h (.of_rank_zero ht)) hf

theorem condition {f : Nat → Expr → Parser β} {opening closing : Token} {cs : List Token} {c : Expr}
    {e e' : SyntaxError} (ho : opening.kind = .leftParen) (hc : Rule.assignment.Spells cs c)
    (hx : closing.kind = .rightParen) (hf : Reads (fun d => f d c) ts b rest) :
    Reads (fun d => do
      let _ ← Parser.expect .leftParen e
      let c ← Parser.expression d
      let _ ← Parser.expect .rightParen e'
      f d c) (opening :: (cs ++ closing :: ts)) b rest :=
  .token ho (by decide) (.expression hc (by rw [hx]; rfl) (.token hx (by decide) hf))

theorem optional_some {p : Nat → Parser α} {f : Nat → Option α → Parser β} (h : t.kind = k)
    (hk : k ≠ .eof) (hf : Reads (fun d => p d >>= fun a => f d (some a)) ts b rest) :
    Reads (fun d => do
      let x ← if ← accepts k then some <$> p d else Pure.pure none
      f d x) (t :: ts) b rest :=
  hf.congr fun _ => optional_true h hk

theorem optional_none {p : Nat → Parser α} {f : Nat → Option α → Parser β}
    (hn : ∃ t us, ts ++ rest = t :: us ∧ t.kind ≠ k)
    (hf : Reads (fun d => f d none) ts b rest) : Reads (fun d => do
      let x ← if ← accepts k then some <$> p d else Pure.pure none
      f d x) ts b rest := by
  obtain ⟨t, us, ht, hk⟩ := hn
  refine hf.congr fun _ => ?_
  rw [ht]
  exact optional_false hk

theorem omittable {f : Nat → Option Expr → Parser β} {x : Option Expr} {e : SyntaxError}
    (h : SpellsOptional us x) (ht : t.kind = k) (hk : k ≠ .eof) (hr : k.rank = 0)
    (hs : k.startsExpression = false) (hf : Reads (fun d => f d x) vs b rest) :
    Reads (fun d => do
      let x ← if ← check k then Pure.pure none else some <$> Parser.expression d
      let _ ← Parser.expect k e
      f d x) (us ++ t :: vs) b rest := by
  cases h with
  | absent => exact (hf.token (f := fun d _ => f d none) ht hk).congr fun _ => unless_true ht hk
  | present he =>
    obtain ⟨u, us', rfl, hu⟩ := he.head
    refine (Reads.expression (f := fun d e => do
      let _ ← Parser.expect k _
      f d (some e)) he (ht ▸ hr) (hf.token ht hk)).congr fun _ => unless_false ?_
    rintro rfl
    exact absurd hu (by simp [hs])

end Reads
theorem variableDeclaration_reads {keyword : Token} {s : Stmt}
    (h : SpellsVariable (keyword :: ts) s) : Reads variableDeclaration ts s rest := by
  cases h with
  | plain _ hn hs =>
    refine .token hn (by decide) (.optional_none ⟨_, _, rfl, by rw [hs]; decide⟩ ?_)
    exact .token hs (by decide) (.pure _)
  | initial _ hn hk he hs =>
    refine .token hn (by decide) (.optional_some hk (by decide) ?_)
    exact .expression he (by rw [hs]; rfl) (.token hs (by decide) (.pure _))

theorem expressionStatement_reads {s : Stmt} (h : SpellsExpressionStatement ts s) :
    Reads expressionStatement ts s rest := by
  cases h with
  | mk he hs => exact .expression he (by rw [hs]; rfl) (.token hs (by decide) (.pure _))

theorem firstClause_reads {first : Option Stmt} (h : SpellsFirst ts first) :
    Reads firstClause ts first rest := by
  cases h with
  | absent hs => exact (Reads.pure none).congr fun _ => ifAccepts_true hs (by decide)
  | declare h =>
    obtain ⟨t, us, rfl, ht⟩ := h.head
    refine (variableDeclaration_reads h).map.congr fun _ => ?_
    exact (ifAccepts_false (by simp [ht])).trans (ifAccepts_true ht (by decide))
  | expression h =>
    obtain ⟨t, us, rfl, ht⟩ := h.head
    refine (expressionStatement_reads h).map.congr fun _ => ?_
    have hs : t.kind ≠ .semicolon := fun hk => by rw [hk] at ht; cases ht
    have hv : t.kind ≠ .kwVar := fun hk => by rw [hk] at ht; cases ht
    exact (ifAccepts_false hs).trans (ifAccepts_false hv)

theorem printStatement_reads {semicolon : Token} {e : Expr} (he : Rule.assignment.Spells ts e)
    (hs : semicolon.kind = .semicolon) :
    Reads printStatement (ts ++ [semicolon]) (.print e) rest :=
  .expression he (by rw [hs]; rfl) (.token hs (by decide) (.pure _))

section

variable {statement : Nat → Parser Stmt} {opening closing : Token} {cs : List Token} {c : Expr}
  (ho : opening.kind = .leftParen) (hc : Rule.assignment.Spells cs c)
  (hx : closing.kind = .rightParen)
include ho hx

theorem forStatement_reads {semicolon : Token} {fs cs ss : List Token} {first : Option Stmt}
    {c step : Option Expr} {body : Stmt} (hf : SpellsFirst fs first) (hc : SpellsOptional cs c)
    (hs : semicolon.kind = .semicolon) (hstep : SpellsOptional ss step)
    (hb : Reads statement ts body rest) :
    Reads (fun d => forStatement d (statement d))
      (opening :: (fs ++ (cs ++ semicolon :: (ss ++ closing :: ts))))
      (.forLoop first c step body) rest := by
  refine .token ho (by decide) (.bind (firstClause_reads hf) ?_)
  refine .omittable hc hs (by decide) rfl rfl (.omittable hstep hx (by decide) rfl rfl ?_)
  exact hb.last (.pure _)

include hc

theorem whileStatement_reads {body : Stmt} (hb : Reads statement ts body rest) :
    Reads (fun d => whileStatement d (statement d)) (opening :: (cs ++ closing :: ts))
      (.loop c body) rest :=
  .condition ho hc hx (hb.last (.pure _))

theorem ifStatement_reads {whenTrue : Stmt} {t : Token}
    (hb : Reads statement ts whenTrue (t :: rest)) (ht : t.kind ≠ .kwElse) :
    Reads (fun d => ifStatement d (statement d)) (opening :: (cs ++ closing :: ts))
      (.branch c whenTrue none) (t :: rest) :=
  .condition ho hc hx (hb.last (.optional_none ⟨t, rest, rfl, ht⟩ (.pure _)))

theorem ifElseStatement_reads {whenTrue whenFalse : Stmt} {keyword : Token}
    (hk : keyword.kind = .kwElse) (ht : Reads statement us whenTrue (keyword :: (vs ++ rest)))
    (hf : Reads statement vs whenFalse rest) :
    Reads (fun d => ifStatement d (statement d))
      (opening :: (cs ++ closing :: (us ++ keyword :: vs)))
      (.branch c whenTrue (some whenFalse)) rest :=
  .condition ho hc hx (.bind ht (.optional_some hk (by decide) (hf.last (.pure _))))

end

theorem statement_succ {s : Stmt} (h : Reads (fun d => statement (d + 1)) ts s rest) :
    Reads statement ts s rest :=
  h.succ rfl fun _ => rfl

theorem statement_of_head {t : Token} {s : Stmt} {q : Nat → Parser Stmt} (h : Reads q ts s rest)
    (ht : ∀ d, statement (d + 1) (t :: (ts ++ rest)) = q d (ts ++ rest)) :
    Reads statement (t :: ts) s rest := by
  apply statement_succ
  apply h.congr
  intro d
  exact ht d

theorem statement_of_expression {t : Token} (d : Nat) (h : t.kind.startsExpression) :
    statement (d + 1) (t :: ts) = expressionStatement d (t :: ts) := by
  rw [statement_cons]
  split <;> first | rfl | (next hk => rw [hk] at h; cases h)

theorem recover_of_ne_raised {p : Parser Stmt} {r : Except Stop Stmt} {faults : List Fault}
    (h : p ts = ⟨r, rest, faults⟩) (hr : ∀ e, r ≠ .error (.raised e)) :
    recover p ts = ⟨r, rest, faults⟩ := by
  rw [recover, h]
  split
  · next hp => cases hp; exact absurd rfl (hr _)
  · rfl

theorem Reads.recover {p : Nat → Parser Stmt} {s : Stmt} (h : Reads p ts s rest) :
    Reads (fun d => recover (p d)) ts s rest := by
  obtain ⟨n, hn⟩ := h
  refine ⟨n, fun d => ⟨fun hd => ?_, fun hd => ?_⟩⟩
  · exact recover_of_ne_raised ((hn d).1 hd) nofun
  · obtain ⟨left, hl⟩ := (hn d).2 hd
    exact ⟨left, recover_of_ne_raised hl nofun⟩

theorem declaration_of_variable {s : Stmt} (h : SpellsVariable ts s) :
    Reads declaration ts s rest := by
  obtain ⟨t, us, rfl, ht⟩ := h.head
  refine Reads.succ (Reads.recover ((variableDeclaration_reads h).congr fun _ => ?_)) rfl
    fun _ => rfl
  exact ifAccepts_true ht (by decide)

theorem declaration_of_statement {t : Token} {s : Stmt} (h : Reads statement (t :: ts) s rest)
    (ht : t.kind ≠ .kwVar) : Reads declaration (t :: ts) s rest := by
  refine Reads.succ (Reads.recover (h.congr fun _ => ?_)) rfl fun _ => rfl
  exact ifAccepts_false ht

theorem blockOf_done {declaration : Nat → Parser Stmt} {clock : List Token} {closing : Token}
    (hc : clock ≠ []) (hk : closing.kind = .rightBrace) :
    Reads (fun d => blockOf (declaration d) clock) [closing] [] rest := by
  obtain ⟨c, clock, rfl⟩ := List.exists_cons_of_ne_nil hc
  exact (Reads.pure []).congr fun _ => blockOf_cons.trans (if_pos hk)

mutual

theorem statement_reads {ts rest : List Token} {s : Stmt} {dangling : Bool}
    (h : SpellsStatement ts s dangling) (hr : Follows dangling rest) :
    Reads statement ts s rest := by
  match h with
  | .expression h =>
    obtain ⟨t, us, rfl, ht⟩ := h.head
    exact statement_succ
      ((expressionStatement_reads h).congr fun d => statement_of_expression d ht)
  | .print hk he hs =>
    exact statement_of_head (printStatement_reads he hs) fun _ => by rw [statement_cons, hk]
  | @SpellsStatement.block _ closing us _ ho hb hc =>
    have hn : us.length < (us ++ [closing] ++ rest).length := by simp
    exact statement_of_head (block_reads hb hn hc).map fun _ => by rw [statement_cons, ho]
  | .loop hk ho hc hx hb =>
    have hw := whileStatement_reads ho hc hx (statement_reads hb hr)
    exact statement_of_head hw fun _ => by rw [statement_cons, hk]
  | .forLoop hk ho hf hc hs hstep hx hb =>
    have hw := forStatement_reads ho hx hf hc hs hstep (statement_reads hb hr)
    exact statement_of_head hw fun _ => by rw [statement_cons, hk]
  | .branch hk ho hc hx ht =>
    obtain ⟨t, us, rfl, he⟩ := hr
    have ht := statement_reads ht ⟨t, us, rfl, fun _ => he rfl⟩
    have hw := ifStatement_reads ho hc hx ht (he rfl)
    exact statement_of_head hw fun _ => by rw [statement_cons, hk]
  | @SpellsStatement.branchElse _ _ _ keyword' _ _ us _ _ _ _ hk ho hc hx ht hk' hf =>
    have hn : Follows false (keyword' :: (us ++ rest)) := ⟨_, _, rfl, nofun⟩
    have ht := statement_reads ht hn
    have hf := statement_reads hf hr
    have hw := ifElseStatement_reads ho hc hx hk' ht hf
    exact statement_of_head hw fun _ => by rw [statement_cons, hk]

theorem declaration_reads {ts rest : List Token} {s : Stmt} (h : SpellsDeclaration ts s)
    (hr : Follows true rest) : Reads declaration ts s rest := by
  match h with
  | .declare h => exact declaration_of_variable h
  | @SpellsDeclaration.statement _ _ dangling h =>
    have hf : Follows dangling rest := by
      obtain ⟨t, us, rfl, ht⟩ := hr
      exact ⟨t, us, rfl, fun _ => ht rfl⟩
    have hs := statement_reads h hf
    obtain ⟨t, us, rfl, _, hv⟩ := h.head
    exact declaration_of_statement hs hv

theorem block_reads {ts rest : List Token} {body : List Stmt} (h : SpellsDeclarations ts body)
    {clock : List Token} (hc : ts.length < clock.length) {closing : Token}
    (hk : closing.kind = .rightBrace) :
    Reads (fun d => blockOf (declaration d) clock) (ts ++ [closing]) body rest := by
  match h with
  | .nil => exact blockOf_done (List.ne_nil_of_length_pos (by omega)) hk
  | @SpellsDeclarations.cons us vs _ p hs hp =>
    have hd : Reads declaration us _ (vs ++ [closing] ++ rest) :=
      declaration_reads hs (hp.follows (.inl hk))
    obtain ⟨t, us', rfl, ht⟩ := hs.head
    simp only [List.length_append, List.length_cons] at hc
    obtain ⟨c, clock, rfl⟩ := List.exists_cons_of_length_pos (l := clock) (by omega)
    have hc : vs.length < clock.length := by
      simp only [List.length_cons] at hc
      omega
    have hp : Reads (fun d => blockOf (declaration d) clock) (vs ++ [closing]) p rest :=
      block_reads hp hc hk
    rw [List.append_assoc]
    refine (hd.bind (f := fun d s => (s :: ·) <$> blockOf (declaration d) clock) hp.map).congr
      fun _ => ?_
    have hb : t.kind ≠ .rightBrace := fun hk => by rw [hk] at ht; cases ht
    have he : t.kind ≠ .eof := fun hk => by rw [hk] at ht; cases ht
    exact blockOf_cons.trans ((if_neg hb).trans (if_neg he))

end

theorem topLevel_of_ok {d : Nat} {s : Stmt} {faults : List Fault}
    (h : declaration d ts = ⟨.ok s, rest, faults⟩) : topLevel d ts = ⟨.ok s, rest, faults⟩ := by
  rw [topLevel, h]

theorem mem_faults_bind {p : Parser α} {f : α → Parser β} {fault : Fault}
    (h : fault ∈ (p ts).faults) : fault ∈ ((p >>= f) ts).faults := by
  rcases hp : p ts with ⟨r, rest, faults⟩
  rw [hp] at h
  cases r with
  | error s => rwa [bind_error hp]
  | ok a =>
    rw [bind_ok hp]
    exact List.mem_append_left _ h

/-- The fault of a declaration that is nested too deeply is kept. -/
theorem tooDeep_mem_topLevel {d : Nat} {left : List Token} {faults : List Fault} {t : Token}
    (ht : t.kind ≠ .eof) (he : Ended (t :: ts))
    (h : declaration d (t :: ts) = ⟨.error .tooDeep, left, faults⟩) :
    ∃ f ∈ (topLevel d (t :: ts)).faults, f.error = .tooDeep := by
  have hs : Steady 1 (declaration d) (t :: ts) := declaration_steady d ht
  rw [Steady, h] at hs
  cases hs with
  | tooDeep hp =>
    obtain ⟨u, more, rfl⟩ := (hp.ended he).cons
    rw [topLevel_tooDeep h]
    exact ⟨⟨u, .tooDeep⟩, by simp, rfl⟩

/-- What spells a program is read as that program, given depth enough; at any smaller depth there
is a fault because of the depth. -/
theorem programOf_complete {ts : List Token} {p : Program} (h : SpellsDeclarations ts p)
    {clock : List Token} (hc : ts.length < clock.length) {e : Token} (he : e.kind = .eof) :
    ∃ n, ∀ d, (n ≤ d → programOf d clock (ts ++ [e]) = ⟨.ok p, [e], []⟩) ∧
      (d < n → ∃ f ∈ (programOf d clock (ts ++ [e])).faults, f.error = .tooDeep) := by
  match h with
  | .nil =>
    obtain ⟨c, clock, rfl⟩ := List.exists_cons_of_length_pos (l := clock) (by omega)
    exact ⟨0, fun d => ⟨fun _ => programOf_cons.trans (if_pos he), nofun⟩⟩
  | @SpellsDeclarations.cons us vs s p hs hp =>
    have hf : Follows true (vs ++ [e] ++ []) := hp.follows (.inr he)
    rw [List.append_nil] at hf
    obtain ⟨m, hm⟩ := declaration_reads hs hf
    obtain ⟨t, us', rfl, ht⟩ := hs.head
    simp only [List.length_append, List.length_cons] at hc
    obtain ⟨c, clock, rfl⟩ := List.exists_cons_of_length_pos (l := clock) (by omega)
    have hc : vs.length < clock.length := by
      simp only [List.length_cons] at hc
      omega
    obtain ⟨n, hn⟩ := programOf_complete hp hc he
    have hk : t.kind ≠ .eof := fun hk => by rw [hk] at ht; cases ht
    have hstep : ∀ d, programOf d (c :: clock) (t :: us' ++ vs ++ [e]) = (do
        let s ← topLevel d
        (s :: ·) <$> programOf d clock : Parser Program) (t :: us' ++ (vs ++ [e])) := fun d => by
      rw [List.append_assoc]
      exact programOf_cons.trans (if_neg hk)
    refine ⟨max m n, fun d => ⟨fun hd => ?_, fun hd => ?_⟩⟩ <;> rw [hstep]
    · rw [bind_of_silent (topLevel_of_ok ((hm d).1 (by omega))), map_apply, (hn d).1 (by omega)]
      rfl
    · rcases Nat.lt_or_ge d m with hlt | hge
      · obtain ⟨left, hl⟩ := (hm d).2 hlt
        obtain ⟨f, hf, hk'⟩ := tooDeep_mem_topLevel hk ⟨e, by simp, he⟩ hl
        exact ⟨f, mem_faults_bind hf, hk'⟩
      · rw [bind_of_silent (topLevel_of_ok ((hm d).1 hge)), map_apply]
        exact (hn d).2 (by omega)

theorem program_complete {ts : List Token} {p : Program} (h : SpellsDeclarations ts p) {e : Token}
    (he : e.kind = .eof) :
    ∃ n, ∀ d, (n ≤ d → program d (ts ++ [e]) = ⟨.ok p, [e], []⟩) ∧
      (d < n → ∃ f ∈ (program d (ts ++ [e])).faults, f.error = .tooDeep) :=
  programOf_complete h (by simp) he

end Parser
end Lox
