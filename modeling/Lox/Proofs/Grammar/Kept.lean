import Lox.Proofs.Grammar.Spelling
import Lox.Proofs.Runs.TokenSearch

/-! # The tokens that trees keep

A tree keeps the names and the operators among the tokens that it is read of, and no others. They
stand in it in the order of the tokens, but for the step of a `for`, which comes after the body.
-/

namespace Lox

def Kind.isKept : Kind → Bool
  | .identifier | .bang | .minus | .plus | .slash | .star => true
  | .bangEqual | .equalEqual | .greater | .greaterEqual | .less | .lessEqual => true
  | .kwAnd | .kwOr => true
  | _ => false

def kept (ts : List Token) : List Token := ts.filter (·.kind.isKept)

variable {t : Token} {k : Kind} {ts us vs : List Token}

@[simp] theorem kept_nil : kept [] = [] := rfl

@[simp] theorem kept_append (us vs : List Token) : kept (us ++ vs) = kept us ++ kept vs :=
  List.filter_append ..

theorem kept_cons (h : t.kind = k) (hk : k.isKept) : kept (t :: ts) = t :: kept ts :=
  List.filter_cons_of_pos (by rw [h, hk])

theorem kept_drop (h : t.kind = k) (hk : k.isKept = false) : kept (t :: ts) = kept ts :=
  List.filter_cons_of_neg (by rw [h, hk]; exact Bool.false_ne_true)

theorem kept_sublist : (kept ts).Sublist ts := List.filter_sublist

theorem Level.isKept_of_hasOperator {l : Level} (h : l.hasOperator k) : k.isKept := by
  cases l <;> cases k <;> first | rfl | exact absurd h (by decide)

theorem Level.tokens_join (l : Level) (left : Expr) (operator : Token) (right : Expr) :
    (l.join left operator right).tokens = left.tokens ++ operator :: right.tokens := by
  cases l <;> rfl

mutual

theorem Rule.Spells.tokens_eq {r : Rule} {ts : List Token} {e : Expr} (h : r.Spells ts e) :
    e.tokens = kept ts := by
  match h with
  | .assign hn hk h => rw [Expr.tokens, h.tokens_eq, kept_cons hn rfl, kept_drop hk rfl]
  | .ofTernary h | .ofOr h | .ofPrimary h => exact h.tokens_eq
  | .choice hq hc hcs hls hrs =>
    rw [Expr.tokens, hcs.tokens_eq, hls.tokens_eq, hrs.tokens_eq, kept_append, kept_drop hq rfl,
      kept_append, kept_drop hc rfl]
  | .chain hu hx => rw [hx.tokens_eq, hu.tokens_eq, kept_append]
  | .unary ho h =>
    rw [Expr.tokens, h.tokens_eq, kept_cons rfl (by rcases ho with ho | ho <;> rw [ho] <;> rfl)]
  | .no ht | .yes ht | .nil ht => rw [kept_drop ht rfl]; rfl
  | .literal ht => rcases ht with ht | ht <;> rw [kept_drop ht rfl] <;> rfl
  | .var ht => rw [kept_cons ht rfl]; rfl
  | .grouping ho hc h =>
    rw [Expr.tokens, h.tokens_eq, kept_drop ho rfl, kept_append, kept_drop hc rfl, kept_nil,
      List.append_nil]

theorem Level.Extends.tokens_eq {l : Level} {left e : Expr} {ts : List Token}
    (h : l.Extends left ts e) : e.tokens = left.tokens ++ kept ts := by
  match h with
  | .done => rw [kept_nil, List.append_nil]
  | .operator ho hr hx =>
    rw [hx.tokens_eq, l.tokens_join, hr.tokens_eq, kept_cons rfl (Level.isKept_of_hasOperator ho),
      kept_append, List.append_assoc, List.cons_append]

end

theorem SpellsOptional.tokens_eq {e : Option Expr} (h : SpellsOptional ts e) :
    Expr.tokens? e = kept ts := by
  cases h with
  | absent => rfl
  | present h => exact h.tokens_eq

theorem SpellsVariable.tokens_eq {s : Stmt} (h : SpellsVariable ts s) : s.tokens = kept ts := by
  cases h with
  | plain hk hn hs =>
    rw [kept_drop hk rfl, kept_cons hn rfl, kept_drop hs rfl]
    rfl
  | initial hk hn he h hs =>
    rw [Stmt.tokens, Expr.tokens?, h.tokens_eq, kept_drop hk rfl, kept_cons hn rfl,
      kept_drop he rfl, kept_append, kept_drop hs rfl, kept_nil, List.append_nil]

theorem SpellsExpressionStatement.tokens_eq {s : Stmt} (h : SpellsExpressionStatement ts s) :
    s.tokens = kept ts := by
  cases h with
  | mk h hs =>
    rw [Stmt.tokens, h.tokens_eq, kept_append, kept_drop hs rfl, kept_nil, List.append_nil]

def Stmt.tokens? : Option Stmt → List Token
  | none => []
  | some s => s.tokens

theorem SpellsFirst.tokens_eq {first : Option Stmt} (h : SpellsFirst ts first) :
    Stmt.tokens? first = kept ts := by
  cases h with
  | absent hs => rw [kept_drop hs rfl]; rfl
  | declare h => exact h.tokens_eq
  | expression h => exact h.tokens_eq

theorem Stmt.tokens_forLoop (first : Option Stmt) (c step : Option Expr) (body : Stmt) :
    (Stmt.forLoop first c step body).tokens =
      Stmt.tokens? first ++ (Expr.tokens? c ++ (body.tokens ++ Expr.tokens? step)) := by
  cases first <;> cases c <;> cases step <;>
    simp [forLoop, tokens, tokens?, Program.tokens, Expr.tokens, Expr.tokens?]

/-- Among the tokens is a `for` that keeps tokens of its step, but none of the clauses before it,
and `t` is the first token of its body in the tree. There the body comes before the step. -/
def Overtakes (t : Token) (ts : List Token) : Prop :=
  ∃ us first c step body, us <:+: ts ∧ SpellsFor us first c step body ∧
    Stmt.tokens? first = [] ∧ Expr.tokens? c = [] ∧ Expr.tokens? step ≠ [] ∧
    body.tokens.head? = some t

theorem Overtakes.mono (h : Overtakes t us) (hus : us <:+: ts) : Overtakes t ts := by
  obtain ⟨vs, first, c, step, body, hvs, hfor⟩ := h
  exact ⟨vs, first, c, step, body, hvs.trans hus, hfor⟩

/-- The tokens `xs` of a tree that is read of `ts` are those that are kept, and the first of them is
the first that is kept, unless it overtakes the step of a `for`. -/
structure Leads (ts xs : List Token) : Prop where
  perm : xs.Perm (kept ts)
  head : ∀ t ∈ xs.head?, (kept ts).head? = some t ∨ Overtakes t ts

namespace Leads

variable {xs ys : List Token}

theorem of_eq (h : xs = kept ts) : Leads ts xs := by
  subst h
  exact ⟨.refl _, fun t ht => .inl ht⟩

theorem append (h : Leads us xs) (h' : Leads vs ys) : Leads (us ++ vs) (xs ++ ys) := by
  refine ⟨kept_append us vs ▸ h.perm.append h'.perm, fun t ht => ?_⟩
  rw [kept_append]
  cases xs with
  | nil =>
    have hus : kept us = [] := List.nil_perm.mp h.perm
    rw [hus]
    exact (h'.head t ht).imp_right (.mono · (List.suffix_append us vs).isInfix)
  | cons x xs =>
    refine (h.head t ht).imp (fun hk => ?_) (.mono · (List.prefix_append us vs).isInfix)
    rw [List.head?_append, hk, Option.some_or]

theorem dropped (hk : t.kind = k) (hn : k.isKept = false) : Leads [t] [] :=
  of_eq (by rw [kept_drop hk hn, kept_nil])

theorem cons (hk : t.kind = k) (hn : k.isKept = false) (h : Leads ts xs) : Leads (t :: ts) xs :=
  (dropped hk hn).append h

theorem concat (h : Leads ts xs) (hk : t.kind = k) (hn : k.isKept = false) :
    Leads (ts ++ [t]) xs := by
  rw [← List.append_nil xs]
  exact h.append (dropped hk hn)

/-- If only the step and the body of a `for` keep tokens, then the first in the tree is the first
that is kept, unless it overtakes the step. -/
theorem head_of_step {first : Option Stmt} {c step : Option Expr} {body : Stmt}
    (hfor : SpellsFor ts first c step body) (hfirst : Stmt.tokens? first = [])
    (hc : Expr.tokens? c = []) (h : Leads us body.tokens) (hus : us <:+: ts) :
    ∀ t ∈ (body.tokens ++ Expr.tokens? step).head?,
      (Expr.tokens? step ++ kept us).head? = some t ∨ Overtakes t ts := by
  intro t ht
  by_cases hstep : Expr.tokens? step = []
  · rw [hstep, List.append_nil] at ht
    rw [hstep, List.nil_append]
    exact (h.head t ht).imp_right (.mono · hus)
  · cases hbody : body.tokens with
    | nil =>
      have hkept : kept us = [] := List.nil_perm.mp (hbody ▸ h.perm)
      rw [hbody, List.nil_append] at ht
      rw [hkept, List.append_nil]
      exact .inl ht
    | cons u vs =>
      rw [hbody] at ht
      exact .inr ⟨ts, first, c, step, body, List.infix_refl ts, hfor, hfirst, hc, hstep,
        hbody ▸ ht⟩

theorem forLoop {keyword opening semicolon closing : Token} {fs cs ss : List Token}
    {first : Option Stmt} {c step : Option Expr} {body : Stmt} {dangling : Bool}
    (hk : keyword.kind = .kwFor) (ho : opening.kind = .leftParen) (hf : SpellsFirst fs first)
    (hc : SpellsOptional cs c) (hs : semicolon.kind = .semicolon) (hstep : SpellsOptional ss step)
    (hx : closing.kind = .rightParen) (hb : SpellsStatement us body dangling)
    (h : Leads us body.tokens) :
    Leads (keyword :: opening :: (fs ++ (cs ++ semicolon :: (ss ++ closing :: us))))
      (Stmt.forLoop first c step body).tokens := by
  have hfor := SpellsFor.mk hk ho hf hc hs hstep hx hb rfl
  have hus : us <:+: keyword :: opening :: (fs ++ (cs ++ semicolon :: (ss ++ closing :: us))) :=
    ⟨keyword :: opening :: (fs ++ (cs ++ semicolon :: (ss ++ [closing]))), [], by simp⟩
  have hkept : kept (keyword :: opening :: (fs ++ (cs ++ semicolon :: (ss ++ closing :: us)))) =
      Stmt.tokens? first ++ (Expr.tokens? c ++ (Expr.tokens? step ++ kept us)) := by
    rw [kept_drop hk rfl, kept_drop ho rfl, kept_append, kept_append, kept_drop hs rfl,
      kept_append, kept_drop hx rfl, hf.tokens_eq, hc.tokens_eq, hstep.tokens_eq]
  rw [Stmt.tokens_forLoop]
  refine ⟨?_, fun t ht => ?_⟩
  · rw [hkept]
    refine .append_left _ (.append_left _ ?_)
    exact List.perm_append_comm.trans (h.perm.append_left _)
  · rw [hkept, ← List.append_assoc]
    rw [← List.append_assoc] at ht
    by_cases hheader : Stmt.tokens? first ++ Expr.tokens? c = []
    · obtain ⟨hfirst, hcondition⟩ := List.append_eq_nil_iff.mp hheader
      rw [hheader] at ht ⊢
      exact head_of_step hfor hfirst hcondition h hus t ht
    · -- the first clause and the condition come first in the tree as well
      obtain ⟨u, vs, heq⟩ := List.exists_cons_of_ne_nil hheader
      rw [heq] at ht ⊢
      exact .inl ht

end Leads

mutual

theorem SpellsStatement.leads {ts : List Token} {s : Stmt} {dangling : Bool}
    (h : SpellsStatement ts s dangling) : Leads ts s.tokens := by
  match h with
  | .expression h => exact .of_eq h.tokens_eq
  | .print hk h hs => exact .cons hk rfl (.concat (.of_eq h.tokens_eq) hs rfl)
  | .block ho h hc => exact .cons ho rfl (.concat h.leads hc rfl)
  | .loop hk ho hc hx h =>
    exact .cons hk rfl (.cons ho rfl (.append (.of_eq hc.tokens_eq) (.cons hx rfl h.leads)))
  | .forLoop hk ho hf hc hs hstep hx h => exact .forLoop hk ho hf hc hs hstep hx h h.leads
  | .branch hk ho hc hx h =>
    exact .cons hk rfl (.cons ho rfl (.append (.of_eq hc.tokens_eq) (.cons hx rfl h.leads)))
  | .branchElse hk ho hc hx h hk' h' =>
    exact .cons hk rfl (.cons ho rfl (.append (.of_eq hc.tokens_eq)
      (.cons hx rfl (.append h.leads (.cons hk' rfl h'.leads)))))

theorem SpellsDeclaration.leads {ts : List Token} {s : Stmt} (h : SpellsDeclaration ts s) :
    Leads ts s.tokens := by
  match h with
  | .declare h => exact .of_eq h.tokens_eq
  | .statement h => exact h.leads

theorem SpellsDeclarations.leads {ts : List Token} {p : List Stmt} (h : SpellsDeclarations ts p) :
    Leads ts (Program.tokens p) := by
  match h with
  | .nil => exact .of_eq rfl
  | .cons h h' => exact h.leads.append h'.leads

end

theorem SpellsFor.step_before_body {first : Option Stmt} {c step : Option Expr} {body : Stmt}
    (h : SpellsFor ts first c step body) : ∃ before us vs, ts = before ++ (us ++ vs) ∧
      Expr.tokens? step = kept us ∧ body.tokens ⊆ vs := by
  cases h with
  | @mk keyword opening semicolon closing fs cs ss bs _ _ _ _ _ _ hstep _ hb hts =>
    refine ⟨keyword :: opening :: (fs ++ (cs ++ [semicolon])), ss, closing :: bs, by simp [hts],
      hstep.tokens_eq, ?_⟩
    intro t ht
    exact List.mem_cons_of_mem closing (kept_sublist.subset (hb.leads.perm.subset ht))

/-- If lines tell the order of the tokens, then no token of a declaration is on a line before the
first token of its tree, unless that has overtaken the step of a `for`. -/
theorem SpellsDeclaration.firstToken_le_iff {s : Stmt} (h : SpellsDeclaration ts s)
    (hts : ts.Pairwise fun t u => t.line < u.line) (hs : s.tokens ≠ []) :
    (∀ t ∈ s.tokens, s.firstToken.line ≤ t.line) ↔ ¬Overtakes s.firstToken ts := by
  obtain ⟨hperm, hhead⟩ := h.leads
  obtain ⟨t, xs, htokens⟩ := List.exists_cons_of_ne_nil hs
  have hfirst : s.firstToken = t := by rw [s.firstToken_eq, htokens, List.headD_cons]
  rw [hfirst]
  constructor
  · rintro hle ⟨us, first, c, step, body, hus, hfor, -, -, hstep, hbody⟩
    obtain ⟨before, vs, ws, rfl, hvs, hws⟩ := hfor.step_before_body
    obtain ⟨u, hu⟩ := List.exists_mem_of_ne_nil _ hstep
    rw [hvs] at hu
    have hlt : u.line < t.line := by
      have hloop := (List.pairwise_append.mp (hts.sublist hus.sublist)).2.1
      exact (List.pairwise_append.mp hloop).2.2 u (kept_sublist.subset hu) t
        (hws (List.mem_of_mem_head? hbody))
    -- the whole statement keeps the token of the step, which stands before `t`
    have hkept : (kept vs).Sublist (kept ts) :=
      ((List.infix_append' before vs ws).trans hus).sublist.filter _
    have := hle u (hperm.symm.subset (hkept.subset hu))
    omega
  · intro hno u hu
    have hk := (hhead t (by rw [htokens]; rfl)).resolve_right hno
    obtain ⟨us, hus⟩ := List.head?_eq_some_iff.mp hk
    have horder : (t :: us).Pairwise fun t u => t.line < u.line := hus ▸ hts.sublist kept_sublist
    rcases List.mem_cons.mp (hus ▸ hperm.subset hu) with rfl | hu
    · exact Int.le_refl _
    · exact Int.le_of_lt (List.rel_of_pairwise_cons horder hu)

end Lox
