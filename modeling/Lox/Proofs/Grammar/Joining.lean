import Lox.Proofs.Grammar.Lookahead

/-! # Programs one after the other

A declaration that is read without faults ends with its last token, and an `else` is the only token
that could make it longer. So the tokens of two programs, the second after the first, are read as
the statements of both, and the faults of the second stay what they are.
-/

namespace Lox.Parser

variable {α β γ : Type} {ts us rest : List Token}

/-- What `p` reads in silence it also reads if something else follows, unless that is an `else`. -/
def Closed (p : Parser α) (ts : List Token) : Prop :=
  ∀ a rest, p ts = ⟨.ok a, rest, []⟩ → ∃ used, used ≠ [] ∧ ts = used ++ rest ∧
    ∀ rest', Follows true rest' → p (used ++ rest') = ⟨.ok a, rest', []⟩

namespace Closed

variable {p q : Parser α} {t : Token}

protected theorem stop (s : Stop) : Closed (stop s : Parser α) ts := fun _ _ h => nomatch h

/-- Parsers in sequence; the first need not be closed, as the second takes a token. -/
theorem bind {f : α → Parser β} (h : Local p p ts)
    (hf : ∀ a mid, p ts = ⟨.ok a, mid, []⟩ → Closed (f a) mid) : Closed (p >>= f) ts := by
  intro b rest hb
  obtain ⟨a, mid, hp, ha⟩ := bind_silent hb
  obtain ⟨us, rfl, -, hus⟩ := h _ _ _ hp trivial
  obtain ⟨vs, hne, rfl, hvs⟩ := hf a mid hp b rest ha
  refine ⟨us ++ vs, by simp [hne], (List.append_assoc ..).symm, fun rest' hr => ?_⟩
  obtain ⟨v, vs, rfl⟩ := List.exists_cons_of_ne_nil hne
  have hu := hus (v :: vs ++ rest') ⟨v, vs ++ rest, vs ++ rest', rfl, rfl⟩
  rw [List.append_assoc]
  exact (bind_of_silent hu f).trans (hvs rest' hr)

theorem map {g : α → β} (h : Closed p ts) : Closed (g <$> p) ts := by
  intro b rest hb
  obtain ⟨a, hp, rfl⟩ := map_silent hb
  obtain ⟨used, hne, hts, hu⟩ := h a rest hp
  exact ⟨used, hne, hts, fun rest' hr => map_of_ok (hu rest' hr) g⟩

theorem last {g : α → β} (h : Closed p ts) : Closed (p >>= fun a => pure (g a)) ts := by
  rw [bind_pure_eq_map]
  exact h.map

protected theorem expect {k : Kind} (hk : k ≠ .eof) (e : SyntaxError) : Closed (expect k e) ts := by
  intro t rest h
  obtain ⟨rfl, ht⟩ := expect_silent hk h
  exact ⟨[t], by simp, rfl, fun rest' _ => expect_ok e ht hk⟩

theorem of_token (hp : ∀ us, p (t :: us) = q us) (h : Closed q us) : Closed p (t :: us) := by
  intro a rest ha
  rw [hp] at ha
  obtain ⟨used, _, rfl, hu⟩ := h a rest ha
  exact ⟨t :: used, by simp, rfl, fun rest' hr => (hp _).trans (hu rest' hr)⟩

theorem of_head (hp : ∀ us, p (t :: us) = q (t :: us)) (h : Closed q (t :: us)) :
    Closed p (t :: us) := by
  intro a rest ha
  rw [hp] at ha
  obtain ⟨used, hne, hts, hu⟩ := h a rest ha
  obtain ⟨u, vs, rfl⟩ := List.exists_cons_of_ne_nil hne
  obtain ⟨rfl, _⟩ := List.cons.inj hts
  exact ⟨t :: vs, hne, hts, fun rest' hr => (hp _).trans (hu rest' hr)⟩

theorem ifAccepts {k : Kind} (hp : ∀ us, Closed p us) (hq : ∀ us, Closed q us) :
    Closed (do if ← accepts k then p else q) ts := by
  refine bind (LocalIn.accepts trivial) fun b mid _ => ?_
  cases b with
  | true => exact hp mid
  | false => exact hq mid

theorem optional {k : Kind} {d : Nat} {f : Option Expr → Parser β} (hf : ∀ x us, Closed (f x) us) :
    Closed
      (do
        let x ← if ← accepts k then some <$> expression d else pure none
        f x) ts := by
  refine bind (LocalIn.accepts trivial) fun b us _ => ?_
  cases b with
  | true => exact bind ((expression_local (Nat.le_refl d)).map some) fun x vs _ => hf x vs
  | false => exact bind (.pure none) fun x vs _ => hf x vs

theorem omittable {k : Kind} {d : Nat} {f : Option Expr → Parser β}
    (hf : ∀ x us, Closed (f x) us) :
    Closed
      (do
        let x ← if ← check k then pure none else some <$> expression d
        f x) ts := by
  refine bind (LocalIn.check k) fun b us _ => ?_
  cases b with
  | true => exact bind (.pure none) fun x vs _ => hf x vs
  | false => exact bind ((expression_local (Nat.le_refl d)).map some) fun x vs _ => hf x vs

theorem recover {p : Parser Stmt} {n : Nat} (hs : Steady n p ts) (h : Closed p ts) :
    Closed (recover p) ts := by
  intro s rest hr
  obtain ⟨used, hne, hts, hu⟩ := h s rest (recover_silent hs hr)
  exact ⟨used, hne, hts, fun rest' hf => recover_of_ne_raised (hu rest' hf) nofun⟩

theorem otherwise {f : α → Option β → γ} {q : Parser β} (hl : Local p p ts) (hp : Closed p ts)
    (hq : ∀ us, Closed q us) :
    Closed
      (do
        let a ← p
        let x ← if ← accepts .kwElse then some <$> q else pure none
        return f a x : Parser γ) ts := by
  intro c rest hc
  obtain ⟨a, mid, ha, hx⟩ := bind_silent hc
  cases mid with
  | nil => cases hx
  | cons t us =>
    by_cases ht : t.kind = .kwElse
    · -- the second part takes the last token
      refine bind hl (fun a' mid' ha' => ?_) c rest hc
      rw [ha] at ha'
      cases ha'
      exact of_token (fun _ => optional_true ht (by decide)) (hq us).last
    · rw [optional_false ht] at hx
      cases hx
      obtain ⟨used, hne, hts, hu⟩ := hp a (t :: us) ha
      refine ⟨used, hne, hts, fun rest' hr => ?_⟩
      obtain ⟨t', us', rfl, ht'⟩ := hr
      rw [bind_of_silent (hu _ ⟨t', us', rfl, ht'⟩), optional_false (ht' rfl)]
      rfl

end Closed

theorem variableDeclaration_closed (d : Nat) : Closed (variableDeclaration d) ts := by
  refine .bind (LocalIn.expect trivial _) fun name us _ => .optional fun x vs => ?_
  exact (Closed.expect (by decide) _).last

theorem expressionStatement_closed (d : Nat) : Closed (expressionStatement d) ts :=
  .bind (expression_local (Nat.le_refl d)) fun _ _ _ => (Closed.expect (by decide) _).last

theorem printStatement_closed (d : Nat) : Closed (printStatement d) ts :=
  .bind (expression_local (Nat.le_refl d)) fun _ _ _ => (Closed.expect (by decide) _).last

theorem condition_closed {d : Nat} {e e' : SyntaxError} {f : Expr → Parser α}
    (hf : ∀ c us, Closed (f c) us) :
    Closed
      (do
        let _ ← expect .leftParen e
        let c ← expression d
        let _ ← expect .rightParen e'
        f c : Parser α) ts := by
  refine .bind (LocalIn.expect trivial _) fun _ us _ => ?_
  refine .bind (expression_local (Nat.le_refl d)) fun c vs _ => ?_
  exact .bind (LocalIn.expect trivial _) fun _ ws _ => hf c ws

section

variable {d : Nat} {p : Parser Stmt} (hp : ∀ us, Closed p us)
include hp

theorem whileStatement_closed : Closed (whileStatement d p) ts :=
  condition_closed fun _ us => (hp us).last

theorem ifStatement_closed (hl : ∀ us, Local p p us) : Closed (ifStatement d p) ts :=
  condition_closed fun _ us => .otherwise (hl us) (hp us) hp

theorem forStatement_closed : Closed (forStatement d p) ts := by
  refine .bind (LocalIn.expect trivial _) fun _ us _ => ?_
  refine .bind (firstClause_local (Nat.le_refl d)) fun first us _ => ?_
  refine .omittable fun c us => .bind (LocalIn.expect trivial _) fun _ us _ => ?_
  refine .omittable fun step us => .bind (LocalIn.expect trivial _) fun _ us _ => ?_
  exact (hp us).last

end

theorem blockOf_closed {p : Parser Stmt} (hl : ∀ us, Local p p us)
    (hs : ∀ t us, t.kind ≠ .eof → Steady 1 p (t :: us)) (ts : List Token) :
    Closed (fun us => blockOf p us us) ts := by
  induction hn : ts.length using Nat.strongRecOn generalizing ts with
  | ind n ih =>
    cases ts with
    | nil => exact fun _ _ h => nomatch h
    | cons t us =>
      by_cases hb : t.kind = .rightBrace
      · intro body rest h
        cases (blockOf_cons.trans (if_pos hb)).symm.trans h
        exact ⟨[t], by simp, rfl, fun rest' _ => blockOf_cons.trans (if_pos hb)⟩
      by_cases he : t.kind = .eof
      · intro body rest h
        cases (blockOf_cons.trans ((if_neg hb).trans (if_pos he))).symm.trans h
      refine .of_head (fun vs => blockOf_fresh hs hb he) (.bind (hl _) fun s mid h => .map ?_)
      have := (hs t us he).length_le h
      simp only [List.length_cons] at this hn
      exact ih mid.length (by omega) mid rfl

theorem statement_closed_and_declaration_closed (d : Nat) :
    (∀ ts, Closed (statement d) ts) ∧ ∀ ts, Closed (declaration d) ts := by
  induction d with
  | zero => exact ⟨fun _ => .stop _, fun _ => .stop _⟩
  | succ d ih =>
    obtain ⟨hs, hd⟩ := ih
    have hl : ∀ us, Local (statement d) (statement d) us := fun _ => statement_local (Nat.le_refl d)
    constructor
    · intro ts
      refine .ifAccepts (fun _ => forStatement_closed hs) fun _ => ?_
      refine .ifAccepts (fun _ => ifStatement_closed hs hl) fun _ => ?_
      refine .ifAccepts (fun _ => printStatement_closed d) fun _ => ?_
      refine .ifAccepts (fun _ => whileStatement_closed hs) fun _ => ?_
      refine .ifAccepts (fun us => ?_) fun _ => expressionStatement_closed d
      exact (blockOf_closed (fun _ => declaration_local (Nat.le_refl d))
        (fun _ _ h => declaration_steady d h) us).map
    · intro ts
      refine .recover (n := 1) ?_ (.ifAccepts (fun _ => variableDeclaration_closed d) hs)
      exact .accepts (by decide) (fun us _ => variableDeclaration_steady d) (statement_steady d)
        (by omega)

theorem declaration_closed (d : Nat) (ts : List Token) : Closed (declaration d) ts :=
  (statement_closed_and_declaration_closed d).2 ts

theorem programOf_clock {d : Nat} {clock clock' : List Token} (hc : ts.length ≤ clock.length)
    (hc' : ts.length ≤ clock'.length) : programOf d clock ts = programOf d clock' ts := by
  induction clock generalizing clock' ts with
  | nil =>
    obtain rfl := List.eq_nil_of_length_eq_zero (Nat.le_zero.mp hc)
    cases clock' <;> rfl
  | cons c clock ih =>
    cases ts with
    | nil => cases clock' <;> rfl
    | cons t us =>
      obtain ⟨c', clock', rfl⟩ := List.exists_cons_of_length_pos (l := clock') (by
        simp only [List.length_cons] at hc'
        omega)
      rw [programOf_cons, programOf_cons]
      by_cases ht : t.kind = .eof
      · rw [if_pos ht, if_pos ht]
      · rw [if_neg ht, if_neg ht]
        refine bind_congr fun s mid fs h => ?_
        have := (topLevel_steady d ht).length_le h
        simp only [List.length_cons] at hc hc' this
        exact map_congr _ (ih (by omega) (by omega))

/-- A program without faults and one after it are read as one program. -/
theorem programOf_append {d : Nat} {clock clock' us vs : List Token} {e : Token} {p q : Program}
    {faults : List Fault} (hu : ∀ t ∈ us, t.kind ≠ .eof) (he : e.kind = .eof)
    (hp : programOf d clock (us ++ [e]) = ⟨.ok p, [e], []⟩) (hv : Follows true vs)
    (hc : (us ++ vs).length ≤ clock'.length)
    (hq : programOf d vs vs = ⟨.ok q, rest, faults⟩) :
    programOf d clock' (us ++ vs) = ⟨.ok (p ++ q), rest, faults⟩ := by
  induction clock generalizing clock' us p with
  | nil => cases hp
  | cons c clock ih =>
    cases us with
    | nil =>
      cases (programOf_cons.trans (if_pos he)).symm.trans hp
      exact (programOf_clock hc (Nat.le_refl _)).trans hq
    | cons t us =>
      obtain ⟨ht, hu⟩ := List.forall_mem_cons.mp hu
      obtain ⟨s, mid, hs, hp⟩ := bind_silent ((programOf_cons.trans (if_neg ht)).symm.trans hp)
      obtain ⟨p, hm, rfl⟩ := map_silent hp
      obtain ⟨ws, rfl, hw⟩ := programOf_sound d clock hm
      obtain ⟨used, hne, hts, hd⟩ := declaration_closed d _ s _ (topLevel_silent hs)
      obtain ⟨t', used, rfl⟩ := List.exists_cons_of_ne_nil hne
      obtain ⟨rfl, rfl⟩ : t = t' ∧ us = used ++ ws := by simpa [← List.append_assoc] using hts
      have hf : Follows true (ws ++ vs) := by
        have hf : Follows true (ws ++ [e] ++ []) := hw.follows (.inr he)
        cases ws with
        | nil => exact hv
        | cons w ws =>
          obtain ⟨_, _, h, hk⟩ := hf
          cases h
          exact ⟨w, ws ++ vs, rfl, hk⟩
      obtain ⟨c', clock', rfl⟩ := List.exists_cons_of_length_pos (l := clock') (by
        simp only [List.cons_append, List.length_cons] at hc
        omega)
      have hc : (ws ++ vs).length ≤ clock'.length := by
        simp only [List.cons_append, List.length_cons, List.length_append] at hc ⊢
        omega
      have h := ih (fun u hm => hu u (List.mem_append_right used hm)) hm hc
      rw [List.cons_append, List.append_assoc]
      exact programOf_of_ok ht (topLevel_of_ok (hd _ hf)) h

theorem follows_append_eof {vs : List Token} {e : Token} (hv : ∀ t ∈ vs.head?, t.kind ≠ .kwElse)
    (he : e.kind = .eof) : Follows true (vs ++ [e]) := by
  cases vs with
  | nil => exact ⟨e, [], rfl, by simp [he]⟩
  | cons v vs => exact ⟨v, vs ++ [e], rfl, fun _ => hv v rfl⟩

/-- After tokens that are read without faults, all that does not start with an `else` is read as it
is by itself, whatever is wrong with it. -/
theorem program_append {us vs : List Token} {e e' : Token} (d : Nat) (hu : ∀ t ∈ us, t.kind ≠ .eof)
    (hv : ∀ t ∈ vs, t.kind ≠ .eof) (he : e.kind = .eof) (he' : e'.kind = .eof)
    (hfaults : (program d (us ++ [e])).faults = [])
    (hhead : ∀ t ∈ vs.head?, t.kind ≠ .kwElse) :
    ∃ p q faults, program d (us ++ [e]) = ⟨.ok p, [e], []⟩ ∧
      program d (vs ++ [e']) = ⟨.ok q, [e'], faults⟩ ∧
      program d (us ++ vs ++ [e']) = ⟨.ok (p ++ q), [e'], faults⟩ := by
  obtain ⟨p, hp, _⟩ := program_sound hu he hfaults
  have hended : Ended (vs ++ [e']) := ⟨e', by simp, he'⟩
  obtain ⟨q, e'', more, faults, hq, he'', ws, hws, _, hw⟩ := program_ok d hended
  obtain ⟨rfl, rfl, rfl⟩ := append_eof_inj hv he' hw he'' hws
  refine ⟨p, q, faults, hp, hq, ?_⟩
  rw [List.append_assoc]
  exact programOf_append hu he hp (follows_append_eof hhead he') (Nat.le_refl _) hq

/-- What comes after `if (x) y;` starts with a brace that closes nothing. -/
theorem program_append_brace :
    let token (k : Kind) : Token := ⟨k, "", .nil, 1⟩
    let us := [token .kwIf, token .leftParen, token .identifier, token .rightParen,
      token .identifier, token .semicolon]
    let vs := [token .rightBrace, token .semicolon, token .kwPrint, token .number, token .semicolon]
    (∀ t ∈ us, t.kind ≠ .eof) ∧ (∀ t ∈ vs, t.kind ≠ .eof) ∧
      (program 20 (us ++ [.eof 1])).faults = [] ∧ (∀ t ∈ vs.head?, t.kind ≠ .kwElse) ∧
      (program 20 (us ++ vs ++ [.eof 1])).faults = [⟨token .rightBrace, .expectExpression⟩] := by
  intro token us vs
  have hu : ∀ t ∈ us, t.kind ≠ .eof := by decide
  have hv : ∀ t ∈ vs, t.kind ≠ .eof := by decide
  have hfaults : (program 20 (us ++ [.eof 1])).faults = [] := by decide
  have hhead : ∀ t ∈ vs.head?, t.kind ≠ .kwElse := by decide
  have he : (Token.eof 1).kind = .eof := rfl
  obtain ⟨p, q, faults, _, hq, hw⟩ := program_append 20 hu hv he he hfaults hhead
  have halone : (program 20 (vs ++ [.eof 1])).faults =
      [⟨token .rightBrace, .expectExpression⟩] := by
    decide
  rw [hq] at halone
  rw [hw]
  exact ⟨hu, hv, hfaults, hhead, halone⟩

end Lox.Parser
