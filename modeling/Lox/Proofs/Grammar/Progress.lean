import Lox.Proofs.Grammar.Step

/-! # Progress

Tokens that hold one of kind `eof` never run out, and no parser moves over that token. Every loop
takes a token in each round, so its clock does not run out before the tokens.
-/

namespace Lox

/-- One of the tokens is of kind `eof`. -/
def Ended (ts : List Token) : Prop := ∃ t ∈ ts, t.kind = .eof

/-- From `ts` to `rest` are `n` tokens or more, none of them of kind `eof`. -/
def Passes (n : Nat) (ts rest : List Token) : Prop :=
  ∃ used, ts = used ++ rest ∧ n ≤ used.length ∧ ∀ t ∈ used, t.kind ≠ .eof

namespace Passes

variable {m n : Nat} {ts mid rest : List Token}

theorem refl (ts : List Token) : Passes 0 ts ts := ⟨[], rfl, Nat.le_refl 0, by simp⟩

theorem token {t : Token} (h : t.kind ≠ .eof) : Passes 1 (t :: ts) ts :=
  ⟨[t], rfl, Nat.le_refl 1, by simpa using h⟩

theorem trans (h : Passes m ts mid) (h' : Passes n mid rest) : Passes (m + n) ts rest := by
  obtain ⟨us, rfl, hm, hu⟩ := h
  obtain ⟨vs, rfl, hn, hv⟩ := h'
  refine ⟨us ++ vs, (List.append_assoc ..).symm, ?_, ?_⟩
  · rw [List.length_append]; omega
  · exact fun t ht => (List.mem_append.mp ht).elim (hu t) (hv t)

theorem mono (h : Passes m ts rest) (hn : n ≤ m) : Passes n ts rest := by
  obtain ⟨us, rfl, hm, hu⟩ := h
  exact ⟨us, rfl, Nat.le_trans hn hm, hu⟩

theorem length_le (h : Passes n ts rest) : rest.length + n ≤ ts.length := by
  obtain ⟨us, rfl, hn, _⟩ := h
  rw [List.length_append]; omega

theorem subset (h : Passes n ts rest) : rest ⊆ ts := by
  obtain ⟨used, rfl, -⟩ := h
  exact List.subset_append_right used rest

theorem ended (h : Passes n ts rest) (he : Ended ts) : Ended rest := by
  obtain ⟨us, rfl, _, hu⟩ := h
  obtain ⟨t, ht, hk⟩ := he
  rcases List.mem_append.mp ht with ht | ht
  · exact absurd hk (hu t ht)
  · exact ⟨t, ht, hk⟩

theorem eq_or_one (h : Passes 0 ts rest) : ts = rest ∨ Passes 1 ts rest := by
  obtain ⟨us, rfl, _, hu⟩ := h
  cases us with
  | nil => exact .inl rfl
  | cons t us => exact .inr ⟨t :: us, rfl, by simp, hu⟩

end Passes

theorem Ended.not_nil : ¬ Ended [] := by simp [Ended]

theorem Ended.append {ts : List Token} (h : Ended ts) (us : List Token) : Ended (us ++ ts) := by
  obtain ⟨t, ht, hk⟩ := h
  exact ⟨t, List.mem_append_right us ht, hk⟩

theorem Ended.cons {ts : List Token} (h : Ended ts) : ∃ t us, ts = t :: us := by
  obtain ⟨t, ht, _⟩ := h
  cases ts with
  | nil => simp at ht
  | cons t us => exact ⟨t, us, rfl⟩

theorem append_eof_inj {us vs us' vs' : List Token} {e e' : Token}
    (hu : ∀ t ∈ us, t.kind ≠ .eof) (he : e.kind = .eof) (hu' : ∀ t ∈ us', t.kind ≠ .eof)
    (he' : e'.kind = .eof) (h : us ++ e :: vs = us' ++ e' :: vs') :
    us = us' ∧ e = e' ∧ vs = vs' := by
  induction us generalizing us' with
  | nil =>
    cases us' with
    | nil => simpa using h
    | cons t us' =>
      obtain ⟨rfl, _⟩ := List.cons.inj h
      exact absurd he (hu' _ (by simp))
  | cons t us ih =>
    cases us' with
    | nil =>
      obtain ⟨rfl, _⟩ := List.cons.inj h
      exact absurd he' (hu _ (by simp))
    | cons t' us' =>
      obtain ⟨rfl, hrest⟩ := List.cons.inj h
      obtain ⟨rfl, he⟩ := ih (fun u hm => hu u (List.mem_cons_of_mem _ hm))
        (fun u hm => hu' u (List.mem_cons_of_mem _ hm)) hrest
      exact ⟨rfl, he⟩

/-- The reply stays before the end and does not want for tokens if there is an end. If there is a
result, `n` tokens or more have been taken; if an error has been raised, it is the last fault, at
the token that is next. -/
inductive Reply.Steady {α : Type} (n : Nat) (ts : List Token) : Reply α → Prop
  | ok {a : α} {rest : List Token} {faults : List Fault} : Passes n ts rest →
      Reply.Steady n ts ⟨.ok a, rest, faults⟩
  | raised {t : Token} {rest : List Token} {e : SyntaxError} {faults : List Fault} :
      Passes 0 ts (t :: rest) →
      Reply.Steady n ts ⟨.error (.raised e), t :: rest, faults ++ [⟨t, e⟩]⟩
  | tooDeep {rest : List Token} {faults : List Fault} : Passes 0 ts rest →
      Reply.Steady n ts ⟨.error .tooDeep, rest, faults⟩
  | pastEnd {rest : List Token} {faults : List Fault} : ¬ Ended ts →
      Reply.Steady n ts ⟨.error .pastEnd, rest, faults⟩

theorem Reply.Steady.raised_here {α : Type} {n : Nat} {t : Token} {ts : List Token}
    {e : SyntaxError} :
    Reply.Steady (α := α) n (t :: ts) ⟨.error (.raised e), t :: ts, [⟨t, e⟩]⟩ := by
  have hp : Passes 0 (t :: ts) (t :: ts) := .refl _
  exact @Reply.Steady.raised α n _ t ts e [] hp

theorem Reply.Steady.mono {α : Type} {m n : Nat} {ts : List Token} {reply : Reply α}
    (h : reply.Steady m ts) (hn : n ≤ m) : reply.Steady n ts := by
  cases h with
  | ok h => exact .ok (h.mono hn)
  | raised h => exact .raised h
  | tooDeep h => exact .tooDeep h
  | pastEnd h => exact .pastEnd h

theorem Reply.Steady.map {α β : Type} {n : Nat} {ts : List Token} {reply : Reply α}
    (h : reply.Steady n ts) (f : α → β) (faults : List Fault) :
    Reply.Steady n ts ⟨reply.result.map f, reply.rest, faults ++ reply.faults⟩ := by
  cases h with
  | ok h => exact .ok h
  | raised h => rw [← List.append_assoc]; exact .raised h
  | tooDeep h => exact .tooDeep h
  | pastEnd h => exact .pastEnd h

/-- What is steady after some tokens is steady from before them. -/
theorem Reply.Steady.after {α : Type} {m n : Nat} {ts rest : List Token} {reply : Reply α}
    (h : reply.Steady n rest) (hr : Passes m ts rest) (faults : List Fault) :
    Reply.Steady (m + n) ts ⟨reply.result, reply.rest, faults ++ reply.faults⟩ := by
  cases h with
  | ok h => exact .ok (hr.trans h)
  | raised h =>
    rw [← List.append_assoc]
    exact .raised ((hr.trans h).mono (Nat.zero_le _))
  | tooDeep h => exact .tooDeep ((hr.trans h).mono (Nat.zero_le _))
  | pastEnd h => exact .pastEnd fun he => h (hr.ended he)

namespace Parser

variable {α β : Type} {m n : Nat} {ts rest : List Token}

def Steady (n : Nat) (p : Parser α) (ts : List Token) : Prop := (p ts).Steady n ts

namespace Steady

theorem pure (a : α) : Steady 0 (pure a : Parser α) ts := .ok (.refl ts)

theorem stop_tooDeep : Steady n (stop .tooDeep : Parser α) ts := .tooDeep (.refl ts)

theorem mono {p : Parser α} (h : Steady m p ts) (hn : n ≤ m) : Steady n p ts :=
  Reply.Steady.mono h hn

theorem of_ok {p : Parser α} {f : α → Parser β} {a : α} {faults : List Fault}
    (h : p ts = ⟨.ok a, rest, faults⟩) (hr : Passes m ts rest) (hf : Steady n (f a) rest) :
    Steady (m + n) (p >>= f) ts := by
  rw [Steady, bind_ok h]
  exact Reply.Steady.after hf hr faults

theorem bind {p : Parser α} {f : α → Parser β} (hp : Steady m p ts)
    (hf : ∀ a rest, Passes m ts rest → Steady n (f a) rest) : Steady (m + n) (p >>= f) ts := by
  rcases h : p ts with ⟨r, rest, faults⟩
  rw [Steady, h] at hp
  cases hp with
  | ok hr => exact of_ok h hr (hf _ _ hr)
  | raised hr => rw [Steady, bind_error h]; exact .raised hr
  | tooDeep hr => rw [Steady, bind_error h]; exact .tooDeep hr
  | pastEnd hn => rw [Steady, bind_error h]; exact .pastEnd hn

/-- What comes after `p` need not take a token if `p` takes enough. -/
theorem bind_left {p : Parser α} {f : α → Parser β} (hp : Steady m p ts)
    (hf : ∀ a rest, Passes m ts rest → Steady 0 (f a) rest) : Steady m (p >>= f) ts :=
  hp.bind hf

theorem bind_zero {p : Parser α} {f : α → Parser β} (hp : Steady m p ts)
    (hf : ∀ a rest, Passes m ts rest → Steady 0 (f a) rest) : Steady 0 (p >>= f) ts :=
  (hp.bind_left hf).mono (Nat.zero_le m)

theorem map {p : Parser α} (f : α → β) (hp : Steady n p ts) : Steady n (f <$> p) ts := by
  rw [← bind_pure_eq_map]
  exact hp.bind fun _ _ _ => pure _

theorem accept {k : Nat} {accepted : Kind → Bool} {f : Option Token → Parser β}
    (hs : ∀ t us, accepted t.kind → Passes 1 ts us → Steady n (f (some t)) us)
    (hn : Steady k (f none) ts) (hk : k ≤ 1 + n) : Steady k (accept accepted >>= f) ts := by
  cases ts with
  | nil => exact .pastEnd Ended.not_nil
  | cons t us =>
    by_cases h : t.kind = .eof ∨ accepted t.kind = false
    · simpa using of_ok (accept_none h) (.refl _) hn
    · obtain ⟨ht, ha⟩ : t.kind ≠ .eof ∧ accepted t.kind := by simpa using h
      exact (of_ok (accept_some ht ha) (.token ht) (hs t us ha (.token ht))).mono hk

theorem accepts {k : Nat} {kind : Kind} {f : Bool → Parser β} (hkind : kind ≠ .eof)
    (ht : ∀ us, Passes 1 ts us → Steady n (f true) us)
    (hf : Steady k (f false) ts) (hk : k ≤ 1 + n) : Steady k (accepts kind >>= f) ts := by
  cases ts with
  | nil => exact .pastEnd Ended.not_nil
  | cons t us =>
    by_cases h : t.kind = kind
    · have hu : Passes 1 (t :: us) us := .token (h ▸ hkind)
      exact (of_ok (accepts_true h hkind) hu (ht us hu)).mono hk
    · simpa using of_ok (accepts_false h) (.refl _) hf

theorem optional {k : Kind} {p : Parser α} {f : Option α → Parser β} (hk : k ≠ .eof)
    (hp : ∀ us, Steady 0 p us) (hf : ∀ x us, Steady n (f x) us) :
    Steady n (do
      let x ← if ← Parser.accepts k then some <$> p else Pure.pure none
      f x : Parser β) ts := by
  cases ts with
  | nil => exact .pastEnd Ended.not_nil
  | cons t us =>
    by_cases h : t.kind = k
    · rw [Steady, optional_true h hk]
      have := (hp us).bind fun a vs _ => hf (some a) vs
      exact (Reply.Steady.after this (.token (h ▸ hk)) []).mono (by omega)
    · rw [Steady, optional_false h]
      exact hf none _

theorem omittable {k : Kind} {p : Parser α} {f : Option α → Parser β} (hk : k ≠ .eof)
    (hp : Steady 0 p ts) (hf : ∀ x us, Steady n (f x) us) :
    Steady n (do
      let x ← if ← check k then Pure.pure none else some <$> p
      f x : Parser β) ts := by
  cases ts with
  | nil => exact .pastEnd Ended.not_nil
  | cons t us =>
    by_cases h : t.kind = k
    · rw [Steady, unless_true h hk]
      exact hf none _
    · rw [Steady, unless_false h]
      exact (hp.bind fun a vs _ => hf (some a) vs).mono (by omega)

theorem expect {k : Kind} (e : SyntaxError) (hk : k ≠ .eof) : Steady 1 (expect k e) ts := by
  cases ts with
  | nil => exact .pastEnd Ended.not_nil
  | cons t us =>
    by_cases h : t.kind = k
    · rw [Steady, expect_ok e h hk]; exact .ok (.token (h ▸ hk))
    · rw [Steady, expect_error e h]; exact .raised_here

end Steady

theorem peek_steady : Steady 0 peek ts := by
  cases ts with
  | nil => exact .pastEnd Ended.not_nil
  | cons t more => exact .ok (.refl _)

theorem skip_steady : Steady 0 skip ts := by
  cases ts with
  | nil => exact .pastEnd Ended.not_nil
  | cons t more =>
    rw [Steady, skip]
    split
    · exact .ok (.refl _)
    · next ht => exact .ok ((Passes.token ht).mono (Nat.zero_le 1))

theorem accept_steady (accepted : Kind → Bool) : Steady 0 (accept accepted) ts := by
  have hpure : Steady 0 (accept accepted >>= pure) ts :=
    .accept (n := 0) (fun _ _ _ _ => .pure _) (.pure _) (Nat.zero_le 1)
  rwa [bind_pure] at hpure

theorem chain_steady {l : Level} {operand : Parser Expr} (hop : ∀ ts, Steady 1 operand ts)
    {clock : List Token} {left : Expr} (hc : ts.length ≤ clock.length) :
    Steady 0 (chain l operand clock left) ts := by
  induction clock generalizing left ts with
  | nil =>
    obtain rfl := List.eq_nil_of_length_eq_zero (Nat.le_zero.mp hc)
    exact .pastEnd Ended.not_nil
  | cons _ clock ih =>
    refine .accept (n := 0) (fun operator us _ hu => ?_) (.pure left) (by omega)
    refine .bind_zero (hop us) fun right vs hv => ih ?_
    have := hu.length_le
    have := hv.length_le
    simp only [List.length_cons] at hc
    omega

theorem assignTo_steady (left : Expr) (equals : Token) (value : Expr) :
    Steady 0 (assignTo left equals value) ts := by
  cases left with
  | var name => exact .pure _
  | _ => exact .ok (.refl ts)

theorem primary_steady {inner : Parser Expr} (h : ∀ ts, Steady 1 inner ts) :
    Steady 1 (primary inner) ts := by
  cases ts with
  | nil => exact .pastEnd Ended.not_nil
  | cons t us =>
    rw [Steady, primary_cons]
    cases hk : t.kind <;> dsimp only
    case kwFalse | kwTrue | kwNil | number | string | identifier =>
      exact .ok (.token (by rw [hk]; decide))
    case leftParen =>
      have hu : Passes 1 (t :: us) us := .token (by rw [hk]; decide)
      refine Reply.Steady.after (n := 0) ?_ hu []
      refine Steady.bind_zero (h us) fun e vs _ => ?_
      exact .bind_zero (.expect _ (by decide)) fun _ _ _ => .pure _
    all_goals exact .raised_here

theorem rule_steady (d : Nat) (r : Rule) : Steady 1 (rule d r) ts := by
  induction d generalizing r ts with
  | zero => exact .stop_tooDeep
  | succ d ih =>
    cases r with
    | assignment =>
      refine .bind_left (ih _) fun left us _ => ?_
      refine .accept (n := 0) (fun equals vs _ _ => ?_) (.pure _) (by omega)
      exact .bind_zero (ih _) fun _ _ _ => assignTo_steady _ _ _
    | ternary =>
      refine .bind_left (ih _) fun condition us _ => ?_
      refine .accept (n := 0) (fun _ vs _ _ => ?_) (.pure _) (by omega)
      refine .bind_zero (ih _) fun left ws _ => ?_
      refine .bind_zero (.expect _ (by decide)) fun _ xs _ => ?_
      exact .bind_zero (ih _) fun right _ _ => .pure _
    | level l =>
      exact .bind_left (ih _) fun left us hu => chain_steady (fun _ => ih _) (by
        have := hu.length_le
        omega)
    | unary =>
      refine .accept (n := 1) (fun operator us _ _ => ?_) (ih _) (by omega)
      exact .bind_left (ih _) fun right _ _ => .pure _
    | primary => exact primary_steady fun _ => ih _

theorem expression_steady (d : Nat) {k : Kind} (hk : k ≠ .eof) (e : SyntaxError)
    {f : Expr → Parser α} (hf : ∀ c us, Steady 0 (f c) us) :
    Steady 1 (do
      let c ← expression d
      let _ ← expect k e
      f c : Parser α) ts := by
  refine .bind_left (rule_steady d _) fun c us _ => ?_
  exact .bind_zero (.expect _ hk) fun _ vs _ => hf c vs

theorem variableDeclaration_steady (d : Nat) : Steady 1 (variableDeclaration d) ts := by
  refine .bind_left (.expect _ (by decide)) fun name us _ => ?_
  refine .optional (by decide) (fun vs => (rule_steady d _).mono (by omega)) fun x vs => ?_
  exact .bind_zero (.expect _ (by decide)) fun _ _ _ => .pure _

theorem expressionStatement_steady (d : Nat) : Steady 1 (expressionStatement d) ts :=
  expression_steady d (by decide) _ fun _ _ => .pure _

theorem printStatement_steady (d : Nat) : Steady 1 (printStatement d) ts :=
  expression_steady d (by decide) _ fun _ _ => .pure _

theorem condition_steady (d : Nat) (e e' : SyntaxError) {f : Expr → Parser α}
    (hf : ∀ c us, Steady 0 (f c) us) :
    Steady 1 (do
      let _ ← expect .leftParen e
      let c ← expression d
      let _ ← expect .rightParen e'
      f c : Parser α) ts := by
  refine .bind_left (.expect _ (by decide)) fun _ us _ => ?_
  exact (expression_steady d (by decide) _ hf).mono (by omega)

theorem firstClause_steady (d : Nat) : Steady 0 (firstClause d) ts := by
  refine .accepts (n := 0) (by decide) (fun us _ => .pure none) ?_ (by omega)
  refine .accepts (n := 0) (by decide) (fun us _ => ?_) ?_ (by omega)
  · exact ((variableDeclaration_steady d).map _).mono (by omega)
  · exact ((expressionStatement_steady d).map _).mono (by omega)

section

variable {statement : Parser Stmt} (hs : ∀ ts, Steady 1 statement ts)
include hs

theorem ifStatement_steady (d : Nat) : Steady 1 (ifStatement d statement) ts := by
  refine condition_steady d _ _ fun c us => ?_
  refine .bind_zero (hs us) fun whenTrue vs _ => ?_
  exact .optional (by decide) (fun ws => (hs ws).mono (by omega)) fun _ _ => .pure _

theorem whileStatement_steady (d : Nat) : Steady 1 (whileStatement d statement) ts := by
  refine condition_steady d _ _ fun c us => ?_
  exact .bind_zero (hs us) fun _ _ _ => .pure _

theorem forStatement_steady (d : Nat) : Steady 1 (forStatement d statement) ts := by
  refine .bind_left (.expect _ (by decide)) fun _ us _ => ?_
  refine .bind_left (firstClause_steady d) fun first vs _ => ?_
  refine .omittable (by decide) ((rule_steady d _).mono (by omega)) fun condition ws => ?_
  refine .bind_zero (.expect _ (by decide)) fun _ xs _ => ?_
  refine .omittable (by decide) ((rule_steady d _).mono (by omega)) fun step ys => ?_
  refine .bind_zero (.expect _ (by decide)) fun _ zs _ => ?_
  exact .bind_zero (hs zs) fun _ _ _ => .pure _

end

theorem resume_steady (last : Token) : Steady 0 (resume last) ts := by
  induction ts generalizing last with
  | nil => exact .pastEnd Ended.not_nil
  | cons t us ih =>
    rw [Steady, resume]
    split
    · exact .ok (.refl _)
    · next h => exact (Reply.Steady.after (ih t) (.token fun hk => h (.inl hk)) []).mono (by omega)

theorem synchronize_steady_cons {t : Token} (h : t.kind ≠ .eof) :
    Steady 1 synchronize (t :: ts) := by
  rw [Steady, synchronize, if_neg h]
  exact Reply.Steady.after (resume_steady t) (.token h) []

theorem synchronize_steady : Steady 0 synchronize ts := by
  cases ts with
  | nil => exact .pastEnd Ended.not_nil
  | cons t us =>
    by_cases h : t.kind = .eof
    · rw [Steady, synchronize, if_pos h]; exact .ok (.refl _)
    · exact (synchronize_steady_cons h).mono (by omega)

theorem synchronize_from {t : Token} (ht : t.kind ≠ .eof) (hr : Passes 0 (t :: ts) rest) :
    (synchronize rest).Steady 1 (t :: ts) := by
  rcases hr.eq_or_one with rfl | hr
  · exact synchronize_steady_cons ht
  · exact Reply.Steady.after synchronize_steady hr []

theorem recover_steady {p : Parser Stmt} {t : Token} (ht : t.kind ≠ .eof)
    (hp : Steady 1 p (t :: ts)) : Steady 1 (recover p) (t :: ts) := by
  rcases h : p (t :: ts) with ⟨r, rest, faults⟩
  rw [Steady, h] at hp
  cases hp with
  | ok hr => simp only [Steady, recover, h]; exact .ok hr
  | tooDeep hr => simp only [Steady, recover, h]; exact .tooDeep hr
  | pastEnd hn => simp only [Steady, recover, h]; exact .pastEnd hn
  | raised hr =>
    simp only [Steady, recover, h]
    exact (synchronize_from ht hr).map _ _

theorem blockOf_steady {declaration : Parser Stmt}
    (hd : ∀ t us, t.kind ≠ .eof → Steady 1 declaration (t :: us)) {clock : List Token}
    (hc : ts.length ≤ clock.length) : Steady 1 (blockOf declaration clock) ts := by
  induction clock generalizing ts with
  | nil =>
    obtain rfl := List.eq_nil_of_length_eq_zero (Nat.le_zero.mp hc)
    exact .pastEnd Ended.not_nil
  | cons c clock ih =>
    cases ts with
    | nil => exact .pastEnd Ended.not_nil
    | cons t us =>
      rw [Steady, blockOf_cons]
      split
      · next hb => exact .ok (.token (by rw [hb]; decide))
      · split
        · exact .raised_here
        · next ht =>
          refine (Steady.bind (n := 1) (hd t us ht) fun s vs hv => (ih ?_).map _).mono (by omega)
          have := hv.length_le
          simp only [List.length_cons] at hc this
          omega

theorem statement_steady_and_declaration_steady (d : Nat) :
    (∀ ts, Steady 1 (statement d) ts) ∧
      ∀ t us, t.kind ≠ .eof → Steady 1 (declaration d) (t :: us) := by
  induction d with
  | zero => exact ⟨fun _ => .stop_tooDeep, fun _ _ _ => .stop_tooDeep⟩
  | succ d ih =>
    obtain ⟨hs, hd⟩ := ih
    refine ⟨fun ts => ?_, fun t us ht => recover_steady ht ?_⟩
    · cases ts with
      | nil => exact .pastEnd Ended.not_nil
      | cons t us =>
        have hu (h : t.kind ≠ .eof) {p : Parser Stmt} (hp : Steady 1 p us) :
            (p us).Steady 1 (t :: us) :=
          (Reply.Steady.after hp (.token h) []).mono (by omega)
        rw [Steady, statement_cons]
        cases hk : t.kind <;> dsimp only
        case kwFor => exact hu (by simp [hk]) (forStatement_steady hs d)
        case kwIf => exact hu (by simp [hk]) (ifStatement_steady hs d)
        case kwPrint => exact hu (by simp [hk]) (printStatement_steady d)
        case kwWhile => exact hu (by simp [hk]) (whileStatement_steady hs d)
        case leftBrace => exact hu (by simp [hk]) ((blockOf_steady hd (Nat.le_refl _)).map _)
        all_goals exact expressionStatement_steady d
    · refine .accepts (n := 0) (by decide) (fun vs _ => ?_) (hs _) (by omega)
      exact (variableDeclaration_steady d).mono (by omega)

theorem statement_steady (d : Nat) : Steady 1 (statement d) ts :=
  (statement_steady_and_declaration_steady d).1 ts

theorem declaration_steady (d : Nat) {t : Token} (ht : t.kind ≠ .eof) :
    Steady 1 (declaration d) (t :: ts) :=
  (statement_steady_and_declaration_steady d).2 t ts ht

theorem resume_error (last : Token) {s : Stop} (h : (resume last ts).result = .error s) :
    s = .pastEnd := by
  induction ts generalizing last with
  | nil => cases h; rfl
  | cons t us ih =>
    rw [resume] at h
    split at h
    · cases h
    · exact ih t h

theorem synchronize_error {s : Stop} (h : (synchronize ts).result = .error s) : s = .pastEnd := by
  cases ts with
  | nil => cases h; rfl
  | cons t us =>
    rw [synchronize] at h
    split at h
    · cases h
    · exact resume_error t h

theorem map_error {r : Except Stop α} {g : α → β} {s : Stop} (h : r.map g = .error s) :
    r = .error s := by
  cases r <;> cases h
  rfl

theorem recover_ne_raised (p : Parser Stmt) {e : SyntaxError} :
    (recover p ts).result ≠ .error (.raised e) := by
  intro h
  rw [recover] at h
  split at h
  · cases synchronize_error (map_error h)
  · next hr => exact hr _ _ _ (by rw [← h])

theorem declaration_ne_raised (d : Nat) {e : SyntaxError} :
    (declaration d ts).result ≠ .error (.raised e) := by
  cases d with
  | zero => nofun
  | succ d =>
    rw [declaration]
    exact recover_ne_raised _

theorem topLevel_tooDeep {d : Nat} {u : Token} {more : List Token} {faults : List Fault}
    (h : declaration d ts = ⟨.error .tooDeep, u :: more, faults⟩) :
    topLevel d ts = ⟨(synchronize (u :: more)).result.map fun _ => .failed,
      (synchronize (u :: more)).rest,
      (faults ++ [⟨u, .tooDeep⟩]) ++ (synchronize (u :: more)).faults⟩ := by
  simp only [topLevel, h, bind_ok peek_cons]
  have hn : note u .tooDeep (u :: more) = ⟨.ok (), u :: more, [⟨u, .tooDeep⟩]⟩ := rfl
  rw [bind_ok hn]
  simp [map_apply]

/-- A declaration of a program is always read or given up, and takes a token at least. -/
theorem topLevel_steady (d : Nat) {t : Token} (ht : t.kind ≠ .eof) :
    Steady 1 (topLevel d) (t :: ts) := by
  have hd : Steady 1 (declaration d) (t :: ts) := declaration_steady d ht
  rcases h : declaration d (t :: ts) with ⟨r, rest, faults⟩
  rw [Steady, h] at hd
  cases hd with
  | ok hr => rw [Steady, topLevel, h]; exact .ok hr
  | raised hr => rw [Steady, topLevel, h]; exact .raised hr
  | pastEnd hn => rw [Steady, topLevel, h]; exact .pastEnd hn
  | tooDeep hr =>
    cases rest with
    | nil => rw [Steady, topLevel, h]; exact .pastEnd fun he => Ended.not_nil (hr.ended he)
    | cons u more =>
      rw [Steady, topLevel_tooDeep h]
      exact (synchronize_from ht hr).map _ _

theorem topLevel_error {d : Nat} {s : Stop} (h : (topLevel d ts).result = .error s) :
    s = .pastEnd := by
  rcases hd : declaration d ts with ⟨r, rest, faults⟩
  have hn : ∀ e, (declaration d ts).result ≠ .error (.raised e) := fun _ =>
    declaration_ne_raised d
  rw [hd] at hn
  rcases r with ⟨_ | _ | _⟩ | a
  · exact absurd rfl (hn _)
  · cases rest with
    | nil => rw [topLevel, hd] at h; cases h; rfl
    | cons u more =>
      rw [topLevel_tooDeep hd] at h
      exact synchronize_error (map_error h)
  · rw [topLevel, hd] at h; cases h; rfl
  · rw [topLevel, hd] at h; cases h

/-- A declaration of a program is read or given up, and takes a token at least. -/
theorem topLevel_ok (d : Nat) {t : Token} (ht : t.kind ≠ .eof) (he : Ended (t :: ts)) :
    ∃ s rest faults, topLevel d (t :: ts) = ⟨.ok s, rest, faults⟩ ∧ Passes 1 (t :: ts) rest := by
  have hs : Steady 1 (topLevel d) (t :: ts) := topLevel_steady d ht
  have hn : ∀ s, (topLevel d (t :: ts)).result = .error s → s = .pastEnd := fun _ => topLevel_error
  rcases h : topLevel d (t :: ts) with ⟨r, rest, faults⟩
  rw [Steady, h] at hs
  rw [h] at hn
  cases hs with
  | ok hr => exact ⟨_, _, _, rfl, hr⟩
  | raised _ | tooDeep _ => cases hn _ rfl
  | pastEnd hp => exact absurd he hp

/-- A program is read up to the first token of kind `eof`. -/
theorem programOf_ok (d : Nat) {clock : List Token} (hc : ts.length ≤ clock.length)
    (he : Ended ts) : ∃ p e more faults, programOf d clock ts = ⟨.ok p, e :: more, faults⟩ ∧
      e.kind = .eof ∧ Passes 0 ts (e :: more) := by
  induction clock generalizing ts with
  | nil =>
    obtain rfl := List.eq_nil_of_length_eq_zero (Nat.le_zero.mp hc)
    exact absurd he Ended.not_nil
  | cons c clock ih =>
    obtain ⟨t, us, rfl⟩ := he.cons
    rw [programOf_cons]
    split
    · next h => exact ⟨_, _, _, _, rfl, h, .refl _⟩
    · next h =>
      obtain ⟨s, rest, faults, hs, hr⟩ := topLevel_ok d h he
      have hl := hr.length_le
      simp only [List.length_cons] at hc hl
      obtain ⟨p, e, more, faults', hp, hk, hr'⟩ := ih (by omega) (hr.ended he)
      refine ⟨s :: p, e, more, faults ++ faults', ?_, hk, (hr.trans hr').mono (Nat.zero_le _)⟩
      rw [bind_ok hs, map_apply, hp]
      rfl

theorem program_ok (d : Nat) (he : Ended ts) :
    ∃ p e more faults, program d ts = ⟨.ok p, e :: more, faults⟩ ∧ e.kind = .eof ∧
      Passes 0 ts (e :: more) :=
  programOf_ok d (Nat.le_refl _) he

end Parser
end Lox
