import Lox.Proofs.Grammar.Lookahead

/-! # An error stays in its statement

A program cut at its semicolons and braces is read piece by piece: what is read of a piece, and the
faults found in it, do not depend on the pieces around it.
-/

namespace Lox

/-- Tokens up to a semicolon that could be a statement without a block, or a wrong one. -/
structure Chunk where
  body : List Token
  semicolon : Token
  ends : semicolon.kind = .semicolon
  plain : ∀ t ∈ body, t.kind ∉ [.semicolon, .leftBrace, .rightBrace, .eof]
  /-- No statement starts after the first token. -/
  inner : ∀ t ∈ body.tail, t.kind.startsStatement = false
  first : ∀ t ∈ body.head?, t.kind ≠ .kwFor ∧ t.kind ≠ .kwElse

def Chunk.tokens (c : Chunk) : List Token := c.body ++ [c.semicolon]

theorem Chunk.ne_semicolon (c : Chunk) {ws : List Token} (h : ws <:+ c.body) :
    ∀ t ∈ ws, t.kind ≠ .semicolon :=
  fun t ht hk => c.plain t (h.mem ht) (by simp [hk])

theorem Chunk.head (c : Chunk) :
    ∃ t us, c.tokens = t :: us ∧ t.kind ∉ [.eof, .rightBrace, .kwElse] := by
  rcases hb : c.body with _ | ⟨t, us⟩
  · exact ⟨c.semicolon, [], by simp [Chunk.tokens, hb], by simp [c.ends]⟩
  · have hp := c.plain t (by simp [hb])
    have hf := c.first t (by simp [hb])
    exact ⟨t, us ++ [c.semicolon], by simp [Chunk.tokens, hb], by simp_all⟩

inductive Segment where
  | chunk (c : Chunk)
  | braced (opening closing : Token) (body : List Segment) (opens : opening.kind = .leftBrace)
      (closes : closing.kind = .rightBrace)

namespace Segment

mutual

def tokens : Segment → List Token
  | chunk c => c.tokens
  | braced opening closing body _ _ => opening :: (tokensOfAll body ++ [closing])

def tokensOfAll : List Segment → List Token
  | [] => []
  | g :: gs => g.tokens ++ tokensOfAll gs

end

theorem head (g : Segment) :
    ∃ t us, g.tokens = t :: us ∧ t.kind ∉ [.eof, .rightBrace, .kwElse] := by
  cases g with
  | chunk c => exact c.head
  | braced opening closing body ho hc =>
    exact ⟨opening, _, rfl, by simp [ho]⟩

theorem follows (gs : List Segment) {t : Token} {more : List Token}
    (ht : t.kind = .rightBrace ∨ t.kind = .eof) : Follows true (tokensOfAll gs ++ t :: more) := by
  cases gs with
  | nil => exact ⟨t, more, rfl, fun _ => by rcases ht with ht | ht <;> simp [ht]⟩
  | cons g gs =>
    obtain ⟨u, us, hu, hk⟩ := g.head
    exact ⟨u, _, by rw [tokensOfAll, hu]; rfl, fun _ he => hk (by simp [he])⟩

mutual

/-- The statement and the faults of a segment by itself. A chunk is read as a program of its own:
it is one statement, which has failed just if an error has been raised. -/
inductive Yields (d : Nat) (e : Token) : Segment → Stmt → List Fault → Prop
  | chunk {c : Chunk} {s : Stmt} {faults : List Fault} :
      Parser.program d (c.tokens ++ [e]) = ⟨.ok [s], [e], faults⟩ →
      (s = .failed ↔ ∃ f ∈ faults, f.error.isRaised) → Yields d e (.chunk c) s faults
  | braced {opening closing : Token} {body : List Segment} {opens : opening.kind = .leftBrace}
      {closes : closing.kind = .rightBrace} {slots : List Stmt} {faults : List Fault} :
      YieldsAll d e body slots faults →
      Yields d e (.braced opening closing body opens closes) (.block slots) faults

inductive YieldsAll (d : Nat) (e : Token) : List Segment → List Stmt → List Fault → Prop
  | nil : YieldsAll d e [] [] []
  | cons {g : Segment} {gs : List Segment} {s : Stmt} {slots : List Stmt}
      {faults faults' : List Fault} : Yields d e g s faults → YieldsAll d e gs slots faults' →
      YieldsAll d e (g :: gs) (s :: slots) (faults ++ faults')

end

end Segment

namespace Parser

variable {α β : Type} {ts us vs rest : List Token}

/-- There is no result just if an error has been raised, as far as the depth and the tokens do. -/
def Candid (p : Parser α) : Prop := ∀ ts r rest faults, p ts = ⟨r, rest, faults⟩ → Settled r →
  ((∃ e, r = .error (.raised e)) ↔ ∃ f ∈ faults, f.error.isRaised)

namespace Candid

theorem of_silent {p : Parser α}
    (h : ∀ ts r rest faults, p ts = ⟨r, rest, faults⟩ → Settled r →
      (∃ a, r = .ok a) ∧ faults = []) : Candid p := by
  intro ts r rest faults hp hr
  obtain ⟨⟨a, rfl⟩, rfl⟩ := h ts r rest faults hp hr
  simp

theorem bind {p : Parser α} {f : α → Parser β} (h : Candid p) (hf : ∀ a, Candid (f a)) :
    Candid (p >>= f) := by
  intro ts r rest faults hb hr
  rcases bind_cases hb with ⟨s, rfl, hp⟩ | ⟨a, mid, fs, fs', hp, ha, rfl⟩
  · have := h _ _ _ _ hp hr.error
    simpa using this
  · have hp := h _ _ _ _ hp trivial
    rw [hf a _ _ _ _ ha hr]
    simp only [reduceCtorEq, exists_false, false_iff] at hp
    grind

theorem pure (a : α) : Candid (pure a : Parser α) :=
  of_silent fun ts r rest faults h _ => by cases h; exact ⟨⟨a, rfl⟩, rfl⟩

theorem map {p : Parser α} (h : Candid p) (f : α → β) : Candid (f <$> p) := by
  rw [← bind_pure_eq_map]
  exact h.bind fun _ => .pure _

theorem raise {e : SyntaxError} (t : Token) (he : e.isRaised) : Candid (raise t e : Parser α) := by
  intro ts r rest faults h _
  cases h
  simpa using he

theorem stop_of_ne_raised {s : Stop} (hs : ∀ e, s ≠ .raised e) : Candid (stop s : Parser α) := by
  intro ts r rest faults h hr
  cases h
  cases s with
  | raised e => exact absurd rfl (hs e)
  | _ => exact hr.elim

theorem peek : Candid peek := by
  refine of_silent fun ts r rest faults h hr => ?_
  cases ts with
  | nil => cases h; exact hr.elim
  | cons t ts => cases h; exact ⟨⟨t, rfl⟩, rfl⟩

theorem accept (accepted : Kind → Bool) : Candid (accept accepted) := by
  refine of_silent fun ts r rest faults h hr => ?_
  cases ts with
  | nil => cases h; exact hr.elim
  | cons t ts =>
    rw [Parser.accept] at h
    split at h <;> cases h <;> exact ⟨⟨_, rfl⟩, rfl⟩

theorem accepts (k : Kind) : Candid (accepts k) :=
  (accept _).bind fun _ => .pure _

theorem expect (k : Kind) {e : SyntaxError} (he : e.isRaised) : Candid (expect k e) := by
  refine (accept _).bind fun x => ?_
  cases x with
  | none => exact peek.bind fun t => .raise t he
  | some t => exact .pure t

end Candid

theorem chain_candid {l : Level} {p : Parser Expr} (h : Candid p) (clock : List Token)
    (left : Expr) : Candid (chain l p clock left) := by
  induction clock generalizing left with
  | nil => exact .stop_of_ne_raised nofun
  | cons c clock ih =>
    refine (Candid.accept _).bind fun x => ?_
    cases x with
    | none => exact .pure left
    | some operator => exact h.bind fun right => ih _

theorem assignTo_candid (left : Expr) (equals : Token) (value : Expr) :
    Candid (assignTo left equals value) := by
  have note : Candid (note equals .invalidTarget) := by
    intro ts r rest faults h _
    cases h
    simp [SyntaxError.isRaised]
  cases left with
  | var name => exact .pure _
  | _ => exact note.bind fun _ => .pure _

theorem primary_candid {p : Parser Expr} (h : Candid p) : Candid (primary p) := by
  intro ts r rest faults hp hr
  cases ts with
  | nil => cases hp; exact hr.elim
  | cons t ts =>
    rw [primary_cons] at hp
    cases hk : t.kind
    all_goals simp only [hk] at hp
    case leftParen =>
      exact h.bind (fun e => (Candid.expect _ rfl).bind fun _ => .pure _) _ _ _ _ hp hr
    all_goals cases hp; simp [SyntaxError.isRaised]

theorem rule_candid (d : Nat) (r : Rule) : Candid (rule d r) := by
  induction d generalizing r with
  | zero => exact .stop_of_ne_raised nofun
  | succ d ih =>
    cases r with
    | assignment =>
      refine (ih _).bind fun left => (Candid.accept _).bind fun x => ?_
      cases x with
      | none => exact .pure left
      | some equals => exact (ih _).bind fun value => assignTo_candid _ _ _
    | ternary =>
      refine (ih _).bind fun c => (Candid.accept _).bind fun x => ?_
      cases x with
      | none => exact .pure c
      | some _ =>
        refine (ih _).bind fun left => (Candid.expect _ rfl).bind fun _ => ?_
        exact (ih _).bind fun right => .pure _
    | level l => exact fun ts => (ih _).bind (chain_candid (ih _) ts) ts
    | unary =>
      refine (Candid.accept _).bind fun x => ?_
      cases x with
      | none => exact ih _
      | some operator => exact (ih _).bind fun right => .pure _
    | primary => exact primary_candid (ih _)

/-- How a parser ends with the tokens of a statement and what follows it: after the semicolon, or
with an error before it. So does `q`, whatever follows. -/
inductive Ends (q : Parser Stmt) (us : List Token) (semicolon : Token) (rest : List Token) :
    Reply Stmt → Prop
  | ok {s : Stmt} {faults : List Fault} : s ≠ .failed → (∀ f ∈ faults, ¬ f.error.isRaised) →
      (∀ rest', Follows true rest' → q (us ++ semicolon :: rest') = ⟨.ok s, rest', faults⟩) →
      Ends q us semicolon rest ⟨.ok s, rest, faults⟩
  | raised {e : SyntaxError} {ws : List Token} {faults : List Fault} : ws <:+ us →
      (∃ f ∈ faults, f.error.isRaised) →
      (∀ rest', Follows true rest' →
        q (us ++ semicolon :: rest') = ⟨.error (.raised e), ws ++ semicolon :: rest', faults⟩) →
      Ends q us semicolon rest ⟨.error (.raised e), ws ++ semicolon :: rest, faults⟩
  | stopped {s : Stop} {left : List Token} {faults : List Fault} : (∀ e, s ≠ .raised e) →
      Ends q us semicolon rest ⟨.error s, left, faults⟩

/-- What `p` and `q` do with a statement does not depend on what follows it. -/
def Sentence (p q : Parser Stmt) (us : List Token) (semicolon : Token) : Prop :=
  ∀ rest, Follows true rest → Ends q us semicolon rest (p (us ++ semicolon :: rest))

theorem split_at_semicolon {semicolon : Token} (h : us ++ semicolon :: rest = vs ++ ts)
    (hv : ∀ t ∈ vs, t.kind ≠ .semicolon) (hs : semicolon.kind = .semicolon) :
    ∃ ws, us = vs ++ ws ∧ ts = ws ++ semicolon :: rest := by
  rcases List.append_eq_append_iff.mp h with ⟨xs, hx, hxs⟩ | ⟨ws, rfl, rfl⟩
  · cases xs with
    | nil => exact ⟨[], by simpa using hx.symm, by simpa using hxs.symm⟩
    | cons x xs =>
      obtain rfl := (List.cons.inj hxs).1
      exact absurd hs (hv _ (by simp [hx]))
  · exact ⟨ws, rfl, rfl⟩

namespace Sentence

variable {semicolon : Token} {p q : Parser Stmt}

theorem stop {s : Stop} (h : ∀ e, s ≠ .raised e) : Sentence (Parser.stop s) q us semicolon :=
  fun _ _ => .stopped h

theorem bind (hs : semicolon.kind = .semicolon) {p q : Parser α} {f g : α → Parser Stmt}
    (h : ∀ ts, LocalIn (· ≠ .semicolon) p q ts) (hc : Candid p)
    (hf : ∀ a ws, ws <:+ us → Sentence (f a) (g a) ws semicolon) :
    Sentence (p >>= f) (q >>= g) us semicolon := by
  intro rest hr
  rcases hp : p (us ++ semicolon :: rest) with ⟨s | a, mid, fs⟩
  · rw [bind_error hp]
    cases s with
    | tooDeep | pastEnd => exact .stopped nofun
    | raised e =>
      obtain ⟨used, hu, hk, hq⟩ := h _ _ _ _ hp trivial
      obtain ⟨ws, rfl, rfl⟩ := split_at_semicolon hu hk hs
      refine .raised ⟨used, rfl⟩ ((hc _ _ _ _ hp trivial).mp ⟨e, rfl⟩) fun rest' hr' => ?_
      rw [List.append_assoc]
      exact bind_error (hq _ (sameHead_of_append ws semicolon rest rest')) g
  · obtain ⟨used, hu, hk, hq⟩ := h _ _ _ _ hp trivial
    obtain ⟨ws, rfl, rfl⟩ := split_at_semicolon hu hk hs
    have hm : ∀ f ∈ fs, ¬ f.error.isRaised := by
      have := hc _ _ _ _ hp trivial
      simpa using this
    have hq' := fun rest' => hq _ (sameHead_of_append ws semicolon rest rest')
    have hf := hf a ws ⟨used, rfl⟩ rest hr
    rw [bind_ok hp]
    rcases hfa : f a (ws ++ semicolon :: rest) with ⟨r, left, fs'⟩
    rw [hfa] at hf
    cases hf with
    | ok hne hm' hg =>
      refine .ok hne (by grind) fun rest' hr' => ?_
      rw [List.append_assoc]
      exact bind_of_ok (hq' rest') (hg rest' hr')
    | raised hw hm' hg =>
      refine .raised (hw.trans ⟨used, rfl⟩) (by grind) fun rest' hr' => ?_
      rw [List.append_assoc]
      exact bind_of_ok (hq' rest') (hg rest' hr')
    | stopped hne => exact .stopped hne

theorem last (hs : semicolon.kind = .semicolon) (hu : ∀ t ∈ us, t.kind ≠ .semicolon)
    {e : SyntaxError} (he : e.isRaised) {s : Stmt} (hne : s ≠ .failed) :
    Sentence (expect .semicolon e >>= fun _ => Pure.pure s)
      (expect .semicolon e >>= fun _ => Pure.pure s) us semicolon := by
  intro rest hr
  cases us with
  | nil =>
    have h : ∀ rest, (expect .semicolon e >>= fun _ => (Pure.pure s : Parser Stmt))
        (semicolon :: rest) = ⟨.ok s, rest, []⟩ := fun rest =>
      bind_of_silent (expect_ok e hs (by decide)) _
    rw [List.nil_append, h]
    exact .ok hne (by simp) fun rest' _ => h rest'
  | cons t us =>
    have h : ∀ rest, (expect .semicolon e >>= fun _ => (Pure.pure s : Parser Stmt)) (t :: rest) =
        ⟨.error (.raised e), t :: rest, [⟨t, e⟩]⟩ := fun rest =>
      bind_error (expect_error e (hu t (by simp))) _
    rw [List.cons_append, h]
    exact .raised (List.suffix_refl _) (by simpa using he) fun rest' _ => h _

theorem after {f g : Stmt → Parser Stmt} {a : Stmt → Stmt} (h : Sentence p q us semicolon)
    (ha : ∀ s, a s ≠ .failed)
    (hf : ∀ s rest, Follows true rest → f s rest = ⟨.ok (a s), rest, []⟩)
    (hg : ∀ s rest, Follows true rest → g s rest = ⟨.ok (a s), rest, []⟩) :
    Sentence (p >>= f) (q >>= g) us semicolon := by
  intro rest hr
  have h := h rest hr
  rcases hp : p (us ++ semicolon :: rest) with ⟨r, left, fs⟩
  rw [hp] at h
  cases h with
  | ok hne hm hq =>
    rw [bind_of_ok hp (hf _ rest hr), List.append_nil]
    refine .ok (ha _) hm fun rest' hr' => ?_
    rw [bind_of_ok (hq rest' hr') (hg _ rest' hr'), List.append_nil]
  | raised hw hm hq =>
    rw [bind_error hp]
    exact .raised hw hm fun rest' hr' => bind_error (hq rest' hr') g
  | stopped hne =>
    rw [bind_error hp]
    exact .stopped hne

theorem congr {p' q' : Parser Stmt} (hu : us <:+ vs)
    (hp : ∀ rest, p (vs ++ semicolon :: rest) = p' (us ++ semicolon :: rest))
    (hq : ∀ rest, q (vs ++ semicolon :: rest) = q' (us ++ semicolon :: rest))
    (h : Sentence p' q' us semicolon) : Sentence p q vs semicolon := by
  intro rest hr
  have h := h rest hr
  rw [hp]
  rcases hp' : p' (us ++ semicolon :: rest) with ⟨r, left, fs⟩
  rw [hp'] at h
  cases h with
  | ok hne hm h => exact .ok hne hm fun rest' hr' => (hq rest').trans (h rest' hr')
  | raised hw hm h =>
    exact .raised (hw.trans hu) hm fun rest' hr' => (hq rest').trans (h rest' hr')
  | stopped hne => exact .stopped hne

theorem of_token {p' q' : Parser Stmt} {t : Token} (hp : ∀ vs, p (t :: vs) = p' vs)
    (hq : ∀ vs, q (t :: vs) = q' vs) (h : Sentence p' q' us semicolon) :
    Sentence p q (t :: us) semicolon :=
  h.congr (List.suffix_cons t us) (fun _ => hp _) fun _ => hq _

end Sentence

section

variable {semicolon : Token} (hs : semicolon.kind = .semicolon) {d d' : Nat} (hd : d ≤ d')
include hs hd

theorem expression_sentence (hu : ∀ t ∈ us, t.kind ≠ .semicolon) {e : SyntaxError}
    (he : e.isRaised) {s : Expr → Stmt} (hne : ∀ a, s a ≠ .failed) :
    Sentence
      (do
        let a ← expression d
        let _ ← expect .semicolon e
        return s a : Parser Stmt)
      (do
        let a ← expression d'
        let _ ← expect .semicolon e
        return s a : Parser Stmt) us semicolon :=
  .bind hs (fun _ => rule_local hd .assignment) (rule_candid d _) fun a _ hw =>
    .last hs (fun t ht => hu t (hw.mem ht)) he (hne a)

theorem variableDeclaration_sentence (hu : ∀ t ∈ us, t.kind ≠ .semicolon) :
    Sentence (variableDeclaration d) (variableDeclaration d') us semicolon := by
  refine .bind hs (fun _ => .expect (by decide) _) (.expect _ rfl) fun name vs hv => ?_
  refine .bind hs (fun _ => .accepts (by decide)) (.accepts _) fun b ws hw => ?_
  have hu {xs} (hx : xs <:+ ws) : ∀ t ∈ xs, t.kind ≠ .semicolon :=
    fun t ht => hu t ((hx.trans (hw.trans hv)).mem ht)
  cases b with
  | true =>
    refine .bind hs (fun _ => (rule_local hd _).map some) ((rule_candid d _).map some) ?_
    exact fun x xs hx => .last hs (hu hx) rfl nofun
  | false =>
    refine .bind hs (fun _ => .pure none) (.pure none) ?_
    exact fun x xs hx => .last hs (hu hx) rfl nofun

theorem condition_sentence {e e' : SyntaxError} (he : e.isRaised) (he' : e'.isRaised)
    {f g : Expr → Parser Stmt} (hf : ∀ c ws, ws <:+ us → Sentence (f c) (g c) ws semicolon) :
    Sentence
      (do
        let _ ← expect .leftParen e
        let c ← expression d
        let _ ← expect .rightParen e'
        f c : Parser Stmt)
      (do
        let _ ← expect .leftParen e
        let c ← expression d'
        let _ ← expect .rightParen e'
        g c : Parser Stmt) us semicolon := by
  refine .bind hs (fun _ => .expect (by decide) _) (.expect _ he) fun _ vs hv => ?_
  refine .bind hs (fun _ => rule_local hd _) (rule_candid d _) fun c ws hw => ?_
  refine .bind hs (fun _ => .expect (by decide) _) (.expect _ he') fun _ xs hx => ?_
  exact hf c xs (hx.trans (hw.trans hv))

variable {p q : Parser Stmt} (h : ∀ ws, ws <:+ us → Sentence p q ws semicolon)
include h

theorem whileStatement_sentence :
    Sentence (whileStatement d p) (whileStatement d' q) us semicolon :=
  condition_sentence hs hd rfl rfl fun c ws hw =>
    (h ws hw).after (a := .loop c) nofun (fun _ _ _ => rfl) fun _ _ _ => rfl

theorem ifStatement_sentence : Sentence (ifStatement d p) (ifStatement d' q) us semicolon := by
  refine condition_sentence hs hd rfl rfl fun c ws hw => ?_
  have without {p : Parser Stmt} (s : Stmt) (rest : List Token) (hr : Follows true rest) :
      (do
        let x ← if ← accepts .kwElse then some <$> p else pure none
        return .branch c s x : Parser Stmt) rest = ⟨.ok (.branch c s none), rest, []⟩ := by
    obtain ⟨t, us, rfl, ht⟩ := hr
    exact optional_false (ht rfl)
  exact (h ws hw).after (a := fun s => .branch c s none) nofun without without

end

/-- A statement that starts with none of the keywords and with no brace. -/
theorem statement_sentence {semicolon : Token} (hs : semicolon.kind = .semicolon) {d d' : Nat}
    (hd : d ≤ d') (hu : ∀ t ∈ us, t.kind ≠ .semicolon)
    (ht : ∀ t ∈ us.head?, t.kind ∉ [.kwFor, .kwIf, .kwPrint, .kwWhile, .leftBrace]) :
    Sentence (statement d) (statement d') us semicolon := by
  cases d with
  | zero => exact .stop nofun
  | succ d =>
    obtain ⟨d', rfl⟩ : ∃ n, d' = n + 1 := ⟨d' - 1, by omega⟩
    have he (d : Nat) (rest : List Token) : statement (d + 1) (us ++ semicolon :: rest) =
        expressionStatement d (us ++ semicolon :: rest) := by
      cases us with
      | nil => rw [List.nil_append, statement_cons, hs]
      | cons t us =>
        have ht := ht t rfl
        rw [List.cons_append, statement_cons]
        split <;> first | rfl | simp_all
    refine .congr (List.suffix_refl _) (he d) (he d') ?_
    exact expression_sentence hs (by omega) hu rfl nofun

theorem declaration_sentence (c : Chunk) {d d' : Nat} (hd : d ≤ d') :
    Sentence
      (do if ← accepts .kwVar then variableDeclaration d else statement d)
      (do if ← accepts .kwVar then variableDeclaration d' else statement d') c.body
      c.semicolon := by
  have hs := c.ends
  rcases hb : c.body with _ | ⟨t, us⟩
  · refine .congr (List.suffix_refl _) (fun _ => ifAccepts_false (by simp [hs]))
      (fun _ => ifAccepts_false (by simp [hs])) ?_
    exact statement_sentence hs hd (by simp) (by simp)
  have hu {ws} (hw : ws <:+ t :: us) : ∀ t ∈ ws, t.kind ≠ .semicolon :=
    c.ne_semicolon (hb ▸ hw)
  have hc : us <:+ t :: us := List.suffix_cons t us
  by_cases hv : t.kind = .kwVar
  · exact .of_token (fun _ => ifAccepts_true hv (by decide))
      (fun _ => ifAccepts_true hv (by decide)) (variableDeclaration_sentence hs hd (hu hc))
  refine .congr (List.suffix_refl _) (fun _ => ifAccepts_false hv) (fun _ => ifAccepts_false hv) ?_
  have hi : ∀ d d', d ≤ d' → ∀ ws, ws <:+ us →
      Sentence (statement d) (statement d') ws c.semicolon := by
    intro d d' hd ws hw
    refine statement_sentence hs hd (hu (hw.trans hc)) fun u hm => ?_
    have hm := hw.mem (List.mem_of_mem_head? hm)
    have hi := c.inner u (by simpa [hb] using hm)
    have hp := c.plain u (by simp [hb, hm])
    cases hk : u.kind <;> simp_all [Kind.startsStatement]
  cases d with
  | zero => exact .stop nofun
  | succ d =>
    obtain ⟨d', rfl⟩ : ∃ n, d' = n + 1 := ⟨d' - 1, by omega⟩
    have hd : d ≤ d' := by omega
    by_cases hk : t.kind ∈ [.kwFor, .kwIf, .kwPrint, .kwWhile, .leftBrace]
    · have hf := (c.first t (by rw [hb]; rfl)).1
      have hp := c.plain t (by simp [hb])
      cases ht : t.kind
      case kwIf =>
        exact .of_token (fun _ => by rw [statement_cons, ht])
          (fun _ => by rw [statement_cons, ht]) (ifStatement_sentence hs hd (hi d d' hd))
      case kwPrint =>
        refine .of_token (fun _ => by rw [statement_cons, ht])
          (fun _ => by rw [statement_cons, ht]) ?_
        exact expression_sentence hs hd (hu hc) (s := .print) rfl nofun
      case kwWhile =>
        exact .of_token (fun _ => by rw [statement_cons, ht])
          (fun _ => by rw [statement_cons, ht]) (whileStatement_sentence hs hd (hi d d' hd))
      all_goals simp_all
    · exact statement_sentence hs (by omega) (hu (List.suffix_refl _)) (by simpa using hk)

theorem resume_semicolon {last semicolon u : Token} {more : List Token}
    (hs : semicolon.kind = .semicolon) (hl : last.kind ≠ .semicolon)
    (hu : ∀ t ∈ us, t.kind ≠ .eof ∧ t.kind ≠ .semicolon ∧ t.kind.startsStatement = false) :
    resume last (us ++ semicolon :: u :: more) = ⟨.ok (), u :: more, []⟩ := by
  induction us generalizing last with
  | nil =>
    have h : ¬ (semicolon.kind = .eof ∨ last.kind = .semicolon ∨
        semicolon.kind.startsStatement) := by
      simp [hs, hl, Kind.startsStatement]
    rw [List.nil_append, resume, if_neg h, resume, if_pos (.inr (.inl hs))]
  | cons t us ih =>
    obtain ⟨he, hk, ht⟩ := hu t (by simp)
    have h : ¬ (t.kind = .eof ∨ last.kind = .semicolon ∨ t.kind.startsStatement) := by
      simp [he, hl, ht]
    rw [List.cons_append, resume, if_neg h]
    exact ih hk fun t ht => hu t (List.mem_cons_of_mem _ ht)

theorem synchronize_chunk (c : Chunk) {ws : List Token} (hw : ws <:+ c.body)
    (hr : rest ≠ []) : synchronize (ws ++ c.semicolon :: rest) = ⟨.ok (), rest, []⟩ := by
  obtain ⟨u, more, rfl⟩ := List.exists_cons_of_ne_nil hr
  cases ws with
  | nil =>
    rw [List.nil_append, synchronize, if_neg (by simp [c.ends]), resume,
      if_pos (.inr (.inl c.ends))]
  | cons t ws =>
    have hp : ∀ t' ∈ t :: ws, t'.kind ≠ .eof ∧ t'.kind ≠ .semicolon := fun t' ht' => by
      have := c.plain t' (hw.mem ht')
      simp_all
    have hi : ∀ t' ∈ ws, t'.kind.startsStatement = false := by
      obtain ⟨vs, hb⟩ := hw
      refine fun t' ht' => c.inner t' ?_
      rw [← hb]
      cases vs <;> simp [ht']
    rw [List.cons_append, synchronize, if_neg (hp t (by simp)).1]
    refine resume_semicolon c.ends (hp t (by simp)).2 fun t' ht' => ?_
    exact ⟨(hp t' (by simp [ht'])).1, (hp t' (by simp [ht'])).2, hi t' ht'⟩

/-- A chunk is one statement, which has failed just if an error has been raised in it; it is the
same statement whatever follows, and with more depth. -/
theorem declaration_chunk (c : Chunk) {d d' : Nat} (hd : d ≤ d') (hr : Follows true rest)
    (he : Ended rest) :
    (declaration d (c.tokens ++ rest)).result = .error .tooDeep ∨
      ∃ s faults, declaration d (c.tokens ++ rest) = ⟨.ok s, rest, faults⟩ ∧
        (s = .failed ↔ ∃ f ∈ faults, f.error.isRaised) ∧
        ∀ rest', Follows true rest' →
          declaration d' (c.tokens ++ rest') = ⟨.ok s, rest', faults⟩ := by
  have hc (rest : List Token) : c.tokens ++ rest = c.body ++ c.semicolon :: rest := by
    simp [Chunk.tokens]
  simp only [hc]
  cases d with
  | zero => exact .inl rfl
  | succ d =>
    obtain ⟨d', rfl⟩ : ∃ n, d' = n + 1 := ⟨d' - 1, by omega⟩
    have h := declaration_sentence c (d := d) (Nat.le_of_succ_le_succ hd) rest hr
    rcases hp : (do if ← accepts .kwVar then variableDeclaration d else statement d)
      (c.body ++ c.semicolon :: rest) with ⟨r, left, fs⟩
    rw [hp] at h
    cases h with
    | ok hne hm hq =>
      refine .inr ⟨_, _, recover_of_ne_raised hp nofun, by simpa [hne] using hm, ?_⟩
      exact fun rest' hr' => recover_of_ne_raised (hq rest' hr') nofun
    | raised hw hm hq =>
      have hsync {rest : List Token} (hr : Follows true rest) {ws : List Token}
          (hw : ws <:+ c.body) : ((fun _ => .failed) <$> synchronize : Parser Stmt)
            (ws ++ c.semicolon :: rest) = ⟨.ok .failed, rest, []⟩ := by
        obtain ⟨t, us, rfl, _⟩ := hr
        rw [map_apply, synchronize_chunk c hw (List.cons_ne_nil t us)]
        rfl
      refine .inr ⟨.failed, fs, ?_, by simpa using hm, fun rest' hr' => ?_⟩
      · have := recover_of_raised hp (hsync hr hw)
        rwa [List.append_nil] at this
      · have := recover_of_raised (hq rest' hr') (hsync hr' hw)
        rwa [List.append_nil] at this
    | @stopped s _ _ hs =>
      have hd := recover_of_ne_raised hp fun e h => hs e (Except.error.inj h)
      cases s with
      | raised e => exact absurd rfl (hs e)
      | tooDeep => exact .inl (congrArg Reply.result hd)
      | pastEnd =>
        obtain ⟨t, us, hu, ht⟩ := c.head
        have hst : Steady 1 (declaration (d + 1)) (t :: (us ++ rest)) :=
          declaration_steady (d + 1) fun hk => ht (by simp [hk])
        rw [← List.cons_append, ← hu, hc, Steady, declaration, hd] at hst
        cases hst with
        | pastEnd hn => exact absurd ((hc rest ▸ he.append c.tokens)) hn

theorem program_chunk {c : Chunk} {d : Nat} {e : Token} (he : e.kind = .eof) {s : Stmt}
    {faults : List Fault} (h : declaration d (c.tokens ++ [e]) = ⟨.ok s, [e], faults⟩) :
    program d (c.tokens ++ [e]) = ⟨.ok [s], [e], faults⟩ := by
  obtain ⟨t, us, hu, ht⟩ := c.head
  have hk : t.kind ≠ .eof := fun hk => ht (by simp [hk])
  rw [hu] at h ⊢
  have hend : programOf d (us ++ [e]) [e] = ⟨.ok [], [e], []⟩ := programOf_end (by simp) he
  have hp := programOf_of_ok (c := t) hk (topLevel_of_ok h) hend
  rwa [List.append_nil] at hp

theorem result_bind {p : Parser α} {f : α → Parser β} {s : Stop}
    (h : (p ts).result = .error s) : ((p >>= f) ts).result = .error s := by
  rcases hp : p ts with ⟨r, rest, faults⟩
  rw [hp] at h
  obtain rfl : r = .error s := h
  rw [bind_error hp]

theorem result_recover {p : Parser Stmt} (h : (p ts).result = .error .tooDeep) :
    (recover p ts).result = .error .tooDeep := by
  rcases hp : p ts with ⟨r, rest, faults⟩
  rw [hp] at h
  obtain rfl : r = .error .tooDeep := h
  rw [recover_of_ne_raised hp nofun]

mutual

theorem declaration_segment (g : Segment) {d d' : Nat} (hd : d ≤ d') {e : Token}
    (hk : e.kind = .eof) {rest : List Token} (hr : Follows true rest) (he : Ended rest) :
    (declaration d (g.tokens ++ rest)).result = .error .tooDeep ∨
      ∃ s faults, g.Yields d' e s faults ∧
        declaration d (g.tokens ++ rest) = ⟨.ok s, rest, faults⟩ := by
  match g with
  | .chunk c =>
    rcases declaration_chunk c hd hr he with h | ⟨s, faults, h, hs, h'⟩
    · exact .inl h
    · refine .inr ⟨s, faults, .chunk (program_chunk hk (h' [e] ?_)) hs, h⟩
      exact ⟨e, [], rfl, by simp [hk]⟩
  | .braced opening closing body ho hc =>
    have htail : (Segment.braced opening closing body ho hc).tokens ++ rest =
        opening :: (Segment.tokensOfAll body ++ closing :: rest) := by
      simp [Segment.tokens]
    have hv : opening.kind ≠ .kwVar := by simp [ho]
    rw [htail]
    obtain _ | _ | d := d
    · exact .inl rfl
    · refine .inl (result_recover ?_)
      rw [ifAccepts_false hv]
      rfl
    have hl : (Segment.tokensOfAll body).length <
        (Segment.tokensOfAll body ++ closing :: rest).length := by simp
    have hs : (do if ← accepts .kwVar then variableDeclaration (d + 1) else statement (d + 1))
        (opening :: (Segment.tokensOfAll body ++ closing :: rest)) = _ :=
      (ifAccepts_false hv).trans (by rw [statement_cons, ho])
    rcases blockOf_segments body (show d ≤ d' by omega) hk hc he hl with h | ⟨slots, faults, hy, h⟩
    · refine .inl (result_recover ?_)
      rw [hs, map_apply, h]
      rfl
    · rw [map_of_ok h] at hs
      exact .inr ⟨.block slots, faults, .braced hy, recover_of_ne_raised hs nofun⟩

theorem blockOf_segments (gs : List Segment) {d d' : Nat} (hd : d ≤ d') {e : Token}
    (hk : e.kind = .eof) {closing : Token} (hc : closing.kind = .rightBrace) {rest : List Token}
    (he : Ended rest) {clock : List Token} (hl : (Segment.tokensOfAll gs).length < clock.length) :
    (blockOf (declaration d) clock (Segment.tokensOfAll gs ++ closing :: rest)).result =
        .error .tooDeep ∨
      ∃ slots faults, Segment.YieldsAll d' e gs slots faults ∧
        blockOf (declaration d) clock (Segment.tokensOfAll gs ++ closing :: rest) =
          ⟨.ok slots, rest, faults⟩ := by
  obtain ⟨c, clock, rfl⟩ := List.exists_cons_of_length_pos (l := clock) (by omega)
  match gs with
  | [] => exact .inr ⟨[], [], .nil, blockOf_cons.trans (if_pos hc)⟩
  | g :: gs =>
    have hn : Follows true (Segment.tokensOfAll gs ++ closing :: rest) :=
      Segment.follows gs (.inl hc)
    have hen : Ended (Segment.tokensOfAll gs ++ closing :: rest) :=
      (he.append [closing]).append _
    obtain ⟨t, us, hu, ht⟩ := g.head
    have hb : t.kind ≠ .rightBrace := fun hk => ht (by simp [hk])
    have hk' : t.kind ≠ .eof := fun hk => ht (by simp [hk])
    have hl : (Segment.tokensOfAll gs).length < clock.length := by
      rw [Segment.tokensOfAll, hu] at hl
      simp only [List.length_append, List.length_cons] at hl
      omega
    have hg := declaration_segment g hd hk hn hen
    rw [Segment.tokensOfAll, List.append_assoc, hu, List.cons_append]
    rw [hu, List.cons_append] at hg
    rcases hg with h | ⟨s, fs, hy, h⟩
    · left
      rw [blockOf_cons, if_neg hb, if_neg hk']
      exact result_bind h
    · rcases blockOf_segments gs hd hk hc he hl with h' | ⟨slots, fs', hys, h'⟩
      · left
        rw [blockOf_cons, if_neg hb, if_neg hk', bind_ok h, map_apply, h']
        rfl
      · exact .inr ⟨_, _, .cons hy hys, blockOf_of_ok hb hk' h h'⟩

end

theorem programOf_segments (gs : List Segment) {d : Nat} {e e' : Token} (he : e.kind = .eof)
    (he' : e'.kind = .eof) {clock : List Token}
    (hl : (Segment.tokensOfAll gs).length < clock.length)
    (h : ∀ f ∈ (programOf d clock (Segment.tokensOfAll gs ++ [e])).faults, f.error ≠ .tooDeep) :
    ∃ slots faults, Segment.YieldsAll d e' gs slots faults ∧
      programOf d clock (Segment.tokensOfAll gs ++ [e]) = ⟨.ok slots, [e], faults⟩ := by
  induction gs generalizing clock with
  | nil => exact ⟨[], [], .nil, programOf_end hl he⟩
  | cons g gs ih =>
    obtain ⟨c, clock, rfl⟩ := List.exists_cons_of_length_pos (l := clock) (by omega)
    have hn : Follows true (Segment.tokensOfAll gs ++ [e]) := Segment.follows gs (.inr he)
    have hen : Ended (Segment.tokensOfAll gs ++ [e]) := ⟨e, by simp, he⟩
    obtain ⟨t, us, hu, ht⟩ := g.head
    have hk : t.kind ≠ .eof := fun hk => ht (by simp [hk])
    have hg := declaration_segment g (Nat.le_refl d) he' hn hen
    rw [Segment.tokensOfAll, List.append_assoc, hu, List.cons_append] at h ⊢
    rw [hu, List.cons_append] at hg
    rw [programOf_cons, if_neg hk] at h
    rcases hg with hg | ⟨s, fs, hy, hg⟩
    · rcases hd : declaration d (t :: (us ++ (Segment.tokensOfAll gs ++ [e]))) with ⟨r, left, fs⟩
      rw [hd] at hg
      obtain rfl : r = .error .tooDeep := hg
      obtain ⟨f, hf, hdeep⟩ := tooDeep_mem_topLevel hk (hen.append (t :: us)) hd
      exact absurd hdeep (h f (mem_faults_bind hf))
    · have hs := topLevel_of_ok hg
      have hl : (Segment.tokensOfAll gs).length < clock.length := by
        rw [Segment.tokensOfAll, hu] at hl
        simp only [List.length_append, List.length_cons] at hl
        omega
      obtain ⟨slots, fs', hys, h'⟩ := ih hl fun f hf => h f (by
        rw [bind_ok hs, map_apply]
        exact List.mem_append_right fs hf)
      exact ⟨_, _, .cons hy hys, programOf_of_ok hk hs h'⟩

/-- A sequence of segments is read as the sequence of what each of them is by itself, and the faults
are those of its segments by themselves. -/
theorem program_segments (gs : List Segment) (d : Nat) {e e' : Token} (he : e.kind = .eof)
    (he' : e'.kind = .eof)
    (h : ∀ f ∈ (program d (Segment.tokensOfAll gs ++ [e])).faults, f.error ≠ .tooDeep) :
    ∃ slots faults, program d (Segment.tokensOfAll gs ++ [e]) = ⟨.ok slots, [e], faults⟩ ∧
      Segment.YieldsAll d e' gs slots faults := by
  obtain ⟨slots, faults, hy, hp⟩ := programOf_segments gs he he' (by simp) h
  exact ⟨slots, faults, hp, hy⟩

/-- `print; { print 1; print; }` has two wrong statements and one that is read. -/
theorem program_segments_print :
    let token (k : Kind) : Token := ⟨k, "", .nil, 1⟩
    let wrong : Chunk :=
      ⟨[token .kwPrint], token .semicolon, rfl, by decide, by decide, by decide⟩
    let right : Chunk :=
      ⟨[token .kwPrint, token .number], token .semicolon, rfl, by decide, by decide, by decide⟩
    let gs : List Segment := [.chunk wrong,
      .braced (token .leftBrace) (token .rightBrace) [.chunk right, .chunk wrong] rfl rfl]
    ∃ slots faults,
      program 20 (Segment.tokensOfAll gs ++ [.eof 1]) = ⟨.ok slots, [.eof 1], faults⟩ ∧
        Segment.YieldsAll 20 (.eof 2) gs slots faults :=
  program_segments _ 20 rfl rfl (by decide)

end Parser
end Lox
