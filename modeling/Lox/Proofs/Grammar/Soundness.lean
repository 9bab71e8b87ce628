import Lox.Proofs.Grammar.Spelling
import Lox.Proofs.Grammar.Progress

/-! # What is read without a fault is spelt by the tokens

A reply is silent if it has a result and no faults. Silent replies of parsers in sequence are silent
replies of each, so every tree read in silence comes with the tokens that spell it.
-/

namespace Lox

/-- An `else` after a statement that it would belong to has been read with it. -/
def Closes (dangling : Bool) (rest : List Token) : Prop :=
  dangling = true → ∀ t us, rest = t :: us → t.kind ≠ .kwElse

namespace Parser

variable {α β : Type} {p : Parser α} {f : α → Parser β} {ts rest : List Token} {b : β}

theorem bind_silent (h : (p >>= f) ts = ⟨.ok b, rest, []⟩) :
    ∃ a mid, p ts = ⟨.ok a, mid, []⟩ ∧ f a mid = ⟨.ok b, rest, []⟩ := by
  rcases hp : p ts with ⟨r, mid, faults⟩
  cases r with
  | error s => simp [bind_error hp] at h
  | ok a =>
    rw [bind_ok hp] at h
    rcases hf : f a mid with ⟨r', rest', faults'⟩
    simp only [hf, Reply.mk.injEq, List.append_eq_nil_iff] at h
    obtain ⟨rfl, rfl, rfl, rfl⟩ := h
    exact ⟨a, mid, rfl, hf⟩

theorem map_silent {g : α → β} (h : (g <$> p) ts = ⟨.ok b, rest, []⟩) :
    ∃ a, p ts = ⟨.ok a, rest, []⟩ ∧ g a = b := by
  rw [← bind_pure_eq_map] at h
  obtain ⟨a, mid, hp, hb⟩ := bind_silent h
  cases hb
  exact ⟨a, hp, rfl⟩

theorem pure_silent {a a' : α} (h : (pure a : Parser α) ts = ⟨.ok a', rest, []⟩) :
    a = a' ∧ ts = rest := by
  cases h
  exact ⟨rfl, rfl⟩

theorem expect_silent {k : Kind} {e : SyntaxError} {t : Token} (hk : k ≠ .eof)
    (h : expect k e ts = ⟨.ok t, rest, []⟩) : ts = t :: rest ∧ t.kind = k := by
  cases ts with
  | nil => cases h
  | cons u us =>
    by_cases hu : u.kind = k
    · rw [expect_ok e hu hk] at h
      cases h
      exact ⟨rfl, hu⟩
    · rw [expect_error e hu] at h
      cases h

theorem accept_silent {accepted : Kind → Bool} {f : Option Token → Parser β}
    (h : (accept accepted >>= f) ts = ⟨.ok b, rest, []⟩) :
    (∃ t us, ts = t :: us ∧ accepted t.kind ∧ f (some t) us = ⟨.ok b, rest, []⟩) ∨
      f none ts = ⟨.ok b, rest, []⟩ := by
  cases ts with
  | nil => cases h
  | cons t us =>
    by_cases hn : t.kind = .eof ∨ accepted t.kind = false
    · rw [bind_ok (accept_none hn)] at h
      exact .inr h
    · obtain ⟨hk, ha⟩ : t.kind ≠ .eof ∧ accepted t.kind := by simpa using hn
      rw [bind_ok (accept_some hk ha)] at h
      exact .inl ⟨t, us, rfl, ha, h⟩

/-- What `p` reads in silence is in relation with the tokens it takes. -/
def Sound (p : Parser α) (R : List Token → α → Prop) : Prop :=
  ∀ {ts a rest}, p ts = ⟨.ok a, rest, []⟩ → ∃ used, ts = used ++ rest ∧ R used a

theorem chain_sound {l : Level} {operand : Parser Expr} (ho : Sound operand l.operand.Spells)
    (clock : List Token) (left : Expr) : Sound (chain l operand clock left) (l.Extends left) := by
  induction clock generalizing left with
  | nil => intro ts e rest h; cases h
  | cons _ clock ih =>
    intro ts e rest h
    rcases accept_silent h with ⟨operator, us, rfl, hk, hs⟩ | hn
    · obtain ⟨right, mid, hr, hc⟩ := bind_silent hs
      obtain ⟨vs, rfl, hv⟩ := ho hr
      obtain ⟨ws, rfl, hw⟩ := ih _ hc
      exact ⟨operator :: (vs ++ ws), by simp, .operator hk hv hw⟩
    · obtain ⟨rfl, rfl⟩ := pure_silent hn
      exact ⟨[], rfl, .done⟩

theorem primary_sound {inner : Parser Expr} (hi : Sound inner Rule.assignment.Spells) :
    Sound (primary inner) Rule.primary.Spells := by
  intro ts e rest h
  cases ts with
  | nil => cases h
  | cons t us =>
    rw [primary_cons] at h
    split at h
    case h_7 hk =>
      obtain ⟨e, mid, he, hc⟩ := bind_silent h
      obtain ⟨vs, rfl, hv⟩ := hi he
      obtain ⟨closing, mid', hx, hp⟩ := bind_silent hc
      obtain ⟨rfl, hclosing⟩ := expect_silent (by decide) hx
      obtain ⟨rfl, rfl⟩ := pure_silent hp
      exact ⟨t :: (vs ++ [closing]), by simp, .grouping hk hclosing hv⟩
    all_goals cases h
    case h_1 hk => exact ⟨[t], rfl, .no hk⟩
    case h_2 hk => exact ⟨[t], rfl, .yes hk⟩
    case h_3 hk => exact ⟨[t], rfl, .nil hk⟩
    case h_4 hk => exact ⟨[t], rfl, .literal (.inl hk)⟩
    case h_5 hk => exact ⟨[t], rfl, .literal (.inr hk)⟩
    case h_6 hk => exact ⟨[t], rfl, .var hk⟩

theorem rule_sound (d : Nat) (r : Rule) : Sound (rule d r) r.Spells := by
  induction d generalizing r with
  | zero => intro ts e rest h; cases h
  | succ d ih =>
    intro ts e rest h
    cases r with
    | assignment =>
      obtain ⟨left, mid, hl, ha⟩ := bind_silent h
      obtain ⟨us, rfl, hu⟩ := ih .ternary hl
      rcases accept_silent ha with ⟨equals, vs, rfl, hk, hs⟩ | hn
      · obtain ⟨value, mid, hv, ht⟩ := bind_silent hs
        obtain ⟨ws, rfl, hw⟩ := ih .assignment hv
        cases left with
        | var name =>
          obtain ⟨rfl, rfl⟩ := pure_silent ht
          obtain ⟨rfl, hn⟩ := hu.eq_of_var
          exact ⟨name :: equals :: ws, by simp, .assign hn (beq_iff_eq.mp hk) hw⟩
        | _ => cases ht
      · obtain ⟨rfl, rfl⟩ := pure_silent hn
        exact ⟨us, rfl, .ofTernary hu⟩
    | ternary =>
      obtain ⟨c, mid, hc, ha⟩ := bind_silent h
      obtain ⟨cs, rfl, hcs⟩ := ih _ hc
      rcases accept_silent ha with ⟨question, us, rfl, hk, hs⟩ | hn
      · obtain ⟨l, mid, hl, hx⟩ := bind_silent hs
        obtain ⟨ls, rfl, hls⟩ := ih _ hl
        obtain ⟨colon, mid, hm, hy⟩ := bind_silent hx
        obtain ⟨rfl, hcolon⟩ := expect_silent (by decide) hm
        obtain ⟨r, mid, hr, hp⟩ := bind_silent hy
        obtain ⟨rs, rfl, hrs⟩ := ih _ hr
        obtain ⟨rfl, rfl⟩ := pure_silent hp
        refine ⟨_, ?_, .choice (beq_iff_eq.mp hk) hcolon hcs hls hrs⟩
        simp only [List.append_assoc, List.cons_append]
      · obtain ⟨rfl, rfl⟩ := pure_silent hn
        exact ⟨cs, rfl, .ofOr hcs⟩
    | level l =>
      obtain ⟨left, mid, hl, hc⟩ := bind_silent h
      obtain ⟨us, rfl, hu⟩ := ih _ hl
      obtain ⟨vs, rfl, hv⟩ := chain_sound (ih _) _ _ hc
      exact ⟨us ++ vs, by simp, .chain hu hv⟩
    | unary =>
      rcases accept_silent h with ⟨operator, us, rfl, hk, hs⟩ | hn
      · obtain ⟨right, mid, hr, hp⟩ := bind_silent hs
        obtain ⟨vs, rfl, hv⟩ := ih _ hr
        obtain ⟨rfl, rfl⟩ := pure_silent hp
        exact ⟨operator :: vs, rfl, .unary (by simpa using hk) hv⟩
      · obtain ⟨us, rfl, hu⟩ := ih _ hn
        exact ⟨us, rfl, .ofPrimary hu⟩
    | primary => exact primary_sound (ih _) h

theorem expect_bind_silent {k : Kind} {e : SyntaxError} {f : Token → Parser β} (hk : k ≠ .eof)
    (h : (expect k e >>= f) ts = ⟨.ok b, rest, []⟩) :
    ∃ t us, ts = t :: us ∧ t.kind = k ∧ f t us = ⟨.ok b, rest, []⟩ := by
  obtain ⟨t, us, ht, hf⟩ := bind_silent h
  obtain ⟨rfl, hk⟩ := expect_silent hk ht
  exact ⟨t, us, rfl, hk, hf⟩

theorem expression_bind_silent {d : Nat} {f : Expr → Parser β}
    (h : (expression d >>= f) ts = ⟨.ok b, rest, []⟩) :
    ∃ us e mid, ts = us ++ mid ∧ Rule.assignment.Spells us e ∧ f e mid = ⟨.ok b, rest, []⟩ := by
  obtain ⟨e, mid, he, hf⟩ := bind_silent h
  obtain ⟨us, rfl, hu⟩ := rule_sound d _ he
  exact ⟨us, e, mid, rfl, hu, hf⟩

theorem condition_silent {d : Nat} {e e' : SyntaxError} {f : Expr → Parser β}
    (h : (do
      let _ ← expect .leftParen e
      let c ← expression d
      let _ ← expect .rightParen e'
      f c : Parser β) ts = ⟨.ok b, rest, []⟩) :
    ∃ opening cs closing c mid, ts = opening :: (cs ++ closing :: mid) ∧
      opening.kind = .leftParen ∧ Rule.assignment.Spells cs c ∧ closing.kind = .rightParen ∧
      f c mid = ⟨.ok b, rest, []⟩ := by
  obtain ⟨opening, us, rfl, ho, h₁⟩ := expect_bind_silent (by decide) h
  obtain ⟨cs, c, mid, rfl, hc, h₂⟩ := expression_bind_silent h₁
  obtain ⟨closing, mid, rfl, hk, h₃⟩ := expect_bind_silent (by decide) h₂
  exact ⟨opening, cs, closing, c, mid, rfl, ho, hc, hk, h₃⟩

theorem optional_silent {k : Kind} {f : Option α → Parser β} (hk : k ≠ .eof)
    (h : (do
      let x ← if ← accepts k then some <$> p else pure none
      f x : Parser β) ts = ⟨.ok b, rest, []⟩) :
    (∃ t us, ts = t :: us ∧ t.kind = k ∧
      (p >>= fun a => f (some a)) us = ⟨.ok b, rest, []⟩) ∨
    ((∀ t us, ts = t :: us → t.kind ≠ k) ∧ f none ts = ⟨.ok b, rest, []⟩) := by
  cases ts with
  | nil => cases h
  | cons t us =>
    by_cases ht : t.kind = k
    · rw [optional_true ht hk] at h
      exact .inl ⟨t, us, rfl, ht, h⟩
    · rw [optional_false ht] at h
      refine .inr ⟨?_, h⟩
      rintro t us ⟨rfl, rfl⟩
      exact ht

theorem omittable_silent {d : Nat} {k : Kind} {f : Option Expr → Parser β} (hk : k ≠ .eof)
    (h : (do
      let x ← if ← check k then pure none else some <$> expression d
      f x : Parser β) ts = ⟨.ok b, rest, []⟩) :
    ∃ us x mid, ts = us ++ mid ∧ SpellsOptional us x ∧ f x mid = ⟨.ok b, rest, []⟩ := by
  cases ts with
  | nil => cases h
  | cons t us =>
    by_cases ht : t.kind = k
    · rw [unless_true ht hk] at h
      exact ⟨[], none, _, rfl, .absent, h⟩
    · rw [unless_false ht] at h
      obtain ⟨vs, e, mid, hts, hv, hf⟩ := expression_bind_silent h
      exact ⟨vs, some e, mid, hts, .present hv, hf⟩

theorem variableDeclaration_sound (d : Nat) {keyword : Token} (hk : keyword.kind = .kwVar) :
    Sound (variableDeclaration d) fun used s => SpellsVariable (keyword :: used) s := by
  intro ts s rest h
  obtain ⟨name, us, rfl, hn, h₁⟩ := expect_bind_silent (by decide) h
  rcases optional_silent (by decide) h₁ with ⟨equals, vs, rfl, hq, h₂⟩ | ⟨_, h₂⟩
  · obtain ⟨es, e, mid, rfl, he, h₃⟩ := expression_bind_silent h₂
    obtain ⟨semicolon, mid, rfl, hs, h₄⟩ := expect_bind_silent (by decide) h₃
    obtain ⟨rfl, rfl⟩ := pure_silent h₄
    exact ⟨name :: equals :: (es ++ [semicolon]), by simp, .initial hk hn hq he hs⟩
  · obtain ⟨semicolon, mid, rfl, hs, h₄⟩ := expect_bind_silent (by decide) h₂
    obtain ⟨rfl, rfl⟩ := pure_silent h₄
    exact ⟨[name, semicolon], rfl, .plain hk hn hs⟩

theorem expressionStatement_sound (d : Nat) :
    Sound (expressionStatement d) SpellsExpressionStatement := by
  intro ts s rest h
  obtain ⟨es, e, mid, rfl, he, h₁⟩ := expression_bind_silent h
  obtain ⟨semicolon, mid, rfl, hs, h₂⟩ := expect_bind_silent (by decide) h₁
  obtain ⟨rfl, rfl⟩ := pure_silent h₂
  exact ⟨es ++ [semicolon], by simp, .mk he hs⟩

theorem firstClause_sound (d : Nat) : Sound (firstClause d) SpellsFirst := by
  intro ts first rest h
  cases ts with
  | nil => cases h
  | cons t us =>
    rw [firstClause] at h
    by_cases hs : t.kind = .semicolon
    · rw [ifAccepts_true hs (by decide)] at h
      obtain ⟨rfl, rfl⟩ := pure_silent h
      exact ⟨[t], rfl, .absent hs⟩
    · rw [ifAccepts_false hs] at h
      by_cases hv : t.kind = .kwVar
      · rw [ifAccepts_true hv (by decide)] at h
        obtain ⟨s, hd, rfl⟩ := map_silent h
        obtain ⟨vs, rfl, hvs⟩ := variableDeclaration_sound d hv hd
        exact ⟨t :: vs, rfl, .declare hvs⟩
      · rw [ifAccepts_false hv] at h
        obtain ⟨s, hd, rfl⟩ := map_silent h
        obtain ⟨vs, hts, hvs⟩ := expressionStatement_sound d hd
        exact ⟨vs, hts, .expression hvs⟩

/-- What `p` reads in silence is a statement, and an `else` that belongs to it has been read. -/
def SoundStatement (p : Parser Stmt) : Prop :=
  ∀ {ts s rest}, p ts = ⟨.ok s, rest, []⟩ → ∃ used dangling, ts = used ++ rest ∧
    SpellsStatement used s dangling ∧ Closes dangling rest

section

variable {statement : Parser Stmt} (hs : SoundStatement statement) {keyword : Token} {s : Stmt}
include hs

theorem whileStatement_sound {d : Nat} (hk : keyword.kind = .kwWhile)
    (h : whileStatement d statement ts = ⟨.ok s, rest, []⟩) :
    ∃ used dangling, ts = used ++ rest ∧ SpellsStatement (keyword :: used) s dangling ∧
      Closes dangling rest := by
  obtain ⟨opening, cs, closing, c, mid, rfl, ho, hc, hx, h₁⟩ := condition_silent h
  obtain ⟨body, mid, hb, h₂⟩ := bind_silent h₁
  obtain ⟨us, dangling, rfl, hu, hd⟩ := hs hb
  obtain ⟨rfl, rfl⟩ := pure_silent h₂
  exact ⟨opening :: (cs ++ closing :: us), dangling, by simp, .loop hk ho hc hx hu, hd⟩

theorem ifStatement_sound {d : Nat} (hk : keyword.kind = .kwIf)
    (h : ifStatement d statement ts = ⟨.ok s, rest, []⟩) :
    ∃ used dangling, ts = used ++ rest ∧ SpellsStatement (keyword :: used) s dangling ∧
      Closes dangling rest := by
  obtain ⟨opening, cs, closing, c, mid, rfl, ho, hc, hx, h₁⟩ := condition_silent h
  obtain ⟨whenTrue, mid, ht, h₂⟩ := bind_silent h₁
  obtain ⟨us, dangling, rfl, hu, hd⟩ := hs ht
  rcases optional_silent (by decide) h₂ with ⟨keyword', vs, rfl, hk', h₃⟩ | ⟨hn, h₃⟩
  · obtain ⟨whenFalse, mid, hf, h₄⟩ := bind_silent h₃
    obtain ⟨ws, dangling', rfl, hw, hd'⟩ := hs hf
    obtain ⟨rfl, rfl⟩ := pure_silent h₄
    -- the `else` has not been read with the first branch, so it does not belong there
    obtain rfl : dangling = false := by
      cases dangling
      · rfl
      · exact absurd hk' (hd rfl _ _ rfl)
    exact ⟨opening :: (cs ++ closing :: (us ++ keyword' :: ws)), dangling', by simp,
      .branchElse hk ho hc hx hu hk' hw, hd'⟩
  · obtain ⟨rfl, rfl⟩ := pure_silent h₃
    exact ⟨opening :: (cs ++ closing :: us), true, by simp, .branch hk ho hc hx hu, fun _ => hn⟩

theorem forStatement_sound {d : Nat} (hk : keyword.kind = .kwFor)
    (h : forStatement d statement ts = ⟨.ok s, rest, []⟩) :
    ∃ used dangling, ts = used ++ rest ∧ SpellsStatement (keyword :: used) s dangling ∧
      Closes dangling rest := by
  obtain ⟨opening, us, rfl, ho, h₁⟩ := expect_bind_silent (by decide) h
  obtain ⟨first, mid, hf, h₂⟩ := bind_silent h₁
  obtain ⟨fs, rfl, hfs⟩ := firstClause_sound d hf
  obtain ⟨cs, c, mid, rfl, hc, h₃⟩ := omittable_silent (by decide) h₂
  obtain ⟨semicolon, us, rfl, hsemi, h₄⟩ := expect_bind_silent (by decide) h₃
  obtain ⟨ss, step, mid, rfl, hstep, h₅⟩ := omittable_silent (by decide) h₄
  obtain ⟨closing, us, rfl, hx, h₆⟩ := expect_bind_silent (by decide) h₅
  obtain ⟨body, mid, hb, h₇⟩ := bind_silent h₆
  obtain ⟨us, dangling, rfl, hu, hd⟩ := hs hb
  obtain ⟨rfl, rfl⟩ := pure_silent h₇
  refine ⟨_, dangling, ?_, .forLoop hk ho hfs hc hsemi hstep hx hu, hd⟩
  simp only [List.append_assoc, List.cons_append]

end

theorem blockOf_sound {declaration : Parser Stmt} (hd : Sound declaration SpellsDeclaration)
    (clock : List Token) : Sound (blockOf declaration clock) fun used body =>
      ∃ us closing, used = us ++ [closing] ∧ closing.kind = .rightBrace ∧
        SpellsDeclarations us body := by
  induction clock with
  | nil => intro ts body rest h; cases h
  | cons c clock ih =>
    intro ts body rest h
    cases ts with
    | nil => cases h
    | cons t us =>
      rw [blockOf_cons] at h
      split at h
      · next hb =>
        cases h
        exact ⟨[t], rfl, [], t, rfl, hb, .nil⟩
      · split at h
        · cases h
        · obtain ⟨s, mid, hs, h₁⟩ := bind_silent h
          obtain ⟨vs, hts, hv⟩ := hd hs
          obtain ⟨body, h₂, rfl⟩ := map_silent h₁
          obtain ⟨_, rfl, ws, closing, rfl, hc, hw⟩ := ih h₂
          exact ⟨vs ++ (ws ++ [closing]), by simp [hts], vs ++ ws, closing, by simp, hc,
            .cons hv hw⟩

/-- What is read in silence has not been given up. -/
theorem recover_silent {p : Parser Stmt} {s : Stmt} {n : Nat} (hp : Steady n p ts)
    (h : recover p ts = ⟨.ok s, rest, []⟩) : p ts = ⟨.ok s, rest, []⟩ := by
  rcases hr : p ts with ⟨r, mid, faults⟩
  rw [Steady, hr] at hp
  cases hp with
  | ok _ => simpa [recover, hr] using h
  | raised _ | tooDeep _ | pastEnd _ => simp [recover, hr] at h

theorem statement_sound_and_declaration_sound (d : Nat) :
    SoundStatement (statement d) ∧ Sound (declaration d) SpellsDeclaration := by
  induction d with
  | zero => constructor <;> intro ts s rest h <;> cases h
  | succ d ih =>
    obtain ⟨hs, hd⟩ := ih
    constructor
    · intro ts s rest h
      cases ts with
      | nil => cases h
      | cons t us =>
        rw [statement_cons] at h
        split at h
        · next hk =>
          obtain ⟨used, dangling, rfl, hu, hc⟩ := forStatement_sound hs hk h
          exact ⟨t :: used, dangling, rfl, hu, hc⟩
        · next hk =>
          obtain ⟨used, dangling, rfl, hu, hc⟩ := ifStatement_sound hs hk h
          exact ⟨t :: used, dangling, rfl, hu, hc⟩
        · next hk =>
          obtain ⟨es, e, mid, rfl, he, h₁⟩ := expression_bind_silent h
          obtain ⟨semicolon, us, rfl, hsemi, h₂⟩ := expect_bind_silent (by decide) h₁
          obtain ⟨rfl, rfl⟩ := pure_silent h₂
          exact ⟨t :: (es ++ [semicolon]), false, by simp, .print hk he hsemi, nofun⟩
        · next hk =>
          obtain ⟨used, dangling, rfl, hu, hc⟩ := whileStatement_sound hs hk h
          exact ⟨t :: used, dangling, rfl, hu, hc⟩
        · next hk =>
          obtain ⟨body, hb, rfl⟩ := map_silent h
          obtain ⟨_, rfl, vs, closing, rfl, hc, hv⟩ := blockOf_sound hd _ hb
          exact ⟨t :: (vs ++ [closing]), false, rfl, .block hk hv hc, nofun⟩
        · obtain ⟨used, hts, hu⟩ := expressionStatement_sound d h
          exact ⟨used, false, hts, .expression hu, nofun⟩
    · intro ts s rest h
      have h := recover_silent (n := 1) ?_ h
      · cases ts with
        | nil => cases h
        | cons t us =>
          by_cases hv : t.kind = .kwVar
          · rw [ifAccepts_true hv (by decide)] at h
            obtain ⟨vs, rfl, hvs⟩ := variableDeclaration_sound d hv h
            exact ⟨t :: vs, rfl, .declare hvs⟩
          · rw [ifAccepts_false hv] at h
            obtain ⟨used, dangling, hts, hu, _⟩ := hs h
            exact ⟨used, hts, .statement hu⟩
      · refine
          .accepts (n := 1) (by decide) (fun us _ => variableDeclaration_steady d) ?_ (by omega)
        exact statement_steady d

theorem topLevel_silent {d : Nat} {s : Stmt} (h : topLevel d ts = ⟨.ok s, rest, []⟩) :
    declaration d ts = ⟨.ok s, rest, []⟩ := by
  rcases hr : declaration d ts with ⟨_ | _, mid, faults⟩
  · next stop =>
    cases stop with
    | raised _ | pastEnd => simp [topLevel, hr] at h
    | tooDeep =>
      cases mid with
      | nil => simp only [topLevel, hr] at h; cases h
      | cons u more => simp [topLevel_tooDeep hr] at h
  · simpa only [topLevel, hr] using h

theorem programOf_sound (d : Nat) (clock : List Token) :
    Sound (programOf d clock) SpellsDeclarations := by
  induction clock with
  | nil => intro ts p rest h; cases h
  | cons c clock ih =>
    intro ts p rest h
    cases ts with
    | nil => cases h
    | cons t us =>
      rw [programOf_cons] at h
      split at h
      · cases h
        exact ⟨[], rfl, .nil⟩
      · obtain ⟨s, mid, hs, h₁⟩ := bind_silent h
        obtain ⟨vs, hts, hv⟩ :=
          (statement_sound_and_declaration_sound d).2 (topLevel_silent hs)
        obtain ⟨p, h₂, rfl⟩ := map_silent h₁
        obtain ⟨ws, rfl, hw⟩ := ih h₂
        exact ⟨vs ++ ws, by simp [hts], .cons hv hw⟩

/-- A program read without faults is spelt by its tokens. -/
theorem program_sound {d : Nat} {ts : List Token} {e : Token} (hts : ∀ t ∈ ts, t.kind ≠ .eof)
    (he : e.kind = .eof) (h : (program d (ts ++ [e])).faults = []) :
    ∃ p, program d (ts ++ [e]) = ⟨.ok p, [e], []⟩ ∧ SpellsDeclarations ts p := by
  have hended : Ended (ts ++ [e]) := ⟨e, by simp, he⟩
  obtain ⟨p, e', more, faults, hp, he', us, hus, _, hu⟩ := program_ok d hended
  obtain ⟨rfl, rfl, rfl⟩ := append_eof_inj hts he hu he' hus
  rw [hp] at h
  subst h
  obtain ⟨used, hused, hs⟩ := programOf_sound d _ hp
  obtain rfl := List.append_cancel_right hused
  exact ⟨p, hp, hs⟩

end Parser
end Lox
