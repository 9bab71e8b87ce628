import Lox.Proofs.Grammar.Completeness

/-! # One token of lookahead

A parser looks at the tokens it takes and at the one after them, and at nothing else. With more
depth it does the same, unless it has stopped because of the depth. A statement has taken its last
token, so the next one only matters if it is an `else`.
-/

namespace Lox

/-- The lists start with the same token. -/
def SameHead (ts us : List Token) : Prop := ∃ t ts' us', ts = t :: ts' ∧ us = t :: us'

theorem SameHead.append {ts us : List Token} (h : SameHead ts us) (vs : List Token) :
    SameHead (vs ++ ts) (vs ++ us) := by
  cases vs with
  | nil => exact h
  | cons v vs => exact ⟨v, _, _, rfl, rfl⟩

theorem sameHead_of_append (ws : List Token) (t : Token) (ts us : List Token) :
    SameHead (ws ++ t :: ts) (ws ++ t :: us) :=
  SameHead.append ⟨t, ts, us, rfl, rfl⟩ ws

/-- There is a result, or an error has been raised. -/
def Settled {α : Type} : Except Stop α → Prop
  | .ok _ | .error (.raised _) => True
  | _ => False

theorem Settled.error {α β : Type} {s : Stop} (h : Settled (.error s : Except Stop α)) :
    Settled (.error s : Except Stop β) := by
  cases s <;> exact h

namespace Parser

variable {α β : Type} {K : Kind → Prop} {ts rest : List Token}

/-- A parser has stopped where its first part has, or its second part has gone on from there. -/
theorem bind_cases {p : Parser α} {f : α → Parser β} {r : Except Stop β} {faults : List Fault}
    (h : (p >>= f) ts = ⟨r, rest, faults⟩) :
    (∃ s, r = .error s ∧ p ts = ⟨.error s, rest, faults⟩) ∨
      ∃ a mid fs fs', p ts = ⟨.ok a, mid, fs⟩ ∧ f a mid = ⟨r, rest, fs'⟩ ∧ faults = fs ++ fs' := by
  rcases hp : p ts with ⟨s | a, mid, fs⟩
  · rw [bind_error hp] at h
    cases h
    exact .inl ⟨s, rfl, rfl⟩
  · rw [bind_ok hp] at h
    cases h
    exact .inr ⟨a, mid, fs, _, rfl, rfl, rfl⟩

theorem map_of_ok {p : Parser α} {a : α} {faults : List Fault} (h : p ts = ⟨.ok a, rest, faults⟩)
    (f : α → β) : (f <$> p) ts = ⟨.ok (f a), rest, faults⟩ := by
  rw [map_apply, h]
  rfl

theorem bind_of_ok {p : Parser α} {f : α → Parser β} {a : α} {mid : List Token}
    {r : Except Stop β} {fs fs' : List Fault} (h : p ts = ⟨.ok a, mid, fs⟩)
    (hf : f a mid = ⟨r, rest, fs'⟩) : (p >>= f) ts = ⟨r, rest, fs ++ fs'⟩ := by
  rw [bind_ok h, hf]

/-- What `p` replies is told by the tokens it takes, all of them of kinds in `K`, and by the one
after them. Where these come first, `q` replies the same. -/
def LocalIn (K : Kind → Prop) (p q : Parser α) (ts : List Token) : Prop :=
  ∀ r rest faults, p ts = ⟨r, rest, faults⟩ → Settled r →
    ∃ used, ts = used ++ rest ∧ (∀ t ∈ used, K t.kind) ∧
      ∀ rest', SameHead rest rest' → q (used ++ rest') = ⟨r, rest', faults⟩

namespace LocalIn

theorem mono {K' : Kind → Prop} {p q : Parser α} (h : LocalIn K p q ts) (hK : ∀ k, K k → K' k) :
    LocalIn K' p q ts := by
  intro r rest faults hp hr
  obtain ⟨used, hts, hu, hq⟩ := h r rest faults hp hr
  exact ⟨used, hts, fun t ht => hK _ (hu t ht), hq⟩

/-- The second part is local wherever the first may end. -/
theorem bind {p q : Parser α} {f g : α → Parser β} (h : LocalIn K p q ts)
    (hf : ∀ a mid fs, p ts = ⟨.ok a, mid, fs⟩ → mid.length ≤ ts.length →
      LocalIn K (f a) (g a) mid) :
    LocalIn K (p >>= f) (q >>= g) ts := by
  intro r rest faults hb hr
  rcases bind_cases hb with ⟨s, rfl, hp⟩ | ⟨a, mid, fs, fs', hp, ha, rfl⟩
  · obtain ⟨used, hts, hu, hq⟩ := h _ _ _ hp hr.error
    exact ⟨used, hts, hu, fun rest' hs => bind_error (hq rest' hs) g⟩
  · obtain ⟨us, rfl, hu, hq⟩ := h _ _ _ hp trivial
    obtain ⟨vs, rfl, hv, hg⟩ := hf a mid fs hp (by simp) _ _ _ ha hr
    refine ⟨us ++ vs, (List.append_assoc ..).symm, ?_, fun rest' hs => ?_⟩
    · exact fun t ht => (List.mem_append.mp ht).elim (hu t) (hv t)
    · rw [List.append_assoc]
      exact bind_of_ok (hq _ (hs.append vs)) (hg rest' hs)

theorem bind_all {p q : Parser α} {f g : α → Parser β} (h : LocalIn K p q ts)
    (hf : ∀ a us, LocalIn K (f a) (g a) us) : LocalIn K (p >>= f) (q >>= g) ts :=
  h.bind fun a mid _ _ _ => hf a mid

theorem of_stays {p q : Parser α}
    (h : ∀ r rest faults, p ts = ⟨r, rest, faults⟩ → Settled r →
      ts = rest ∧ ∀ rest', SameHead rest rest' → q rest' = ⟨r, rest', faults⟩) :
    LocalIn K p q ts := by
  intro r rest faults hp hr
  obtain ⟨rfl, hq⟩ := h r rest faults hp hr
  exact ⟨[], rfl, by simp, hq⟩

protected theorem pure (a : α) : LocalIn K (pure a) (pure a) ts := by
  refine of_stays fun r rest faults h _ => ?_
  cases h
  exact ⟨rfl, fun _ _ => rfl⟩

theorem map {p q : Parser α} (h : LocalIn K p q ts) (f : α → β) :
    LocalIn K (f <$> p) (f <$> q) ts := by
  rw [← bind_pure_eq_map, ← bind_pure_eq_map]
  exact h.bind_all fun a _ => .pure (f a)

protected theorem raise (t : Token) (e : SyntaxError) :
    LocalIn K (raise t e : Parser α) (raise t e) ts := by
  refine of_stays fun r rest faults h _ => ?_
  cases h
  exact ⟨rfl, fun _ _ => rfl⟩

protected theorem note (t : Token) (e : SyntaxError) : LocalIn K (note t e) (note t e) ts := by
  refine of_stays fun r rest faults h _ => ?_
  cases h
  exact ⟨rfl, fun _ _ => rfl⟩

protected theorem tooDeep {q : Parser α} : LocalIn K (stop .tooDeep) q ts := by
  intro r rest faults h hr
  cases h
  exact hr.elim

protected theorem peek : LocalIn K peek peek ts := by
  refine of_stays fun r rest faults h hr => ?_
  cases ts with
  | nil =>
    cases h
    exact hr.elim
  | cons t us =>
    cases h
    refine ⟨rfl, ?_⟩
    rintro _ ⟨t, us, vs, h, rfl⟩
    cases h
    rfl

theorem of_head {p q p' q' : Parser α} {t : Token} {us : List Token}
    (hp : p (t :: us) = p' (t :: us)) (hq : ∀ vs, q (t :: vs) = q' (t :: vs))
    (h : LocalIn K p' q' (t :: us)) : LocalIn K p q (t :: us) := by
  intro r rest faults he hr
  obtain ⟨used, hts, hu, hq'⟩ := h r rest faults (hp ▸ he) hr
  refine ⟨used, hts, hu, fun rest' hs => ?_⟩
  obtain ⟨u, vs, ws, hv, hw⟩ := hts ▸ hs.append used
  cases hv
  rw [hw, hq, ← hw, hq' rest' hs]

theorem of_token {p q p' q' : Parser α} {t : Token} {us : List Token} (hK : K t.kind)
    (hp : p (t :: us) = p' us) (hq : ∀ vs, q (t :: vs) = q' vs) (h : LocalIn K p' q' us) :
    LocalIn K p q (t :: us) := by
  intro r rest faults he hr
  obtain ⟨used, rfl, hu, hq'⟩ := h r rest faults (hp ▸ he) hr
  refine ⟨t :: used, rfl, List.forall_mem_cons.mpr ⟨hK, hu⟩, fun rest' hs => ?_⟩
  rw [List.cons_append, hq, hq' rest' hs]

protected theorem nil {p q : Parser α} (h : p [] = stop .pastEnd []) : LocalIn K p q [] := by
  intro r rest faults hp hr
  rw [h] at hp
  cases hp
  exact hr.elim

theorem accept {accepted : Kind → Bool} {f g : Option Token → Parser β}
    (hK : ∀ k, accepted k → K k)
    (hs : ∀ t us, us.length < ts.length → LocalIn K (f (some t)) (g (some t)) us)
    (hn : LocalIn K (f none) (g none) ts) :
    LocalIn K (accept accepted >>= f) (Parser.accept accepted >>= g) ts := by
  cases ts with
  | nil => exact .nil rfl
  | cons t us =>
    by_cases ha : t.kind = .eof ∨ accepted t.kind = false
    · exact of_head (bind_of_silent (accept_none ha) f)
        (fun _ => bind_of_silent (accept_none ha) g) hn
    · obtain ⟨ht, ha⟩ : t.kind ≠ .eof ∧ accepted t.kind := by simpa using ha
      exact of_token (hK _ ha) (bind_of_silent (accept_some ht ha) f)
        (fun _ => bind_of_silent (accept_some ht ha) g) (hs t us (by simp))

theorem accept_kind {k : Kind} {f g : Option Token → Parser β} (hK : K k)
    (hs : ∀ t us, LocalIn K (f (some t)) (g (some t)) us) (hn : LocalIn K (f none) (g none) ts) :
    LocalIn K (Parser.accept (· == k) >>= f) (Parser.accept (· == k) >>= g) ts := by
  refine .accept (fun k' h => ?_) (fun t us _ => hs t us) hn
  obtain rfl := beq_iff_eq.mp h
  exact hK

protected theorem accepts {k : Kind} (hK : K k) : LocalIn K (accepts k) (accepts k) ts :=
  accept_kind hK (fun _ _ => .pure _) (.pure _)

protected theorem check (k : Kind) : LocalIn K (check k) (check k) ts :=
  LocalIn.peek.bind_all fun _ _ => .pure _

protected theorem expect {k : Kind} (hK : K k) (e : SyntaxError) :
    LocalIn K (expect k e) (expect k e) ts :=
  accept_kind hK (fun t _ => .pure t) (LocalIn.peek.bind_all fun t _ => .raise t e)

theorem ite {p q p' q' : Parser α} (h : LocalIn K p q ts) (h' : LocalIn K p' q' ts) (b : Bool) :
    LocalIn K (if b then p else p') (if b then q else q') ts := by
  cases b with
  | true => exact h
  | false => exact h'

end LocalIn

/-- What follows `p` may be replaced by what does the same where `p` ends. -/
theorem bind_congr {p : Parser α} {f g : α → Parser β}
    (h : ∀ a mid fs, p ts = ⟨.ok a, mid, fs⟩ → f a mid = g a mid) :
    (p >>= f) ts = (p >>= g) ts := by
  rcases hp : p ts with ⟨s | a, mid, fs⟩
  · rw [bind_error hp, bind_error hp]
  · rw [bind_ok hp, bind_ok hp, h a mid fs hp]

theorem map_congr {p q : Parser α} (f : α → β) (h : p ts = q ts) : (f <$> p) ts = (f <$> q) ts := by
  rw [map_apply, map_apply, h]

theorem Steady.length_le {n : Nat} {p : Parser α} {a : α} {faults : List Fault}
    (h : Steady n p ts) (hp : p ts = ⟨.ok a, rest, faults⟩) : rest.length + n ≤ ts.length := by
  rw [Steady, hp] at h
  cases h with
  | ok h => exact h.length_le

theorem accept_eq_some {accepted : Kind → Bool} {t : Token} {faults : List Fault}
    (h : accept accepted ts = ⟨.ok (some t), rest, faults⟩) : ts = t :: rest ∧ t.kind ≠ .eof := by
  cases ts with
  | nil => cases h
  | cons u us =>
    by_cases ha : u.kind = .eof ∨ accepted u.kind = false
    · rw [accept_none ha] at h
      cases h
    · obtain ⟨hu, ha⟩ : u.kind ≠ .eof ∧ accepted u.kind := by simpa using ha
      rw [accept_some hu ha] at h
      cases h
      exact ⟨rfl, hu⟩

/-- A clock that does not run out tells nothing. -/
theorem chain_clock {l : Level} {p : Parser Expr} (hp : ∀ us, Steady 1 p us)
    {clock clock' : List Token} {left : Expr} (hc : ts.length ≤ clock.length)
    (hc' : ts.length ≤ clock'.length) : chain l p clock left ts = chain l p clock' left ts := by
  induction clock generalizing clock' ts left with
  | nil =>
    obtain rfl := List.eq_nil_of_length_eq_zero (Nat.le_zero.mp hc)
    cases clock' <;> rfl
  | cons c clock ih =>
    cases ts with
    | nil => cases clock' <;> rfl
    | cons t us =>
      obtain ⟨c', clock', rfl⟩ := List.exists_cons_of_length_pos (l := clock') (by
        simp only [List.length_cons] at hc'
        omega)
      simp only [List.length_cons, Nat.add_le_add_iff_right] at hc hc'
      rw [chain, chain]
      apply bind_congr
      intro x mid fs ha
      cases x with
      | none => rfl
      | some operator =>
        obtain ⟨h, _⟩ := accept_eq_some ha
        obtain rfl := (List.cons.inj h).2
        apply bind_congr
        intro right vs fs' hr
        have := (hp us).length_le hr
        exact ih (by omega) (by omega)

theorem chain_fresh {l : Level} {p : Parser Expr} (hp : ∀ us, Steady 1 p us) (left : Expr) :
    (fun us => chain l p us left us) = (do
      match ← accept l.hasOperator with
      | none => return left
      | some operator =>
        let right ← p
        fun us => chain l p us (l.join left operator right) us : Parser Expr) := by
  funext us
  cases us with
  | nil => rfl
  | cons t us =>
    rw [chain]
    apply bind_congr
    intro x mid fs ha
    cases x with
    | none => rfl
    | some operator =>
      obtain ⟨h, _⟩ := accept_eq_some ha
      obtain rfl := (List.cons.inj h).2
      apply bind_congr
      intro right vs fs' hr
      have := (hp us).length_le hr
      exact chain_clock hp (by omega) (Nat.le_refl _)

theorem chain_local {l : Level} {p q : Parser Expr} (hK : ∀ k, l.hasOperator k → K k)
    (h : ∀ us, LocalIn K p q us) (hq : ∀ us, Steady 1 q us) {clock : List Token} {left : Expr}
    (hc : ts.length ≤ clock.length) :
    LocalIn K (chain l p clock left) (fun us => chain l q us left us) ts := by
  induction clock generalizing ts left with
  | nil =>
    intro r rest faults hp hr
    cases hp
    exact hr.elim
  | cons c clock ih =>
    rw [chain_fresh hq]
    refine .accept hK (fun operator us hu => ?_) (.pure left)
    refine (h us).bind fun right vs fs _ hv => ih ?_
    simp only [List.length_cons] at hc
    omega

theorem assignTo_local (left : Expr) (equals : Token) (value : Expr) :
    LocalIn K (assignTo left equals value) (assignTo left equals value) ts := by
  cases left with
  | var name => exact .pure _
  | _ => exact (LocalIn.note equals .invalidTarget).bind_all fun _ _ => .pure _

theorem primary_local {p q : Parser Expr} (hK : ∀ k, k.startsExpression → K k)
    (hp : K .rightParen) (h : ∀ us, LocalIn K p q us) :
    LocalIn K (primary p) (primary q) ts := by
  cases ts with
  | nil => exact .nil rfl
  | cons t us =>
    have taken {e : Expr} (hk : t.kind.startsExpression)
        (he : ∀ (p : Parser Expr) vs, primary p (t :: vs) = ⟨.ok e, vs, []⟩) :
        LocalIn K (primary p) (primary q) (t :: us) :=
      .of_token (hK _ hk) (he p us) (he q) (.pure e)
    cases hk : t.kind
    case kwFalse | kwTrue | kwNil | number | string | identifier =>
      exact taken (by rw [hk]; rfl) fun p vs => by rw [primary_cons, hk]
    case leftParen =>
      refine .of_token (hK _ (by rw [hk]; rfl)) (by rw [primary_cons, hk])
        (fun vs => by rw [primary_cons, hk]) ((h us).bind_all fun e vs => ?_)
      exact (LocalIn.expect hp _).bind_all fun _ _ => .pure _
    all_goals
      exact .of_head (by rw [primary_cons, hk]; rfl) (fun vs => by rw [primary_cons, hk]; rfl)
        (.raise t .expectExpression)

theorem rule_level (d : Nat) (l : Level) : rule (d + 1) (.level l) = (do
    let left ← rule d l.operand
    fun us => chain l (rule d l.operand) us left us : Parser Expr) := by
  funext us
  rw [rule]
  apply bind_congr
  intro left mid fs h
  have := (rule_steady d l.operand).length_le h
  exact chain_clock (fun _ => rule_steady d _) (by omega) (Nat.le_refl _)

theorem rule_local {d d' : Nat} (hd : d ≤ d') (r : Rule) :
    LocalIn (· ≠ .semicolon) (rule d r) (rule d' r) ts := by
  induction d generalizing d' r ts with
  | zero => exact .tooDeep
  | succ d ih =>
    obtain ⟨d', rfl⟩ : ∃ n, d' = n + 1 := ⟨d' - 1, by omega⟩
    have ih {r ts} : LocalIn (· ≠ .semicolon) (rule d r) (rule d' r) ts := ih (by omega) r
    cases r with
    | assignment =>
      refine ih.bind_all fun left us => .accept_kind (by decide) (fun equals vs => ?_) (.pure _)
      exact ih.bind_all fun _ _ => assignTo_local _ _ _
    | ternary =>
      refine ih.bind_all fun c us => .accept_kind (by decide) (fun _ vs => ?_) (.pure _)
      refine ih.bind_all fun left ws => (LocalIn.expect (by decide) _).bind_all fun _ xs => ?_
      exact ih.bind_all fun _ _ => .pure _
    | level l =>
      rw [rule_level, rule_level]
      refine ih.bind_all fun left us => chain_local ?_ (fun _ => ih) (fun _ => rule_steady d' _)
        (Nat.le_refl _)
      rintro k hk rfl
      have h := (l.hasOperator_iff _).mp hk
      cases l <;> cases h
    | unary =>
      refine .accept ?_ (fun operator us _ => ih.bind_all fun _ _ => .pure _) ih
      rintro k hk rfl
      cases hk
    | primary =>
      refine primary_local ?_ (by decide) fun _ => ih
      rintro k hk rfl
      cases hk

/-- The same for parsers that take tokens of all kinds. -/
abbrev Local (p q : Parser α) (ts : List Token) : Prop := LocalIn (fun _ => True) p q ts

theorem expression_local {d d' : Nat} (hd : d ≤ d') :
    Local (expression d) (expression d') ts :=
  (rule_local hd .assignment).mono fun _ _ => trivial

theorem optional_local {k : Kind} {p q : Parser α} (h : ∀ us, Local p q us)
    {f g : Option α → Parser β} (hf : ∀ x us, Local (f x) (g x) us) :
    Local
      (do
        let x ← if ← accepts k then some <$> p else pure none
        f x : Parser β)
      (do
        let x ← if ← accepts k then some <$> q else pure none
        g x : Parser β) ts := by
  refine (LocalIn.accepts trivial).bind_all fun b us => ?_
  exact .ite (((h us).map some).bind_all hf) ((LocalIn.pure none).bind_all hf) b

theorem omittable_local {k : Kind} {p q : Parser α} (h : ∀ us, Local p q us)
    {f g : Option α → Parser β} (hf : ∀ x us, Local (f x) (g x) us) :
    Local
      (do
        let x ← if ← check k then pure none else some <$> p
        f x : Parser β)
      (do
        let x ← if ← check k then pure none else some <$> q
        g x : Parser β) ts := by
  refine (LocalIn.check k).bind_all fun b us => ?_
  exact .ite ((LocalIn.pure none).bind_all hf) (((h us).map some).bind_all hf) b

section

variable {d d' : Nat} (hd : d ≤ d')
include hd

theorem variableDeclaration_local :
    Local (variableDeclaration d) (variableDeclaration d') ts := by
  refine (LocalIn.expect trivial _).bind_all fun name us => ?_
  refine optional_local (fun vs => expression_local hd) fun x vs => ?_
  exact (LocalIn.expect trivial _).bind_all fun _ _ => .pure _

theorem expressionStatement_local :
    Local (expressionStatement d) (expressionStatement d') ts := by
  refine (expression_local hd).bind_all fun e us => ?_
  exact (LocalIn.expect trivial _).bind_all fun _ _ => .pure _

theorem printStatement_local : Local (printStatement d) (printStatement d') ts := by
  refine (expression_local hd).bind_all fun e us => ?_
  exact (LocalIn.expect trivial _).bind_all fun _ _ => .pure _

theorem firstClause_local : Local (firstClause d) (firstClause d') ts := by
  refine (LocalIn.accepts trivial).bind_all fun b us => .ite (.pure none) ?_ b
  refine (LocalIn.accepts trivial).bind_all fun b vs => .ite ?_ ?_ b
  · exact (variableDeclaration_local hd).map some
  · exact (expressionStatement_local hd).map some

theorem condition_local {e e' : SyntaxError} {f g : Expr → Parser α}
    (hf : ∀ c us, Local (f c) (g c) us) :
    Local
      (do
        let _ ← expect .leftParen e
        let c ← expression d
        let _ ← expect .rightParen e'
        f c : Parser α)
      (do
        let _ ← expect .leftParen e
        let c ← expression d'
        let _ ← expect .rightParen e'
        g c : Parser α) ts := by
  refine (LocalIn.expect trivial _).bind_all fun _ us => ?_
  refine (expression_local hd).bind_all fun c vs => ?_
  exact (LocalIn.expect trivial _).bind_all fun _ ws => hf c ws

variable {p q : Parser Stmt} (h : ∀ us, Local p q us)
include h

theorem whileStatement_local : Local (whileStatement d p) (whileStatement d' q) ts :=
  condition_local hd fun _ us => (h us).bind_all fun _ _ => .pure _

theorem ifStatement_local : Local (ifStatement d p) (ifStatement d' q) ts := by
  refine condition_local hd fun c us => (h us).bind_all fun whenTrue vs => ?_
  exact optional_local h fun _ _ => .pure _

theorem forStatement_local : Local (forStatement d p) (forStatement d' q) ts := by
  refine (LocalIn.expect trivial _).bind_all fun _ us => ?_
  refine (firstClause_local hd).bind_all fun first vs => ?_
  refine omittable_local (fun _ => expression_local hd) fun c ws => ?_
  refine (LocalIn.expect trivial _).bind_all fun _ xs => ?_
  refine omittable_local (fun _ => expression_local hd) fun step ys => ?_
  refine (LocalIn.expect trivial _).bind_all fun _ zs => ?_
  exact (h zs).bind_all fun _ _ => .pure _

end

theorem resume_local (last : Token) : Local (resume last) (resume last) ts := by
  induction ts generalizing last with
  | nil => exact .nil rfl
  | cons t us ih =>
    by_cases h : t.kind = .eof ∨ last.kind = .semicolon ∨ t.kind.startsStatement
    · exact .of_head (by rw [resume, if_pos h]; rfl) (fun vs => by rw [resume, if_pos h]; rfl)
        (.pure ())
    · exact .of_token trivial (by rw [resume, if_neg h]) (fun vs => by rw [resume, if_neg h]) (ih t)

theorem synchronize_local : Local synchronize synchronize ts := by
  cases ts with
  | nil => exact .nil rfl
  | cons t us =>
    by_cases h : t.kind = .eof
    · exact .of_head (by rw [synchronize, if_pos h]; rfl)
        (fun vs => by rw [synchronize, if_pos h]; rfl) (.pure ())
    · exact .of_token trivial (by rw [synchronize, if_neg h])
        (fun vs => by rw [synchronize, if_neg h]) (resume_local t)

theorem recover_of_raised {p : Parser Stmt} {e : SyntaxError} {mid : List Token}
    {r : Except Stop Stmt} {fs fs' : List Fault} (h : p ts = ⟨.error (.raised e), mid, fs⟩)
    (hs : ((fun _ => .failed) <$> synchronize) mid = ⟨r, rest, fs'⟩) :
    recover p ts = ⟨r, rest, fs ++ fs'⟩ := by
  rw [map_apply] at hs
  cases hs
  simp only [recover, h]

theorem recover_local {p q : Parser Stmt} (h : Local p q ts) :
    Local (recover p) (recover q) ts := by
  intro r rest faults he hr
  rcases hp : p ts with ⟨s | a, mid, fs⟩
  · cases s with
    | raised e =>
      rcases hm : ((fun _ => Stmt.failed) <$> synchronize : Parser Stmt) mid with ⟨r', rest', fs'⟩
      rw [recover_of_raised hp hm] at he
      cases he
      obtain ⟨us, rfl, -, hq⟩ := h _ _ _ hp trivial
      obtain ⟨vs, rfl, -, hq'⟩ := synchronize_local.map _ _ _ _ hm hr
      refine ⟨us ++ vs, (List.append_assoc ..).symm, fun _ _ => trivial, fun rest' hs => ?_⟩
      rw [List.append_assoc]
      exact recover_of_raised (hq _ (hs.append vs)) (hq' rest' hs)
    | tooDeep | pastEnd =>
      rw [recover_of_ne_raised hp nofun] at he
      cases he
      exact hr.elim
  · rw [recover_of_ne_raised hp nofun] at he
    cases he
    obtain ⟨us, hts, hu, hq⟩ := h _ _ _ hp trivial
    exact ⟨us, hts, hu, fun rest' hs => recover_of_ne_raised (hq rest' hs) nofun⟩

theorem blockOf_of_ok {p : Parser Stmt} {c t : Token} {clock mid : List Token} {s : Stmt}
    {body : List Stmt} {fs fs' : List Fault} (hb : t.kind ≠ .rightBrace) (he : t.kind ≠ .eof)
    (hp : p (t :: ts) = ⟨.ok s, mid, fs⟩) (h : blockOf p clock mid = ⟨.ok body, rest, fs'⟩) :
    blockOf p (c :: clock) (t :: ts) = ⟨.ok (s :: body), rest, fs ++ fs'⟩ :=
  (blockOf_cons.trans ((if_neg hb).trans (if_neg he))).trans (bind_of_ok hp (map_of_ok h _))

theorem programOf_of_ok {d : Nat} {c t : Token} {clock mid : List Token} {s : Stmt}
    {p : Program} {fs fs' : List Fault} (he : t.kind ≠ .eof)
    (hs : topLevel d (t :: ts) = ⟨.ok s, mid, fs⟩)
    (h : programOf d clock mid = ⟨.ok p, rest, fs'⟩) :
    programOf d (c :: clock) (t :: ts) = ⟨.ok (s :: p), rest, fs ++ fs'⟩ :=
  (programOf_cons.trans (if_neg he)).trans (bind_of_ok hs (map_of_ok h _))

theorem programOf_end {d : Nat} {clock : List Token} {e : Token} (hc : 0 < clock.length)
    (he : e.kind = .eof) : programOf d clock (e :: ts) = ⟨.ok [], e :: ts, []⟩ := by
  obtain ⟨c, clock, rfl⟩ := List.exists_cons_of_length_pos hc
  exact programOf_cons.trans (if_pos he)

theorem blockOf_clock {p : Parser Stmt} (hp : ∀ t us, t.kind ≠ .eof → Steady 1 p (t :: us))
    {clock clock' : List Token} (hc : ts.length ≤ clock.length) (hc' : ts.length ≤ clock'.length) :
    blockOf p clock ts = blockOf p clock' ts := by
  induction clock generalizing clock' ts with
  | nil =>
    obtain rfl := List.eq_nil_of_length_eq_zero (Nat.le_zero.mp hc)
    cases clock' <;> rfl
  | cons c clock ih =>
    cases ts with
    | nil => cases clock' <;> rfl
    | cons t us =>
      obtain ⟨c', clock', rfl⟩ := List.exists_cons_of_length_pos (l := clock') (by
        simp only [List.length_cons] at hc'
        omega)
      rw [blockOf_cons, blockOf_cons]
      by_cases ht : t.kind = .eof
      · rw [if_pos ht, if_pos ht]
      · rw [if_neg ht, if_neg ht]
        congr 1
        refine bind_congr fun s mid fs h => ?_
        have := (hp t us ht).length_le h
        simp only [List.length_cons] at hc hc' this
        exact map_congr _ (ih (by omega) (by omega))

theorem blockOf_fresh {p : Parser Stmt} (hp : ∀ t us, t.kind ≠ .eof → Steady 1 p (t :: us))
    {t : Token} (hb : t.kind ≠ .rightBrace) (he : t.kind ≠ .eof) :
    blockOf p (t :: ts) (t :: ts) = (do
      let s ← p
      (s :: ·) <$> fun us => blockOf p us us : Parser (List Stmt)) (t :: ts) := by
  refine (blockOf_cons.trans ((if_neg hb).trans (if_neg he))).trans ?_
  apply bind_congr
  intro s mid fs hs
  have := (hp t ts he).length_le hs
  simp only [List.length_cons] at this
  exact map_congr _ (blockOf_clock hp (by omega) (Nat.le_refl _))

/-- The declarations with as much of a clock as they may need. -/
theorem blockOf_local {p q : Parser Stmt} (h : ∀ us, Local p q us)
    (hp : ∀ t us, t.kind ≠ .eof → Steady 1 p (t :: us))
    (hq : ∀ t us, t.kind ≠ .eof → Steady 1 q (t :: us)) {clock : List Token}
    (hc : ts.length ≤ clock.length) :
    Local (blockOf p clock) (fun us => blockOf q us us) ts := by
  induction clock generalizing ts with
  | nil =>
    intro r rest faults hb hr
    cases hb
    exact hr.elim
  | cons c clock ih =>
    cases ts with
    | nil => exact .nil rfl
    | cons t us =>
      by_cases hb : t.kind = .rightBrace
      · exact .of_token trivial (blockOf_cons.trans (if_pos hb))
          (fun vs => blockOf_cons.trans (if_pos hb)) (.pure [])
      by_cases he : t.kind = .eof
      · exact .of_head (blockOf_cons.trans ((if_neg hb).trans (if_pos he)))
          (fun vs => blockOf_cons.trans ((if_neg hb).trans (if_pos he))) (.raise t _)
      refine .of_head (blockOf_cons.trans ((if_neg hb).trans (if_neg he)))
        (fun vs => blockOf_fresh hq hb he) ?_
      refine (h _).bind fun s mid fs hs _ => (ih ?_).map _
      have := (hp t us he).length_le hs
      simp only [List.length_cons] at hc this
      omega

theorem statement_local_and_declaration_local (d : Nat) : ∀ d', d ≤ d' →
    (∀ ts, Local (statement d) (statement d') ts) ∧
      ∀ ts, Local (declaration d) (declaration d') ts := by
  induction d with
  | zero => exact fun _ _ => ⟨fun _ => .tooDeep, fun _ => .tooDeep⟩
  | succ d ih =>
    intro d' hd
    obtain ⟨d', rfl⟩ : ∃ n, d' = n + 1 := ⟨d' - 1, by omega⟩
    have hd : d ≤ d' := by omega
    obtain ⟨hs, hb⟩ := ih d' hd
    refine ⟨fun ts => ?_, fun ts => recover_local ?_⟩
    · refine (LocalIn.accepts trivial).bind_all fun b us => .ite (forStatement_local hd hs) ?_ b
      refine (LocalIn.accepts trivial).bind_all fun b us => .ite (ifStatement_local hd hs) ?_ b
      refine (LocalIn.accepts trivial).bind_all fun b us => .ite (printStatement_local hd) ?_ b
      refine (LocalIn.accepts trivial).bind_all fun b us => .ite (whileStatement_local hd hs) ?_ b
      refine (LocalIn.accepts trivial).bind_all fun b us =>
        .ite ?_ (expressionStatement_local hd) b
      exact (blockOf_local hb (fun _ _ h => declaration_steady d h)
        (fun _ _ h => declaration_steady d' h) (Nat.le_refl us.length)).map Stmt.block
    · refine (LocalIn.accepts trivial).bind_all fun b us => ?_
      exact .ite (variableDeclaration_local hd) (hs us) b

theorem statement_local {d d' : Nat} (hd : d ≤ d') : Local (statement d) (statement d') ts :=
  (statement_local_and_declaration_local d d' hd).1 ts

theorem declaration_local {d d' : Nat} (hd : d ≤ d') :
    Local (declaration d) (declaration d') ts :=
  (statement_local_and_declaration_local d d' hd).2 ts

end Parser
end Lox
