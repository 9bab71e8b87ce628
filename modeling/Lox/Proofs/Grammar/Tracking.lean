import Lox.Proofs.Grammar.Viability

/-! # What the parsers track

Each parser tracks the phrase that it reads by.
-/

namespace Lox.Parser

open Grammar Phrase

variable {α β : Type} {φs : List Phrase} {ts us : List Token}

theorem Tracks.expression {p q : Parser Expr} (h : Tracks p q [symbol .assignment] ts) :
    Tracks p q [symbol .expression] ts :=
  h.weaken fun _ hu => .single (.symbol hu.of_single)

theorem chain_tracks {l : Level} {p q : Parser Expr} (hl : ∀ us, Local p q us)
    (h : ∀ us, Tracks p q [symbol l.operand.symbol] us) (hq : ∀ us, Steady 1 q us)
    {clock : List Token} {left : Expr} (hc : ts.length ≤ clock.length) :
    Tracks (chain l p clock left) (fun us => chain l q us left us)
      [many (l.operators ++ symbol l.operand.symbol)] ts := by
  induction clock generalizing ts left with
  | nil => exact .of_stop (fun _ => by simp) rfl
  | cons c clock ih =>
    rw [chain_fresh hq]
    have hw (us : List Token) (hu : Sequence ([l.operators] ++ [symbol l.operand.symbol] ++
        [many (l.operators ++ symbol l.operand.symbol)]) us) :
        Sequence [many (l.operators ++ symbol l.operand.symbol)] us := by
      cases hu.fuse with
      | cons hv hw => exact .single (.cons hv hw.of_single)
    refine .accept l.operators (fun t => Level.derives_operators) (fun operator us hu => ?_)
      ((Tracks.pure left).weaken fun us hu => ?_) hw
    · refine (h us).bind (hl us) fun right vs fs hv => ih ?_
      obtain ⟨used, rfl, -⟩ := hl us _ _ _ hv trivial
      simp only [List.length_append, List.length_cons] at hc hu
      omega
    · cases hu
      exact .single .nil

theorem assignTo_tracks (left : Expr) (equals : Token) (value : Expr) {q : Parser Expr} :
    Tracks (assignTo left equals value) q [] ts := by
  refine .of_stays fun r rest faults h => ?_
  cases left <;> cases h <;>
    exact ⟨by simp [pure_apply], by simp [Mild, pure_apply], fun _ _ => rfl⟩

theorem primary_tracks {p q : Parser Expr} (hl : ∀ us, Local p q us)
    (h : ∀ us, Tracks p q [symbol .expression] us) :
    Tracks (primary p) (primary q) [symbol .primary] ts := by
  cases ts with
  | nil => exact .nil rfl
  | cons t us =>
    have taken {e : Expr}
        (hk : t.kind ∈ [.number, .string, .kwTrue, .kwFalse, .kwNil, .identifier])
        (he : ∀ (p : Parser Expr) vs, primary p (t :: vs) = ⟨.ok e, vs, []⟩) :
        Tracks (primary p) (primary q) [symbol .primary] (t :: us) := by
      refine .of_token (he p us) (he q) (fun vs hv => ?_) (.pure (q := pure e) e)
      cases hv
      exact .single (.symbol (derives_primary hk))
    cases hk : t.kind
    case kwFalse | kwTrue | kwNil | number | string | identifier =>
      exact taken (by rw [hk]; decide) fun p vs => by rw [primary_cons, hk]
    case leftParen =>
      have hg : Tracks
          (do
            let e ← p
            let _ ← expect .rightParen .expectParenAfterExpression
            return Expr.grouping e)
          (do
            let e ← q
            let _ ← expect .rightParen .expectParenAfterExpression
            return Expr.grouping e) ([symbol .expression] ++ [kind .rightParen]) us :=
        (h us).bind_all (hl us) fun e vs => .expect (by decide) (by decide) fun _ _ => .pure _
      refine .of_token (by rw [primary_cons, hk]) (fun vs => by rw [primary_cons, hk])
        (fun vs hv => ?_) hg
      exact .single (.symbol (.right (Sequence.token hk hv).fuse.fuse.of_single))
    all_goals
      exact .of_raise (e := .expectExpression) (by decide) (by rw [primary_cons, hk]; rfl)
        (fun vs => by rw [primary_cons, hk]; rfl)

theorem rule_tracks {d d' : Nat} (hd : d ≤ d') (r : Rule) :
    Tracks (rule d r) (rule d' r) [symbol r.symbol] ts := by
  induction d generalizing d' r ts with
  | zero => exact .tooDeep
  | succ d ih =>
    obtain ⟨d', rfl⟩ : ∃ n, d' = n + 1 := ⟨d' - 1, by omega⟩
    have hl {r ts} : Local (rule d r) (rule d' r) ts :=
      (rule_local (by omega) r).mono fun _ _ => trivial
    have ih {r ts} : Tracks (rule d r) (rule d' r) [symbol r.symbol] ts := ih (by omega) r
    cases r with
    | assignment =>
      have h : Tracks (rule (d + 1) .assignment) (rule (d' + 1) .assignment)
          ([symbol .ternary] ++ [opt (kind .equal ++ symbol .assignment)]) ts := by
        refine ih.bind_all hl fun left us => .accept_kind
          (fun equals vs => ih.last hl fun _ _ => assignTo_tracks _ _ _)
          ((Tracks.pure left).weaken fun vs hv => ?_) fun vs hv => ?_
        · cases hv
          exact .single .none
        · exact .single (.some hv.fuse.of_single)
      exact h.weaken fun us hu => .single (.symbol hu.fuse.of_single)
    | ternary =>
      have h : Tracks (rule (d + 1) .ternary) (rule (d' + 1) .ternary) ([symbol .or] ++
          [opt (kind .questionMark ++ symbol .expression ++ kind .colon ++ symbol .expression)])
          ts := by
        refine (ih (r := .level .or)).bind_all hl fun c us => .accept_kind
          (fun _ vs => ih.expression.bind_all hl fun left ws => .expect (by decide) (by decide)
            fun _ xs => ih.expression.last hl fun right _ => .pure _)
          ((Tracks.pure c).weaken fun vs hv => ?_) fun vs hv => ?_
        · cases hv
          exact .single .none
        · exact .single (.some hv.fuse.fuse.fuse.of_single)
      exact h.weaken fun us hu => .single (.symbol hu.fuse.of_single)
    | level l =>
      have h : Tracks (rule (d + 1) (.level l)) (rule (d' + 1) (.level l))
          ([symbol l.operand.symbol] ++ [many (l.operators ++ symbol l.operand.symbol)]) ts := by
        rw [rule_level, rule_level]
        refine ih.bind_all hl fun left us => ?_
        exact (chain_tracks (fun _ => hl) (fun _ => ih) (fun _ => rule_steady d' _)
          (Nat.le_refl us.length)).congr rfl
      refine h.weaken fun us hu => .single (.symbol ?_)
      have hs : looseRules l.symbol = rules l.symbol := by cases l <;> rfl
      rw [Rule.symbol, hs, rules_level]
      exact hu.fuse.of_single
    | unary =>
      refine .accept (kind .bang ||| kind .minus) (fun t ht => ?_)
        (fun operator us _ => ih.last hl fun _ _ => .pure _) (ih.weaken fun us hu => ?_)
        fun vs hv => ?_
      · rcases Bool.or_eq_true_iff.mp ht with ht | ht
        · exact .left (.token (beq_iff_eq.mp ht))
        · exact .right (.token (beq_iff_eq.mp ht))
      · exact .single (.symbol (.right hu.of_single))
      · exact .single (.symbol (.left hv.fuse.of_single))
    | primary => exact primary_tracks (fun _ => hl) fun _ => ih.expression

theorem expression_tracks {d d' : Nat} (hd : d ≤ d') :
    Tracks (expression d) (expression d') [symbol .expression] ts :=
  (rule_tracks hd .assignment).expression

section

variable {d d' : Nat} (hd : d ≤ d')
include hd

theorem variableDeclaration_tracks : Tracks (variableDeclaration d) (variableDeclaration d')
    [kind .identifier, opt (kind .equal ++ symbol .expression), kind .semicolon] ts :=
  .expect (by decide) (by decide) fun _ _ =>
    .optional (by decide) (fun _ => expression_local hd) (fun _ => expression_tracks hd) fun _ _ =>
      .expect (by decide) (by decide) fun _ _ => .pure _

theorem expressionStatement_tracks :
    Tracks (expressionStatement d) (expressionStatement d') [symbol .expressionStatement] ts := by
  have h : Tracks (expressionStatement d) (expressionStatement d')
      ([symbol .expression] ++ [kind .semicolon]) ts :=
    (expression_tracks hd).bind_all (expression_local hd) fun _ _ =>
      .expect (by decide) (by decide) fun _ _ => .pure _
  exact h.weaken fun us hu => .single (.symbol hu.fuse.of_single)

theorem printStatement_tracks :
    Tracks (printStatement d) (printStatement d') [symbol .expression, kind .semicolon] ts :=
  (expression_tracks hd).bind_all (expression_local hd) fun _ _ =>
    .expect (by decide) (by decide) fun _ _ => .pure _

theorem firstClause_tracks : Tracks (firstClause d) (firstClause d')
    [symbol .variable ||| symbol .expressionStatement ||| kind .semicolon] ts := by
  cases ts with
  | nil => exact .nil rfl
  | cons t us =>
    by_cases hs : t.kind = .semicolon
    · refine .of_token (ifAccepts_true hs (by decide)) (fun _ => ifAccepts_true hs (by decide))
        (fun vs hv => ?_) (.pure (q := pure none) none)
      cases hv
      exact .single (.right (.token hs))
    refine .of_head (ifAccepts_false hs) (fun _ => ifAccepts_false hs) ?_
    by_cases hv : t.kind = .kwVar
    · refine .of_token (ifAccepts_true hv (by decide)) (fun _ => ifAccepts_true hv (by decide))
        (fun vs h => ?_) ((variableDeclaration_tracks hd).map (variableDeclaration_local hd) some)
      exact .single (.left (.left (.symbol (Sequence.token hv h).fuse.fuse.fuse.of_single)))
    · refine .of_head (ifAccepts_false hv) (fun _ => ifAccepts_false hv) ?_
      refine ((expressionStatement_tracks hd).map (expressionStatement_local hd) some).weaken ?_
      exact fun us hu => .single (.left (.right hu.of_single))

theorem condition_tracks {e e' : SyntaxError} (he : e ≠ .invalidTarget) (he' : e' ≠ .invalidTarget)
    {f g : Expr → Parser α} (hf : ∀ c us, Tracks (f c) (g c) φs us) :
    Tracks
      (do
        let _ ← expect .leftParen e
        let c ← expression d
        let _ ← expect .rightParen e'
        f c : Parser α)
      (do
        let _ ← expect .leftParen e
        let c ← expression d'
        let _ ← expect .rightParen e'
        g c : Parser α) (parenthesised (symbol .expression) :: φs) ts := by
  refine .weaken ?_ fun us (hu : Sequence
    (kind .leftParen :: ([symbol .expression] ++ (kind .rightParen :: φs))) us) => hu.fuse.fuse
  refine .expect (by decide) he fun _ us => ?_
  refine (expression_tracks hd).bind_all (expression_local hd) fun c vs => ?_
  exact .expect (by decide) he' fun _ ws => hf c ws

variable {p q : Parser Stmt} (hl : ∀ us, Local p q us)
  (h : ∀ us, Tracks p q [symbol .statement] us)
include hl h

theorem whileStatement_tracks : Tracks (whileStatement d p) (whileStatement d' q)
    [parenthesised (symbol .expression), symbol .statement] ts :=
  condition_tracks hd (by decide) (by decide) fun _ us => (h us).last (hl us) fun _ _ => .pure _

theorem ifStatement_tracks : Tracks (ifStatement d p) (ifStatement d' q)
    [parenthesised (symbol .expression), symbol .statement,
      opt (kind .kwElse ++ symbol .statement)] ts :=
  condition_tracks hd (by decide) (by decide) fun _ us => (h us).bind_all (hl us) fun _ _ =>
    .optional (by decide) hl h fun _ _ => .pure _

theorem forStatement_tracks : Tracks (forStatement d p) (forStatement d' q)
    [parenthesised ((symbol .variable ||| symbol .expressionStatement ||| kind .semicolon) ++
      opt (symbol .expression) ++ kind .semicolon ++ opt (symbol .expression)),
      symbol .statement] ts := by
  have hw : Tracks (forStatement d p) (forStatement d' q)
      (kind .leftParen :: ([symbol .variable ||| symbol .expressionStatement ||| kind .semicolon] ++
        [opt (symbol .expression), kind .semicolon, opt (symbol .expression), kind .rightParen,
          symbol .statement])) ts :=
    .expect (by decide) (by decide) fun _ us =>
      (firstClause_tracks hd).bind_all (firstClause_local hd) fun first vs =>
        .omittable (by decide) (expression_local hd) (expression_tracks hd) fun c ws =>
          .expect (by decide) (by decide) fun _ xs =>
            .omittable (by decide) (expression_local hd) (expression_tracks hd) fun step ys =>
              .expect (by decide) (by decide) fun _ zs => (h zs).last (hl zs) fun _ _ => .pure _
  refine hw.weaken fun us hu => ?_
  have hu := hu.tail fun _ hv => hv.fuse.fuse.fuse
  exact hu.fuse.fuse

end

theorem resume_faults (last : Token) (ts : List Token) : (resume last ts).faults = [] := by
  induction ts generalizing last with
  | nil => rfl
  | cons t us ih =>
    rw [resume]
    split
    · rfl
    · exact ih t

theorem synchronize_faults (ts : List Token) : (synchronize ts).faults = [] := by
  cases ts with
  | nil => rfl
  | cons t us =>
    rw [synchronize]
    split
    · rfl
    · exact resume_faults t us

theorem recover_faults (p : Parser Stmt) (ts : List Token) :
    (recover p ts).faults = (p ts).faults := by
  rcases h : p ts with ⟨s | a, mid, fs⟩
  · cases s with
    | raised e =>
      rcases hs : ((fun _ => Stmt.failed) <$> synchronize : Parser Stmt) mid with ⟨r, rest, fs'⟩
      have hf : fs' = [] := by
        rw [map_apply, synchronize_faults] at hs
        cases hs
        rfl
      rw [recover_of_raised h hs, hf, List.append_nil]
    | _ => rw [recover_of_ne_raised h nofun]
  · rw [recover_of_ne_raised h nofun]

theorem Tracks.recover {p q : Parser Stmt} (h : Tracks p q φs ts) :
    Tracks (recover p) (recover q) φs ts := by
  refine ⟨fun {s rest faults} he hm => ?_, fun {e rest faults} he => ?_, fun he hb hf => ?_⟩
  · have hfaults := recover_faults p ts
    rcases hp : p ts with ⟨⟨_ | _ | _⟩ | a, mid, fs⟩
    · -- the error has been kept as a fault
      rw [he, hp] at hfaults
      obtain rfl : faults = _ := hfaults
      exact absurd hm (h.raised hp)
    all_goals
      rw [recover_of_ne_raised hp nofun] at he
      cases he
    exact h.taken hp hm
  · have hr : (Parser.recover p ts).result ≠ .error (.raised e) := recover_ne_raised p
    rw [he] at hr
    exact absurd rfl hr
  · rw [recover_faults] at he
    obtain ⟨pre, post, hts, hmore, hq⟩ := h.located he hb hf
    exact ⟨pre, post, hts, hmore, fun post' => by rw [recover_faults]; exact hq post'⟩

theorem blockOf_tracks {p q : Parser Stmt} (hl : ∀ us, Local p q us)
    (h : ∀ us, Tracks p q [symbol .declaration] us)
    (hp : ∀ t us, t.kind ≠ .eof → Steady 1 p (t :: us))
    (hq : ∀ t us, t.kind ≠ .eof → Steady 1 q (t :: us)) {clock : List Token}
    (hc : ts.length ≤ clock.length) :
    Tracks (blockOf p clock) (fun us => blockOf q us us)
      [many (symbol .declaration), kind .rightBrace] ts := by
  induction clock generalizing ts with
  | nil => exact .of_stop (fun _ => by simp) rfl
  | cons c clock ih =>
    cases ts with
    | nil => exact .nil rfl
    | cons t us =>
      by_cases hb : t.kind = .rightBrace
      · refine .of_token (blockOf_cons.trans (if_pos hb)) (fun _ => blockOf_cons.trans (if_pos hb))
          (fun vs hv => ?_) (.pure (q := pure []) [])
        exact .cons_nil .nil (.token hb hv)
      by_cases he : t.kind = .eof
      · exact .of_raise (e := .expectBraceAfterBlock) (by decide)
          (blockOf_cons.trans ((if_neg hb).trans (if_pos he)))
          (fun _ => blockOf_cons.trans ((if_neg hb).trans (if_pos he)))
      refine .of_head (blockOf_cons.trans ((if_neg hb).trans (if_neg he)))
        (fun _ => blockOf_fresh hq hb he) ?_
      have hs : Tracks (do
          let s ← p
          (s :: ·) <$> blockOf p clock) (do
          let s ← q
          (s :: ·) <$> fun us => blockOf q us us)
          ([symbol .declaration] ++ [many (symbol .declaration), kind .rightBrace]) (t :: us) := by
        refine (h _).bind (hl _) fun s mid fs hs => ?_
        have := (hp t us he).length_le hs
        simp only [List.length_cons] at hc this
        exact (ih (by omega)).map (blockOf_local hl hp hq (by omega)) _
      refine hs.weaken fun vs hv => ?_
      cases hv with
      | cons hu hv =>
        cases hv with
        | cons hm hv =>
          rw [← List.append_assoc]
          exact .cons (.cons hu hm) hv

theorem statement_tracks_and_declaration_tracks (d : Nat) : ∀ d', d ≤ d' →
    (∀ ts, Tracks (statement d) (statement d') [symbol .statement] ts) ∧
      ∀ ts, Tracks (declaration d) (declaration d') [symbol .declaration] ts := by
  induction d with
  | zero => exact fun _ _ => ⟨fun _ => .tooDeep, fun _ => .tooDeep⟩
  | succ d ih =>
    intro d' hd
    obtain ⟨d', rfl⟩ : ∃ n, d' = n + 1 := ⟨d' - 1, by omega⟩
    have hd : d ≤ d' := by omega
    obtain ⟨hs, hb⟩ := ih d' hd
    refine ⟨fun ts => ?_, fun ts => .recover ?_⟩
    · cases ts with
      | nil => exact .nil rfl
      | cons t us =>
        have keyword (s : Symbol) {k : Kind} {p : Nat → Parser Stmt} {φs : List Phrase}
            (hk : t.kind = k) (hm : s ∈ [.forLoop, .branch, .print, .loop, .block,
              .expressionStatement]) (hp : ∀ d vs, statement (d + 1) (t :: vs) = p d vs)
            (h : Tracks (p d) (p d') φs us)
            (hw : ∀ vs, Sequence (kind k :: φs) vs → Derives looseRules (looseRules s) vs) :
            Tracks (statement (d + 1)) (statement (d' + 1)) [symbol .statement] (t :: us) :=
          .of_token (hp d us) (hp d') (fun vs hv => .single (.symbol (derives_statement hm
            (.symbol (hw _ (.token hk hv)))))) h
        cases hk : t.kind
        case kwFor =>
          exact keyword .forLoop hk (by decide) (fun _ _ => by rw [statement_cons, hk])
            (forStatement_tracks hd (fun _ => statement_local hd) hs) fun vs hv =>
              hv.fuse.fuse.of_single
        case kwIf =>
          exact keyword .branch hk (by decide) (fun _ _ => by rw [statement_cons, hk])
            (ifStatement_tracks hd (fun _ => statement_local hd) hs) fun vs hv =>
              hv.fuse.fuse.fuse.of_single
        case kwPrint =>
          exact keyword .print hk (by decide) (fun _ _ => by rw [statement_cons, hk])
            (printStatement_tracks hd) fun vs hv => hv.fuse.fuse.of_single
        case kwWhile =>
          exact keyword .loop hk (by decide) (fun _ _ => by rw [statement_cons, hk])
            (whileStatement_tracks hd (fun _ => statement_local hd) hs) fun vs hv =>
              hv.fuse.fuse.of_single
        case leftBrace =>
          have hp (d : Nat) : ∀ t us, t.kind ≠ .eof → Steady 1 (declaration d) (t :: us) :=
            fun _ _ h => declaration_steady d h
          have hl : Local (blockOf (declaration d) us) (block d') us :=
            blockOf_local (fun _ => declaration_local hd) (hp d) (hp d') (Nat.le_refl _)
          have hb : Tracks (blockOf (declaration d) us) (block d') _ us :=
            blockOf_tracks (fun _ => declaration_local hd) hb (hp d) (hp d') (Nat.le_refl _)
          refine keyword .block (p := fun d => .block <$> block d) hk (by decide)
            (fun _ _ => by rw [statement_cons, hk]; rfl) ((hb.map hl Stmt.block).congr rfl)
            fun vs hv => hv.fuse.fuse.of_single
        all_goals
          refine .of_head (by rw [statement_cons, hk]) (fun vs => by rw [statement_cons, hk])
            ((expressionStatement_tracks hd).weaken fun vs hv => ?_)
          exact .single (.symbol (derives_statement (by simp) hv.of_single))
    · cases ts with
      | nil => exact .nil rfl
      | cons t us =>
        by_cases hk : t.kind = .kwVar
        · refine .of_token (ifAccepts_true hk (by decide)) (fun _ => ifAccepts_true hk (by decide))
            (fun vs hv => ?_) (variableDeclaration_tracks hd)
          have hv := (Sequence.token hk hv).fuse.fuse.fuse.of_single
          exact .single (.symbol (.left (.symbol hv)))
        · refine .of_head (ifAccepts_false hk) (fun _ => ifAccepts_false hk) ((hs _).weaken ?_)
          exact fun vs hv => .single (.symbol (.right hv.of_single))

theorem declaration_tracks {d d' : Nat} (hd : d ≤ d') :
    Tracks (declaration d) (declaration d') [symbol .declaration] ts :=
  (statement_tracks_and_declaration_tracks d d' hd).2 ts

theorem topLevel_faults (d : Nat) (ts : List Token) :
    ∃ more, (topLevel d ts).faults = (declaration d ts).faults ++ more := by
  rcases h : declaration d ts with ⟨⟨_ | _ | _⟩ | s, rest, faults⟩
  case error.tooDeep =>
    rw [topLevel, h]
    exact ⟨_, rfl⟩
  all_goals exact ⟨[], by simp [topLevel, h]⟩

theorem programOf_faults (d : Nat) (c : Token) (clock ts : List Token) {t : Token}
    (ht : t.kind ≠ .eof) :
    ∃ more, (programOf d (c :: clock) (t :: ts)).faults =
      (declaration d (t :: ts)).faults ++ more := by
  obtain ⟨fs, hfs⟩ := topLevel_faults d (t :: ts)
  obtain ⟨fs', hfs'⟩ := faults_bind (topLevel d) (fun s => (s :: ·) <$> programOf d clock) (t :: ts)
  refine ⟨fs ++ fs', ?_⟩
  rw [programOf_cons, if_neg ht, hfs', hfs, List.append_assoc]

theorem programOf_faults_of_ok {d : Nat} {c t : Token} {clock mid : List Token} {s : Stmt}
    {faults : List Fault} (ht : t.kind ≠ .eof)
    (h : declaration d (t :: ts) = ⟨.ok s, mid, faults⟩) :
    (programOf d (c :: clock) (t :: ts)).faults = faults ++ (programOf d clock mid).faults := by
  rw [programOf_cons, if_neg ht, bind_ok (topLevel_of_ok h)]
  rfl

/-- A declaration that is not nested too deeply is read. -/
theorem declaration_ok {d : Nat} {t : Token} (ht : t.kind ≠ .eof) (he : Ended (t :: ts))
    (hd : (declaration d (t :: ts)).result ≠ .error .tooDeep) :
    ∃ s rest faults, declaration d (t :: ts) = ⟨.ok s, rest, faults⟩ ∧ Passes 1 (t :: ts) rest := by
  have hs : Steady 1 (declaration d) (t :: ts) := declaration_steady d ht
  have hn : ∀ e, (declaration d (t :: ts)).result ≠ .error (.raised e) := fun _ =>
    declaration_ne_raised d
  rcases h : declaration d (t :: ts) with ⟨r, rest, faults⟩
  rw [Steady, h] at hs
  rw [h] at hd hn
  cases hs with
  | ok hr => exact ⟨_, _, _, rfl, hr⟩
  | raised _ => exact absurd rfl (hn _)
  | tooDeep _ => exact absurd rfl hd
  | pastEnd hp => exact absurd he hp

/-- As `Located`, for the declarations up to the end, with any clock that does not run out. -/
def Breaks (d : Nat) (ts : List Token) (before : List Fault) (f : Fault) : Prop :=
  ∃ pre post, ts = pre ++ f.token :: post ∧
    (∃ more, Derives looseRules (many (symbol .declaration)) (pre ++ more)) ∧
    ∀ post' clock, (pre ++ f.token :: post').length ≤ clock.length →
      ∃ after, (programOf d clock (pre ++ f.token :: post')).faults = before ++ f :: after

theorem Located.breaks {d : Nat} {t : Token} (ht : t.kind ≠ .eof) {before : List Fault} {f : Fault}
    (h : Located (declaration d) [symbol .declaration] (t :: ts) before f) :
    Breaks d (t :: ts) before f := by
  obtain ⟨pre, post, hts, ⟨more, hmore⟩, hq⟩ := h
  refine ⟨pre, post, hts, ⟨more ++ [], ?_⟩, fun post' clock hc => ?_⟩
  · rw [← List.append_assoc]
    exact .cons hmore.of_single .nil
  · obtain ⟨after, ha⟩ := hq post'
    obtain ⟨vs, hvs⟩ := head_of_append hts post'
    rw [hvs] at ha hc ⊢
    obtain ⟨c, clock, rfl⟩ := List.exists_cons_of_length_pos (Nat.lt_of_lt_of_le (by simp) hc)
    obtain ⟨fs, hfs⟩ := programOf_faults d c clock vs ht
    exact ⟨after ++ fs, by rw [hfs, ha, List.append_assoc, List.cons_append]⟩

theorem Breaks.after {d : Nat} {t : Token} {s : Stmt} {used mid : List Token}
    {fs before : List Fault} {f : Fault} (ht : t.kind ≠ .eof)
    (hu : Derives looseRules (symbol .declaration) (t :: used))
    (hq : ∀ rest, SameHead mid rest →
      declaration d (t :: used ++ rest) = ⟨.ok s, rest, fs⟩)
    (h : Breaks d mid before f) : Breaks d (t :: used ++ mid) (fs ++ before) f := by
  obtain ⟨pre, post, rfl, ⟨more, hmore⟩, hp⟩ := h
  refine ⟨t :: used ++ pre, post, (List.append_assoc ..).symm, ⟨more, ?_⟩, fun post' clock hc => ?_⟩
  · rw [List.append_assoc]
    exact .cons hu hmore
  · have hd := hq _ (sameHead_of_append pre f.token post post')
    rw [List.append_assoc] at hc ⊢
    rw [List.cons_append] at hc hd ⊢
    obtain ⟨c, clock, rfl⟩ := List.exists_cons_of_length_pos (Nat.lt_of_lt_of_le (by simp) hc)
    simp only [List.length_cons, List.length_append] at hc
    obtain ⟨after, ha⟩ := hp post' clock (by simp; omega)
    exact ⟨after, by rw [programOf_faults_of_ok ht hd, ha, List.append_assoc]⟩

/-- The first error raised while a program is read is at the token where the beginning of a program
ends, whatever comes after the token and with any more depth. -/
theorem programOf_breaks {d d' : Nat} (hle : d ≤ d') {clock : List Token}
    (hc : ts.length ≤ clock.length) (he : Ended ts)
    (hd : ∀ f ∈ (programOf d clock ts).faults, f.error ≠ .tooDeep)
    {before after : List Fault} {f : Fault}
    (h : (programOf d clock ts).faults = before ++ f :: after) (hb : Mild before)
    (hf : f.error ≠ .invalidTarget) : Breaks d' ts before f := by
  induction clock generalizing ts before with
  | nil =>
    obtain rfl := List.eq_nil_of_length_eq_zero (Nat.le_zero.mp hc)
    exact absurd he Ended.not_nil
  | cons c clock ih =>
    obtain ⟨t, us, rfl⟩ := he.cons
    by_cases ht : t.kind = .eof
    · rw [programOf_cons, if_pos ht] at h
      simp at h
    have hnot : (declaration d (t :: us)).result ≠ .error .tooDeep := by
      intro hr
      have hr : declaration d (t :: us) = ⟨.error .tooDeep, (declaration d (t :: us)).rest,
        (declaration d (t :: us)).faults⟩ := by rw [← hr]
      obtain ⟨g, hg, hk⟩ := tooDeep_mem_topLevel ht he hr
      refine hd g ?_ hk
      rw [programOf_cons, if_neg ht]
      exact mem_faults_bind hg
    obtain ⟨s, mid, fs, hs, hp⟩ := declaration_ok ht he hnot
    rw [programOf_faults_of_ok ht hs] at h hd
    rcases first_of_append h hb with ⟨after', rfl⟩ | ⟨before', hfs, rfl, ha⟩
    · exact ((declaration_tracks hle).located (by rw [hs]) hb hf).breaks ht
    obtain ⟨used, hts, hu⟩ := (declaration_tracks hle).taken hs hfs
    obtain ⟨used', hts', -, hq⟩ := declaration_local hle _ _ _ hs trivial
    obtain rfl := List.append_cancel_right (hts.symm.trans hts')
    have hlen := hp.length_le
    simp only [List.length_cons] at hc hlen
    have hrest : Breaks d' mid before' f := ih (by omega) (hp.ended he)
      (fun g hg => hd g (List.mem_append_right fs hg)) ha (mild_append.mp hb).2
    cases used with
    | nil =>
      have := congrArg List.length hts
      simp only [List.nil_append, List.length_cons] at this
      omega
    | cons u used =>
      obtain rfl := (List.cons.inj hts).1
      rw [hts]
      exact hrest.after ht hu.of_single hq

theorem program_located {d d' : Nat} (hle : d ≤ d') (he : Ended ts)
    (hd : ∀ f ∈ (program d ts).faults, f.error ≠ .tooDeep) {before after : List Fault} {f : Fault}
    (h : (program d ts).faults = before ++ f :: after) (hb : Mild before)
    (hf : f.error ≠ .invalidTarget) :
    ∃ pre post, ts = pre ++ f.token :: post ∧
      (∃ more, Derives looseRules (symbol .program) (pre ++ more)) ∧
      ∀ post', ∃ after, (program d' (pre ++ f.token :: post')).faults = before ++ f :: after := by
  obtain ⟨pre, post, hts, ⟨more, hmore⟩, hq⟩ := programOf_breaks hle (Nat.le_refl _) he hd h hb hf
  exact ⟨pre, post, hts, ⟨more, .symbol hmore⟩, fun post' => hq post' _ (Nat.le_refl _)⟩

end Lox.Parser
