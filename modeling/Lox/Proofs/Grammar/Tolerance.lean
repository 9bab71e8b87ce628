import Lox.Proofs.Grammar.Recognition
import Lox.Proofs.Grammar.Lookahead

/-! # Assignments to anything

A looser grammar lets any ternary expression stand before an equals sign. What it derives is read
with no error but that of a wrong target.
-/

namespace Lox

open Grammar Phrase

/-- The grammar of programs in which anything can be assigned to. -/
def looseRules : Symbol → Phrase
  | .assignment => symbol .ternary ++ opt (kind .equal ++ symbol .assignment)
  | s => rules s

/-- All that is wrong is what is assigned to. -/
def Mild (faults : List Fault) : Prop := ∀ f ∈ faults, f.error = .invalidTarget

@[simp] theorem mild_nil : Mild [] := by simp [Mild]

@[simp] theorem mild_append {fs fs' : List Fault} : Mild (fs ++ fs') ↔ Mild fs ∧ Mild fs' :=
  List.forall_mem_append

@[simp] theorem mild_cons {f : Fault} {fs : List Fault} :
    Mild (f :: fs) ↔ f.error = .invalidTarget ∧ Mild fs :=
  List.forall_mem_cons

namespace Parser

variable {α β : Type} {ts us vs rest : List Token}

/-- From some depth on `p` takes `ts` when `rest` follows, with no fault but wrong targets. -/
def Consumes (p : Nat → Parser α) (ts rest : List Token) : Prop :=
  ∃ n a faults, Mild faults ∧ ∀ d, n ≤ d → p d (ts ++ rest) = ⟨.ok a, rest, faults⟩

namespace Consumes

variable {p q : Nat → Parser α}

protected theorem pure (a : α) : Consumes (fun _ => pure a) [] rest :=
  ⟨0, a, [], mild_nil, fun _ _ => rfl⟩

theorem of_reads {a : α} (h : Reads p ts a rest) : Consumes p ts rest := by
  obtain ⟨n, hn⟩ := h
  exact ⟨n, a, [], mild_nil, fun d hd => (hn d).1 hd⟩

theorem bind {f : Nat → α → Parser β} (h : Consumes p us (vs ++ rest))
    (hf : ∀ a, Consumes (fun d => f d a) vs rest) :
    Consumes (fun d => p d >>= f d) (us ++ vs) rest := by
  obtain ⟨m, a, fs, hfs, hm⟩ := h
  obtain ⟨n, b, fs', hfs', hn⟩ := hf a
  refine ⟨max m n, b, fs ++ fs', mild_append.mpr ⟨hfs, hfs'⟩, fun d hd => ?_⟩
  rw [List.append_assoc]
  exact bind_of_ok (hm d (by omega)) (hn d (by omega))

theorem last {f : Nat → α → Parser β} (h : Consumes p ts rest)
    (hf : ∀ a, Consumes (fun d => f d a) [] rest) :
    Consumes (fun d => p d >>= f d) ts rest := by
  rw [← List.append_nil ts]
  exact h.bind hf

theorem congr (h : Consumes q vs rest) (he : ∀ d, p d (ts ++ rest) = q d (vs ++ rest)) :
    Consumes p ts rest := by
  obtain ⟨n, a, fs, hfs, hn⟩ := h
  exact ⟨n, a, fs, hfs, fun d hd => (he d).trans (hn d hd)⟩

theorem map {g : α → β} (h : Consumes p ts rest) : Consumes (fun d => g <$> p d) ts rest := by
  obtain ⟨n, a, fs, hfs, hn⟩ := h
  exact ⟨n, g a, fs, hfs, fun d hd => map_of_ok (hn d hd) g⟩

theorem succ (h : Consumes q ts rest) (hs : ∀ d, p (d + 1) (ts ++ rest) = q d (ts ++ rest)) :
    Consumes p ts rest := by
  obtain ⟨n, a, fs, hfs, hn⟩ := h
  refine ⟨n + 1, a, fs, hfs, fun d hd => ?_⟩
  obtain ⟨d, rfl⟩ : ∃ m, d = m + 1 := ⟨d - 1, by omega⟩
  exact (hs d).trans (hn d (by omega))

theorem accept_none {accepted : Kind → Bool} {f : Nat → Option Token → Parser β} {t : Token}
    (ht : accepted t.kind = false) (h : Consumes (fun d => f d none) [] (t :: us)) :
    Consumes (fun d => accept accepted >>= f d) [] (t :: us) :=
  h.congr fun _ => bind_of_silent (Parser.accept_none (.inr ht)) _

theorem accept_some {accepted : Kind → Bool} {f : Nat → Option Token → Parser β} {t : Token}
    (hk : t.kind ≠ .eof) (ht : accepted t.kind) (h : Consumes (fun d => f d (some t)) ts rest) :
    Consumes (fun d => accept accepted >>= f d) (t :: ts) rest :=
  h.congr fun _ => bind_of_silent (Parser.accept_some hk ht) _

theorem token {f : Nat → Token → Parser β} {e : SyntaxError} {t : Token} {k : Kind}
    (h : t.kind = k) (hk : k ≠ .eof) (hf : Consumes (fun d => f d t) ts rest) :
    Consumes (fun d => expect k e >>= f d) (t :: ts) rest :=
  hf.congr fun _ => bind_of_silent (expect_ok e h hk) _

end Consumes

/-- The rule takes the tokens whenever something follows that it does not go on with. -/
def TakenBy (r : Rule) (ts : List Token) : Prop :=
  ∀ rest, StopsAt r rest → Consumes (rule · r) ts rest

theorem assignTo_consumes (left : Expr) (equals : Token) (value : Expr) :
    Consumes (fun _ => assignTo left equals value) [] rest := by
  cases left with
  | var name => exact .pure _
  | _ =>
    exact ⟨0, _, [⟨equals, .invalidTarget⟩], by simp, fun _ _ => rfl⟩

inductive ValuePart : List Token → Prop
  | none : ValuePart []
  | some {equals : Token} {vs : List Token} : equals.kind = .equal → TakenBy .assignment vs →
      ValuePart (equals :: vs)

/-- The tokens are taken as an assignment, with or without a value after them. -/
def Assignable (ts : List Token) : Prop := ∀ us, ValuePart us → TakenBy .assignment (ts ++ us)

theorem Assignable.taken (h : Assignable ts) : TakenBy .assignment ts := by
  have := h [] .none
  rwa [List.append_nil] at this

theorem ValuePart.stopsAt (h : ValuePart us) (hr : StopsAt .assignment rest) :
    ∃ t more, us ++ rest = t :: more ∧ t.kind.rank < Level.or.rank ∧ t.kind ≠ .questionMark := by
  cases h with
  | none =>
    obtain ⟨t, more, rfl, ht⟩ := hr
    refine ⟨t, more, rfl, Nat.lt_succ_of_lt ht, ?_⟩
    intro hk
    rw [hk] at ht
    exact absurd ht (by decide)
  | some hk _ => exact ⟨_, _, rfl, by rw [hk]; decide, by rw [hk]; decide⟩

theorem ValuePart.consumes (h : ValuePart us) (hr : StopsAt .assignment rest) (left : Expr) :
    Consumes (fun d => do
      match ← accept (· == .equal) with
      | Option.none => return left
      | Option.some equals =>
        let value ← rule d .assignment
        assignTo left equals value) us rest := by
  cases h with
  | none =>
    obtain ⟨t, more, rfl, ht⟩ := hr
    have hk : t.kind ≠ .equal := by
      intro hk
      rw [hk] at ht
      exact absurd ht (by decide)
    exact .accept_none (beq_false_of_ne hk) (.pure left)
  | some hk hv =>
    refine .accept_some (by rw [hk]; decide) (beq_iff_eq.mpr hk) ?_
    exact (hv rest hr).last fun value => assignTo_consumes _ _ value

theorem ternary_consumes (h : Consumes (rule · (.level .or)) us (vs ++ rest))
    (hf : ∀ c, Consumes (fun d => do
      match ← accept (· == .questionMark) with
      | none => return c
      | some _ =>
        let left ← rule d .assignment
        let _ ← expect .colon .expectColonOfTernary
        let right ← rule d .assignment
        return Expr.ternary c left right) vs rest) : Consumes (rule · .ternary) (us ++ vs) rest :=
  (h.bind hf).succ fun _ => rfl

theorem assignment_consumes (h : Consumes (rule · .ternary) ts (us ++ rest)) (hu : ValuePart us)
    (hr : StopsAt .assignment rest) : Consumes (rule · .assignment) (ts ++ us) rest :=
  (h.bind (hu.consumes hr)).succ fun _ => rfl

theorem assignable_of_or (h : TakenBy (.level .or) ts) : Assignable ts := by
  intro us hu rest hr
  obtain ⟨t, more, hm, ht, hq⟩ := hu.stopsAt hr
  have hc : Consumes (rule · .ternary) (ts ++ []) (us ++ rest) := by
    refine ternary_consumes (h _ ⟨t, more, hm, ht⟩) fun c => ?_
    rw [hm]
    exact .accept_none (beq_false_of_ne hq) (.pure c)
  rw [List.append_nil] at hc
  exact assignment_consumes hc hu hr

theorem assignable_of_choice {question colon : Token} {cs ls rs : List Token}
    (hq : question.kind = .questionMark) (hc : colon.kind = .colon) (hcs : TakenBy (.level .or) cs)
    (hls : Assignable ls) (hrs : Assignable rs) :
    Assignable (cs ++ question :: (ls ++ colon :: rs)) := by
  intro us hu rest hr
  have hl : Consumes (rule · .ternary) (cs ++ question :: (ls ++ colon :: (rs ++ us))) rest := by
    refine ternary_consumes (hcs _ (stopsAt_of_kind hq (by decide))) fun c => ?_
    refine .accept_some (by rw [hq]; decide) (beq_iff_eq.mpr hq) ?_
    refine .bind (hls.taken _ (stopsAt_of_kind hc (by decide))) fun left => ?_
    exact .token hc (by decide) ((hrs us hu rest hr).last fun right => .pure _)
  have ha := assignment_consumes hl .none hr
  simpa using ha

theorem Assignable.assign {equals : Token} (h : Assignable us) (hk : equals.kind = .equal)
    (hv : Assignable vs) : Assignable (us ++ equals :: vs) := by
  intro ws hw
  rw [List.append_assoc]
  exact h _ (.some hk (hv ws hw))

def Operations (l : Level) (pieces : List (List Token)) : Prop :=
  ∀ us ∈ pieces, ∃ operator vs, us = operator :: vs ∧ l.hasOperator operator.kind ∧
    TakenBy l.operand vs

theorem Operations.stopsAt {l : Level} {pieces : List (List Token)} (h : Operations l pieces)
    (hr : StopsAt (.level l) rest) : StopsAt l.operand (pieces.flatten ++ rest) := by
  cases pieces with
  | nil => exact hr.mono (by rw [l.operand_rank]; exact Nat.le_succ _)
  | cons us pieces =>
    obtain ⟨operator, vs, rfl, ho, _⟩ := h us (by simp)
    refine ⟨operator, _, rfl, ?_⟩
    rw [(l.hasOperator_iff _).mp ho, l.operand_rank]
    exact Nat.lt_succ_self _

theorem chain_consumes {l : Level} {pieces : List (List Token)} (h : Operations l pieces)
    {clock : List Token} (hc : pieces.flatten.length < clock.length)
    (hr : StopsAt (.level l) rest) (left : Expr) :
    Consumes (fun d => chain l (rule d l.operand) clock left) pieces.flatten rest := by
  induction pieces generalizing clock left with
  | nil => exact .of_reads (chain_done (List.ne_nil_of_length_pos (by omega)) hr)
  | cons us pieces ih =>
    obtain ⟨⟨operator, vs, rfl, ho, hv⟩, hps⟩ := List.forall_mem_cons.mp h
    obtain ⟨c, clock, rfl⟩ := List.exists_cons_of_length_pos (l := clock) (by omega)
    simp only [List.flatten_cons, List.length_append, List.length_cons] at hc
    refine .accept_some (l.ne_eof_of_hasOperator ho) ho ?_
    refine .bind (hv _ (Operations.stopsAt hps hr)) fun right => ?_
    exact ih hps (by omega) _

theorem takenBy_level {l : Level} {pieces : List (List Token)} (h : TakenBy l.operand ts)
    (hp : Operations l pieces) : TakenBy (.level l) (ts ++ pieces.flatten) := by
  intro rest hr
  obtain ⟨t, more, rfl, _⟩ := id hr
  have hc : pieces.flatten.length < (ts ++ pieces.flatten ++ t :: more).length := by
    simp only [List.length_append, List.length_cons]
    omega
  exact ((h _ (hp.stopsAt hr)).bind fun left => chain_consumes hp hc hr left).succ fun _ => rfl

theorem takenBy_unary {operator : Token} (ho : operator.kind = .bang ∨ operator.kind = .minus)
    (h : TakenBy .unary ts) : TakenBy .unary (operator :: ts) := by
  intro rest hr
  have hu : Consumes (fun d => rule (d + 1) .unary) (operator :: ts) rest := by
    refine .accept_some ?_ (by simpa using ho) ((h rest hr).last fun right => .pure _)
    rcases ho with ho | ho <;> rw [ho] <;> decide
  exact hu.succ fun _ => rfl

theorem takenBy_of_primary {t : Token} (h : TakenBy .primary (t :: ts)) (hb : t.kind ≠ .bang)
    (hm : t.kind ≠ .minus) : TakenBy .unary (t :: ts) := by
  intro rest hr
  refine (h rest (hr.mono (by decide))).succ fun d => ?_
  exact bind_of_silent (accept_none (.inr (by simp [hb, hm]))) _

theorem takenBy_token {t : Token} {e : Expr} (h : Rule.primary.Spells [t] e) :
    TakenBy .primary [t] :=
  fun _ hr => .of_reads (rule_reads h hr)

theorem takenBy_grouping {opening closing : Token} (ho : opening.kind = .leftParen)
    (hc : closing.kind = .rightParen) (h : Assignable ts) :
    TakenBy .primary (opening :: (ts ++ [closing])) := by
  intro rest hr
  have hb : Consumes (fun d => (do
      let e ← rule d .assignment
      let _ ← expect .rightParen .expectParenAfterExpression
      return .grouping e : Parser Expr)) (ts ++ [closing]) rest := by
    refine .bind (h.taken _ (stopsAt_of_kind hc (by decide))) fun e => ?_
    exact .token hc (by decide) (.pure _)
  have hp : Consumes (fun d => primary (rule d .assignment)) (opening :: (ts ++ [closing])) rest :=
    hb.congr fun _ => by rw [List.cons_append, primary_cons, ho]
  exact hp.succ fun _ => rfl

def Headed (ts : List Token) : Prop := ∃ t us, ts = t :: us ∧ t.kind.startsExpression

theorem Headed.append (h : Headed us) (vs : List Token) : Headed (us ++ vs) := by
  obtain ⟨t, us, rfl, ht⟩ := h
  exact ⟨t, us ++ vs, rfl, ht⟩

def OptionalValue (ts : List Token) : Prop := ts = [] ∨ Assignable ts ∧ Headed ts

namespace Consumes

variable {p : Nat → Parser α} {t : Token} {k : Kind}

theorem expression {f : Nat → Expr → Parser β} (h : Assignable us) (ht : t.kind.rank = 0)
    (hf : ∀ e, Consumes (fun d => f d e) (t :: vs) rest) :
    Consumes (fun d => Parser.expression d >>= f d) (us ++ t :: vs) rest :=
  .bind (h.taken _ (.of_rank_zero ht)) hf

theorem condition {f : Nat → Expr → Parser β} {opening closing : Token} {cs : List Token}
    {e e' : SyntaxError} (ho : opening.kind = .leftParen) (hc : Assignable cs)
    (hx : closing.kind = .rightParen) (hf : ∀ c, Consumes (fun d => f d c) ts rest) :
    Consumes (fun d => do
      let _ ← expect .leftParen e
      let c ← Parser.expression d
      let _ ← expect .rightParen e'
      f d c) (opening :: (cs ++ closing :: ts)) rest :=
  .token ho (by decide) (.expression hc (by rw [hx]; rfl) fun c =>
    .token hx (by decide) (hf c))

theorem optional_some {f : Nat → Option α → Parser β} (h : t.kind = k) (hk : k ≠ .eof)
    (hf : Consumes (fun d => p d >>= fun a => f d (some a)) ts rest) :
    Consumes (fun d => do
      let x ← if ← accepts k then some <$> p d else Pure.pure none
      f d x) (t :: ts) rest :=
  hf.congr fun _ => optional_true h hk

theorem optional_none {f : Nat → Option α → Parser β}
    (hn : ∃ t us, ts ++ rest = t :: us ∧ t.kind ≠ k)
    (hf : Consumes (fun d => f d none) ts rest) : Consumes (fun d => do
      let x ← if ← accepts k then some <$> p d else Pure.pure none
      f d x) ts rest := by
  obtain ⟨t, us, ht, hk⟩ := hn
  refine hf.congr fun _ => ?_
  rw [ht]
  exact optional_false hk

theorem omittable {f : Nat → Option Expr → Parser β} {e : SyntaxError} (h : OptionalValue us)
    (ht : t.kind = k) (hk : k ≠ .eof) (hr : k.rank = 0) (hs : k.startsExpression = false)
    (hf : ∀ x, Consumes (fun d => f d x) vs rest) :
    Consumes (fun d => do
      let x ← if ← check k then Pure.pure none else some <$> Parser.expression d
      let _ ← expect k e
      f d x) (us ++ t :: vs) rest := by
  rcases h with rfl | ⟨h, u, us, rfl, hu⟩
  · exact ((hf none).token (f := fun d _ => f d none) ht hk).congr fun _ => unless_true ht hk
  · refine (Consumes.expression (f := fun d e => do
      let _ ← expect k _
      f d (some e)) h (ht ▸ hr) fun x => (hf (some x)).token ht hk).congr fun _ => unless_false ?_
    rintro rfl
    exact absurd hu (by simp [hs])

end Consumes

/-- A variable's declaration, also if it is the first clause of a `for`. -/
def Declares (ts : List Token) : Prop := ∃ keyword us, ts = keyword :: us ∧
  keyword.kind = .kwVar ∧ ∀ rest, Consumes variableDeclaration us rest

theorem declares_plain {keyword name semicolon : Token} (hk : keyword.kind = .kwVar)
    (hn : name.kind = .identifier) (hs : semicolon.kind = .semicolon) :
    Declares [keyword, name, semicolon] := by
  refine ⟨keyword, _, rfl, hk, fun rest => .token hn (by decide) ?_⟩
  refine .optional_none ⟨semicolon, rest, rfl, by rw [hs]; decide⟩ ?_
  exact .token hs (by decide) (.pure _)

theorem declares_initial {keyword name equals semicolon : Token} (hk : keyword.kind = .kwVar)
    (hn : name.kind = .identifier) (hq : equals.kind = .equal) (h : Assignable ts)
    (hs : semicolon.kind = .semicolon) :
    Declares (keyword :: name :: equals :: (ts ++ [semicolon])) := by
  refine ⟨keyword, _, rfl, hk, fun rest => .token hn (by decide) ?_⟩
  refine .optional_some hq (by decide) (.expression h (by rw [hs]; rfl) fun e => ?_)
  exact .token hs (by decide) (.pure _)

def Evaluates (ts : List Token) : Prop :=
  Headed ts ∧ ∀ rest, Consumes expressionStatement ts rest

theorem evaluates {semicolon : Token} (h : Assignable ts) (hh : Headed ts)
    (hs : semicolon.kind = .semicolon) : Evaluates (ts ++ [semicolon]) :=
  ⟨hh.append _, fun _ => .expression h (by rw [hs]; rfl) fun _ => .token hs (by decide) (.pure _)⟩

theorem firstClause_consumes
    (h : (∃ t, t.kind = .semicolon ∧ ts = [t]) ∨ Declares ts ∨ Evaluates ts) :
    Consumes firstClause ts rest := by
  rcases h with ⟨t, ht, rfl⟩ | ⟨t, us, rfl, ht, h⟩ | ⟨⟨t, us, rfl, ht⟩, h⟩
  · exact (Consumes.pure none).congr fun _ => ifAccepts_true ht (by decide)
  · refine (h rest).map.congr (q := fun d => some <$> variableDeclaration d) fun _ => ?_
    exact (ifAccepts_false (by simp [ht])).trans (ifAccepts_true ht (by decide))
  · refine (h rest).map.congr (q := fun d => some <$> expressionStatement d) fun _ => ?_
    have hs : t.kind ≠ .semicolon := fun hk => by rw [hk] at ht; cases ht
    have hv : t.kind ≠ .kwVar := fun hk => by rw [hk] at ht; cases ht
    exact (ifAccepts_false hs).trans (ifAccepts_false hv)

/-- The first token starts a declaration, but not that of a variable. -/
def Leads (ts : List Token) : Prop :=
  ∃ t us, ts = t :: us ∧ t.kind.startsDeclaration ∧ t.kind ≠ .kwVar

/-- What stands before the body of a loop: with it the body is a statement again. -/
def LoopHeader (hs : List Token) : Prop :=
  Leads hs ∧ ∀ ts rest, Consumes statement ts rest → Consumes statement (hs ++ ts) rest

/-- What stands before the first branch: with it one branch is a statement, unless an `else`
follows, and two branches are. -/
def BranchHeader (hs : List Token) : Prop :=
  Leads hs ∧
    (∀ ts rest, Follows true rest → Consumes statement ts rest →
      Consumes statement (hs ++ ts) rest) ∧
    ∀ ts us rest keyword, keyword.kind = .kwElse →
      Consumes statement ts (keyword :: (us ++ rest)) → Consumes statement us rest →
      Consumes statement (hs ++ (ts ++ keyword :: us)) rest

/-- The tokens have the shape of a statement; the last part tells whether an `else` right after
them would belong to it. -/
inductive Shape : List Token → Bool → Prop
  | simple {ts : List Token} : Leads ts → (∀ rest, Consumes statement ts rest) → Shape ts false
  | loop {hs ts : List Token} {dangling : Bool} : LoopHeader hs → Shape ts dangling →
      Shape (hs ++ ts) dangling
  | branch {hs ts : List Token} {dangling : Bool} : BranchHeader hs → Shape ts dangling →
      Shape (hs ++ ts) true
  | branchElse {hs ts us : List Token} {keyword : Token} {dangling : Bool} : BranchHeader hs →
      Shape ts false → keyword.kind = .kwElse → Shape us dangling →
      Shape (hs ++ (ts ++ keyword :: us)) dangling

theorem Leads.append (h : Leads us) (vs : List Token) : Leads (us ++ vs) := by
  obtain ⟨t, us, rfl, ht⟩ := h
  exact ⟨t, us ++ vs, rfl, ht⟩

namespace Shape

variable {dangling dangling' : Bool} {keyword : Token}

theorem leads (h : Shape ts dangling) : Leads ts := by
  cases h with
  | simple h _ => exact h
  | loop h _ | branch h _ | branchElse h _ _ _ => exact h.1.append _

theorem consumes (h : Shape ts dangling) (hr : Follows dangling rest) :
    Consumes statement ts rest := by
  induction h generalizing rest with
  | simple _ h => exact h rest
  | loop h _ ih => exact h.2 _ _ (ih hr)
  | branch h _ ih =>
    obtain ⟨t, us, rfl, ht⟩ := hr
    exact h.2.1 _ _ ⟨t, us, rfl, ht⟩ (ih ⟨t, us, rfl, fun _ => ht rfl⟩)
  | branchElse h _ hk _ ih ih' =>
    exact h.2.2 _ _ _ _ hk (ih ⟨_, _, rfl, by simp⟩) (ih' hr)

theorem attach (h : Shape ts dangling) (hd : dangling = true) (hk : keyword.kind = .kwElse)
    (hu : Shape us dangling') : ∃ dangling, Shape (ts ++ keyword :: us) dangling := by
  induction h with
  | simple _ _ => cases hd
  | loop h _ ih =>
    obtain ⟨_, hs⟩ := ih hd
    exact ⟨_, by simpa using Shape.loop h hs⟩
  | @branch _ _ dangling h ht ih =>
    cases dangling with
    | false => exact ⟨_, by simpa using Shape.branchElse h ht hk hu⟩
    | true =>
      obtain ⟨_, hs⟩ := ih rfl
      exact ⟨_, by simpa using Shape.branch h hs⟩
  | branchElse h ht hk' _ _ ih' =>
    obtain ⟨_, hs⟩ := ih' hd
    exact ⟨_, by simpa using Shape.branchElse h ht hk' hs⟩

theorem branchElse_of_any {hs : List Token} (h : BranchHeader hs) (ht : Shape ts dangling)
    (hk : keyword.kind = .kwElse) (hu : Shape us dangling') :
    ∃ dangling, Shape (hs ++ (ts ++ keyword :: us)) dangling := by
  cases dangling with
  | false => exact ⟨_, .branchElse h ht hk hu⟩
  | true =>
    obtain ⟨_, hs⟩ := ht.attach rfl hk hu
    exact ⟨_, .branch h hs⟩

end Shape

theorem statement_of_keyword {t : Token} {q : Nat → Parser Stmt} (h : Consumes q ts rest)
    (ht : ∀ d, statement (d + 1) (t :: (ts ++ rest)) = q d (ts ++ rest)) :
    Consumes statement (t :: ts) rest := by
  have hs : Consumes (fun d => statement (d + 1)) (t :: ts) rest := h.congr ht
  exact hs.succ fun _ => rfl

theorem leads_of_kind {t : Token} {k : Kind} (ht : t.kind = k) (hk : k.startsDeclaration)
    (hv : k ≠ .kwVar) : Leads (t :: ts) :=
  ⟨t, ts, rfl, ht ▸ hk, ht ▸ hv⟩

theorem Evaluates.shape (h : Evaluates ts) : Shape ts false := by
  obtain ⟨⟨t, us, rfl, ht⟩, h⟩ := h
  refine .simple ⟨t, us, rfl, by simp [Kind.startsDeclaration, ht], ?_⟩ fun rest => ?_
  · intro hk
    rw [hk] at ht
    cases ht
  · exact (h rest).succ fun d => statement_of_expression d ht

theorem shape_print {keyword semicolon : Token} (hk : keyword.kind = .kwPrint) (h : Assignable ts)
    (hs : semicolon.kind = .semicolon) : Shape (keyword :: (ts ++ [semicolon])) false := by
  refine .simple (leads_of_kind hk rfl (by decide)) fun rest => ?_
  have hp : Consumes printStatement (ts ++ [semicolon]) rest :=
    .expression h (by rw [hs]; rfl) fun _ => .token hs (by decide) (.pure _)
  exact statement_of_keyword hp fun _ => by rw [statement_cons, hk]

theorem loopHeader_while {keyword opening closing : Token} {cs : List Token}
    (hk : keyword.kind = .kwWhile) (ho : opening.kind = .leftParen) (hc : Assignable cs)
    (hx : closing.kind = .rightParen) : LoopHeader (keyword :: opening :: (cs ++ [closing])) := by
  refine ⟨leads_of_kind hk rfl (by decide), fun ts rest hb => ?_⟩
  have hw : Consumes (fun d => whileStatement d (statement d)) (opening :: (cs ++ closing :: ts))
      rest := .condition ho hc hx fun c => hb.last fun _ => .pure _
  have hs := statement_of_keyword (t := keyword) hw fun _ => by rw [statement_cons, hk]
  simpa using hs

theorem loopHeader_for {keyword opening semicolon closing : Token} {fs cs ss : List Token}
    (hk : keyword.kind = .kwFor) (ho : opening.kind = .leftParen)
    (hf : (∃ t, t.kind = .semicolon ∧ fs = [t]) ∨ Declares fs ∨ Evaluates fs)
    (hc : OptionalValue cs) (hsemi : semicolon.kind = .semicolon) (hs : OptionalValue ss)
    (hx : closing.kind = .rightParen) :
    LoopHeader (keyword :: opening :: (fs ++ (cs ++ semicolon :: (ss ++ [closing])))) := by
  refine ⟨leads_of_kind hk rfl (by decide), fun ts rest hb => ?_⟩
  have hw : Consumes (fun d => forStatement d (statement d))
      (opening :: (fs ++ (cs ++ semicolon :: (ss ++ closing :: ts)))) rest := by
    refine .token ho (by decide) (.bind (firstClause_consumes hf) fun first => ?_)
    refine .omittable hc hsemi (by decide) rfl rfl fun c => ?_
    exact .omittable hs hx (by decide) rfl rfl fun step => hb.last fun _ => .pure _
  have hs := statement_of_keyword (t := keyword) hw fun _ => by rw [statement_cons, hk]
  simpa using hs

theorem branchHeader {keyword opening closing : Token} {cs : List Token}
    (hk : keyword.kind = .kwIf) (ho : opening.kind = .leftParen) (hc : Assignable cs)
    (hx : closing.kind = .rightParen) :
    BranchHeader (keyword :: opening :: (cs ++ [closing])) := by
  refine ⟨leads_of_kind hk rfl (by decide), fun ts rest hr ht => ?_,
    fun ts us rest keyword' hk' ht hf => ?_⟩
  · obtain ⟨t, more, rfl, hne⟩ := hr
    have hw : Consumes (fun d => ifStatement d (statement d)) (opening :: (cs ++ closing :: ts))
        (t :: more) :=
      .condition ho hc hx fun c => ht.last fun _ => .optional_none ⟨t, more, rfl, hne rfl⟩ (.pure _)
    have hs := statement_of_keyword (t := keyword) hw fun _ => by rw [statement_cons, hk]
    simpa using hs
  · have hw : Consumes (fun d => ifStatement d (statement d))
        (opening :: (cs ++ closing :: (ts ++ keyword' :: us))) rest :=
      .condition ho hc hx fun c => .bind ht fun _ =>
        .optional_some hk' (by decide) (hf.last fun _ => .pure _)
    have hs := statement_of_keyword (t := keyword) hw fun _ => by rw [statement_cons, hk]
    simpa using hs

/-- The tokens are a declaration or a statement, and what follows them is no `else`. -/
def Declared (ts : List Token) : Prop :=
  (∃ t us, ts = t :: us ∧ t.kind.startsDeclaration) ∧
    ∀ rest, Follows true rest → Consumes declaration ts rest

theorem Consumes.recover {p : Nat → Parser Stmt} (h : Consumes p ts rest) :
    Consumes (fun d => recover (p d)) ts rest := by
  obtain ⟨n, a, fs, hfs, hn⟩ := h
  exact ⟨n, a, fs, hfs, fun d hd => recover_of_ne_raised (hn d hd) nofun⟩

theorem Declares.declared (h : Declares ts) : Declared ts := by
  obtain ⟨t, us, rfl, ht, h⟩ := h
  refine ⟨⟨t, us, rfl, by rw [ht]; rfl⟩, fun rest _ => ?_⟩
  have hp : Consumes (fun d => do
      if ← accepts .kwVar then variableDeclaration d else statement d) (t :: us) rest :=
    (h rest).congr fun _ => ifAccepts_true ht (by decide)
  exact hp.recover.succ fun _ => rfl

theorem Shape.declared {dangling : Bool} (h : Shape ts dangling) : Declared ts := by
  obtain ⟨t, us, rfl, ht, hv⟩ := h.leads
  refine ⟨⟨t, us, rfl, ht⟩, fun rest hr => ?_⟩
  obtain ⟨u, more, rfl, hne⟩ := hr
  have hs : Consumes statement (t :: us) (u :: more) :=
    h.consumes ⟨u, more, rfl, fun _ => hne rfl⟩
  have hp : Consumes (fun d => do
      if ← accepts .kwVar then variableDeclaration d else statement d) (t :: us) (u :: more) :=
    hs.congr fun _ => ifAccepts_false hv
  exact hp.recover.succ fun _ => rfl

theorem follows_pieces {pieces : List (List Token)} (h : ∀ us ∈ pieces, Declared us) {t : Token}
    {more : List Token} (ht : t.kind = .rightBrace ∨ t.kind = .eof) :
    Follows true (pieces.flatten ++ t :: more) := by
  cases pieces with
  | nil => exact ⟨t, more, rfl, fun _ => by rcases ht with ht | ht <;> simp [ht]⟩
  | cons us pieces =>
    obtain ⟨⟨u, us, rfl, hu⟩, _⟩ := h us (by simp)
    refine ⟨u, _, rfl, fun _ hk => ?_⟩
    rw [hk] at hu
    cases hu

theorem blockOf_consumes {pieces : List (List Token)} (h : ∀ us ∈ pieces, Declared us)
    {closing : Token} (hk : closing.kind = .rightBrace) {clock : List Token}
    (hc : pieces.flatten.length < clock.length) :
    Consumes (fun d => blockOf (declaration d) clock) (pieces.flatten ++ [closing]) rest := by
  induction pieces generalizing clock with
  | nil => exact .of_reads (blockOf_done (List.ne_nil_of_length_pos (by omega)) hk)
  | cons us pieces ih =>
    obtain ⟨⟨⟨t, us, rfl, ht⟩, hd⟩, hps⟩ := List.forall_mem_cons.mp h
    obtain ⟨c, clock, rfl⟩ := List.exists_cons_of_length_pos (l := clock) (by omega)
    simp only [List.flatten_cons, List.length_append, List.length_cons] at hc
    have hf : Follows true (pieces.flatten ++ [closing] ++ rest) := by
      rw [List.append_assoc]
      exact follows_pieces hps (.inl hk)
    have hb : t.kind ≠ .rightBrace := fun hk => by rw [hk] at ht; cases ht
    have he : t.kind ≠ .eof := fun hk => by rw [hk] at ht; cases ht
    rw [List.flatten_cons, List.append_assoc]
    refine ((hd _ hf).bind (f := fun d s => (s :: ·) <$> blockOf (declaration d) clock)
      fun s => (ih hps (by omega)).map).congr fun _ => ?_
    exact blockOf_cons.trans ((if_neg hb).trans (if_neg he))

theorem shape_block {pieces : List (List Token)} (h : ∀ us ∈ pieces, Declared us)
    {opening closing : Token} (ho : opening.kind = .leftBrace) (hk : closing.kind = .rightBrace) :
    Shape (opening :: (pieces.flatten ++ [closing])) false := by
  refine .simple (leads_of_kind ho rfl (by decide)) fun rest => ?_
  have hc : pieces.flatten.length < (pieces.flatten ++ [closing] ++ rest).length := by simp
  exact statement_of_keyword (blockOf_consumes h hk hc).map fun _ => by rw [statement_cons, ho]

theorem programOf_consumes {pieces : List (List Token)} (h : ∀ us ∈ pieces, Declared us)
    {e : Token} (he : e.kind = .eof) {clock : List Token}
    (hc : pieces.flatten.length < clock.length) :
    Consumes (fun d => programOf d clock) pieces.flatten [e] := by
  induction pieces generalizing clock with
  | nil => exact ⟨0, [], [], mild_nil, fun _ _ => programOf_end (by omega) he⟩
  | cons us pieces ih =>
    obtain ⟨⟨⟨t, us, rfl, ht⟩, hd⟩, hps⟩ := List.forall_mem_cons.mp h
    obtain ⟨c, clock, rfl⟩ := List.exists_cons_of_length_pos (l := clock) (by omega)
    simp only [List.flatten_cons, List.length_append, List.length_cons] at hc
    have hk : t.kind ≠ .eof := fun hk => by rw [hk] at ht; cases ht
    have htop : Consumes topLevel (t :: us) (pieces.flatten ++ [e]) := by
      obtain ⟨n, s, fs, hfs, hn⟩ := hd _ (follows_pieces hps (.inr he))
      exact ⟨n, s, fs, hfs, fun d hd => topLevel_of_ok (hn d hd)⟩
    rw [List.flatten_cons]
    refine (htop.bind (f := fun d s => (s :: ·) <$> programOf d clock)
      fun s => (ih hps (by omega)).map).congr fun _ => ?_
    exact programOf_cons.trans (if_neg hk)

end Parser

open Lox.Parser

/-- The tokens are taken for what the symbol stands for. -/
def Grammar.Symbol.Taken : Symbol → List Token → Prop
  | .program, ts => ∃ pieces : List (List Token), ts = pieces.flatten ∧ ∀ us ∈ pieces, Declared us
  | .declaration, ts => Declared ts
  | .variable, ts => Declares ts
  | .expressionStatement, ts => Evaluates ts
  | .statement, ts | .forLoop, ts | .branch, ts | .print, ts | .loop, ts | .block, ts =>
    ∃ dangling, Shape ts dangling
  | .expression, ts | .assignment, ts | .ternary, ts => Assignable ts ∧ Headed ts
  | .or, ts => TakenBy (.level .or) ts ∧ Headed ts
  | .and, ts => TakenBy (.level .and) ts ∧ Headed ts
  | .equality, ts => TakenBy (.level .equality) ts ∧ Headed ts
  | .comparison, ts => TakenBy (.level .comparison) ts ∧ Headed ts
  | .term, ts => TakenBy (.level .term) ts ∧ Headed ts
  | .factor, ts => TakenBy (.level .factor) ts ∧ Headed ts
  | .unary, ts => TakenBy .unary ts ∧ Headed ts
  | .primary, ts => TakenBy .primary ts ∧
      ∃ t us, ts = t :: us ∧ t.kind.startsExpression ∧ t.kind ≠ .bang ∧ t.kind ≠ .minus

section

variable {ts : List Token}

theorem taken_operand (l : Level) :
    l.operand.symbol.Taken ts ↔ TakenBy l.operand ts ∧ Headed ts := by
  cases l <;> exact Iff.rfl

theorem taken_level (l : Level) (h : (rules l.symbol).Language Symbol.Taken ts) :
    TakenBy (.level l) ts ∧ Headed ts := by
  rw [rules_level] at h
  obtain ⟨us, _, rfl, hu, pieces, rfl, hp⟩ := h
  obtain ⟨hu, hh⟩ := (taken_operand l).mp hu
  refine ⟨takenBy_level hu fun vs hv => ?_, hh.append _⟩
  obtain ⟨_, ws, rfl, hop, hw⟩ := hp vs hv
  obtain ⟨operator, rfl, ho⟩ := language_operators hop
  exact ⟨operator, ws, rfl, ho, ((taken_operand l).mp hw).1⟩

theorem taken_primary (h : (rules .primary).Language Symbol.Taken ts) :
    Symbol.Taken .primary ts := by
  have token {t : Token} {e : Expr} {k : Kind} (hs : Rule.primary.Spells [t] e) (ht : t.kind = k)
      (hk : k.startsExpression ∧ k ≠ .bang ∧ k ≠ .minus) : Symbol.Taken .primary [t] :=
    ⟨takenBy_token hs, t, [], rfl, ht ▸ hk⟩
  rcases h with (((((⟨t, ht, rfl⟩ | ⟨t, ht, rfl⟩) | ⟨t, ht, rfl⟩) | ⟨t, ht, rfl⟩) | ⟨t, ht, rfl⟩) |
    ⟨t, ht, rfl⟩) | h
  · exact token (.literal (.inl ht)) ht (by decide)
  · exact token (.literal (.inr ht)) ht (by decide)
  · exact token (.yes ht) ht (by decide)
  · exact token (.no ht) ht (by decide)
  · exact token (.nil ht) ht (by decide)
  · exact token (.var ht) ht (by decide)
  · obtain ⟨opening, us, closing, rfl, ho, ⟨ha, _⟩, hc⟩ := language_parenthesised.mp h
    exact ⟨takenBy_grouping ho hc ha, opening, _, rfl, by rw [ho]; decide⟩

theorem taken_unary (h : (rules .unary).Language Symbol.Taken ts) :
    TakenBy .unary ts ∧ Headed ts := by
  rcases h with ⟨_, us, rfl, ⟨t, ht, rfl⟩ | ⟨t, ht, rfl⟩, hu, _⟩ | ⟨h, t, us, rfl, ht, hb, hm⟩
  · exact ⟨takenBy_unary (.inl ht) hu, t, us, rfl, by rw [ht]; rfl⟩
  · exact ⟨takenBy_unary (.inr ht) hu, t, us, rfl, by rw [ht]; rfl⟩
  · exact ⟨takenBy_of_primary h hb hm, t, us, rfl, ht⟩

theorem taken_ternary (h : (rules .ternary).Language Symbol.Taken ts) :
    Assignable ts ∧ Headed ts := by
  obtain ⟨cs, _, rfl, ⟨hc, hh⟩, rfl | ⟨_, rs, rfl, ⟨_, _, rfl, ⟨_, ls, rfl, ⟨question, hq, rfl⟩,
    hl, _⟩, colon, hk, rfl⟩, hr, _⟩⟩ := h
  · rw [List.append_nil]
    exact ⟨assignable_of_or hc, hh⟩
  · exact ⟨by simpa using assignable_of_choice hq hk hc hl hr, hh.append _⟩

theorem taken_assignment (h : (looseRules .assignment).Language Symbol.Taken ts) :
    Assignable ts ∧ Headed ts := by
  obtain ⟨us, _, rfl, ⟨hu, hh⟩, rfl | ⟨_, vs, rfl, ⟨equals, hk, rfl⟩, hv, _⟩⟩ := h
  · rw [List.append_nil]
    exact ⟨hu, hh⟩
  · exact ⟨hu.assign hk hv, hh.append _⟩

theorem taken_variable (h : (rules .variable).Language Symbol.Taken ts) : Declares ts := by
  obtain ⟨_, _, rfl, ⟨_, _, rfl, ⟨_, _, rfl, ⟨keyword, hk, rfl⟩, name, hn, rfl⟩,
    rfl | ⟨_, es, rfl, ⟨equals, hq, rfl⟩, he, _⟩⟩, semicolon, hs, rfl⟩ := h
  · exact declares_plain hk hn hs
  · exact declares_initial hk hn hq he hs

theorem taken_for (h : (rules .forLoop).Language Symbol.Taken ts) : Symbol.Taken .forLoop ts := by
  obtain ⟨_, us, rfl, ⟨_, _, rfl, ⟨keyword, hk, rfl⟩, hp⟩, dangling, hb⟩ := h
  obtain ⟨opening, _, closing, rfl, ho, ⟨_, ss, rfl, ⟨_, _, rfl, ⟨fs, cs, rfl, hf, hc⟩, semicolon,
    hs, rfl⟩, hstep⟩, hx⟩ := language_parenthesised.mp hp
  have hf : (∃ t, t.kind = .semicolon ∧ fs = [t]) ∨ Declares fs ∨ Evaluates fs := by
    rcases hf with (hf | hf) | hf
    · exact .inr (.inl hf)
    · exact .inr (.inr hf)
    · exact .inl hf
  have hl := Shape.loop (loopHeader_for hk ho hf hc hs hstep hx) hb
  exact ⟨dangling, by simpa using hl⟩

theorem taken_loop (h : (rules .loop).Language Symbol.Taken ts) : Symbol.Taken .loop ts := by
  obtain ⟨_, us, rfl, ⟨_, _, rfl, ⟨keyword, hk, rfl⟩, hp⟩, dangling, hb⟩ := h
  obtain ⟨opening, cs, closing, rfl, ho, ⟨hc, _⟩, hx⟩ := language_parenthesised.mp hp
  have hl := Shape.loop (loopHeader_while hk ho hc hx) hb
  exact ⟨dangling, by simpa using hl⟩

theorem taken_branch (h : (rules .branch).Language Symbol.Taken ts) : Symbol.Taken .branch ts := by
  obtain ⟨_, _, rfl, ⟨_, us, rfl, ⟨_, _, rfl, ⟨keyword, hk, rfl⟩, hp⟩, dangling, hs⟩, hx⟩ := h
  obtain ⟨opening, cs, closing, rfl, ho, ⟨hc, _⟩, hx'⟩ := language_parenthesised.mp hp
  have hb := branchHeader hk ho hc hx'
  rcases hx with rfl | ⟨_, _, rfl, ⟨keyword', hk', rfl⟩, dangling', hs'⟩
  · exact ⟨true, by simpa using Shape.branch hb hs⟩
  · obtain ⟨dangling, h⟩ := Shape.branchElse_of_any hb hs hk' hs'
    exact ⟨dangling, by simpa using h⟩

end

theorem taken_of_looseRules (s : Symbol) (ts : List Token)
    (h : (looseRules s).Language Symbol.Taken ts) : s.Taken ts := by
  cases s with
  | program => exact h
  | declaration =>
    rcases h with h | ⟨dangling, h⟩
    · exact Declares.declared h
    · exact h.declared
  | «variable» => exact taken_variable h
  | statement =>
    rcases h with ((((h | h) | h) | h) | h) | h
    · exact h
    · exact h
    · exact h
    · exact h
    · exact h
    · exact ⟨false, Evaluates.shape h⟩
  | forLoop => exact taken_for h
  | branch => exact taken_branch h
  | print =>
    obtain ⟨_, _, rfl, ⟨_, es, rfl, ⟨keyword, hk, rfl⟩, he, _⟩, semicolon, hs, rfl⟩ := h
    exact ⟨false, shape_print hk he hs⟩
  | loop => exact taken_loop h
  | block =>
    obtain ⟨_, _, rfl, ⟨_, _, rfl, ⟨opening, ho, rfl⟩, pieces, rfl, hp⟩, closing, hc, rfl⟩ := h
    exact ⟨false, shape_block hp ho hc⟩
  | expressionStatement =>
    obtain ⟨es, _, rfl, ⟨he, hh⟩, semicolon, hs, rfl⟩ := h
    exact evaluates he hh hs
  | expression => exact h
  | assignment => exact taken_assignment h
  | ternary => exact taken_ternary h
  | or => exact taken_level .or h
  | and => exact taken_level .and h
  | equality => exact taken_level .equality h
  | comparison => exact taken_level .comparison h
  | term => exact taken_level .term h
  | factor => exact taken_level .factor h
  | unary => exact taken_unary h
  | primary => exact taken_primary h

/-- What the looser grammar derives is read, given depth enough, with no error but that of a wrong
target. -/
theorem mild_of_derives {ts : List Token} (h : Derives looseRules (symbol .program) ts) {e : Token}
    (he : e.kind = .eof) : ∃ n, ∀ d, n ≤ d → Mild (Parser.program d (ts ++ [e])).faults := by
  obtain ⟨pieces, rfl, hp⟩ := h.least taken_of_looseRules
  have hc : pieces.flatten.length < (pieces.flatten ++ [e]).length := by simp
  obtain ⟨n, p, fs, hfs, hn⟩ := programOf_consumes hp he hc
  refine ⟨n, fun d hd => ?_⟩
  have hd : Parser.program d (pieces.flatten ++ [e]) = ⟨.ok p, [e], fs⟩ := hn d hd
  rw [hd]
  exact hfs

end Lox
