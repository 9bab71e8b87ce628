import Lox.Proofs.Grammar.Lookahead

/-! # Trees that are read

All trees that the parsers build are of a few kinds, with tokens of the right kinds in them, also
beside what could not be read. Failed slots and declarations of variables stand in lists of
declarations and nowhere else. Each failed slot has a fault of its own.
-/

namespace Lox

def Kind.isBinary : Kind → Bool
  | .bangEqual | .equalEqual | .greater | .greaterEqual | .less | .lessEqual => true
  | .minus | .plus | .slash | .star => true
  | _ => false

/-- An expression that is made of the tokens. -/
inductive Expr.From (ts : List Token) : Expr → Prop
  | constant {v : Value} : v ∈ [.bool true, .bool false, .nil] → From ts (.literal v)
  | literal {t : Token} : t ∈ ts → t.kind = .number ∨ t.kind = .string →
      From ts (.literal t.literal)
  | grouping {e : Expr} : From ts e → From ts (.grouping e)
  | unary {operator : Token} {e : Expr} : operator ∈ ts →
      operator.kind = .bang ∨ operator.kind = .minus → From ts e → From ts (.unary operator e)
  | binary {operator : Token} {l r : Expr} : operator ∈ ts → operator.kind.isBinary →
      From ts l → From ts r → From ts (.binary l operator r)
  | logical {operator : Token} {l r : Expr} : operator ∈ ts →
      operator.kind = .kwAnd ∨ operator.kind = .kwOr → From ts l → From ts r →
      From ts (.logical l operator r)
  | ternary {c l r : Expr} : From ts c → From ts l → From ts r → From ts (.ternary c l r)
  | var {name : Token} : name ∈ ts → name.kind = .identifier → From ts (.var name)
  | assign {name : Token} {e : Expr} : name ∈ ts → name.kind = .identifier → From ts e →
      From ts (.assign name e)

mutual

/-- A statement that is made of the tokens. It may be a branch or the body of a loop. -/
inductive Stmt.From (ts : List Token) : Stmt → Prop
  | expression {e : Expr} : e.From ts → Stmt.From ts (.expression e)
  | print {e : Expr} : e.From ts → Stmt.From ts (.print e)
  | block {body : List Stmt} : (∀ s ∈ body, Stmt.Slot ts s) → Stmt.From ts (.block body)
  | branch {c : Expr} {whenTrue : Stmt} {whenFalse : Option Stmt} : c.From ts →
      Stmt.From ts whenTrue → (∀ s ∈ whenFalse, Stmt.From ts s) →
      Stmt.From ts (.branch c whenTrue whenFalse)
  | loop {c : Expr} {body : Stmt} : c.From ts → Stmt.From ts body → Stmt.From ts (.loop c body)

/-- What may stand in a list of declarations. -/
inductive Stmt.Slot (ts : List Token) : Stmt → Prop
  | failed : Stmt.Slot ts .failed
  | declare {name : Token} {initializer : Option Expr} : name ∈ ts → name.kind = .identifier →
      (∀ e ∈ initializer, e.From ts) → Stmt.Slot ts (.declare name initializer)
  | statement {s : Stmt} : Stmt.From ts s → Stmt.Slot ts s

end

mutual

/-- How many failed statements are in a statement, at any depth. -/
def Stmt.failures : Stmt → Nat
  | .failed => 1
  | .block body => Program.failures body
  | .branch _ whenTrue none => whenTrue.failures
  | .branch _ whenTrue (some whenFalse) => whenTrue.failures + whenFalse.failures
  | .loop _ body => body.failures
  | .function _ _ body => Program.failures body
  | .classDef _ _ methods => Program.failures methods
  | _ => 0

def Program.failures : List Stmt → Nat
  | [] => 0
  | s :: ss => s.failures + Program.failures ss

end

variable {all : List Token}

theorem Level.from_join {l : Level} {operator : Token} {left right : Expr} (ho : operator ∈ all)
    (hk : l.hasOperator operator.kind) (hl : left.From all) (hr : right.From all) :
    (l.join left operator right).From all := by
  cases l with
  | or => exact .logical ho (.inr (beq_iff_eq.mp hk)) hl hr
  | and => exact .logical ho (.inl (beq_iff_eq.mp hk)) hl hr
  | equality | comparison | term | factor =>
    refine .binary ho ?_ hl hr
    simp only [hasOperator, Bool.or_eq_true, beq_iff_eq] at hk
    revert hk
    cases operator.kind <;> decide

/-- A step and a first clause add no failed statement to the body of a `for`. -/
theorem Stmt.from_forLoop {first : Option Stmt} {c step : Option Expr} {body : Stmt}
    (hfirst : ∀ s ∈ first, s.Slot all ∧ s.failures = 0) (hc : ∀ e ∈ c, e.From all)
    (hstep : ∀ e ∈ step, e.From all) (hbody : body.From all) :
    (Stmt.forLoop first c step body).From all ∧
      (Stmt.forLoop first c step body).failures = body.failures := by
  have hc : (c.getD (.literal (.bool true))).From all := by
    cases c with
    | none => exact .constant (by simp)
    | some c => exact hc c rfl
  obtain ⟨b, hb, hfailures, heq⟩ : ∃ b, b.From all ∧ b.failures = body.failures ∧
      Stmt.forLoop first c step body = Stmt.forLoop first c none b := by
    cases step with
    | none => exact ⟨body, hbody, rfl, rfl⟩
    | some e =>
      refine ⟨.block [body, .expression e], .block ?_, ?_, rfl⟩
      · exact List.forall_mem_cons.mpr
          ⟨.statement hbody, List.forall_mem_singleton.mpr (.statement (.expression (hstep e rfl)))⟩
      · simp [Stmt.failures, Program.failures]
  rw [heq, ← hfailures]
  cases first with
  | none => exact ⟨.loop hc hb, rfl⟩
  | some s =>
    obtain ⟨hs, hzero⟩ := hfirst s rfl
    refine ⟨.block ?_, ?_⟩
    · exact List.forall_mem_cons.mpr ⟨hs, List.forall_mem_singleton.mpr (.statement (.loop hc hb))⟩
    · simp [Stmt.forLoop, Stmt.failures, Program.failures, hzero]

namespace Parser

variable {α β : Type} {k n : Nat} {Q : α → Nat → Prop} {R : β → Nat → Prop}

/-- What `p` reads from tokens of `all` satisfies `Q`, which is told the number of faults as well,
`k` of them from before. -/
def Gives (all : List Token) (k : Nat) (Q : α → Nat → Prop) (p : Parser α) : Prop :=
  ∀ ts a rest faults, ts ⊆ all → p ts = ⟨.ok a, rest, faults⟩ →
    rest ⊆ all ∧ Q a (k + faults.length)

namespace Gives

theorem pure {a : α} (h : Q a k) : Gives all k Q (Pure.pure a) := by
  intro ts b rest faults hts hp
  cases hp
  exact ⟨hts, h⟩

theorem stop {s : Stop} : Gives all k Q (stop s) := by
  intro ts a rest faults hts h
  cases h

theorem raise {t : Token} {e : SyntaxError} : Gives all k Q (raise t e) := by
  intro ts a rest faults hts h
  cases h

theorem bind {p : Parser α} {f : α → Parser β} (hp : Gives all k Q p)
    (hf : ∀ a n, k ≤ n → Q a n → Gives all n R (f a)) : Gives all k R (p >>= f) := by
  intro ts b rest faults hts h
  rcases bind_cases h with ⟨s, hs, -⟩ | ⟨a, mid, fs, fs', hp', hf', rfl⟩
  · cases hs
  · obtain ⟨hmid, ha⟩ := hp _ _ _ _ hts hp'
    rw [List.length_append, ← Nat.add_assoc]
    exact hf a _ (Nat.le_add_right ..) ha _ _ _ _ hmid hf'

theorem mono {p : Parser α} {Q' : α → Nat → Prop} (hp : Gives all k Q p)
    (hq : ∀ a n, k ≤ n → Q a n → Q' a n) : Gives all k Q' p := by
  intro ts a rest faults hts h
  obtain ⟨hrest, ha⟩ := hp _ _ _ _ hts h
  exact ⟨hrest, hq a _ (Nat.le_add_right ..) ha⟩

theorem map {p : Parser α} {f : α → β} (hp : Gives all k Q p)
    (hf : ∀ a n, k ≤ n → Q a n → R (f a) n) : Gives all k R (f <$> p) := by
  rw [← bind_pure_eq_map]
  exact hp.bind fun a n hn ha => .pure (hf a n hn ha)

theorem map_some {p : Parser α} (hp : Gives all k Q p) :
    Gives all k (fun x n => ∀ a ∈ x, Q a n) (some <$> p) := by
  refine hp.map fun a n _ ha a' ha' => ?_
  obtain rfl := Option.some.inj ha'
  exact ha

theorem peek : Gives all k (fun t _ => t ∈ all) peek := by
  intro ts t rest faults hts h
  cases ts <;> cases h
  exact ⟨hts, hts List.mem_cons_self⟩

theorem check (kind : Kind) : Gives all k (fun _ _ => True) (check kind) :=
  peek.bind fun _ _ _ _ => .pure trivial

theorem accept (accepted : Kind → Bool) :
    Gives all k (fun x _ => ∀ t ∈ x, t ∈ all ∧ accepted t.kind) (accept accepted) := by
  intro ts x rest faults hts h
  cases ts with
  | nil => cases h
  | cons t us =>
    obtain ⟨ht, hus⟩ := List.cons_subset.mp hts
    rw [Parser.accept] at h
    split at h
    · next ha =>
      cases h
      refine ⟨hus, fun t' ht' => ?_⟩
      cases ht'
      exact ⟨ht, (Bool.and_eq_true_iff.mp ha).2⟩
    · cases h
      exact ⟨hts, by simp⟩

theorem accepts (kind : Kind) : Gives all k (fun _ _ => True) (accepts kind) :=
  (accept _).bind fun _ _ _ _ => .pure trivial

theorem expect (kind : Kind) (e : SyntaxError) :
    Gives all k (fun t _ => t ∈ all ∧ t.kind = kind) (expect kind e) := by
  refine (accept _).bind fun x n _ hx => ?_
  cases x with
  | none => exact peek.bind fun _ _ _ _ => .raise
  | some t =>
    obtain ⟨ht, hk⟩ := hx t rfl
    exact .pure ⟨ht, beq_iff_eq.mp hk⟩

theorem optional {kind : Kind} {p : Parser α} {f : Option α → Parser β}
    (hp : ∀ n, k ≤ n → Gives all n Q p)
    (hf : ∀ x n, k ≤ n → (∀ a ∈ x, Q a n) → Gives all n R (f x)) :
    Gives all k R (do
      let x ← if ← Parser.accepts kind then some <$> p else Pure.pure none
      f x : Parser β) := by
  refine (accepts kind).bind fun b n hn _ => ?_
  cases b with
  | false => exact hf none n hn (by simp)
  | true => exact (hp n hn).map_some.bind fun x m hm hx => hf x m (Nat.le_trans hn hm) hx

theorem omittable {kind : Kind} {p : Parser α} {f : Option α → Parser β}
    (hp : ∀ n, k ≤ n → Gives all n Q p)
    (hf : ∀ x n, k ≤ n → (∀ a ∈ x, Q a n) → Gives all n R (f x)) :
    Gives all k R (do
      let x ← if ← Parser.check kind then Pure.pure none else some <$> p
      f x : Parser β) := by
  refine (check kind).bind fun b n hn _ => ?_
  cases b with
  | true => exact hf none n hn (by simp)
  | false => exact (hp n hn).map_some.bind fun x m hm hx => hf x m (Nat.le_trans hn hm) hx

end Gives

theorem chain_gives {l : Level} {operand : Parser Expr}
    (ho : ∀ n, Gives all n (fun e _ => e.From all) operand) (clock : List Token) {left : Expr}
    (hl : left.From all) : Gives all k (fun e _ => e.From all) (chain l operand clock left) := by
  induction clock generalizing k left with
  | nil => exact .stop
  | cons c clock ih =>
    refine (Gives.accept _).bind fun x n _ hx => ?_
    cases x with
    | none => exact .pure hl
    | some operator =>
      obtain ⟨hmem, hk⟩ := hx operator rfl
      exact (ho n).bind fun right m _ hr => ih (Level.from_join hmem hk hl hr)

theorem assignTo_gives {left value : Expr} (equals : Token) (hl : left.From all)
    (hv : value.From all) : Gives all k (fun e _ => e.From all) (assignTo left equals value) := by
  have note : Gives all k (fun _ _ => True) (note equals .invalidTarget) := by
    intro ts _ rest faults hts h
    cases h
    exact ⟨hts, trivial⟩
  cases left with
  | var name =>
    cases hl with
    | var hmem hk => exact .pure (.assign hmem hk hv)
  | _ => exact note.bind fun _ _ _ _ => .pure hl

theorem primary_gives {p : Parser Expr} (hp : ∀ n, Gives all n (fun e _ => e.From all) p) :
    Gives all k (fun e _ => e.From all) (primary p) := by
  intro ts e rest faults hts h
  cases ts with
  | nil => cases h
  | cons t us =>
    obtain ⟨ht, hus⟩ := List.cons_subset.mp hts
    rw [primary_cons] at h
    cases hk : t.kind
    all_goals simp only [hk] at h
    case leftParen =>
      exact Gives.bind (R := fun e _ => e.From all) (hp k) (fun e n _ he =>
        (Gives.expect _ _).bind fun _ _ _ _ => .pure (.grouping he)) _ _ _ _ hus h
    case kwFalse | kwTrue | kwNil =>
      cases h
      exact ⟨hus, .constant (by simp)⟩
    case number | string =>
      cases h
      exact ⟨hus, .literal ht (by simp [hk])⟩
    case identifier =>
      cases h
      exact ⟨hus, .var ht hk⟩
    all_goals cases h

theorem rule_gives (d : Nat) (r : Rule) : Gives all k (fun e _ => e.From all) (rule d r) := by
  induction d generalizing k r with
  | zero => exact .stop
  | succ d ih =>
    cases r with
    | assignment =>
      refine (ih _).bind fun left n _ hl => (Gives.accept _).bind fun x m _ _ => ?_
      cases x with
      | none => exact .pure hl
      | some equals => exact (ih _).bind fun value _ _ hv => assignTo_gives equals hl hv
    | ternary =>
      refine (ih _).bind fun c n _ hc => (Gives.accept _).bind fun x m _ _ => ?_
      cases x with
      | none => exact .pure hc
      | some _ =>
        refine (ih _).bind fun left _ _ hl => (Gives.expect _ _).bind fun _ _ _ _ => ?_
        exact (ih _).bind fun right _ _ hr => .pure (.ternary hc hl hr)
    | level l =>
      intro ts e rest faults hts h
      exact (ih (k := k) _).bind (fun left _ _ hl => chain_gives (fun _ => ih _) ts hl) _ _ _ _
        hts h
    | unary =>
      refine (Gives.accept _).bind fun x n _ hx => ?_
      cases x with
      | none => exact ih _
      | some operator =>
        obtain ⟨hmem, hk⟩ := hx operator rfl
        simp only [Bool.or_eq_true, beq_iff_eq] at hk
        exact (ih _).bind fun right _ _ hr => .pure (.unary hmem hk hr)
    | primary => exact primary_gives fun _ => ih _

/-- A statement that is made of the tokens, and has no more failed slots in it than there are faults
after the first `k`. -/
def Proper (all : List Token) (k : Nat) (s : Stmt) (n : Nat) : Prop :=
  s.From all ∧ k + s.failures ≤ n

def Listed (all : List Token) (k : Nat) (s : Stmt) (n : Nat) : Prop :=
  s.Slot all ∧ k + s.failures ≤ n

def AllListed (all : List Token) (k : Nat) (ss : List Stmt) (n : Nat) : Prop :=
  (∀ s ∈ ss, s.Slot all) ∧ k + Program.failures ss ≤ n

theorem expression_gives (d : Nat) : Gives all k (fun e _ => e.From all) (expression d) :=
  rule_gives d _

theorem variableDeclaration_gives (d : Nat) :
    Gives all k (fun s _ => s.Slot all ∧ s.failures = 0) (variableDeclaration d) := by
  refine (Gives.expect _ _).bind fun name n _ hname => ?_
  refine .optional (fun _ _ => expression_gives d) fun initializer m _ he => ?_
  exact (Gives.expect _ _).bind fun _ _ _ _ => .pure ⟨.declare hname.1 hname.2 he, rfl⟩

theorem expressionStatement_gives (d : Nat) :
    Gives all k (fun s _ => s.From all ∧ s.failures = 0) (expressionStatement d) :=
  (expression_gives d).bind fun _ _ _ he => (Gives.expect _ _).bind fun _ _ _ _ =>
    .pure ⟨.expression he, rfl⟩

theorem printStatement_gives (d : Nat) :
    Gives all k (fun s _ => s.From all ∧ s.failures = 0) (printStatement d) :=
  (expression_gives d).bind fun _ _ _ he => (Gives.expect _ _).bind fun _ _ _ _ =>
    .pure ⟨.print he, rfl⟩

theorem firstClause_gives (d : Nat) :
    Gives all k (fun x _ => ∀ s ∈ x, s.Slot all ∧ s.failures = 0) (firstClause d) := by
  refine (Gives.accepts _).bind fun b n _ _ => ?_
  cases b with
  | true => exact .pure (by simp)
  | false =>
    refine (Gives.accepts _).bind fun b m _ _ => ?_
    cases b with
    | true => exact (variableDeclaration_gives d).map_some
    | false =>
      refine (Gives.mono (expressionStatement_gives d) fun s _ _ hs => ?_).map_some
      obtain ⟨hfrom, hfailures⟩ := hs
      exact ⟨.statement hfrom, hfailures⟩

section

variable {statement : Parser Stmt} (hs : ∀ n, Gives all n (Proper all n) statement)
include hs

theorem ifStatement_gives (d : Nat) : Gives all k (Proper all k) (ifStatement d statement) := by
  refine (Gives.expect _ _).bind fun _ i hi _ => (expression_gives d).bind fun c j hj hc => ?_
  refine (Gives.expect _ _).bind fun _ l hl _ => (hs l).bind fun whenTrue m hm htrue => ?_
  refine .optional (Q := Proper all m) (fun n hn => (hs n).mono fun s n' hn' hfalse => ?_)
    fun whenFalse n hn hfalse => .pure ?_
  · obtain ⟨hfrom, hfailures⟩ := hfalse
    exact ⟨hfrom, by omega⟩
  · obtain ⟨hfrom, hfailures⟩ := htrue
    refine ⟨.branch hc hfrom fun s h => (hfalse s h).1, ?_⟩
    cases whenFalse with
    | none =>
      simp only [Stmt.failures]
      omega
    | some s =>
      have hfailures' := (hfalse s rfl).2
      simp only [Stmt.failures]
      omega

theorem whileStatement_gives (d : Nat) :
    Gives all k (Proper all k) (whileStatement d statement) := by
  refine (Gives.expect _ _).bind fun _ i hi _ => (expression_gives d).bind fun c j hj hc => ?_
  refine (Gives.expect _ _).bind fun _ l hl _ => (hs l).bind fun body m hm hbody => .pure ?_
  obtain ⟨hfrom, hfailures⟩ := hbody
  refine ⟨.loop hc hfrom, ?_⟩
  simp only [Stmt.failures]
  omega

theorem forStatement_gives (d : Nat) : Gives all k (Proper all k) (forStatement d statement) := by
  refine (Gives.expect _ _).bind fun _ i₁ h₁ _ => ?_
  refine (firstClause_gives d).bind fun first i₂ h₂ hf => ?_
  refine .omittable (fun _ _ => expression_gives d) fun condition i₃ h₃ hc => ?_
  refine (Gives.expect _ _).bind fun _ i₄ h₄ _ => ?_
  refine .omittable (fun _ _ => expression_gives d) fun step i₅ h₅ hstep => ?_
  refine (Gives.expect _ _).bind fun _ i₆ h₆ _ => (hs i₆).bind fun body n hn hbody => .pure ?_
  obtain ⟨hfrom, hfailures⟩ := hbody
  obtain ⟨hloop, heq⟩ := Stmt.from_forLoop hf hc hstep hfrom
  refine ⟨hloop, ?_⟩
  rw [heq]
  omega

end

theorem synchronize_gives {mid rest : List Token} {s : Stmt} {fs faults : List Fault}
    (hmid : mid ⊆ all) (hfs : fs ≠ [])
    (h : (⟨(synchronize mid).result.map fun _ => .failed, (synchronize mid).rest,
      fs ++ (synchronize mid).faults⟩ : Reply Stmt) = ⟨.ok s, rest, faults⟩) :
    rest ⊆ all ∧ Listed all k s (k + faults.length) := by
  have hsteady : Steady 0 synchronize mid := synchronize_steady
  rw [Steady] at hsteady
  rcases hsync : synchronize mid with ⟨r, rest', fs'⟩
  rw [hsync] at hsteady h
  cases hsteady with
  | ok hpasses =>
    cases h
    refine ⟨List.Subset.trans hpasses.subset hmid, .failed, ?_⟩
    have hlength := List.length_pos_iff.mpr hfs
    simp only [Stmt.failures, List.length_append]
    omega
  | raised | tooDeep | pastEnd => cases h

theorem recover_gives {p : Parser Stmt} (hsteady : ∀ ts, Steady 1 p ts)
    (hp : Gives all k (Listed all k) p) : Gives all k (Listed all k) (recover p) := by
  intro ts s rest faults hts h
  have hts' := hsteady ts
  rcases hreply : p ts with ⟨r, mid, fs⟩
  rw [Steady, hreply] at hts'
  cases hts' with
  | ok =>
    simp only [recover, hreply] at h
    cases h
    exact hp _ _ _ _ hts hreply
  | raised hpasses =>
    simp only [recover, hreply] at h
    exact synchronize_gives (List.Subset.trans hpasses.subset hts) (by simp) h
  | tooDeep | pastEnd =>
    simp only [recover, hreply] at h
    cases h

theorem AllListed.nil (h : k ≤ n) : AllListed all k [] n := ⟨by simp, h⟩

theorem AllListed.cons {m : Nat} {s : Stmt} {ss : List Stmt} (hs : Listed all k s m)
    (hss : AllListed all m ss n) : AllListed all k (s :: ss) n := by
  obtain ⟨hslot, hfailures⟩ := hs
  obtain ⟨hslots, hfailures'⟩ := hss
  refine ⟨List.forall_mem_cons.mpr ⟨hslot, hslots⟩, ?_⟩
  rw [Program.failures]
  omega

theorem blockOf_gives {declaration : Parser Stmt}
    (hd : ∀ n, Gives all n (Listed all n) declaration) (clock : List Token) :
    Gives all k (AllListed all k) (blockOf declaration clock) := by
  induction clock generalizing k with
  | nil => exact .stop
  | cons c clock ih =>
    intro ts ss rest faults hts h
    cases ts with
    | nil => cases h
    | cons t us =>
      rw [blockOf_cons] at h
      split at h
      · cases h
        exact ⟨(List.cons_subset.mp hts).2, .nil (Nat.le_add_right ..)⟩
      · split at h
        · cases h
        · exact Gives.bind (R := AllListed all k) (hd k)
            (fun s n _ hs => ih.map fun ss m _ hss => .cons hs hss) _ _ _ _ hts h

theorem declaration_and_statement_give (d : Nat) :
    (∀ k, Gives all k (Listed all k) (declaration d)) ∧
      ∀ k, Gives all k (Proper all k) (statement d) := by
  induction d with
  | zero => exact ⟨fun _ => .stop, fun _ => .stop⟩
  | succ d ih =>
    obtain ⟨hd, hs⟩ := ih
    constructor
    · intro k
      refine recover_gives (fun ts => ?_) ?_
      · refine .accepts (n := 0) (by decide) (fun us _ => ?_) (statement_steady d) (by omega)
        exact (variableDeclaration_steady d).mono (by omega)
      · refine (Gives.accepts _).bind fun b n hn _ => ?_
        cases b with
        | true =>
          exact (variableDeclaration_gives d).mono fun s m hm h => ⟨h.1, by rw [h.2]; omega⟩
        | false =>
          refine (hs n).mono fun s m hm h => ?_
          obtain ⟨hfrom, hfailures⟩ := h
          exact ⟨.statement hfrom, by omega⟩
    · intro k ts s rest faults hts h
      cases ts with
      | nil => cases h
      | cons t us =>
        have hus := (List.cons_subset.mp hts).2
        have flat {p : Parser Stmt} (hp : Gives all k (fun s _ => s.From all ∧ s.failures = 0) p) :
            Gives all k (Proper all k) p :=
          hp.mono fun s n hn h => ⟨h.1, by rw [h.2]; omega⟩
        rw [statement_cons] at h
        cases hk : t.kind
        all_goals simp only [hk] at h
        case kwFor => exact forStatement_gives hs d _ _ _ _ hus h
        case kwIf => exact ifStatement_gives hs d _ _ _ _ hus h
        case kwPrint => exact flat (printStatement_gives d) _ _ _ _ hus h
        case kwWhile => exact whileStatement_gives hs d _ _ _ _ hus h
        case leftBrace =>
          exact Gives.map (R := Proper all k) (blockOf_gives hd us)
            (fun ss n _ hss => ⟨.block hss.1, hss.2⟩) _ _ _ _ hus h
        all_goals exact flat (expressionStatement_gives d) _ _ _ _ hts h

theorem declaration_gives (d : Nat) : Gives all k (Listed all k) (declaration d) :=
  (declaration_and_statement_give d).1 k

theorem topLevel_gives (d : Nat) {t : Token} {ts rest : List Token} {s : Stmt}
    {faults : List Fault} (ht : t.kind ≠ .eof) (hts : t :: ts ⊆ all)
    (h : topLevel d (t :: ts) = ⟨.ok s, rest, faults⟩) :
    rest ⊆ all ∧ Listed all k s (k + faults.length) := by
  have hsteady : Steady 1 (declaration d) (t :: ts) := declaration_steady d ht
  rcases hreply : declaration d (t :: ts) with ⟨r, mid, fs⟩
  rw [Steady, hreply] at hsteady
  cases hsteady with
  | ok =>
    rw [topLevel, hreply] at h
    cases h
    exact declaration_gives d _ _ _ _ hts hreply
  | tooDeep hpasses =>
    cases mid with
    | nil =>
      rw [topLevel, hreply] at h
      cases h
    | cons u more =>
      rw [topLevel_tooDeep hreply] at h
      exact synchronize_gives (List.Subset.trans hpasses.subset hts) (by simp) h
  | raised | pastEnd =>
    rw [topLevel, hreply] at h
    cases h

theorem programOf_gives (d : Nat) (clock : List Token) :
    Gives all k (AllListed all k) (programOf d clock) := by
  induction clock generalizing k with
  | nil => exact .stop
  | cons c clock ih =>
    intro ts p rest faults hts h
    cases ts with
    | nil => cases h
    | cons t us =>
      rw [programOf_cons] at h
      split at h
      · cases h
        exact ⟨hts, .nil (Nat.le_add_right ..)⟩
      · next ht =>
        rcases bind_cases h with ⟨s, hs, -⟩ | ⟨s, mid, fs, fs', hs, hrest, rfl⟩
        · cases hs
        · obtain ⟨hmid, hs⟩ := topLevel_gives (k := k) d ht hts hs
          rw [List.length_append, ← Nat.add_assoc]
          exact Gives.map (R := AllListed all k) ih (fun ss m _ hss => .cons hs hss) _ _ _ _
            hmid hrest

/-- From tokens with an end there is always a program. It is made of the tokens, and each failed
statement in it has a fault of its own, so there is none if reading finds no fault. -/
theorem program_from {ts : List Token} (h : Ended ts) (d : Nat) : ∃ p rest faults,
    program d ts = ⟨.ok p, rest, faults⟩ ∧ (∀ s ∈ p, s.Slot ts) ∧
      Program.failures p ≤ faults.length ∧ (faults = [] → Program.failures p = 0) := by
  obtain ⟨p, e, more, faults, hreply, -, -⟩ := program_ok d h
  have hgives : Gives ts 0 (AllListed ts 0) (programOf d ts) := programOf_gives d ts
  obtain ⟨-, hslots, hfailures⟩ := hgives _ _ _ _ (List.Subset.refl ts) hreply
  refine ⟨p, e :: more, faults, hreply, hslots, by omega, ?_⟩
  rintro rfl
  rw [List.length_nil] at hfailures
  omega

/-- A block with a failed slot, and a declaration after it. -/
theorem program_from_failed_slot :
    let token (k : Kind) : Token := ⟨k, "", .nil, 1⟩
    let ts := [token .leftBrace, token .plus, token .semicolon, token .rightBrace, token .kwVar,
      token .identifier, token .semicolon, .eof 1]
    let p := [.block [.failed], .declare (token .identifier) none]
    Ended ts ∧ program 20 ts = ⟨.ok p, [.eof 1], [⟨token .plus, .expectExpression⟩]⟩ ∧
      (∀ s ∈ p, s.Slot ts) ∧ Program.failures p = 1 := by
  intro token ts p
  have hended : Ended ts := ⟨.eof 1, by simp [ts], rfl⟩
  have hreply : program 20 ts = ⟨.ok p, [.eof 1], [⟨token .plus, .expectExpression⟩]⟩ := rfl
  obtain ⟨p', rest, faults, hread, hslots, -, -⟩ := program_from hended 20
  obtain rfl : p = p' := by
    rw [hreply] at hread
    exact Except.ok.inj (congrArg Reply.result hread)
  exact ⟨hended, hreply, hslots, rfl⟩

end Parser
end Lox
