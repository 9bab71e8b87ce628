import Lox.Proofs.Grammar.Completeness
import Lox.Proofs.Runs.Reading
import Lox.Proofs.Scopes.Simulation

/-! # No source goes wrong

Trees that are read from a source hold only what can be run, and values that they compute are nil,
booleans, doubles and strings. So a run ends with its last statement or with a problem of the
program, or it does not end.
-/

namespace Lox

/-- No whole number: these come from hand-made programs only. -/
def Value.isPlain : Value → Bool
  | number (.whole _) => false
  | _ => true

def Scope.Plain (s : Scope) : Prop := ∀ b ∈ s, b.2.isPlain

def Env.Plain (env : Env) : Prop := ∀ s ∈ env.scopes, s.Plain

section

variable {name : String} {v : Value}

theorem Scope.Plain.define {s : Scope} (h : s.Plain) (hv : v.isPlain) :
    (s.define name v).Plain := by
  induction s with
  | nil =>
    intro b hb
    obtain rfl := List.mem_singleton.mp hb
    exact hv
  | cons b s ih =>
    obtain ⟨hb, hs⟩ := List.forall_mem_cons.mp h
    rw [Scope.define]
    split
    · exact List.forall_mem_cons.mpr ⟨hv, hs⟩
    · exact List.forall_mem_cons.mpr ⟨hb, ih hs⟩

theorem Scope.Plain.get? {s : Scope} (h : s.Plain) (hv : s.get? name = some v) : v.isPlain := by
  obtain ⟨us, vs, rfl, _⟩ := List.lookup_eq_some_iff.mp hv
  exact h (name, v) (by simp)

namespace Env

variable {env : Env}

@[simp] theorem plain_global {s : Scope} : (global s).Plain ↔ s.Plain := by
  simp [Plain, scopes]

@[simp] theorem plain_inner {s : Scope} : (inner s env).Plain ↔ s.Plain ∧ env.Plain := by
  simp [Plain, scopes]

theorem Plain.globals (h : env.Plain) : env.globals.Plain := by
  induction env with
  | global s => exact plain_global.mp h
  | inner s env ih => exact ih (plain_inner.mp h).2

theorem Plain.push (h : env.Plain) : env.push.Plain :=
  plain_inner.mpr ⟨by simp [Scope.Plain], h⟩

theorem Plain.pop (h : env.Plain) : env.pop.Plain := by
  cases env with
  | global s => exact h
  | inner s env => exact (plain_inner.mp h).2

theorem Plain.define (h : env.Plain) (hv : v.isPlain) : (env.define name v).Plain := by
  cases env with
  | global s => exact plain_global.mpr ((plain_global.mp h).define hv)
  | inner s env =>
    obtain ⟨hs, he⟩ := plain_inner.mp h
    exact plain_inner.mpr ⟨hs.define hv, he⟩

theorem Plain.get? (h : env.Plain) (hv : env.get? name = some v) : v.isPlain := by
  induction env with
  | global s => exact (plain_global.mp h).get? hv
  | inner s env ih =>
    obtain ⟨hs, he⟩ := plain_inner.mp h
    rcases Option.or_eq_some_iff.mp hv with hv | ⟨_, hv⟩
    · exact hs.get? hv
    · exact ih he hv

theorem Plain.assign {env' : Env} (h : env.Plain) (hv : v.isPlain)
    (ha : env.assign? name v = some env') : env'.Plain := by
  induction env generalizing env' with
  | global s =>
    rw [assign?] at ha
    split at ha <;> cases ha
    exact plain_global.mpr ((plain_global.mp h).define hv)
  | inner s env ih =>
    obtain ⟨hs, he⟩ := plain_inner.mp h
    rw [assign?] at ha
    split at ha
    · cases ha
      exact plain_inner.mpr ⟨hs.define hv, he⟩
    · obtain ⟨rest, hr, rfl⟩ := Option.map_eq_some_iff.mp ha
      exact plain_inner.mpr ⟨hs, ih he hr⟩

end Env

end

/-- The expression holds only what is read from a source: literals are plain, and operators are of
the kinds that stand between two operands or before one. -/
inductive Expr.Regular : Expr → Prop
  | literal {v : Value} : v.isPlain → Regular (.literal v)
  | grouping {e : Expr} : Regular e → Regular (.grouping e)
  | unary {operator : Token} {e : Expr} : operator.kind = .bang ∨ operator.kind = .minus →
      Regular e → Regular (.unary operator e)
  | binary {operator : Token} {l r : Expr} : Level.equality.rank ≤ operator.kind.rank →
      Regular l → Regular r → Regular (.binary l operator r)
  | logical {operator : Token} {l r : Expr} : Regular l → Regular r →
      Regular (.logical l operator r)
  | ternary {c l r : Expr} : Regular c → Regular l → Regular r → Regular (.ternary c l r)
  | var {name : Token} : Regular (.var name)
  | assign {name : Token} {e : Expr} : Regular e → Regular (.assign name e)

inductive Stmt.Regular : Stmt → Prop
  | expression {e : Expr} : e.Regular → Regular (.expression e)
  | print {e : Expr} : e.Regular → Regular (.print e)
  | declare {name : Token} {initializer : Option Expr} :
      (∀ e ∈ initializer, e.Regular) → Regular (.declare name initializer)
  | block {body : List Stmt} : (∀ s ∈ body, Regular s) → Regular (.block body)
  | branch {c : Expr} {whenTrue : Stmt} {whenFalse : Option Stmt} : c.Regular →
      Regular whenTrue → (∀ s ∈ whenFalse, Regular s) → Regular (.branch c whenTrue whenFalse)
  | loop {c : Expr} {body : Stmt} : c.Regular → Regular body → Regular (.loop c body)

/-- All literals of the tokens are plain. -/
def PlainTokens (ts : List Token) : Prop := ∀ t ∈ ts, t.literal.isPlain

theorem PlainTokens.append_iff {ts us : List Token} :
    PlainTokens (ts ++ us) ↔ PlainTokens ts ∧ PlainTokens us :=
  List.forall_mem_append

theorem PlainTokens.cons_iff {t : Token} {ts : List Token} :
    PlainTokens (t :: ts) ↔ t.literal.isPlain ∧ PlainTokens ts :=
  List.forall_mem_cons

theorem Level.regular_join {l : Level} {left right : Expr} {operator : Token}
    (ho : l.hasOperator operator.kind) (hl : left.Regular) (hr : right.Regular) :
    (l.join left operator right).Regular := by
  have hk := (l.hasOperator_iff _).mp ho
  cases l with
  | or | and => exact .logical hl hr
  | _ => exact .binary (Nat.le_trans (by decide) (Nat.le_of_eq hk.symm)) hl hr

mutual

theorem Rule.Spells.regular {r : Rule} {ts : List Token} {e : Expr} (h : r.Spells ts e)
    (ht : PlainTokens ts) : e.Regular := by
  match h with
  | .assign _ _ h =>
    exact .assign (h.regular (PlainTokens.cons_iff.mp (PlainTokens.cons_iff.mp ht).2).2)
  | .ofTernary h | .ofOr h | .ofPrimary h => exact h.regular ht
  | .choice _ _ hc hl hr =>
    obtain ⟨hcs, ht⟩ := PlainTokens.append_iff.mp ht
    obtain ⟨hls, ht⟩ := PlainTokens.append_iff.mp (PlainTokens.cons_iff.mp ht).2
    exact .ternary (hc.regular hcs) (hl.regular hls) (hr.regular (PlainTokens.cons_iff.mp ht).2)
  | .chain hu hx =>
    obtain ⟨hus, hvs⟩ := PlainTokens.append_iff.mp ht
    exact hx.regular (hu.regular hus) hvs
  | .unary ho h => exact .unary ho (h.regular (PlainTokens.cons_iff.mp ht).2)
  | .no _ | .yes _ | .nil _ => exact .literal rfl
  | .literal _ => exact .literal (ht _ (by simp))
  | .var _ => exact .var
  | .grouping _ _ h =>
    exact .grouping (h.regular (PlainTokens.append_iff.mp (PlainTokens.cons_iff.mp ht).2).1)

theorem Level.Extends.regular {l : Level} {left e : Expr} {ts : List Token}
    (h : l.Extends left ts e) (hl : left.Regular) (ht : PlainTokens ts) : e.Regular := by
  match h with
  | .done => exact hl
  | .operator ho hu hx =>
    obtain ⟨hus, hvs⟩ := PlainTokens.append_iff.mp (PlainTokens.cons_iff.mp ht).2
    exact hx.regular (Level.regular_join ho hl (hu.regular hus)) hvs

end

theorem SpellsOptional.regular {ts : List Token} {e? : Option Expr} (h : SpellsOptional ts e?)
    (ht : PlainTokens ts) : ∀ e ∈ e?, e.Regular := by
  cases h with
  | absent => exact nofun
  | present h =>
    rintro _ ⟨⟩
    exact h.regular ht

theorem SpellsVariable.regular {ts : List Token} {s : Stmt} (h : SpellsVariable ts s)
    (ht : PlainTokens ts) : s.Regular := by
  cases h with
  | plain _ _ _ => exact .declare nofun
  | initial _ _ _ h _ =>
    refine .declare ?_
    rintro _ ⟨⟩
    simp only [PlainTokens.cons_iff, PlainTokens.append_iff] at ht
    exact h.regular ht.2.2.2.1

theorem SpellsExpressionStatement.regular {ts : List Token} {s : Stmt}
    (h : SpellsExpressionStatement ts s) (ht : PlainTokens ts) : s.Regular := by
  cases h with
  | mk h _ => exact .expression (h.regular (PlainTokens.append_iff.mp ht).1)

theorem SpellsFirst.regular {ts : List Token} {s? : Option Stmt} (h : SpellsFirst ts s?)
    (ht : PlainTokens ts) : ∀ s ∈ s?, s.Regular := by
  cases h with
  | absent _ => exact nofun
  | declare h =>
    rintro _ ⟨⟩
    exact h.regular ht
  | expression h =>
    rintro _ ⟨⟩
    exact h.regular ht

theorem Stmt.Regular.pair {s t : Stmt} (hs : s.Regular) (ht : t.Regular) :
    (Stmt.block [s, t]).Regular :=
  .block (by simp [hs, ht])

theorem Stmt.Regular.forLoop {first : Option Stmt} {c step : Option Expr} {body : Stmt}
    (hf : ∀ s ∈ first, s.Regular) (hc : ∀ e ∈ c, e.Regular) (hs : ∀ e ∈ step, e.Regular)
    (h : body.Regular) : (Stmt.forLoop first c step body).Regular := by
  have hcond : (c.getD (.literal (.bool true))).Regular := by
    cases c with
    | none => exact .literal rfl
    | some c => exact hc c rfl
  have hloop : ∀ b : Stmt, b.Regular → (Stmt.loop (c.getD (.literal (.bool true))) b).Regular :=
    fun b hb => .loop hcond hb
  cases step with
  | none =>
    cases first with
    | none => exact hloop _ h
    | some s => exact (hf s rfl).pair (hloop _ h)
  | some e =>
    have hbody := h.pair (.expression (hs e rfl))
    cases first with
    | none => exact hloop _ hbody
    | some s => exact (hf s rfl).pair (hloop _ hbody)

mutual

theorem SpellsStatement.regular {ts : List Token} {s : Stmt} {dangling : Bool}
    (h : SpellsStatement ts s dangling) (ht : PlainTokens ts) : s.Regular := by
  match h with
  | .expression h => exact h.regular ht
  | .print _ he _ =>
    simp only [PlainTokens.cons_iff, PlainTokens.append_iff] at ht
    exact .print (he.regular ht.2.1)
  | .block _ h _ =>
    simp only [PlainTokens.cons_iff, PlainTokens.append_iff] at ht
    exact .block (h.regular ht.2.1)
  | .loop _ _ hc _ hb =>
    simp only [PlainTokens.cons_iff, PlainTokens.append_iff] at ht
    exact .loop (hc.regular ht.2.2.1) (hb.regular ht.2.2.2.2)
  | .forLoop _ _ hf hc _ hs _ hb =>
    simp only [PlainTokens.cons_iff, PlainTokens.append_iff] at ht
    exact .forLoop (hf.regular ht.2.2.1) (hc.regular ht.2.2.2.1) (hs.regular ht.2.2.2.2.2.1)
      (hb.regular ht.2.2.2.2.2.2.2)
  | .branch _ _ hc _ hb =>
    simp only [PlainTokens.cons_iff, PlainTokens.append_iff] at ht
    exact .branch (hc.regular ht.2.2.1) (hb.regular ht.2.2.2.2) nofun
  | .branchElse _ _ hc _ hb _ hf =>
    simp only [PlainTokens.cons_iff, PlainTokens.append_iff] at ht
    refine .branch (hc.regular ht.2.2.1) (hb.regular ht.2.2.2.2.1) ?_
    rintro _ ⟨⟩
    exact hf.regular ht.2.2.2.2.2.2

theorem SpellsDeclaration.regular {ts : List Token} {s : Stmt} (h : SpellsDeclaration ts s)
    (ht : PlainTokens ts) : s.Regular := by
  match h with
  | .declare h => exact h.regular ht
  | .statement h => exact h.regular ht

theorem SpellsDeclarations.regular {ts : List Token} {p : List Stmt}
    (h : SpellsDeclarations ts p) (ht : PlainTokens ts) : ∀ s ∈ p, s.Regular := by
  match h with
  | .nil => exact nofun
  | .cons hs hp =>
    obtain ⟨hus, hvs⟩ := PlainTokens.append_iff.mp ht
    exact List.forall_mem_cons.mpr ⟨hs.regular hus, hp.regular hvs⟩

end

theorem Munch.isPlain_literal {text rest : List Char} {k : Kind} {v : Value}
    (h : Munch text rest (.token k v)) : v.isPlain := by
  cases h <;> rfl

/-- A scan finds plain tokens and faults, and no number that is none. -/
theorem Lexes.forall_findings {cs : List Char} {lexemes : List Lexeme} (h : Lexes cs lexemes)
    (line : Int) : ∀ found ∈ findings line lexemes,
      (∀ text, found ≠ .malformed text) ∧ ∀ t ∈ found.token?, t.literal.isPlain := by
  induction h generalizing line with
  | nil => simp [findings]
  | @cons text rest sense lexemes hm _ ih =>
    rw [findings]
    refine List.forall_mem_append.mpr ⟨?_, ih _⟩
    cases sense with
    | nothing => simp [Sense.scanned]
    | fault e => simp [Sense.scanned, Scanned.token?]
    | token k v => simpa [Sense.scanned, Scanned.token?] using hm.isPlain_literal

theorem plainTokens_scan (source : String) : PlainTokens (Lox.scan source).tokens := by
  obtain ⟨lexemes, h⟩ := exists_lexes source.toList
  rw [scan_of_lexes h]
  refine PlainTokens.append_iff.mpr ⟨?_, by simp [PlainTokens, Token.eof, Value.isPlain]⟩
  intro t ht
  obtain ⟨found, hf, ht⟩ := List.mem_filterMap.mp ht
  exact (h.forall_findings 1 found hf).2 t ht

/-- What is read from a source without a report can be run. -/
theorem Reading.regular_program {source : String} {nesting : Nat}
    (h : (Reading.ofSource source nesting).reports = []) :
    ∀ s ∈ (Reading.ofSource source nesting).program, s.Regular := by
  obtain ⟨ts, e, hts, _, hs⟩ := Reading.spells_program h
  have hp := plainTokens_scan source
  rw [hts] at hp
  exact hs.regular (PlainTokens.append_iff.mp hp).1

/-- The failures that a source can come to. -/
def Failure.arises : Failure → Bool
  | problem _ .unknownUnary | problem _ .unknownBinary => false
  | problem .. | tooDeep | outOfRounds => true
  | _ => false

/-- A result is as `P` tells, and a failure is one that can arise. -/
def Safe {α : Type} (P : α → Prop) : Except Failure α → Prop
  | .ok a => P a
  | .error f => f.arises

theorem Safe.bind {α β : Type} {P : α → Prop} {Q : β → Prop} {r : Except Failure α}
    {f : α → Except Failure β} (h : Safe P r) (hf : ∀ a, P a → Safe Q (f a)) :
    Safe Q (r >>= f) := by
  cases r with
  | error e => exact h
  | ok a => exact hf a h

theorem Value.display_of_isPlain {v : Value} (h : v.isPlain) : ∃ text, v.display = .ok text := by
  rcases v with _ | b | (x | n) | text
  · exact ⟨_, rfl⟩
  · exact ⟨_, rfl⟩
  · exact ⟨_, rfl⟩
  · cases h
  · exact ⟨_, rfl⟩

namespace Operator

variable {operator : Token} {l r v : Value}

theorem toNumber_safe (h : v.isPlain) :
    Safe (fun n => ∃ x, n = .double x) (v.toNumber operator) := by
  rcases v with _ | b | (x | n) | text
  · exact rfl
  · exact rfl
  · exact ⟨x, rfl⟩
  · cases h
  · exact rfl

theorem onNumbers_safe {f : Number → Number → Except Failure Value} (hl : l.isPlain)
    (hr : r.isPlain) (hf : ∀ x y, Safe (Value.isPlain ·) (f (.double x) (.double y))) :
    Safe (Value.isPlain ·) (onNumbers operator f l r) := by
  refine (toNumber_safe hl).bind ?_
  rintro _ ⟨x, rfl⟩
  refine (toNumber_safe hr).bind ?_
  rintro _ ⟨y, rfl⟩
  exact hf x y

theorem add_safe (hl : l.isPlain) (hr : r.isPlain) :
    Safe (Value.isPlain ·) (add operator l r) := by
  obtain ⟨left, hleft⟩ := Value.display_of_isPlain hl
  obtain ⟨right, hright⟩ := Value.display_of_isPlain hr
  unfold add
  split
  · next m n =>
    obtain ⟨x, rfl⟩ : ∃ x, m = .double x := @toNumber_safe operator _ hl
    obtain ⟨y, rfl⟩ : ∃ y, n = .double y := @toNumber_safe operator _ hr
    rfl
  · refine .bind (P := fun _ => True) ?_ fun left _ =>
      .bind (P := fun _ => True) ?_ fun right _ => ?_
    · rw [hleft]
      trivial
    · rw [hright]
      trivial
    · split <;> rfl

theorem binary_safe (ho : Level.equality.rank ≤ operator.kind.rank) (hl : l.isPlain)
    (hr : r.isPlain) : Safe (Value.isPlain ·) (binary operator l r) := by
  unfold binary
  split
  · exact add_safe hl hr
  · exact onNumbers_safe hl hr fun _ _ => rfl
  · exact onNumbers_safe hl hr fun _ _ => rfl
  · refine onNumbers_safe hl hr fun x y => ?_
    split <;> rfl
  all_goals first
    | rfl
    | exact onNumbers_safe hl hr fun _ _ => rfl
    | skip
  cases hk : operator.kind <;> simp_all [Kind.rank, Level.rank]

theorem unary_safe (ho : operator.kind = .bang ∨ operator.kind = .minus) (hv : v.isPlain) :
    Safe (Value.isPlain ·) (unary operator v) := by
  unfold unary
  rcases ho with ho | ho
  · rw [ho]
    rfl
  · rw [ho]
    refine (toNumber_safe hv).bind ?_
    rintro _ ⟨x, rfl⟩
    rfl

end Operator

/-- With plain values in its scopes, a machine comes to a result as `P` tells or to a failure that
can arise, and the values in its scopes are plain again. -/
def Action.Safe {α : Type} (P : α → Prop) (a : Action α) : Prop := ∀ m, m.env.Plain →
  match a m with
  | .ok x m' => P x ∧ m'.env.Plain
  | .error f m' => f.arises ∧ m'.env.Plain

namespace Action

variable {α β : Type} {P : α → Prop} {Q : β → Prop}

theorem Safe.pure {x : α} (h : P x) : Safe P (pure x) := fun _ hm => ⟨h, hm⟩

theorem Safe.throw {f : Failure} (h : f.arises) : Safe P (throw f) := fun _ hm => ⟨h, hm⟩

theorem Safe.bind {a : Action α} {f : α → Action β} (h : Safe P a)
    (hf : ∀ x, P x → Safe Q (f x)) : Safe Q (a >>= f) := by
  intro m hm
  have h := h m hm
  simp only [Bind.bind, EStateM.bind]
  cases ha : a m with
  | ok x m' =>
    rw [ha] at h
    exact hf x h.1 m' h.2
  | error e m' =>
    rw [ha] at h
    exact h

theorem Safe.map {a : Action α} {f : α → β} (h : Safe P a) (hf : ∀ x, P x → Q (f x)) :
    Safe Q (f <$> a) := by
  rw [map_eq_pure_bind]
  exact h.bind fun x hx => .pure (hf x hx)

theorem Safe.ofExcept {r : Except Failure α} (h : Lox.Safe P r) : Safe P (ofExcept r) := by
  cases r with
  | ok x => exact .pure h
  | error f => exact .throw h

theorem lookUp_safe (name : Token) : Safe (Value.isPlain ·) (lookUp name) := by
  intro m hm
  rw [lookUp_eq]
  cases hv : m.env.get? name.lexeme with
  | none => exact ⟨rfl, hm⟩
  | some v => exact ⟨hm.get? hv, hm⟩

theorem assign_safe (name : Token) {v : Value} (hv : v.isPlain) :
    Safe (fun _ => True) (assign name v) := by
  intro m hm
  rw [assign_eq]
  cases ha : m.env.assign? name.lexeme v with
  | none => exact ⟨rfl, hm⟩
  | some env => exact ⟨trivial, hm.assign hv ha⟩

theorem define_safe (name : String) {v : Value} (hv : v.isPlain) :
    Safe (fun _ => True) (modifyEnv (Env.define name v)) :=
  fun _ hm => ⟨trivial, hm.define hv⟩

theorem printLine_safe (text : String) : Safe (fun _ => True) (printLine text) :=
  fun _ hm => ⟨trivial, hm⟩

theorem Safe.inScope {a : Action Unit} (h : Safe (fun _ => True) a) :
    Safe (fun _ => True) (inScope a) := by
  intro m hm
  have h := h { m with env := m.env.push } hm.push
  rw [Action.inScope]
  cases ha : a { m with env := m.env.push } with
  | ok x m' =>
    rw [ha] at h
    exact ⟨trivial, h.2.pop⟩
  | error f m' =>
    rw [ha] at h
    exact ⟨h.1, h.2.pop⟩

theorem Safe.repeatWhile {c : Action Bool} {a : Action Unit} (hc : Safe (fun _ => True) c)
    (h : Safe (fun _ => True) a) (rounds : Nat) :
    Safe (fun _ => True) (repeatWhile c a rounds) := by
  induction rounds with
  | zero => exact .throw rfl
  | succ rounds ih =>
    rw [Action.repeatWhile]
    refine hc.bind fun x _ => ?_
    cases x with
    | false => exact .pure trivial
    | true => exact h.bind fun _ _ => ih

theorem Safe.forM {f : Stmt → Action Unit} {p : List Stmt}
    (h : ∀ s ∈ p, Safe (fun _ => True) (f s)) : Safe (fun _ => True) (p.forM f) := by
  induction p with
  | nil => exact .pure trivial
  | cons s p ih =>
    obtain ⟨hs, hp⟩ := List.forall_mem_cons.mp h
    exact hs.bind fun _ _ => ih hp

end Action

theorem Expr.Regular.safe {e : Expr} (h : e.Regular) (depth : Nat) :
    Action.Safe (Value.isPlain ·) (e.eval depth) := by
  induction depth generalizing e with
  | zero => exact .throw rfl
  | succ depth ih =>
    cases h with
    | literal hv => exact .pure hv
    | grouping h => exact ih h
    | unary ho h => exact (ih h).bind fun v hv => .ofExcept (Operator.unary_safe ho hv)
    | binary ho hl hr =>
      refine (ih hl).bind fun l hl => (ih hr).bind fun r hr => ?_
      exact .ofExcept (Operator.binary_safe ho hl hr)
    | logical hl hr =>
      refine (ih hl).bind fun v hv => ?_
      split
      · exact .pure hv
      · exact ih hr
    | ternary hc hl hr =>
      refine (ih hc).bind fun v _ => ?_
      split
      · exact ih hl
      · exact ih hr
    | var => exact Action.lookUp_safe _
    | assign h =>
      exact (ih h).bind fun v hv => (Action.assign_safe _ hv).bind fun _ _ => .pure hv

theorem Stmt.Regular.safe {s : Stmt} (h : s.Regular) (rounds depth : Nat) :
    Action.Safe (fun _ => True) (s.exec rounds depth) := by
  induction depth generalizing s with
  | zero => cases h <;> exact .throw rfl
  | succ depth ih =>
    cases h with
    | expression h => exact (h.safe depth).map fun _ _ => trivial
    | print h =>
      refine (h.safe depth).bind fun v hv => ?_
      obtain ⟨text, ht⟩ := Value.display_of_isPlain hv
      have ht : Safe (fun _ => True) (Failure.ofOverflow v.display) := by
        rw [ht]
        trivial
      exact (Action.Safe.ofExcept ht).bind fun text _ => Action.printLine_safe text
    | @declare name initializer h =>
      cases initializer with
      | none =>
        have hv : Action.Safe (Value.isPlain ·) (pure .nil) := .pure rfl
        exact hv.bind fun v hv => Action.define_safe _ hv
      | some e => exact ((h e rfl).safe depth).bind fun v hv => Action.define_safe _ hv
    | block h => exact (Action.Safe.forM fun s hs => ih (h s hs)).inScope
    | @branch c whenTrue whenFalse hc ht hf =>
      refine (hc.safe depth).bind fun v _ => ?_
      split
      · exact ih ht
      · cases whenFalse with
        | none => exact .pure trivial
        | some s => exact ih (hf s rfl)
    | loop hc hb =>
      exact ((hc.safe depth).map fun _ _ => trivial).repeatWhile (ih hb) rounds

variable {limits : Limits}

theorem Stmt.Regular.safe_run {s : Stmt} (h : s.Regular) :
    Action.Safe (fun _ => True) (s.run limits) := by
  intro m hm
  have h := h.safe limits.rounds limits.depth m hm
  rw [Stmt.run]
  cases hs : s.exec limits.rounds limits.depth m with
  | ok _ m' => rwa [hs] at h
  | error f m' =>
    rw [hs] at h
    cases f with
    | tooDeep => exact ⟨rfl, h.2⟩
    | _ => exact h

theorem Stmt.run_ne_tooDeep (s : Stmt) (m m' : Machine) :
    s.run limits m ≠ .error .tooDeep m' := by
  intro h
  rw [Stmt.run] at h
  split at h
  · cases h
  · next hs => exact hs m' h

theorem Program.safe_run {p : Program} (h : ∀ s ∈ p, s.Regular) :
    Action.Safe (fun _ => True) (p.run limits) :=
  .forM fun s hs => (h s hs).safe_run

/-- A statement that is nested too deeply is the program's own problem. -/
theorem Program.run_ne_tooDeep (p : Program) (m m' : Machine) :
    p.run limits m ≠ .error .tooDeep m' := by
  induction p generalizing m with
  | nil => exact nofun
  | cons s p ih =>
    intro h
    change (s.run limits >>= fun _ => Program.run limits p) m = _ at h
    simp only [Bind.bind, EStateM.bind] at h
    cases hr : s.run limits m with
    | ok _ m'' =>
      rw [hr] at h
      exact ih m'' h
    | error f m'' =>
      rw [hr] at h
      cases h
      exact s.run_ne_tooDeep m m' hr

/-- The sessions that come from running sources, and from forgetting diagnostics in between. -/
inductive Session.Reachable : Session → Prop
  | fresh : Reachable fresh
  | run {s : Session} (limits : Limits) (source : String) : Reachable s →
      Reachable (s.run limits source).1
  | reset {s : Session} : Reachable s → Reachable s.reset

namespace Session

variable {s : Session}

/-- The run has ended, or would not, and reports only problems that can arise; the values of all
variables are plain. -/
structure Settled (result : Session × Outcome) : Prop where
  failure : result.2.failure = none ∨ result.2.failure = some .outOfRounds
  problem : ∀ line message, .report (.runtime line message) ∈ result.2.events →
    ∃ p : Problem, p ≠ .unknownUnary ∧ p ≠ .unknownBinary ∧ message = p.message
  plain : result.1.env.Plain

theorem interpret_settled (limits : Limits) (h : s.env.Plain) {p : Program}
    (hp : ∀ st ∈ p, st.Regular) : Settled (s.interpret limits p) := by
  have hp : Action.Safe (fun _ => True) (p.run limits) := Program.safe_run hp
  have h := hp ⟨s.env, []⟩ h
  rw [interpret]
  cases hr : p.run limits ⟨s.env, []⟩ with
  | ok _ m' =>
    rw [hr] at h
    exact ⟨.inl rfl, nofun, h.2⟩
  | error f m' =>
    rw [hr] at h
    cases f with
    | problem t problem =>
      refine ⟨.inl rfl, fun line message hm => ⟨problem, ?_, ?_, ?_⟩, h.2⟩
      · rintro rfl
        cases h.1
      · rintro rfl
        cases h.1
      · have hm : line = t.line ∧ message = problem.message := by
          simpa [problemEvents] using hm
        exact hm.2
    | outOfRounds => exact ⟨.inr rfl, nofun, h.2⟩
    | tooDeep => exact absurd hr (Program.run_ne_tooDeep p _ m')
    | unsupported | blank | missing | overflow => cases h.1

theorem run_settled (limits : Limits) (source : String) (h : s.env.Plain) :
    Settled (s.run limits source) := by
  have hn : ∀ line message,
      .report (.runtime line message) ∉ (Reading.ofSource source limits.nesting).events := by
    intro line message hm
    have hm : Report.runtime line message ∈ (Reading.ofSource source limits.nesting).reports := by
      rw [← Reading.filterMap_events]
      exact List.mem_filterMap.mpr ⟨_, hm, rfl⟩
    cases Reading.isStatic_of_mem_reports _ _ hm
  rw [run, runReading]
  split
  · refine ⟨.inl rfl, fun line message hm => ?_, h⟩
    rcases List.mem_append.mp hm with hm | hm
    · exact absurd hm (hn line message)
    · cases List.mem_singleton.mp hm
  · next he =>
    have hr := (hadError_addEvents.mp (Bool.not_eq_true _ ▸ he)).2
    have hi := interpret_settled limits
      (s := s.addEvents (Reading.ofSource source limits.nesting).events) h
      (Reading.regular_program hr)
    refine ⟨hi.failure, fun line message hm => ?_, hi.plain⟩
    rcases List.mem_append.mp hm with hm | hm
    · exact absurd hm (hn line message)
    · exact hi.problem line message hm

theorem Reachable.plain (h : s.Reachable) : s.env.Plain := by
  induction h with
  | fresh => exact Env.plain_global.mpr nofun
  | run limits source _ ih => exact (run_settled limits source ih).plain
  | reset _ ih => exact ih

/-- Nothing goes wrong with any source, whatever has been run before. The scanner finds no number
that is none, and the parser gives a program. The run comes to an end or would go on for ever. What
it reports is a problem of the program and not an operator that is not known, and afterwards all
global variables are nil, booleans, doubles or strings. -/
theorem run_safe (h : s.Reachable) (limits : Limits) (source : String) :
    (∀ found ∈ ((Scanner.ofSource source.toList).readAll []).2, ∀ text, found ≠ .malformed text) ∧
      (∃ p, (Reading.ofSource source limits.nesting).reply.result = .ok p) ∧
      ((s.run limits source).2.failure = none ∨
        (s.run limits source).2.failure = some .outOfRounds) ∧
      (∀ line message, .report (.runtime line message) ∈ (s.run limits source).2.events →
        ∃ p : Problem, p ≠ .unknownUnary ∧ p ≠ .unknownBinary ∧ message = p.message) ∧
      ∀ b ∈ (s.run limits source).1.env.globals, b.2.isPlain := by
  have hr := run_settled limits source h.plain
  obtain ⟨lexemes, hl⟩ := exists_lexes source.toList
  obtain ⟨s', hs, _⟩ := Scanner.readAll_of_lexes hl 0 [] 1 []
  refine ⟨?_, ⟨_, Reading.result_eq source _⟩, hr.failure, hr.problem, hr.plain.globals⟩
  rw [Scanner.ofSource, hs]
  exact fun found hf => (hl.forall_findings 1 found hf).1

/-- A global variable from one run, and a sum in the next that cannot be. -/
theorem run_safe_sum :
    let s := (fresh.run ⟨100, 20, 5⟩ "var a = 1;").1
    s.Reachable ∧
      ((s.run ⟨100, 20, 5⟩ "var b = a; print b + nil;").2.failure = none ∨
        (s.run ⟨100, 20, 5⟩ "var b = a; print b + nil;").2.failure = some .outOfRounds) ∧
      ∀ b ∈ (s.run ⟨100, 20, 5⟩ "var b = a; print b + nil;").1.env.globals, b.2.isPlain := by
  intro s
  have h : s.Reachable := .run _ _ .fresh
  have hs := run_safe h ⟨100, 20, 5⟩ "var b = a; print b + nil;"
  exact ⟨h, hs.2.2.1, hs.2.2.2.2⟩

end Session

end Lox
