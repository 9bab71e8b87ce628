import Lox.Proofs.Runs.Reading
import Lox.Proofs.Scopes.Simulation

/-! # Variables have fixed distances

In a program that is read without a report, declarations stand in blocks or alone. So the number of
scopes to each variable is the same whenever it is read or written.
-/

namespace Lox

mutual

theorem Rule.Spells.resolvable {r : Rule} {ts : List Token} {e : Expr} (h : r.Spells ts e) :
    e.resolvable := by
  match h with
  | .assign _ _ h | .ofTernary h | .ofOr h | .unary _ h | .ofPrimary h | .grouping _ _ h =>
    exact h.resolvable
  | .choice _ _ hc hl hr =>
    simp [Expr.resolvable, hc.resolvable, hl.resolvable, hr.resolvable]
  | .chain hu hx => exact hx.resolvable hu.resolvable
  | .no _ | .yes _ | .nil _ | .literal _ | .var _ => rfl

theorem Level.Extends.resolvable {l : Level} {left e : Expr} {ts : List Token}
    (h : l.Extends left ts e) (hl : left.resolvable) : e.resolvable := by
  match h with
  | .done => exact hl
  | @Level.Extends.operator _ operator _ _ _ right _ _ hu hx =>
    have hr := hu.resolvable
    have hj : (l.join left operator right).resolvable := by
      cases l <;> exact Bool.and_eq_true_iff.mpr ⟨hl, hr⟩
    exact hx.resolvable hj

end

theorem SpellsVariable.resolvable {ts : List Token} {s : Stmt} (h : SpellsVariable ts s) :
    s.resolvable := by
  cases h with
  | plain _ _ _ => rfl
  | initial _ _ _ h _ => exact h.resolvable

theorem SpellsExpressionStatement.resolvable {ts : List Token} {s : Stmt}
    (h : SpellsExpressionStatement ts s) : (s.resolvable && !s.declares) = true := by
  cases h with
  | mk h _ => exact Bool.and_eq_true_iff.mpr ⟨h.resolvable, rfl⟩

theorem SpellsFirst.resolvable {ts : List Token} {s : Stmt} (h : SpellsFirst ts (some s)) :
    s.resolvable := by
  cases h with
  | declare h => exact h.resolvable
  | expression h => exact (Bool.and_eq_true_iff.mp h.resolvable).1

theorem SpellsOptional.resolvable {ts : List Token} {e : Expr} (h : SpellsOptional ts (some e)) :
    e.resolvable := by
  cases h with
  | present h => exact h.resolvable

theorem Stmt.resolvable_pair {s t : Stmt} (hs : s.resolvable) (ht : t.resolvable) :
    ((block [s, t]).resolvable && !(block [s, t]).declares) = true := by
  have hall : Stmt.resolvableAll [s, t] := by
    simp only [resolvableAll, hs, ht, Bool.and_self]
  exact Bool.and_eq_true_iff.mpr ⟨hall, rfl⟩

theorem Stmt.resolvable_forLoop {first : Option Stmt} {c step : Option Expr} {body : Stmt}
    (hf : ∀ s, first = some s → s.resolvable) (hc : ∀ e, c = some e → e.resolvable)
    (hs : ∀ e, step = some e → e.resolvable) (h : (body.resolvable && !body.declares) = true) :
    ((forLoop first c step body).resolvable && !(forLoop first c step body).declares) = true := by
  have hcond : (c.getD (.literal (.bool true))).resolvable := by
    cases c with
    | none => rfl
    | some c => exact hc c rfl
  have hloop : ∀ b : Stmt, (b.resolvable && !b.declares) = true →
      (Stmt.loop (c.getD (.literal (.bool true))) b).resolvable := by
    intro b hb
    exact Bool.and_eq_true_iff.mpr ⟨hcond, hb⟩
  cases step with
  | none =>
    have hl := hloop body h
    cases first with
    | none => exact Bool.and_eq_true_iff.mpr ⟨hl, rfl⟩
    | some s => exact resolvable_pair (hf s rfl) hl
  | some e =>
    have he : (Stmt.expression e).resolvable := hs e rfl
    have hl := hloop _ (resolvable_pair (Bool.and_eq_true_iff.mp h).1 he)
    cases first with
    | none => exact Bool.and_eq_true_iff.mpr ⟨hl, rfl⟩
    | some s => exact resolvable_pair (hf s rfl) hl

mutual

theorem SpellsStatement.resolvable {ts : List Token} {s : Stmt} {dangling : Bool}
    (h : SpellsStatement ts s dangling) : (s.resolvable && !s.declares) = true := by
  match h with
  | .expression h => exact h.resolvable
  | .print _ he _ => exact Bool.and_eq_true_iff.mpr ⟨he.resolvable, rfl⟩
  | .block _ h _ => exact Bool.and_eq_true_iff.mpr ⟨h.resolvable, rfl⟩
  | @SpellsStatement.loop _ _ _ _ _ c body _ _ _ hc _ hb =>
    have hl : (Stmt.loop c body).resolvable :=
      Bool.and_eq_true_iff.mpr ⟨hc.resolvable, hb.resolvable⟩
    exact Bool.and_eq_true_iff.mpr ⟨hl, rfl⟩
  | .forLoop _ _ hf hc _ hs _ hb =>
    apply Stmt.resolvable_forLoop
    · intro s he
      subst he
      exact hf.resolvable
    · intro e he
      subst he
      exact hc.resolvable
    · intro e he
      subst he
      exact hs.resolvable
    · exact hb.resolvable
  | @SpellsStatement.branch _ _ _ _ _ c t _ _ _ hc _ ht =>
    have hb : (Stmt.branch c t none).resolvable :=
      Bool.and_eq_true_iff.mpr ⟨hc.resolvable, ht.resolvable⟩
    exact Bool.and_eq_true_iff.mpr ⟨hb, rfl⟩
  | @SpellsStatement.branchElse _ _ _ _ _ _ _ c t f _ _ _ hc _ ht _ hf =>
    have hb : (Stmt.branch c t none).resolvable :=
      Bool.and_eq_true_iff.mpr ⟨hc.resolvable, ht.resolvable⟩
    have hbe : (Stmt.branch c t (some f)).resolvable :=
      Bool.and_eq_true_iff.mpr ⟨hb, hf.resolvable⟩
    exact Bool.and_eq_true_iff.mpr ⟨hbe, rfl⟩

theorem SpellsDeclaration.resolvable {ts : List Token} {s : Stmt} (h : SpellsDeclaration ts s) :
    s.resolvable := by
  match h with
  | .declare h => exact h.resolvable
  | .statement h => exact (Bool.and_eq_true_iff.mp h.resolvable).1

theorem SpellsDeclarations.resolvable {ts : List Token} {p : List Stmt}
    (h : SpellsDeclarations ts p) : Stmt.resolvableAll p := by
  match h with
  | .nil => rfl
  | .cons hs hp => exact Bool.and_eq_true_iff.mpr ⟨hs.resolvable, hp.resolvable⟩

end

/-- A program without a report can be resolved. -/
theorem Reading.resolvableAll_program {source : String} {nesting : Nat}
    (h : (Reading.ofSource source nesting).reports = []) :
    Stmt.resolvableAll (Reading.ofSource source nesting).program := by
  obtain ⟨ts, e, _, _, hs⟩ := Reading.spells_program h
  exact hs.resolvable

/-- In a program that is read without a report, resolution gives every variable a distance and
changes nothing else. The resolved program does what the program does: it prints the same, fails in
the same way and leaves the same variables. Whenever it reads or writes a variable, the search ends
at the distance of the variable, and what would be done otherwise is never done; the distance is
that of the global scope if and only if no open block has declared the name. -/
theorem runAll_resolve {source : String} {nesting : Nat}
    (h : (Reading.ofSource source nesting).reports = []) (limits : Limits) {m : Machine}
    (hm : m.env.isGlobal) :
    BoundStmt.plainAll (Reading.ofSource source nesting).program.resolve =
        (Reading.ofSource source nesting).program ∧
      BoundStmt.resolvedAll (Reading.ofSource source nesting).program.resolve ∧
      (∀ name blocks, (distance name blocks).isGlobal ↔ ∀ names ∈ blocks, name ∉ names) ∧
      (∀ other,
        BoundStmt.runAll (.checked other) limits (Reading.ofSource source nesting).program.resolve m
          = (Reading.ofSource source nesting).program.run limits m) ∧
      BoundStmt.runAll .static limits (Reading.ofSource source nesting).program.resolve m =
        (Reading.ofSource source nesting).program.run limits m := by
  have hp := Reading.resolvableAll_program h
  have hm := Env.holds_nil.mpr hm
  refine ⟨Stmt.plainAll_resolveAll [] _, Stmt.resolvedAll_resolveAll [] hp,
    fun _ _ => isGlobal_distance_iff, fun other => ?_, ?_⟩
  · exact (Program.simulates (Access.checked_faithful other) limits hp m hm).1
  · exact (Program.simulates Access.static_faithful limits hp m hm).1

/-- A loop in a block, with an assignment that passes over the block's own scope before the name is
declared there, and a variable that nothing declares. -/
theorem runAll_resolve_shadowing :
    let source :=
      "var a = true; \x7b print a; var a = a; while (a) \x7b a = nil; var a; \x7d b = a; \x7d"
    let p := (Reading.ofSource source).program
    let m : Machine := ⟨.global [], []⟩
    (Reading.ofSource source).reports = [] ∧ m.env.isGlobal ∧
      (∀ other, BoundStmt.runAll (.checked other) ⟨100, 20, 5⟩ p.resolve m = p.run ⟨100, 20, 5⟩ m) ∧
      BoundStmt.runAll .static ⟨100, 20, 5⟩ p.resolve m = p.run ⟨100, 20, 5⟩ m := by
  intro source p m
  have h : (Reading.ofSource source).reports = [] := by decide +kernel
  have hm : m.env.isGlobal := rfl
  exact ⟨h, hm, (runAll_resolve h ⟨100, 20, 5⟩ hm).2.2.2⟩

end Lox
