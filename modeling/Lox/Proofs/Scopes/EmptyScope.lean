import Lox.Proofs.Scopes.Names

/-! # Scopes without names

A scope in which nothing is declared makes no difference: names are found and changed in the same
scopes as without it. So a statement that declares nothing outside its blocks can be run in a scope
of its own.
-/

namespace Lox

namespace Env

/-- The second environment has one scope more, without names, and `depth` scopes inside it. -/
inductive Padded : (depth : Nat) → Env → Env → Prop
  | here (env : Env) : Padded 0 env env.push
  | under {depth : Nat} {env env' : Env} (s : Scope) : Padded depth env env' →
      Padded (depth + 1) (inner s env) (inner s env')

variable {depth : Nat} {env env' : Env}

theorem Padded.eq_push (h : Padded 0 env env') : env' = env.push := by
  cases h
  rfl

theorem padded_iff_nested :
    Padded depth env env' ↔ Nested (fun env env' => env' = env.push) depth env env' := by
  constructor
  · intro h
    induction h with
    | here env => exact .here rfl
    | under s _ ih => exact .under s ih
  · intro h
    induction h with
    | here h => exact h ▸ .here _
    | under s _ ih => exact .under s ih

theorem padded_coupling : Coupling Padded fun _ _ => True := by
  have h : Padded = Nested fun env env' => env' = env.push := by
    funext depth env env'
    exact propext padded_iff_nested
  rw [h]
  apply coupling_nested
  · rintro name env _ - rfl
    simp [push, get?, Scope.get?]
  · rintro name v env _ - rfl
    have hp : env.push.assign? name v = (env.assign? name v).map push := rfl
    rw [hp]
    cases env.assign? name v with
    | none => exact .none
    | some out => exact .some rfl

end Env

variable {k : Nat}

theorem Expr.eval_respects (depth : Nat) (e : Expr) :
    (e.eval depth).Respects (Env.Padded k) :=
  Env.padded_coupling.eval depth fun _ _ => trivial

/-- A scope without names makes no difference to a statement, unless it is the current one and the
statement declares something in it. -/
theorem Stmt.exec_respects (rounds depth : Nat) (s : Stmt) (h : k = 0 → s.declared = []) :
    (s.exec rounds depth).Respects (Env.Padded k) := by
  apply Env.padded_coupling.exec rounds depth fun _ _ => trivial
  intro name hn
  cases k with
  | zero =>
    rw [h rfl] at hn
    cases hn
  | succ k => exact Env.padded_coupling.define trivial

/-- What a scope without names makes no difference to can be done in a scope of its own. -/
theorem Action.Respects.inScope_eq {a : Action Unit} (h : a.Respects (Env.Padded 0)) :
    a.inScope = a := by
  have ha (env : Env) (printed : List String) : a.inScope ⟨env, printed⟩ = a ⟨env, printed⟩ := by
    have h := h env env.push printed (.here env)
    rw [Action.inScope]
    revert h
    generalize a ⟨env, printed⟩ = r, a ⟨env.push, printed⟩ = r'
    rintro (hp | hp) <;> rw [hp.eq_push] <;> rfl
  exact funext fun m => ha m.env m.printed

end Lox
