import Lox.Proofs.Scopes.Coupling
import Lox.Session

/-! # Names that a run adds

A statement declares names in the current scope only, and only outside its blocks. However it ends,
the scopes around the current one have the names they had, and the current one has them too, with
new ones after them.
-/

namespace Lox

variable {α : Type} {added added' : List String}

namespace Env

def names (env : Env) : List (List String) := env.scopes.map Scope.names

variable {env env' env'' : Env}

@[simp] theorem names_global (s : Scope) : (global s).names = [s.names] := rfl

@[simp] theorem names_inner (s : Scope) (env : Env) :
    (inner s env).names = s.names :: env.names := rfl

theorem exists_names_eq_cons (env : Env) : ∃ names outer, env.names = names :: outer := by
  cases env <;> exact ⟨_, _, rfl⟩

/-- The scopes have the names they had. In the current one there may be more after these, all of
them among `added`. -/
inductive Extends (added : List String) (env env' : Env) : Prop
  | mk {names more : List String} {outer : List (List String)} : env.names = names :: outer →
      env'.names = (names ++ more) :: outer → more ⊆ added → Extends added env env'

theorem extends_nil_iff : env.Extends [] env' ↔ env'.names = env.names := by
  constructor
  · rintro ⟨h, h', hm⟩
    obtain rfl := List.subset_nil.mp hm
    rw [h, h', List.append_nil]
  · intro h
    obtain ⟨names, outer, hn⟩ := env.exists_names_eq_cons
    exact ⟨hn, by rw [h, hn, List.append_nil], List.nil_subset _⟩

theorem Extends.mono (h : env.Extends added env') (hs : added ⊆ added') :
    env.Extends added' env' := by
  obtain ⟨hn, hn', hm⟩ := h
  exact ⟨hn, hn', List.Subset.trans hm hs⟩

theorem Extends.of_names (h : env'.names = env.names) : env.Extends added env' :=
  (extends_nil_iff.mpr h).mono (List.nil_subset _)

theorem Extends.refl (env : Env) : env.Extends added env := .of_names rfl

theorem Extends.trans (h : env.Extends added env') (h' : env'.Extends added env'') :
    env.Extends added env'' := by
  obtain ⟨hn, hmid, hm⟩ := h
  obtain ⟨hmid', hn', hm'⟩ := h'
  obtain ⟨rfl, rfl⟩ := List.cons.inj (hmid.symm.trans hmid')
  exact ⟨hn, by rw [hn', List.append_assoc], List.append_subset.mpr ⟨hm, hm'⟩⟩

theorem isGlobal_iff : env.isGlobal ↔ env.names.tail = [] := by
  cases env with
  | global s => simp [isGlobal]
  | inner s env =>
    obtain ⟨names, outer, hn⟩ := env.exists_names_eq_cons
    simp [isGlobal, hn]

theorem Extends.isGlobal (h : env.Extends added env') (hg : env.isGlobal) : env'.isGlobal := by
  obtain ⟨hn, hn', _⟩ := h
  rw [isGlobal_iff, hn] at hg
  rw [isGlobal_iff, hn']
  exact hg

theorem extends_define (env : Env) (name : String) (v : Value) :
    env.Extends [name] (env.define name v) := by
  have hs (s : Scope) : ∃ more, (s.define name v).names = s.names ++ more ∧ more ⊆ [name] := by
    rw [Scope.names_define]
    split
    · exact ⟨[], (List.append_nil _).symm, List.nil_subset _⟩
    · exact ⟨[name], rfl, List.Subset.refl _⟩
  cases env with
  | global s =>
    obtain ⟨more, hm, hsub⟩ := hs s
    exact ⟨names_global s, by rw [define, names_global, hm], hsub⟩
  | inner s env =>
    obtain ⟨more, hm, hsub⟩ := hs s
    exact ⟨names_inner s env, by rw [define, names_inner, hm], hsub⟩

theorem names_assign {name : String} {v : Value} (h : env.assign? name v = some env') :
    env'.names = env.names := by
  have hs {s : Scope} (hn : (s.get? name).isSome) : (s.define name v).names = s.names := by
    rw [Scope.names_define, if_pos ((s.isSome_get?_iff name).mp hn)]
  induction env generalizing env' with
  | global s =>
    rw [assign?] at h
    split at h
    · next hn =>
      cases h
      rw [names_global, hs hn, names_global]
    · cases h
  | inner s env ih =>
    rw [assign?] at h
    split at h
    · next hn =>
      cases h
      rw [names_inner, hs hn, names_inner]
    · obtain ⟨outer, ho, rfl⟩ := Option.map_eq_some_iff.mp h
      rw [names_inner, ih ho, names_inner]

/-- The search for a name ends in the scope that is told by the names. -/
theorem distance_congr (h : env'.names = env.names) (name : String) :
    env'.distance name = env.distance name := by
  induction env generalizing env' with
  | global s =>
    cases env' with
    | global s' => rfl
    | inner s' env' =>
      obtain ⟨names, outer, he⟩ := env'.exists_names_eq_cons
      simp [he] at h
  | inner s env ih =>
    cases env' with
    | global s' =>
      obtain ⟨names, outer, he⟩ := env.exists_names_eq_cons
      simp [he] at h
    | inner s' env' =>
      obtain ⟨hs, he⟩ := List.cons.inj h
      rw [distance, distance, ih he]
      simp only [Scope.isSome_get?_iff, hs]

/-- A run may declare the names in `declared` and goes on from what it has extended. -/
theorem keptBy_extends (env : Env) (mentions : List (NodeKind × String))
    (declared : List String) : KeptBy (env.Extends declared) mentions declared where
  assign _ h ha := h.trans (.of_names (names_assign ha))
  define hn h :=
    h.trans ((extends_define _ _ _).mono (List.cons_subset.mpr ⟨hn, List.nil_subset _⟩))

end Env

/-- However the action ends, it has declared in the current scope only names that are among `added`,
and in other scopes none. -/
def Action.Adds (added : List String) (a : Action α) : Prop :=
  ∀ m : Machine, m.env.Extends added (a.after m).env

theorem Expr.eval_adds (depth : Nat) (e : Expr) : (e.eval depth).Adds added := fun m =>
  eval_keeps (m.env.keptBy_extends _ added) depth (.refl m.env)

/-- A statement adds only the names that it declares outside its blocks. -/
theorem Stmt.exec_adds (rounds depth : Nat) (s : Stmt) :
    (s.exec rounds depth).Adds s.declared := fun m =>
  exec_keeps (m.env.keptBy_extends _ s.declared) rounds depth (.refl m.env)

/-- A statement that declares nothing outside its blocks leaves the names of all scopes as they
were. -/
theorem Stmt.names_after_exec {s : Stmt} (h : s.declared = []) (rounds depth : Nat) (m : Machine) :
    ((s.exec rounds depth).after m).env.names = m.env.names := by
  have hs := s.exec_adds rounds depth m
  rw [h] at hs
  exact Env.extends_nil_iff.mp hs

theorem Program.run_adds (limits : Limits) (p : Program) :
    (p.run limits).Adds (p.flatMap Stmt.declared) := fun m =>
  run_keeps (m.env.keptBy_extends _ _) limits (.refl m.env)

namespace Session

theorem interpret_env (limits : Limits) (s : Session) (p : Program) :
    (s.interpret limits p).1.env = ((p.run limits).after ⟨s.env, []⟩).env := by
  rw [interpret, Action.after]
  cases p.run limits ⟨s.env, []⟩ with
  | ok _ m => rfl
  | error f m => cases f <;> rfl

theorem interpret_adds (limits : Limits) (s : Session) (p : Program) :
    s.env.Extends (p.flatMap Stmt.declared) (s.interpret limits p).1.env := by
  rw [interpret_env]
  exact p.run_adds limits ⟨s.env, []⟩

end Session

/-- However the run of a tree ends, the chain of scopes is as it was: those around the current one
have their names in the order they had, and the current one has its own, followed by some that the
tree declares outside its blocks. -/
theorem scopes_kept :
    (∀ (depth : Nat) (e : Expr) (m : Machine), m.env.Extends [] ((e.eval depth).after m).env) ∧
      (∀ (rounds depth : Nat) (s : Stmt) (m : Machine),
        m.env.Extends s.declared ((s.exec rounds depth).after m).env) ∧
      ∀ (limits : Limits) (s : Session) (p : Program),
        s.env.Extends (p.flatMap Stmt.declared) (s.interpret limits p).1.env := by
  refine ⟨?_, ?_, Session.interpret_adds⟩
  · exact fun depth e => e.eval_adds depth
  · exact fun rounds depth s => s.exec_adds rounds depth

end Lox
