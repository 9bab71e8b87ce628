import Lox.Proofs.Runs.Steps
import Lox.Proofs.Scopes.Names

/-! # What a program depends on

A program depends on the variables that it mentions and on no others, and it changes only those that
it assigns, or declares outside its blocks. Two runs that start with the same values of these show
the same.
-/

namespace Lox

namespace Env

/-- Global environments in which the names have the same values. -/
inductive AgreeOn (names : List String) : Env → Env → Prop
  | mk {s s' : Scope} : (∀ name ∈ names, s'.get? name = s.get? name) →
      AgreeOn names (global s) (global s')

variable {names : List String} {env env' : Env} {name : String}

theorem agreeOn_iff :
    AgreeOn names env env' ↔
      env.isGlobal ∧ env'.isGlobal ∧
        ∀ name ∈ names, env'.globals.get? name = env.globals.get? name := by
  constructor
  · rintro ⟨h⟩
    exact ⟨rfl, rfl, h⟩
  · rintro ⟨hg, hg', h⟩
    cases env with
    | inner => cases hg
    | global s =>
      cases env' with
      | inner => cases hg'
      | global s' => exact .mk h

theorem AgreeOn.define (h : AgreeOn names env env') (name : String) (v : Value) :
    AgreeOn names (env.define name v) (env'.define name v) := by
  obtain ⟨h⟩ := h
  constructor
  intro other ho
  rw [Scope.get?_define, Scope.get?_define, h other ho]

theorem AgreeOn.assign? (h : AgreeOn names env env') (hn : name ∈ names) (v : Value) :
    Option.Rel (AgreeOn names) (env.assign? name v) (env'.assign? name v) := by
  have hd := h.define name v
  obtain ⟨h⟩ := h
  rw [Env.assign?, Env.assign?, h name hn]
  split
  · exact .some hd
  · exact .none

theorem coupling_agreeOn (names : List String) :
    Coupling (Nested (AgreeOn names)) fun _ name => name ∈ names := by
  apply coupling_nested
  · rintro name _ _ hn ⟨h⟩
    exact h name hn
  · intro name v env env' hn h
    exact h.assign? hn v

theorem globals_define {other : String} (env : Env) (hn : name ≠ other) (v : Value) :
    (env.define other v).globals.get? name = env.globals.get? name := by
  cases env with
  | global s => exact (s.get?_define other name v).trans (if_neg hn)
  | inner s env => rfl

theorem globals_assign {other : String} {v : Value} {out : Env} (hn : name ≠ other)
    (h : env.assign? other v = some out) : out.globals.get? name = env.globals.get? name := by
  induction env generalizing out with
  | global s =>
    rw [Env.assign?] at h
    split at h
    · cases h
      exact globals_define (global s) hn v
    · cases h
  | inner s env ih =>
    rw [Env.assign?] at h
    split at h
    · cases h
      rfl
    · obtain ⟨outer, ho, rfl⟩ := Option.map_eq_some_iff.mp h
      have h := ih ho
      exact h

theorem keptBy_globals {mentions : List (NodeKind × String)} {declared : List String}
    (ha : (.assign, name) ∉ mentions) (hd : name ∉ declared) (value : Option Value) :
    KeptBy (fun env => env.globals.get? name = value) mentions declared where
  assign {other _ _ _} hn h ho := by
    have hne : name ≠ other := by
      rintro rfl
      exact ha hn
    exact (globals_assign hne ho).trans h
  define {other _ _} hn h := by
    have hne : name ≠ other := by
      rintro rfl
      exact hd hn
    exact (globals_define _ hne _).trans h

end Env

namespace Session

variable {s s' : Session} {p : Program} {name : String}

theorem interpret_respects {R : Env → Env → Prop} {limits : Limits} (h : (p.run limits).Respects R)
    (hs : R s.env s'.env) :
    (s'.interpret limits p).2 = (s.interpret limits p).2 ∧
      R (s.interpret limits p).1.env (s'.interpret limits p).1.env := by
  have h := h s.env s'.env [] hs
  rw [interpret, interpret]
  revert h
  generalize p.run limits ⟨s.env, []⟩ = r, p.run limits ⟨s'.env, []⟩ = r'
  rintro (hr | @⟨f, _, _, _, hr⟩)
  · exact ⟨rfl, hr⟩
  · cases f <;> exact ⟨rfl, hr⟩

theorem interpret_agreeOn (limits : Limits) {names : List String}
    (hp : ∀ b ∈ p.mentions, b.2 ∈ names) (hs : s.env.AgreeOn names s'.env) :
    (s'.interpret limits p).2 = (s.interpret limits p).2 ∧
      (s.interpret limits p).1.env.AgreeOn names (s'.interpret limits p).1.env := by
  have hr : (p.run limits).Respects (Env.Nested (Env.AgreeOn names) 0) := by
    apply (Env.coupling_agreeOn names).runProgram limits hp
    rintro name - v env env' ⟨h⟩
    exact .here (h.define name v)
  obtain ⟨hout, henv⟩ := interpret_respects hr (.here hs)
  exact ⟨hout, Env.nested_zero_iff.mp henv⟩

/-- A variable that is neither assigned nor declared outside the blocks keeps its value. -/
theorem interpret_globals (limits : Limits) (s : Session) (ha : (.assign, name) ∉ p.mentions)
    (hd : name ∉ p.flatMap Stmt.declared) :
    (s.interpret limits p).1.env.globals.get? name = s.env.globals.get? name := by
  rw [interpret_env]
  exact Program.run_keeps (Env.keptBy_globals ha hd _) limits rfl

/-- If two sessions agree on the variables that a program mentions, it prints the same in both and
they get the same reports. Then they agree on these variables again, and in both of them a variable
that the program neither assigns nor declares outside its blocks has the value it had. -/
theorem interpret_mentions (limits : Limits) (hs : s.env.isGlobal) (hs' : s'.env.isGlobal)
    (h : ∀ b ∈ p.mentions, s'.env.globals.get? b.2 = s.env.globals.get? b.2) :
    (s'.interpret limits p).2 = (s.interpret limits p).2 ∧
      (∀ b ∈ p.mentions, (s'.interpret limits p).1.env.globals.get? b.2 =
        (s.interpret limits p).1.env.globals.get? b.2) ∧
      ∀ t ∈ [s, s'],
        (t.interpret limits p).1.diagnostics =
          t.diagnostics.addAll (s.interpret limits p).2.reports ∧
        (t.interpret limits p).1.env.isGlobal ∧
        ∀ name, (.assign, name) ∉ p.mentions → name ∉ p.flatMap Stmt.declared →
          (t.interpret limits p).1.env.globals.get? name = t.env.globals.get? name := by
  have hp : ∀ b ∈ p.mentions, b.2 ∈ p.mentions.map Prod.snd := fun _ hb => List.mem_map_of_mem hb
  have hagree : s.env.AgreeOn (p.mentions.map Prod.snd) s'.env := by
    rw [Env.agreeOn_iff, List.forall_mem_map]
    exact ⟨hs, hs', h⟩
  obtain ⟨hout, henv⟩ := interpret_agreeOn limits hp hagree
  obtain ⟨hg, hg', hglobals⟩ := Env.agreeOn_iff.mp henv
  refine ⟨hout, fun b hb => hglobals _ (hp b hb), ?_⟩
  have hkept (t : Session) (name : String) (ha : (.assign, name) ∉ p.mentions)
      (hd : name ∉ p.flatMap Stmt.declared) := t.interpret_globals limits ha hd
  rw [List.forall_mem_cons, List.forall_mem_singleton]
  constructor
  · exact ⟨interpret_diagnostics limits s p, hg, hkept s⟩
  · refine ⟨?_, hg', hkept s'⟩
    rw [interpret_diagnostics, hout]

/-- The program stops at `c`, which both sessions lack; only `z` tells them apart. -/
theorem interpret_mentions_undefined :
    let s : Session := ⟨.global [("b", .string "x"), ("z", .nil)], .empty⟩
    let s' : Session := ⟨.global [("z", .bool true), ("b", .string "x")], .empty⟩
    let p := (Reading.ofSource "{ var d = b; b = d + d; } print b; print c;").program
    s.env.isGlobal ∧ s'.env.isGlobal ∧
      (∀ b ∈ p.mentions, s'.env.globals.get? b.2 = s.env.globals.get? b.2) ∧
      (s'.interpret ⟨100, 20, 5⟩ p).2 = (s.interpret ⟨100, 20, 5⟩ p).2 ∧
      (s.interpret ⟨100, 20, 5⟩ p).2.printed = ["xx"] ∧
      (s.interpret ⟨100, 20, 5⟩ p).2.reports = [.runtime 1 "Undefined variable c"] ∧
      (s.interpret ⟨100, 20, 5⟩ p).1.env.globals.get? "z" = some .nil ∧
      (s'.interpret ⟨100, 20, 5⟩ p).1.env.globals.get? "z" = some (.bool true) := by
  intro s s' p
  have h : ∀ b ∈ p.mentions, s'.env.globals.get? b.2 = s.env.globals.get? b.2 := by decide +kernel
  have ha : (.assign, "z") ∉ p.mentions := by decide +kernel
  have hd : "z" ∉ p.flatMap Stmt.declared := by decide +kernel
  obtain ⟨hout, -, hkept⟩ := interpret_mentions ⟨100, 20, 5⟩ (p := p) rfl rfl h
  have hz (t : Session) (ht : t ∈ [s, s']) := (hkept t ht).2.2 "z" ha hd
  have hprinted : (s.interpret ⟨100, 20, 5⟩ p).2.printed = ["xx"] ∧
      (s.interpret ⟨100, 20, 5⟩ p).2.reports = [.runtime 1 "Undefined variable c"] := by
    decide +kernel
  exact ⟨rfl, rfl, h, hout, hprinted.1, hprinted.2, hz s (.head _), hz s' (.tail _ (.head _))⟩

end Session

end Lox
