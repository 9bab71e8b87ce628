import Lox.Proofs.Runs.Relining
import Lox.Proofs.Scopes.Mentions

/-! # Coupled runs

Two runs of a tree are coupled by relations between their environments, one for each number of
scopes that have been opened on the way. If related environments cannot be told apart by the names
that the tree mentions, the runs print the same and end alike. A run that is coupled with itself
keeps every property of the environment that assignments and declarations keep.
-/

namespace Lox

variable {α β : Type}

/-- The same result or failure, the same lines printed, and environments that are related. -/
inductive Alike (R : Env → Env → Prop) :
    EStateM.Result Failure Machine α → EStateM.Result Failure Machine α → Prop
  | ok {x : α} {env env' : Env} {printed : List String} : R env env' →
      Alike R (.ok x ⟨env, printed⟩) (.ok x ⟨env', printed⟩)
  | error {f : Failure} {env env' : Env} {printed : List String} : R env env' →
      Alike R (.error f ⟨env, printed⟩) (.error f ⟨env', printed⟩)

/-- In related environments the action does alike, and it leaves them related. -/
def Action.Respects (R : Env → Env → Prop) (a : Action α) : Prop :=
  ∀ env env' printed, R env env' → Alike R (a ⟨env, printed⟩) (a ⟨env', printed⟩)

namespace Action

variable {R S : Env → Env → Prop} {a : Action α}

theorem Respects.pure (x : α) : Respects R (pure x) := fun _ _ _ h => .ok h

theorem Respects.throw (f : Failure) : Respects R (throw f : Action α) := fun _ _ _ h => .error h

theorem Respects.bind {f : α → Action β} (h : Respects R a) (hf : ∀ x, Respects R (f x)) :
    Respects R (a >>= f) := by
  intro env env' printed hr
  have h := h env env' printed hr
  revert h
  generalize ha : a ⟨env, printed⟩ = r, ha' : a ⟨env', printed⟩ = r'
  rintro (hr | hr)
  · rw [bind_of_ok ha, bind_of_ok ha']
    exact hf _ _ _ _ hr
  · rw [bind_of_error ha, bind_of_error ha']
    exact .error hr

theorem Respects.map (h : Respects R a) (f : α → β) : Respects R (f <$> a) := by
  rw [map_eq_pure_bind]
  exact h.bind fun x => .pure (f x)

theorem Respects.ofExcept (r : Except Failure α) : Respects R (ofExcept r) := by
  cases r with
  | ok x => exact .pure x
  | error f => exact .throw f

theorem printLine_respects (text : String) : Respects R (printLine text) := fun _ _ _ h => .ok h

theorem lookUp_respects {name : Token}
    (h : ∀ env env', R env env' → env'.get? name.lexeme = env.get? name.lexeme) :
    Respects R (lookUp name) := by
  intro env env' printed hr
  rw [lookUp_eq, lookUp_eq]
  simp only [h env env' hr]
  cases env.get? name.lexeme with
  | none => exact .error hr
  | some v => exact .ok hr

theorem assign_respects {name : Token} {v : Value}
    (h : ∀ env env', R env env' →
      Option.Rel R (env.assign? name.lexeme v) (env'.assign? name.lexeme v)) :
    Respects R (assign name v) := by
  intro env env' printed hr
  have h := h env env' hr
  rw [assign_eq, assign_eq]
  dsimp only
  revert h
  generalize env.assign? name.lexeme v = out, env'.assign? name.lexeme v = out'
  rintro (ho | _)
  · exact .ok ho
  · exact .error hr

theorem define_respects {name : String} {v : Value}
    (h : ∀ env env', R env env' → R (env.define name v) (env'.define name v)) :
    Respects R (modifyEnv (Env.define name v)) := fun env env' _ hr => .ok (h env env' hr)

theorem Respects.repeatWhile {c : Action Bool} {a : Action Unit} (hc : Respects R c)
    (h : Respects R a) (rounds : Nat) : Respects R (repeatWhile c a rounds) := by
  induction rounds with
  | zero => exact .throw _
  | succ rounds ih =>
    rw [Action.repeatWhile]
    refine hc.bind fun x => ?_
    cases x with
    | false => exact .pure ()
    | true => exact h.bind fun _ => ih

theorem Respects.forM {f : Stmt → Action Unit} {p : List Stmt}
    (h : ∀ s ∈ p, Respects R (f s)) : Respects R (p.forM f) := by
  induction p with
  | nil => exact .pure ()
  | cons s p ih =>
    obtain ⟨hs, hp⟩ := List.forall_mem_cons.mp h
    exact hs.bind fun _ => ih hp

theorem Respects.inScope {a : Action Unit} (h : Respects S a)
    (hpush : ∀ env env', R env env' → S env.push env'.push)
    (hpop : ∀ env env', S env env' → R env.pop env'.pop) : Respects R (inScope a) := by
  intro env env' printed hr
  have h := h env.push env'.push printed (hpush env env' hr)
  simp only [Action.inScope]
  revert h
  generalize a ⟨env.push, printed⟩ = r, a ⟨env'.push, printed⟩ = r'
  rintro (hs | hs)
  · exact .ok (hpop _ _ hs)
  · exact .error (hpop _ _ hs)

end Action

namespace Env

/-- To declare the name in both environments keeps the relation. -/
def DefineKeeps (R : Env → Env → Prop) (name : String) : Prop :=
  ∀ v env env', R env env' → R (env.define name v) (env'.define name v)

/-- `R k` relates environments in which `k` scopes have been opened. Opening and leaving a scope
keeps the relations, and names that are admitted are found, assigned and declared alike. Nothing is
asked of declarations where no scope has been opened. -/
structure Coupling (R : Nat → Env → Env → Prop) (admitted : NodeKind → String → Prop) : Prop where
  push : ∀ {k env env'}, R k env env' → R (k + 1) env.push env'.push
  pop : ∀ {k env env'}, R (k + 1) env env' → R k env.pop env'.pop
  get? : ∀ {k name env env'}, admitted .var name → R k env env' → env'.get? name = env.get? name
  assign? : ∀ {k name env env'} v, admitted .assign name → R k env env' →
    Option.Rel (R k) (env.assign? name v) (env'.assign? name v)
  define : ∀ {k name}, admitted .declare name → DefineKeeps (R (k + 1)) name

namespace Coupling

variable {R : Nat → Env → Env → Prop} {admitted : NodeKind → String → Prop} {k : Nat}

theorem eval (c : Coupling R admitted) (depth : Nat) {e : Expr} (h : e.outline.Within admitted) :
    (e.eval depth).Respects (R k) := by
  induction depth generalizing e with
  | zero => exact .throw _
  | succ depth ih =>
    cases e with
    | literal v => exact .pure v
    | grouping e => exact ih (h.part (.head _))
    | unary operator e => exact (ih (h.part (.tail _ (.head _)))).bind fun v => .ofExcept _
    | binary l operator r =>
      have hl := ih (h.part (.head _))
      have hr := ih (h.part (.tail _ (.tail _ (.head _))))
      exact hl.bind fun _ => hr.bind fun _ => .ofExcept _
    | logical l operator r =>
      have hl := ih (h.part (.head _))
      have hr := ih (h.part (.tail _ (.tail _ (.head _))))
      refine hl.bind fun v => ?_
      split
      · exact .pure v
      · exact hr
    | ternary c l r =>
      have hc := ih (h.part (.head _))
      have hl := ih (h.part (.tail _ (.head _)))
      have hr := ih (h.part (.tail _ (.tail _ (.head _))))
      refine hc.bind fun v => ?_
      split
      · exact hl
      · exact hr
    | var name => exact Action.lookUp_respects fun _ _ hr => c.get? (h.own rfl) hr
    | assign name e =>
      have he := ih (h.part (.tail _ (.head _)))
      refine he.bind fun v => ?_
      have ha : (Action.assign name v).Respects (R k) :=
        Action.assign_respects fun _ _ hr => c.assign? v (h.own rfl) hr
      exact ha.bind fun _ => .pure v
    | call | get | set | super | this | blank | missing => exact .throw _

/-- What a statement declares outside its blocks it declares in the scope in which it is run; that
has to keep the relation, too. -/
theorem exec (c : Coupling R admitted) (rounds depth : Nat) {s : Stmt}
    (h : s.outline.Within admitted)
    (hd : ∀ name ∈ s.declared, DefineKeeps (R k) name) :
    (s.exec rounds depth).Respects (R k) := by
  -- for every `k`, since the body of a block is run with one more scope open
  induction depth generalizing s k with
  | zero =>
    cases s with
    | failed => exact .pure ()
    | branch c t f => cases f <;> exact .throw _
    | _ => exact .throw _
  | succ depth ih =>
    cases s with
    | failed => exact .pure ()
    | expression e => exact (c.eval depth (h.part (.head _))).map _
    | loose e => exact (c.eval depth h).map _
    | print e =>
      refine (c.eval depth (h.part (.head _))).bind fun v => ?_
      exact (Action.Respects.ofExcept _).bind fun text => Action.printLine_respects text
    | declare name initializer =>
      have hdefine (v : Value) : (Action.modifyEnv (Env.define name.lexeme v)).Respects (R k) :=
        Action.define_respects (hd _ (.head _) v)
      cases initializer with
      | none => exact (Action.Respects.pure Value.nil).bind hdefine
      | some e => exact (c.eval depth (h.part (.tail _ (.head _)))).bind hdefine
    | block body =>
      have hb : (body.forM (Stmt.exec rounds depth)).Respects (R (k + 1)) := by
        apply Action.Respects.forM
        intro s hs
        have hs : s.outline.Within admitted := (h.part (.head _)).item (Stmt.outline_mem hs)
        apply ih hs
        exact fun name hn => c.define (hs _ (Stmt.mem_mentions_of_declared hn))
      exact hb.inScope (fun _ _ => c.push) fun _ _ => c.pop
    | branch e whenTrue whenFalse =>
      cases whenFalse with
      | none =>
        refine (c.eval depth (h.part (.head _))).bind fun v => ?_
        split
        · exact ih (h.part (.tail _ (.head _))) hd
        · exact .pure ()
      | some whenFalse =>
        obtain ⟨ht, hf⟩ := List.forall_mem_append.mp hd
        refine (c.eval depth (h.part (.head _))).bind fun v => ?_
        split
        · exact ih (h.part (.tail _ (.head _))) ht
        · exact ih (h.part (.tail _ (.tail _ (.head _)))) hf
    | loop e body =>
      have hb := ih (h.part (.tail _ (.head _))) hd
      exact ((c.eval depth (h.part (.head _))).map _).repeatWhile hb rounds
    | function | classDef | giveBack | blank | blankNode => exact .throw _

theorem run (c : Coupling R admitted) (limits : Limits) {s : Stmt} (h : s.outline.Within admitted)
    (hd : ∀ name ∈ s.declared, DefineKeeps (R k) name) :
    (s.run limits).Respects (R k) := by
  intro env env' printed hr
  have h := c.exec limits.rounds limits.depth h hd env env' printed hr
  simp only [Stmt.run]
  revert h
  generalize s.exec limits.rounds limits.depth ⟨env, printed⟩ = r,
    s.exec limits.rounds limits.depth ⟨env', printed⟩ = r'
  rintro (ho | @⟨f, _, _, _, ho⟩)
  · exact .ok ho
  · cases f <;> exact .error ho

theorem runProgram (c : Coupling R admitted) (limits : Limits) {p : Program}
    (h : ∀ b ∈ p.mentions, admitted b.1 b.2)
    (hd : ∀ name ∈ p.flatMap Stmt.declared, DefineKeeps (R k) name) :
    (p.run limits).Respects (R k) := by
  apply Action.Respects.forM
  intro s hs
  apply c.run limits
  · exact fun b hb => h b (Program.mem_mentions hs hb)
  · exact fun name hn => hd name (List.mem_flatMap.mpr ⟨s, hs, hn⟩)

end Coupling

end Env

namespace Env

/-- The same `k` scopes have been opened inside of environments that are related. -/
inductive Nested (R : Env → Env → Prop) : (k : Nat) → Env → Env → Prop
  | here {env env' : Env} : R env env' → Nested R 0 env env'
  | under {k : Nat} {env env' : Env} (s : Scope) : Nested R k env env' →
      Nested R (k + 1) (inner s env) (inner s env')

variable {R : Env → Env → Prop} {k : Nat} {env env' : Env} {name : String}

theorem nested_zero_iff : Nested R 0 env env' ↔ R env env' := by
  constructor
  · rintro ⟨h⟩
    exact h
  · exact .here

theorem Nested.get?_eq (h : Nested R k env env')
    (hR : ∀ env env', R env env' → env'.get? name = env.get? name) :
    env'.get? name = env.get? name := by
  induction h with
  | here h => exact hR _ _ h
  | under s _ ih => simp only [get?, ih]

theorem Nested.assign? (h : Nested R k env env') (v : Value)
    (hR : ∀ env env', R env env' → Option.Rel R (env.assign? name v) (env'.assign? name v)) :
    Option.Rel (Nested R k) (env.assign? name v) (env'.assign? name v) := by
  induction h with
  | @here env env' h =>
    have h := hR _ _ h
    revert h
    generalize env.assign? name v = out, env'.assign? name v = out'
    rintro (h | _)
    · exact .some (.here h)
    · exact .none
  | @under k env env' s h ih =>
    rw [Env.assign?, Env.assign?]
    split
    · exact .some (.under _ h)
    · revert ih
      generalize env.assign? name v = out, env'.assign? name v = out'
      rintro (h | _)
      · exact .some (.under s h)
      · exact .none

/-- It is enough that names are found and assigned alike where no scope has been opened. -/
theorem coupling_nested {admitted : NodeKind → String → Prop}
    (hget : ∀ name env env', admitted .var name → R env env' → env'.get? name = env.get? name)
    (hassign : ∀ name v env env', admitted .assign name → R env env' →
      Option.Rel R (env.assign? name v) (env'.assign? name v)) :
    Coupling (Nested R) admitted where
  push := .under []
  pop := by
    rintro k _ _ ⟨⟩
    assumption
  get? hn h := h.get?_eq fun env env' => hget _ env env' hn
  assign? v hn h := h.assign? v fun env env' => hassign _ v env env' hn
  define := by
    rintro k name _ v _ _ ⟨⟩
    exact .under _ ‹_›

/-- A property of environments that assignments to the mentioned names keep, and declarations of
those in `declared`. -/
structure KeptBy (P : Env → Prop) (mentions : List (NodeKind × String)) (declared : List String) :
    Prop where
  assign : ∀ {name v env out}, (.assign, name) ∈ mentions → P env →
    env.assign? name v = some out → P out
  define : ∀ {name v env}, name ∈ declared → P env → P (env.define name v)

namespace KeptBy

variable {P : Env → Prop} {mentions : List (NodeKind × String)} {declared : List String}

theorem coupling (h : KeptBy P mentions declared) :
    Coupling (Nested fun env env' => env' = env ∧ P env) fun kind name =>
      (kind, name) ∈ mentions := by
  apply coupling_nested
  · rintro name env _ _ ⟨rfl, -⟩
    rfl
  · rintro name v _ env hn ⟨rfl, hP⟩
    cases ha : env.assign? name v with
    | none => exact .none
    | some out => exact .some ⟨rfl, h.assign hn hP ha⟩

theorem defineKeeps (h : KeptBy P mentions declared) (hn : name ∈ declared) :
    DefineKeeps (Nested (fun env env' => env' = env ∧ P env) 0) name := by
  rintro v _ env ⟨rfl, hP⟩
  exact .here ⟨rfl, h.define hn hP⟩

end KeptBy

end Env

/-- The machine that an action leaves, with its result or failure. -/
def Action.after (a : Action α) (m : Machine) : Machine :=
  match a m with
  | .ok _ m' => m'
  | .error _ m' => m'

section

variable {P : Env → Prop} {mentions : List (NodeKind × String)} {declared : List String}
  {m : Machine}

theorem Action.Respects.after_env {a : Action α}
    (h : a.Respects (Env.Nested (fun env env' => env' = env ∧ P env) 0)) (hm : P m.env) :
    P (a.after m).env := by
  have h := h m.env m.env m.printed (.here ⟨rfl, hm⟩)
  unfold after
  revert h
  generalize a m = r
  rintro (⟨⟨-, h⟩⟩ | ⟨⟨-, h⟩⟩) <;> exact h

theorem Expr.eval_keeps {e : Expr} (h : Env.KeptBy P e.outline.mentions declared) (depth : Nat)
    (hm : P m.env) : P ((e.eval depth).after m).env :=
  (h.coupling.eval depth fun _ hb => hb).after_env hm

theorem Stmt.exec_keeps {s : Stmt} (h : Env.KeptBy P s.outline.mentions s.declared)
    (rounds depth : Nat) (hm : P m.env) : P ((s.exec rounds depth).after m).env :=
  (h.coupling.exec rounds depth (fun _ hb => hb) fun _ => h.defineKeeps).after_env hm

theorem Program.run_keeps {p : Program}
    (h : Env.KeptBy P p.mentions (p.flatMap Stmt.declared)) (limits : Limits)
    (hm : P m.env) : P ((p.run limits).after m).env :=
  (h.coupling.runProgram limits (fun _ hb => hb) fun _ => h.defineKeeps).after_env hm

end

end Lox
