import Lox.Proofs.Grammar.Relining
import Lox.Proofs.Scopes.Simulation

/-! # Lines tell the run nothing

If the lines of the tokens in a tree are changed, the tree does the same when it is run, and a
problem is one on the changed line. What has been printed before stays before what is printed.
-/

namespace Lox

variable {g : Token → Int} {old : List String}

mutual

def Outline.reline (g : Token → Int) : Outline → Outline
  | .token t => .token (t.reline g)
  | .list items => .list (Outline.relineAll g items)
  | .node kind parts => .node kind (Outline.relineAll g parts)
  | .failed => .failed
  | .absent => .absent
  | .literal v => .literal v

def Outline.relineAll (g : Token → Int) : List Outline → List Outline
  | [] => []
  | o :: os => o.reline g :: Outline.relineAll g os

end

theorem Outline.relineAll_append (os ps : List Outline) :
    relineAll g (os ++ ps) = relineAll g os ++ relineAll g ps := by
  induction os with
  | nil => rfl
  | cons o os ih => rw [List.cons_append, relineAll, relineAll, ih, List.cons_append]

theorem Outline.firstToken?_relineAll (pending : List Outline) :
    firstToken? (relineAll g pending) = (firstToken? pending).map (Token.reline g) := by
  fun_induction firstToken? pending with
  | case1 => simp [relineAll, firstToken?]
  | case2 => simp [relineAll, reline, firstToken?]
  | case3 items pending ih | case4 kind items pending ih =>
    rw [relineAll_append] at ih
    rw [relineAll, reline, firstToken?, ih]
  | case5 o pending ht hl hn ih =>
    cases o with
    | token t => exact absurd rfl (ht t)
    | list items => exact absurd rfl (hl items)
    | node kind parts => exact absurd rfl (hn kind parts)
    | _ => simp only [relineAll, reline, firstToken?, ih]

mutual

theorem Expr.outline_reline (e : Expr) : (e.reline g).outline = e.outline.reline g := by
  cases e with
  | call f paren args =>
    simp only [reline, outline, Outline.reline, Outline.relineAll, Expr.outline_reline f,
      Expr.outlines_relineAll args]
  | grouping e | unary _ e | assign _ e | get e _ =>
    simp only [reline, outline, Outline.reline, Outline.relineAll, Expr.outline_reline e]
  | binary l _ r | logical l _ r | set l _ r =>
    simp only [reline, outline, Outline.reline, Outline.relineAll, Expr.outline_reline l,
      Expr.outline_reline r]
  | ternary c l r =>
    simp only [reline, outline, Outline.reline, Outline.relineAll, Expr.outline_reline c,
      Expr.outline_reline l, Expr.outline_reline r]
  | _ => rfl

theorem Expr.outlines_relineAll (es : List Expr) :
    Expr.outlines (Expr.relineAll g es) = Outline.relineAll g (Expr.outlines es) := by
  match es with
  | [] => rfl
  | e :: es =>
    simp only [relineAll, outlines, Outline.relineAll, Expr.outline_reline e,
      Expr.outlines_relineAll es]

end

theorem Expr.outline?_reline (e : Option Expr) :
    Expr.outline? (e.map (Expr.reline g)) = (Expr.outline? e).reline g := by
  cases e with
  | none => rfl
  | some e => exact e.outline_reline

theorem Outline.relineAll_tokens (ts : List Token) :
    relineAll g (ts.map .token) = (ts.map (Token.reline g)).map .token := by
  induction ts with
  | nil => rfl
  | cons t ts ih => simp only [List.map_cons, relineAll, reline, ih]

mutual

theorem Stmt.outline_reline (s : Stmt) : (s.reline g).outline = s.outline.reline g := by
  cases s with
  | expression e | print e | loose e =>
    simp only [reline, outline, Outline.reline, Outline.relineAll, Expr.outline_reline]
  | declare _ e | giveBack _ e =>
    simp only [reline, outline, Outline.reline, Outline.relineAll, Expr.outline?_reline]
  | block body =>
    simp only [reline, outline, Outline.reline, Outline.relineAll, Stmt.outlines_reline body]
  | branch c t f =>
    cases f with
    | none =>
      simp only [reline, outline, Outline.reline, Outline.relineAll, Expr.outline_reline,
        Stmt.outline_reline t]
    | some f =>
      simp only [reline, outline, Outline.reline, Outline.relineAll, Expr.outline_reline,
        Stmt.outline_reline t, Stmt.outline_reline f]
  | loop c body =>
    simp only [reline, outline, Outline.reline, Outline.relineAll, Expr.outline_reline,
      Stmt.outline_reline body]
  | function _ params body =>
    simp only [reline, outline, Outline.reline, Outline.relineAll, Outline.relineAll_tokens,
      Stmt.outlines_reline body]
  | classDef _ super methods =>
    cases super <;>
      simp only [reline, outline, Outline.reline, Outline.relineAll, Option.map,
        Stmt.outlines_reline methods]
  | failed | blank | blankNode => rfl

theorem Stmt.outlines_reline (p : List Stmt) :
    Stmt.outlines (Program.reline g p) = Outline.relineAll g (Stmt.outlines p) := by
  match p with
  | [] => rfl
  | s :: p =>
    simp only [Program.reline, outlines, Outline.relineAll, Stmt.outline_reline s,
      Stmt.outlines_reline p]

end

def Stmt.firstToken? (s : Stmt) : Option Token := Outline.firstToken? [s.outline]

theorem Stmt.firstToken?_reline (s : Stmt) :
    (s.reline g).firstToken? = s.firstToken?.map (Token.reline g) := by
  rw [firstToken?, firstToken?, outline_reline, ← Outline.firstToken?_relineAll]
  rfl

def Failure.reline (g : Token → Int) : Failure → Failure
  | problem t p => problem (t.reline g) p
  | f => f

namespace Failure

theorem mapError_bind {α β : Type} (x : Except Failure α) (f : α → Except Failure β) :
    (x >>= f).mapError (reline g) =
      x.mapError (reline g) >>= fun a => (f a).mapError (reline g) := by
  cases x <;> rfl

theorem mapError_map {α β : Type} (x : Except Failure α) (f : α → β) :
    (x.map f).mapError (reline g) = (x.mapError (reline g)).map f := by
  cases x <;> rfl

theorem mapError_ofOverflow {α : Type} (x : Except Overflow α) :
    (ofOverflow x).mapError (reline g) = ofOverflow x := by
  cases x <;> rfl

end Failure

namespace Operator

open Failure

variable {operator : Token} {l r : Value}

theorem toNumber_reline (v : Value) :
    v.toNumber (operator.reline g) = (v.toNumber operator).mapError (Failure.reline g) := by
  cases v <;> rfl

theorem onNumbers_reline {f f' : Number → Number → Except Failure Value}
    (hf : ∀ m n, f' m n = (f m n).mapError (Failure.reline g)) :
    onNumbers (operator.reline g) f' l r =
      (onNumbers operator f l r).mapError (Failure.reline g) := by
  simp only [onNumbers, mapError_bind, toNumber_reline, hf]

theorem add_reline :
    add (operator.reline g) l r = (add operator l r).mapError (Failure.reline g) := by
  unfold add
  split
  · rw [mapError_map, mapError_ofOverflow]
  · rw [mapError_bind, mapError_ofOverflow]
    congr 1
    funext left
    rw [mapError_bind, mapError_ofOverflow]
    congr 1
    funext right
    split <;> rfl

theorem binary_reline (operator : Token) (l r : Value) :
    binary (operator.reline g) l r = (binary operator l r).mapError (Failure.reline g) := by
  unfold binary
  rw [Token.reline_kind]
  cases operator.kind
  case plus => exact add_reline
  case minus | star =>
    refine onNumbers_reline fun m n => ?_
    rw [mapError_map, mapError_ofOverflow]
  case slash =>
    refine onNumbers_reline fun m n => ?_
    split
    · rfl
    · rw [mapError_map, mapError_ofOverflow]
  case greater | greaterEqual | less | lessEqual => exact onNumbers_reline fun _ _ => rfl
  all_goals rfl

theorem unary_reline (operator : Token) (v : Value) :
    unary (operator.reline g) v = (unary operator v).mapError (Failure.reline g) := by
  unfold unary
  rw [Token.reline_kind]
  cases operator.kind
  case minus => rw [mapError_map, toNumber_reline]
  all_goals rfl

end Operator

namespace Action

variable {α β : Type} {a : Action α} {m m' : Machine}

theorem bind_of_ok {x : α} (h : a m = .ok x m') (f : α → Action β) : (a >>= f) m = f x m' := by
  simp only [Bind.bind, EStateM.bind, h]

theorem bind_of_error {e : Failure} (h : a m = .error e m') (f : α → Action β) :
    (a >>= f) m = .error e m' := by
  simp only [Bind.bind, EStateM.bind, h]

end Action

/-- The machine, if `old` had been printed before. -/
def Machine.after (old : List String) (m : Machine) : Machine :=
  { m with printed := m.printed ++ old }

@[simp] theorem Machine.env_after (m : Machine) : (m.after old).env = m.env := rfl

/-- After `old`, the second action does from `m` on what the first does; if it fails, it is on
another line. -/
def MirrorsAt {α : Type} (g : Token → Int) (old : List String) (a a' : Action α) (m : Machine) :
    Prop :=
  a' (m.after old) =
    match a m with
    | .ok x m' => .ok x (m'.after old)
    | .error f m' => .error (f.reline g) (m'.after old)

theorem MirrorsAt.bind {α β : Type} {a a' : Action α} {f f' : α → Action β} {m : Machine}
    (h : MirrorsAt g old a a' m)
    (hf : ∀ x m', a m = .ok x m' → MirrorsAt g old (f x) (f' x) m') :
    MirrorsAt g old (a >>= f) (a' >>= f') m := by
  unfold MirrorsAt at h ⊢
  cases ha : a m with
  | ok x m' =>
    rw [ha] at h
    rw [Action.bind_of_ok ha, Action.bind_of_ok h]
    exact hf x m' ha
  | error e m' =>
    rw [ha] at h
    rw [Action.bind_of_error ha, Action.bind_of_error h]

def Mirrors {α : Type} (g : Token → Int) (old : List String) (a a' : Action α) : Prop :=
  ∀ m, MirrorsAt g old a a' m

namespace Mirrors

variable {α β : Type}

theorem pure (x : α) : Mirrors g old (pure x) (pure x) := fun _ => rfl

theorem throw {f : Failure} : Mirrors g old (throw f : Action α) (throw (f.reline g)) :=
  fun _ => rfl

theorem bind {a a' : Action α} {f f' : α → Action β} (h : Mirrors g old a a')
    (hf : ∀ x, Mirrors g old (f x) (f' x)) : Mirrors g old (a >>= f) (a' >>= f') :=
  fun m => (h m).bind fun x m' _ => hf x m'

theorem map {a a' : Action α} (h : Mirrors g old a a') (f : α → β) :
    Mirrors g old (f <$> a) (f <$> a') := by
  rw [map_eq_pure_bind, map_eq_pure_bind]
  exact h.bind fun x => .pure (f x)

theorem ofExcept (x : Except Failure α) :
    Mirrors g old (Action.ofExcept x) (Action.ofExcept (x.mapError (Failure.reline g))) := by
  cases x with
  | ok x => exact .pure x
  | error f => exact .throw

theorem lookUp (name : Token) :
    Mirrors g old (Action.lookUp name) (Action.lookUp (name.reline g)) := by
  intro m
  unfold MirrorsAt
  rw [Action.lookUp_eq, Action.lookUp_eq, Token.reline_lexeme, Machine.env_after]
  cases m.env.get? name.lexeme <;> rfl

theorem assign (name : Token) (v : Value) :
    Mirrors g old (Action.assign name v) (Action.assign (name.reline g) v) := by
  intro m
  unfold MirrorsAt
  rw [Action.assign_eq, Action.assign_eq, Token.reline_lexeme, Machine.env_after]
  cases m.env.assign? name.lexeme v <;> rfl

theorem modifyEnv (f : Env → Env) : Mirrors g old (Action.modifyEnv f) (Action.modifyEnv f) :=
  fun _ => rfl

theorem printLine (text : String) : Mirrors g old (Action.printLine text) (Action.printLine text) :=
  fun _ => rfl

theorem inScope {a a' : Action Unit} (h : Mirrors g old a a') :
    Mirrors g old (Action.inScope a) (Action.inScope a') := by
  intro m
  have h : a' { m.after old with env := (m.after old).env.push } = _ :=
    h { m with env := m.env.push }
  unfold MirrorsAt
  rw [Action.inScope, Action.inScope, h]
  cases a { m with env := m.env.push } <;> rfl

theorem repeatWhile {c c' : Action Bool} {a a' : Action Unit} (hc : Mirrors g old c c')
    (h : Mirrors g old a a') (rounds : Nat) :
    Mirrors g old (Action.repeatWhile c a rounds) (Action.repeatWhile c' a' rounds) := by
  induction rounds with
  | zero => exact .throw
  | succ rounds ih =>
    rw [Action.repeatWhile, Action.repeatWhile]
    refine hc.bind fun x => ?_
    cases x with
    | false => exact .pure ()
    | true => exact h.bind fun _ => ih

theorem forM {f : Stmt → Action Unit} (hf : ∀ s, Mirrors g old (f s) (f (s.reline g)))
    (p : List Stmt) : Mirrors g old (p.forM f) ((Program.reline g p).forM f) := by
  induction p with
  | nil => exact .pure ()
  | cons s p ih => exact (hf s).bind fun _ => ih

end Mirrors

theorem Expr.mirrors (depth : Nat) (e : Expr) :
    Mirrors g old (e.eval depth) ((e.reline g).eval depth) := by
  induction depth generalizing e with
  | zero => exact .throw
  | succ depth ih =>
    cases e with
    | literal v => exact .pure v
    | grouping e => exact ih e
    | unary operator e =>
      refine (ih e).bind fun v => ?_
      rw [Operator.unary_reline]
      exact .ofExcept _
    | binary l operator r =>
      refine (ih l).bind fun x => (ih r).bind fun y => ?_
      rw [Operator.binary_reline]
      exact .ofExcept _
    | logical l operator r =>
      refine (ih l).bind fun v => ?_
      rw [Token.reline_kind]
      split
      · exact .pure v
      · exact ih r
    | ternary c l r =>
      refine (ih c).bind fun v => ?_
      split
      · exact ih l
      · exact ih r
    | var name => exact .lookUp name
    | assign name e => exact (ih e).bind fun v => (Mirrors.assign name v).bind fun _ => .pure v
    | call | get | set | super | this | blank | missing => exact .throw

theorem Stmt.mirrors (rounds depth : Nat) (s : Stmt) :
    Mirrors g old (s.exec rounds depth) ((s.reline g).exec rounds depth) := by
  induction depth generalizing s with
  | zero =>
    cases s with
    | failed => exact .pure ()
    | branch c t f => cases f <;> exact .throw
    | _ => exact .throw
  | succ depth ih =>
    cases s with
    | failed => exact .pure ()
    | expression e | loose e => exact (Expr.mirrors depth e).map _
    | print e =>
      refine (Expr.mirrors depth e).bind fun v => ?_
      have ht : Mirrors g old (Action.ofExcept (Failure.ofOverflow v.display)) _ := .ofExcept _
      rw [Failure.mapError_ofOverflow] at ht
      exact ht.bind fun text => .printLine text
    | declare name initializer =>
      cases initializer with
      | none => exact (Mirrors.pure Value.nil).bind fun v => .modifyEnv _
      | some e => exact (Expr.mirrors depth e).bind fun v => .modifyEnv _
    | block body => exact (Mirrors.forM ih body).inScope
    | branch c whenTrue whenFalse =>
      cases whenFalse with
      | none =>
        refine (Expr.mirrors depth c).bind fun v => ?_
        split
        · exact ih whenTrue
        · exact .pure ()
      | some s =>
        refine (Expr.mirrors depth c).bind fun v => ?_
        split
        · exact ih whenTrue
        · exact ih s
    | loop c body =>
      exact ((Expr.mirrors depth c).map Value.isTruthy).repeatWhile (ih body) rounds
    | function | classDef | giveBack | blank | blankNode => exact .throw

end Lox
