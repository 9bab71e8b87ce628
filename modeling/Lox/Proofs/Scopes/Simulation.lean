import Lox.Proofs.Scopes.Chain
import Lox.Run.Machine

/-! # Running resolved programs

A resolved program finds its variables by the distances in it, and does what the program does that
searches its scopes. While a program runs, its scopes hold just the names that the text tells at
that point.
-/

namespace Lox

namespace Action

theorem lookUp_eq (name : Token) (m : Machine) : lookUp name m =
    match m.env.get? name.lexeme with
    | some v => .ok v m
    | none => .error (.problem name (.undefinedVariable name.lexeme)) m := by
  show (match m.env.get? name.lexeme with
    | some v => pure v
    | none => throw (.problem name (.undefinedVariable name.lexeme)) : Action Value) m = _
  cases m.env.get? name.lexeme <;> rfl

theorem assign_eq (name : Token) (v : Value) (m : Machine) : assign name v m =
    match m.env.assign? name.lexeme v with
    | some env => .ok () { m with env := env }
    | none => .error (.problem name (.undefinedVariable name.lexeme)) m := by
  show (match m.env.assign? name.lexeme v with
    | some env => modify fun m => { m with env := env }
    | none => throw (.problem name (.undefinedVariable name.lexeme)) : Action Unit) m = _
  cases m.env.assign? name.lexeme v <;> rfl

end Action

/-- How variables are read and written whose distance is known. -/
structure Access where
  read : Token → Distance → Action Value
  write : Token → Distance → Value → Action Unit

namespace Access

/-- Go as many scopes outwards as the distance tells, and look nowhere else. -/
def static : Access where
  read name distance := do
    match (← get).env.getAt? name.lexeme distance.hops with
    | some v => return v
    | none => throw (.problem name (.undefinedVariable name.lexeme))
  write name distance v := do
    match (← get).env.assignAt? name.lexeme v distance.hops with
    | some env => modify fun m => { m with env := env }
    | none => throw (.problem name (.undefinedVariable name.lexeme))

/-- Search the scopes; but do as `other` does if the search does not end at the distance. -/
def checked (other : Access) : Access where
  read name distance m :=
    if m.env.distance name.lexeme = distance then Action.lookUp name m
    else other.read name distance m
  write name distance v m :=
    if m.env.distance name.lexeme = distance then Action.assign name v m
    else other.write name distance v m

/-- If the search ends at the distance, what it finds is what is read and written. -/
structure Faithful (a : Access) : Prop where
  read_eq : ∀ name m, a.read name (m.env.distance name.lexeme) m = Action.lookUp name m
  write_eq : ∀ name v m, a.write name (m.env.distance name.lexeme) v m = Action.assign name v m

theorem static_faithful : static.Faithful where
  read_eq name m := by
    show (match m.env.getAt? name.lexeme (m.env.distance name.lexeme).hops with
      | some v => pure v
      | none => throw (.problem name (.undefinedVariable name.lexeme)) : Action Value) m = _
    rw [Env.getAt?_distance]
    rfl
  write_eq name v m := by
    show (match m.env.assignAt? name.lexeme v (m.env.distance name.lexeme).hops with
      | some env => modify fun m => { m with env := env }
      | none => throw (.problem name (.undefinedVariable name.lexeme)) : Action Unit) m = _
    rw [Env.assignAt?_distance]
    rfl

theorem checked_faithful (other : Access) : (checked other).Faithful where
  read_eq _ _ := if_pos rfl
  write_eq _ _ _ := if_pos rfl

end Access

def BoundExpr.eval (a : Access) : (depth : Nat) → BoundExpr → Action Value
  | depth, .other e => e.eval depth
  | 0, _ => throw .tooDeep
  | _ + 1, .literal v => return v
  | depth + 1, .grouping e => e.eval a depth
  | depth + 1, .unary operator e => do
    let v ← e.eval a depth
    Action.ofExcept (Operator.unary operator v)
  | depth + 1, .binary left operator right => do
    let l ← left.eval a depth
    let r ← right.eval a depth
    Action.ofExcept (Operator.binary operator l r)
  | depth + 1, .logical left operator right => do
    let l ← left.eval a depth
    if l.isTruthy == (operator.kind == .kwOr) then return l else right.eval a depth
  | depth + 1, .ternary condition left right => do
    let c ← condition.eval a depth
    if c.isTruthy then left.eval a depth else right.eval a depth
  | _ + 1, .var name distance => a.read name distance
  | depth + 1, .assign name distance e => do
    let v ← e.eval a depth
    a.write name distance v
    return v

def BoundStmt.exec (a : Access) (rounds : Nat) : (depth : Nat) → BoundStmt → Action Unit
  | depth, .other s => s.exec rounds depth
  | 0, _ => throw .tooDeep
  | depth + 1, .expression e => discard (e.eval a depth)
  | depth + 1, .print e => do
    let v ← e.eval a depth
    let text ← Action.ofExcept (Failure.ofOverflow v.display)
    Action.printLine text
  | depth + 1, .declare name initializer => do
    let v ← match initializer with
      | none => pure .nil
      | some e => e.eval a depth
    Action.modifyEnv (Env.define name.lexeme v)
  | depth + 1, .block body => Action.inScope (body.forM (BoundStmt.exec a rounds depth))
  | depth + 1, .branch condition whenTrue whenFalse => do
    let c ← condition.eval a depth
    if c.isTruthy then whenTrue.exec a rounds depth
    else
      match whenFalse with
      | none => return ()
      | some s => s.exec a rounds depth
  | depth + 1, .loop condition body =>
    Action.repeatWhile (Value.isTruthy <$> condition.eval a depth) (body.exec a rounds depth) rounds

def BoundStmt.run (a : Access) (limits : Limits) (s : BoundStmt) : Action Unit := fun m =>
  match s.exec a limits.rounds limits.depth m with
  | .error .tooDeep m' => .error (.problem s.plain.firstToken .stackOverflow) m'
  | outcome => outcome

def BoundStmt.runAll (a : Access) (limits : Limits) (p : List BoundStmt) : Action Unit :=
  p.forM (BoundStmt.run a limits)

/-- From every machine whose scopes hold the names in `before`, the actions do the same; if they end
with a result, the scopes hold those in `after`. -/
def Simulates {α : Type} (before after : List (List String)) (a b : Action α) : Prop :=
  ∀ m, m.env.Holds before →
    a m = b m ∧ ∀ x m', b m = .ok x m' → m'.env.Holds after

namespace Simulates

variable {α β : Type} {before mid after blocks : List (List String)}

theorem bind {a b : Action α} {f g : α → Action β} (h : Simulates before mid a b)
    (hf : ∀ x, Simulates mid after (f x) (g x)) : Simulates before after (a >>= f) (b >>= g) := by
  intro m hm
  obtain ⟨he, hk⟩ := h m hm
  simp only [Bind.bind, EStateM.bind, he]
  cases hb : b m with
  | ok x m' => exact hf x m' (hk x m' hb)
  | error e m' => exact ⟨rfl, nofun⟩

theorem throw (e : Failure) : Simulates before after (throw e : Action α) (throw e) :=
  fun _ _ => ⟨rfl, nofun⟩

theorem of_ok {a : Action α} {x : α} {f : Machine → Machine} (ha : ∀ m, a m = .ok x (f m))
    (hf : ∀ m : Machine, m.env.Holds before → (f m).env.Holds after) :
    Simulates before after a a := by
  intro m hm
  refine ⟨rfl, ?_⟩
  intro y m' hy
  rw [ha] at hy
  cases hy
  exact hf m hm

theorem pure (x : α) : Simulates blocks blocks (pure x : Action α) (pure x) :=
  of_ok (fun _ => rfl) fun _ hm => hm

theorem ofExcept (r : Except Failure α) :
    Simulates blocks blocks (Action.ofExcept r) (Action.ofExcept r) := by
  cases r with
  | ok x => exact .pure x
  | error e => exact .throw e

theorem printLine (text : String) :
    Simulates blocks blocks (Action.printLine text) (Action.printLine text) :=
  of_ok (fun _ => rfl) fun _ hm => hm

theorem define (name : String) (v : Value) : Simulates blocks (declareIn name blocks)
    (Action.modifyEnv (Env.define name v)) (Action.modifyEnv (Env.define name v)) :=
  of_ok (fun _ => rfl) fun _ hm => hm.define

theorem map (f : α → β) {a b : Action α} (h : Simulates before after a b) :
    Simulates before after (f <$> a) (f <$> b) := by
  rw [map_eq_pure_bind, map_eq_pure_bind]
  exact h.bind fun x => .pure (f x)

theorem inScope {names : List String} {a b : Action Unit}
    (h : Simulates ([] :: blocks) (names :: blocks) a b) :
    Simulates blocks blocks (Action.inScope a) (Action.inScope b) := by
  intro m hm
  obtain ⟨he, hk⟩ := h { m with env := m.env.push } hm.push
  rw [Action.inScope, Action.inScope, he]
  cases hb : b { m with env := m.env.push } with
  | ok x m' =>
    refine ⟨rfl, ?_⟩
    rintro _ _ ⟨⟩
    exact (hk x m' hb).pop
  | error e m' => exact ⟨rfl, nofun⟩

theorem repeatWhile {c d : Action Bool} {a b : Action Unit} (hc : Simulates blocks blocks c d)
    (h : Simulates blocks blocks a b) (rounds : Nat) :
    Simulates blocks blocks (Action.repeatWhile c a rounds) (Action.repeatWhile d b rounds) := by
  induction rounds with
  | zero => exact .throw _
  | succ rounds ih =>
    rw [Action.repeatWhile, Action.repeatWhile]
    refine hc.bind fun x => ?_
    cases x with
    | false => exact .pure ()
    | true => exact h.bind fun _ => ih

end Simulates

theorem Access.Faithful.read_simulates {a : Access} (h : a.Faithful) (name : Token)
    (blocks : List (List String)) :
    Simulates blocks blocks (a.read name (distance name.lexeme blocks)) (Action.lookUp name) := by
  intro m hm
  rw [← hm.distance_eq, h.read_eq]
  refine ⟨rfl, fun v m' hv => ?_⟩
  rw [Action.lookUp_eq] at hv
  split at hv <;> cases hv
  exact hm

theorem Access.Faithful.write_simulates {a : Access} (h : a.Faithful) (name : Token) (v : Value)
    (blocks : List (List String)) :
    Simulates blocks blocks (a.write name (distance name.lexeme blocks) v)
      (Action.assign name v) := by
  intro m hm
  rw [← hm.distance_eq, h.write_eq]
  refine ⟨rfl, fun x m' hx => ?_⟩
  rw [Action.assign_eq] at hx
  split at hx
  · next ha =>
    cases hx
    exact hm.assign ha
  · cases hx

variable {a : Access}

theorem Expr.simulates (h : a.Faithful) (blocks : List (List String)) (depth : Nat) (e : Expr) :
    Simulates blocks blocks ((e.resolve blocks).eval a depth) (e.eval depth) := by
  induction depth generalizing e with
  | zero => cases e <;> simp only [resolve, BoundExpr.eval, eval] <;> exact .throw _
  | succ depth ih =>
    cases e with
    | literal v => exact .pure v
    | grouping e => exact ih e
    | unary operator r => exact (ih r).bind fun v => .ofExcept _
    | binary l operator r => exact (ih l).bind fun _ => (ih r).bind fun _ => .ofExcept _
    | logical l operator r =>
      refine (ih l).bind fun v => ?_
      split
      · exact .pure v
      · exact ih r
    | ternary c l r =>
      refine (ih c).bind fun v => ?_
      split
      · exact ih l
      · exact ih r
    | var name => exact h.read_simulates name blocks
    | assign name e =>
      exact (ih e).bind fun v => (h.write_simulates name v blocks).bind fun _ => .pure v
    | call | get | set | super | this | blank | missing => exact .throw _

theorem Stmt.after_eq {blocks : List (List String)} {s : Stmt} (h : s.declares = false) :
    s.after blocks = blocks := by
  cases s <;> first | rfl | cases h

/-- The names declared after a list of statements. -/
def Stmt.afterAll (blocks : List (List String)) (p : List Stmt) : List (List String) :=
  p.foldl Stmt.after blocks

theorem Stmt.afterAll_nil (p : List Stmt) : Stmt.afterAll [] p = [] := by
  induction p with
  | nil => rfl
  | cons s p ih => cases s <;> exact ih

theorem Stmt.exists_afterAll (names : List String) (blocks : List (List String)) (p : List Stmt) :
    ∃ more, Stmt.afterAll (names :: blocks) p = more :: blocks := by
  induction p generalizing names with
  | nil => exact ⟨names, rfl⟩
  | cons s p ih => cases s <;> exact ih _

theorem Stmt.simulates_forM {f : BoundStmt → Action Unit} {g : Stmt → Action Unit}
    (hf : ∀ blocks s, s.resolvable → Simulates blocks (s.after blocks) (f (s.resolve blocks)) (g s))
    (blocks : List (List String)) {p : List Stmt} (hp : Stmt.resolvableAll p) :
    Simulates blocks (Stmt.afterAll blocks p) ((Stmt.resolveAll blocks p).forM f) (p.forM g) := by
  induction p generalizing blocks with
  | nil => exact .pure ()
  | cons s p ih =>
    obtain ⟨hs, hp⟩ := Bool.and_eq_true_iff.mp hp
    exact (hf blocks s hs).bind fun _ => ih _ hp

theorem Stmt.simulates (h : a.Faithful) (rounds depth : Nat) (blocks : List (List String))
    (s : Stmt) (hs : s.resolvable) :
    Simulates blocks (s.after blocks) ((s.resolve blocks).exec a rounds depth)
      (s.exec rounds depth) := by
  induction depth generalizing blocks s with
  | zero =>
    cases s with
    | failed => cases hs
    | branch c t f => cases f <;> exact .throw _
    | _ => exact .throw _
  | succ depth ih =>
    -- a statement that is not a declaration leaves the names as they are
    have nested : ∀ s : Stmt, (s.resolvable && !s.declares) = true → Simulates blocks blocks
        ((s.resolve blocks).exec a rounds depth) (s.exec rounds depth) := by
      intro s hs
      simp only [Bool.and_eq_true, Bool.not_eq_true'] at hs
      have hi := ih blocks s hs.1
      rwa [Stmt.after_eq hs.2] at hi
    cases s with
    | expression e => exact (e.simulates h blocks depth).map _
    | print e =>
      refine (e.simulates h blocks depth).bind fun v => ?_
      exact (Simulates.ofExcept _).bind fun text => .printLine text
    | declare name initializer =>
      cases initializer with
      | none => exact (Simulates.pure .nil).bind fun v => .define name.lexeme v
      | some e => exact (e.simulates h blocks depth).bind fun v => .define name.lexeme v
    | block body =>
      have hb := simulates_forM ih ([] :: blocks) hs
      obtain ⟨names, hn⟩ := exists_afterAll [] blocks body
      rw [hn] at hb
      exact hb.inScope
    | branch c t f =>
      have hc := c.simulates h blocks depth
      cases f with
      | none =>
        obtain ⟨_, ht⟩ := Bool.and_eq_true_iff.mp hs
        refine hc.bind fun v => ?_
        split
        · exact nested t ht
        · exact .pure ()
      | some f =>
        obtain ⟨hct, hf⟩ := Bool.and_eq_true_iff.mp hs
        obtain ⟨_, ht⟩ := Bool.and_eq_true_iff.mp hct
        refine hc.bind fun v => ?_
        split
        · exact nested t ht
        · exact nested f hf
    | loop c body =>
      have hc := (c.simulates h blocks depth).map Value.isTruthy
      obtain ⟨_, hb⟩ := Bool.and_eq_true_iff.mp hs
      exact hc.repeatWhile (nested body hb) rounds
    | failed | function | classDef | giveBack | loose | blank | blankNode => cases hs

/-- A program and its resolution do the same. -/
theorem Program.simulates (h : a.Faithful) (limits : Limits) {p : Program}
    (hp : Stmt.resolvableAll p) : Simulates [] [] (BoundStmt.runAll a limits p.resolve)
      (p.run limits) := by
  have hs : ∀ blocks (s : Stmt), s.resolvable → Simulates blocks (s.after blocks)
      ((s.resolve blocks).run a limits) (s.run limits) := by
    intro blocks s hs m hm
    obtain ⟨he, hk⟩ := s.simulates h limits.rounds limits.depth blocks hs m hm
    rw [BoundStmt.run, Stmt.run, he, s.plain_resolve]
    refine ⟨rfl, fun x m' hx => ?_⟩
    split at hx
    · cases hx
    · exact hk x m' hx
  have hr := Stmt.simulates_forM hs [] hp
  rwa [Stmt.afterAll_nil] at hr

end Lox
