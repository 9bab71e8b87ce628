import Lox.Value.Text

/-! # Scopes

A scope holds the variables declared in one block, in the order of their first declaration. An
environment is a chain of scopes, the current one first and the global one last. Names are looked up
and assigned from the inside out; declarations always go to the current scope.
-/

namespace Lox

abbrev Scope := List (String × Value)

namespace Scope

def get? (s : Scope) (name : String) : Option Value := s.lookup name

def names (s : Scope) : List String := s.map Prod.fst

/-- Bind a name. A name that is bound already keeps its place. -/
def define (name : String) (value : Value) : Scope → Scope
  | [] => [(name, value)]
  | (n, v) :: s => if n = name then (n, value) :: s else (n, v) :: define name value s

theorem get?_define (s : Scope) (name other : String) (value : Value) :
    (s.define name value).get? other = if other = name then some value else s.get? other := by
  induction s with
  | nil => simp only [define, get?]; grind
  | cons b s ih =>
    obtain ⟨n, v⟩ := b
    simp only [get?] at ih ⊢
    by_cases hn : n = name <;> by_cases ho : other = n <;> grind [define]

theorem names_define (s : Scope) (name : String) (value : Value) :
    (s.define name value).names = if name ∈ s.names then s.names else s.names ++ [name] := by
  induction s with
  | nil => rfl
  | cons b s ih =>
    obtain ⟨n, v⟩ := b
    simp only [names] at ih ⊢
    by_cases hn : n = name <;> grind [define]

theorem isSome_get?_iff (s : Scope) (name : String) : (s.get? name).isSome ↔ name ∈ s.names := by
  induction s with
  | nil => simp [get?, names]
  | cons b s ih =>
    simp only [get?, names] at ih ⊢
    by_cases h : name = b.1 <;> grind

end Scope

inductive Env
  | global (scope : Scope)
  | inner (scope : Scope) (enclosing : Env)
  deriving DecidableEq

namespace Env

def current : Env → Scope
  | global s => s
  | inner s _ => s

/-- The scope that encloses all others. -/
def globals : Env → Scope
  | global s => s
  | inner _ env => env.globals

def isGlobal : Env → Bool
  | global _ => true
  | inner .. => false

def push (env : Env) : Env := inner [] env

/-- Leave the current scope. The global scope is never left. -/
def pop : Env → Env
  | global s => global s
  | inner _ env => env

def define (name : String) (value : Value) : Env → Env
  | global s => global (s.define name value)
  | inner s env => inner (s.define name value) env

/-- The value of a name in the innermost scope that has it. -/
def get? (name : String) : Env → Option Value
  | global s => s.get? name
  | inner s env => (s.get? name).or (env.get? name)

/-- Change a name in the innermost scope that has it. -/
def assign? (name : String) (value : Value) : Env → Option Env
  | global s => if (s.get? name).isSome then some (global (s.define name value)) else none
  | inner s env =>
    if (s.get? name).isSome then some (inner (s.define name value) env)
    else (env.assign? name value).map (inner s)

def contains (name : String) : Env → Bool
  | global s => (s.get? name).isSome
  | inner s env => (s.get? name).isSome || env.contains name

def scopes : Env → List Scope
  | global s => [s]
  | inner s env => s :: env.scopes

@[simp] theorem pop_push (env : Env) : env.push.pop = env := rfl

theorem isSome_get? (env : Env) (name : String) : (env.get? name).isSome = env.contains name := by
  induction env with
  | global s => rfl
  | inner s env ih => simp [get?, contains, ih]

theorem isSome_assign? (env : Env) (name : String) (value : Value) :
    (env.assign? name value).isSome = env.contains name := by
  induction env with
  | global s => by_cases h : (s.get? name).isSome <;> simp [assign?, contains, h]
  | inner s env ih => by_cases h : (s.get? name).isSome <;> simp [assign?, contains, h, ih]

def scopeRecord (s : Scope) : String :=
  "\x7b" ++ String.intercalate ", " (s.map fun b => Text.quoted b.1 ++ ": " ++ b.2.record true)
    ++ "\x7d"

def record : Env → String
  | global s => "Environment(" ++ scopeRecord s ++ ", enclosing=None)"
  | inner s env => "Environment(" ++ scopeRecord s ++ ", enclosing=" ++ env.record ++ ")"

end Env
end Lox
