import Lox.Run.Scope

/-! # Scopes that share what encloses them

Several environments may enclose their scopes in the same scope, and a change of it shows in all of
them. A forest numbers its scopes; each is enclosed in one with a smaller number, or in none.
-/

namespace Lox

/-- The scopes by number, each with the number of the one around it. -/
abbrev Forest := List (Scope × Option Nat)

namespace Forest

/-- The numbers from a scope outwards, at most `steps` more. -/
def path (f : Forest) : (steps : Nat) → Nat → List Nat
  | 0, i => [i]
  | steps + 1, i =>
    match f[i]? with
    | some (_, some j) => i :: path f steps j
    | _ => [i]

def scope (f : Forest) (i : Nat) : Scope := (f[i]?.map Prod.fst).getD []

def envOf (f : Forest) : List Nat → Env
  | [] => .global []
  | [i] => .global (f.scope i)
  | i :: is => .inner (f.scope i) (f.envOf is)

def env (f : Forest) (i : Nat) : Env := f.envOf (f.path f.length i)

/-- The forest with the scopes of an environment in the place of those of scope `i`. -/
def replace (f : Forest) (i : Nat) (e : Env) : Forest :=
  ((f.path f.length i).zip e.scopes).foldl
    (fun f (j, s) => f.modify j fun (_, parent) => (s, parent)) f

def grow (f : Forest) (parent : Option Nat) : Forest := f ++ [([], parent)]

end Forest
end Lox
