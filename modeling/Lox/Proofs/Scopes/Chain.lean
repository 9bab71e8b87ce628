import Lox.Proofs.Scopes.Resolution
import Lox.Run.Scope

/-! # Scopes by number

The search for a name ends some number of scopes outwards. In an environment whose inner scopes hold
just the names of the open blocks, that is the distance that the blocks tell.
-/

namespace Lox
namespace Env

/-- Where the search for a name ends. -/
def distance (name : String) : Env → Distance
  | global _ => ⟨0, true⟩
  | inner s env => if (s.get? name).isSome then ⟨0, false⟩ else (env.distance name).outer

/-- The value of a name in the scope that is so many scopes outwards. -/
def getAt? (name : String) : (hops : Nat) → Env → Option Value
  | 0, env => env.current.get? name
  | hops + 1, inner _ env => env.getAt? name hops
  | _ + 1, global _ => none

def assignAt? (name : String) (value : Value) : (hops : Nat) → Env → Option Env
  | 0, env => if (env.current.get? name).isSome then some (env.define name value) else none
  | hops + 1, inner s env => (env.assignAt? name value hops).map (inner s)
  | _ + 1, global _ => none

theorem getAt?_distance (name : String) (env : Env) :
    env.getAt? name (env.distance name).hops = env.get? name := by
  induction env with
  | global s => rfl
  | inner s env ih =>
    rw [distance, get?]
    cases h : s.get? name with
    | none => simpa [getAt?, Distance.outer] using ih
    | some v => simpa [getAt?, current] using h

theorem assignAt?_distance (name : String) (value : Value) (env : Env) :
    env.assignAt? name value (env.distance name).hops = env.assign? name value := by
  induction env with
  | global s => rfl
  | inner s env ih =>
    rw [distance, assign?]
    split
    · next h => simp [assignAt?, current, define, h]
    · simp [assignAt?, Distance.outer, ih]

/-- The inner scopes have just the names of the blocks. -/
def Holds : List (List String) → Env → Prop
  | [], global _ => True
  | names :: blocks, inner s env => (∀ n, (s.get? n).isSome ↔ n ∈ names) ∧ env.Holds blocks
  | _, _ => False

variable {name : String} {value : Value} {names : List String} {blocks : List (List String)}
  {env : Env}

theorem holds_nil : Holds [] env ↔ env.isGlobal := by
  cases env <;> simp [Holds, isGlobal]

theorem Holds.distance_eq (h : Holds blocks env) :
    env.distance name = Lox.distance name blocks := by
  induction env generalizing blocks with
  | global s =>
    cases blocks with
    | nil => rfl
    | cons names blocks => cases h
  | inner s env ih =>
    cases blocks with
    | nil => cases h
    | cons names blocks =>
      rw [distance, Lox.distance, ih h.2]
      simp only [h.1]

theorem Holds.push (h : Holds blocks env) : Holds ([] :: blocks) env.push :=
  ⟨by simp [Scope.get?], h⟩

theorem Holds.pop (h : Holds (names :: blocks) env) : Holds blocks env.pop := by
  cases env with
  | global s => cases h
  | inner s env => exact h.2

theorem Holds.define (h : Holds blocks env) :
    Holds (declareIn name blocks) (env.define name value) := by
  cases env with
  | global s =>
    cases blocks with
    | nil => trivial
    | cons names blocks => cases h
  | inner s env =>
    cases blocks with
    | nil => cases h
    | cons names blocks =>
      refine ⟨fun n => ?_, h.2⟩
      rw [Scope.get?_define, List.mem_cons]
      by_cases hn : n = name <;> simp [hn, h.1]

theorem Holds.assign (h : Holds blocks env) {env' : Env} (ha : env.assign? name value = some env') :
    Holds blocks env' := by
  induction env generalizing blocks env' with
  | global s =>
    rw [assign?] at ha
    split at ha <;> cases ha
    cases blocks with
    | nil => trivial
    | cons names blocks => cases h
  | inner s env ih =>
    cases blocks with
    | nil => cases h
    | cons names blocks =>
      rw [assign?] at ha
      split at ha
      · next hs =>
        cases ha
        refine ⟨fun n => ?_, h.2⟩
        rw [Scope.get?_define, ← h.1]
        by_cases hn : n = name <;> simp [hn, hs]
      · obtain ⟨outer, ho, rfl⟩ := Option.map_eq_some_iff.mp ha
        exact ⟨h.1, ih h.2 ho⟩

end Env
end Lox
