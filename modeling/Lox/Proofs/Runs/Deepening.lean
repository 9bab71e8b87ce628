import Lox.Proofs.Runs.Relining

/-! # Runs that may go deeper

If more nodes may stand inside one another, a tree that was not too deep does what it did. So runs
at different depths agree if none of them goes too deep.
-/

namespace Lox

variable {α β : Type}

namespace Action

/-- The first action goes too deep, or the second does the same. -/
def Deepens (a b : Action α) : Prop := ∀ m, (∃ m', a m = .error .tooDeep m') ∨ b m = a m

variable {a b c : Action α}

theorem Deepens.refl (a : Action α) : a.Deepens a := fun _ => .inr rfl

theorem Deepens.trans (h : a.Deepens b) (h' : b.Deepens c) : a.Deepens c := by
  intro m
  rcases h m with hd | hm
  · exact .inl hd
  · rcases h' m with ⟨m', hd⟩ | hm'
    · exact .inl ⟨m', hm.symm.trans hd⟩
    · exact .inr (hm'.trans hm)

theorem deepens_of_tooDeep (b : Action α) : Deepens (throw .tooDeep) b := fun m => .inl ⟨m, rfl⟩

theorem Deepens.bind {f g : α → Action β} (h : a.Deepens b) (hf : ∀ x, (f x).Deepens (g x)) :
    (a >>= f).Deepens (b >>= g) := by
  intro m
  rcases h m with ⟨m', hd⟩ | hm
  · exact .inl ⟨m', bind_of_error hd f⟩
  · cases ha : a m with
    | ok x m' =>
      rw [bind_of_ok ha, bind_of_ok (hm.trans ha)]
      exact hf x m'
    | error e m' =>
      rw [bind_of_error ha, bind_of_error (hm.trans ha)]
      exact .inr rfl

theorem Deepens.map (h : a.Deepens b) (f : α → β) : (f <$> a).Deepens (f <$> b) := by
  rw [map_eq_pure_bind, map_eq_pure_bind]
  exact h.bind fun x => .refl _

theorem Deepens.inScope {a b : Action Unit} (h : a.Deepens b) : a.inScope.Deepens b.inScope := by
  intro m
  rw [Action.inScope, Action.inScope]
  rcases h { m with env := m.env.push } with ⟨m', hd⟩ | hm
  · rw [hd]
    exact .inl ⟨_, rfl⟩
  · rw [hm]
    exact .inr rfl

theorem Deepens.repeatWhile {c d : Action Bool} {a b : Action Unit} (hc : c.Deepens d)
    (h : a.Deepens b) (rounds : Nat) :
    (Action.repeatWhile c a rounds).Deepens (Action.repeatWhile d b rounds) := by
  induction rounds with
  | zero => exact .refl _
  | succ rounds ih =>
    rw [Action.repeatWhile, Action.repeatWhile]
    refine hc.bind fun x => ?_
    cases x with
    | false => exact .refl _
    | true => exact h.bind fun _ => ih

theorem Deepens.forM {f g : Stmt → Action Unit} (h : ∀ s, (f s).Deepens (g s)) (p : List Stmt) :
    Deepens (p.forM f) (p.forM g) := by
  induction p with
  | nil => exact .refl _
  | cons s p ih => exact (h s).bind fun _ => ih

end Action

theorem Expr.eval_deepens {depth depth' : Nat} (h : depth ≤ depth') (e : Expr) :
    (e.eval depth).Deepens (e.eval depth') := by
  induction depth generalizing e depth' with
  | zero => exact Action.deepens_of_tooDeep _
  | succ depth ih =>
    obtain ⟨depth', rfl⟩ : ∃ n, depth' = n + 1 := ⟨depth' - 1, by omega⟩
    replace ih (e : Expr) := ih (Nat.le_of_succ_le_succ h) e
    cases e with
    | grouping e => exact ih e
    | unary operator e => exact (ih e).bind fun v => .refl _
    | binary l operator r => exact (ih l).bind fun _ => (ih r).bind fun _ => .refl _
    | logical l operator r =>
      refine (ih l).bind fun v => ?_
      split
      · exact .refl _
      · exact ih r
    | ternary c l r =>
      refine (ih c).bind fun v => ?_
      split
      · exact ih l
      · exact ih r
    | assign name e => exact (ih e).bind fun v => .refl _
    | literal | var | call | get | set | super | this | blank | missing => exact .refl _

theorem Stmt.exec_deepens (rounds : Nat) {depth depth' : Nat} (h : depth ≤ depth') (s : Stmt) :
    (s.exec rounds depth).Deepens (s.exec rounds depth') := by
  induction depth generalizing s depth' with
  | zero =>
    cases s with
    | failed =>
      cases depth' <;> exact .refl _
    | branch c t f => cases f <;> exact Action.deepens_of_tooDeep _
    | _ => exact Action.deepens_of_tooDeep _
  | succ depth ih =>
    obtain ⟨depth', rfl⟩ : ∃ n, depth' = n + 1 := ⟨depth' - 1, by omega⟩
    have hd := Nat.le_of_succ_le_succ h
    replace ih (s : Stmt) := ih hd s
    cases s with
    | expression e | loose e => exact (e.eval_deepens hd).map _
    | print e => exact (e.eval_deepens hd).bind fun v => .refl _
    | declare name initializer =>
      cases initializer with
      | none => exact .refl _
      | some e => exact (e.eval_deepens hd).bind fun v => .refl _
    | block body => exact (Action.Deepens.forM ih body).inScope
    | branch c whenTrue whenFalse =>
      cases whenFalse with
      | none =>
        refine (c.eval_deepens hd).bind fun v => ?_
        split
        · exact ih whenTrue
        · exact .refl _
      | some whenFalse =>
        refine (c.eval_deepens hd).bind fun v => ?_
        split
        · exact ih whenTrue
        · exact ih whenFalse
    | loop c body => exact ((c.eval_deepens hd).map _).repeatWhile (ih body) rounds
    | failed | function | classDef | giveBack | blank | blankNode => exact .refl _

end Lox
