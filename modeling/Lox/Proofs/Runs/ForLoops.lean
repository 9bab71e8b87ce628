import Lox.Proofs.Runs.Deepening
import Lox.Proofs.Scopes.Distance
import Lox.Proofs.Scopes.EmptyScope

/-! # What a `for` does

A `for` is read as a block with a loop in it. It does what its clauses tell: the first one opens a
scope, and in that scope the condition, the body and the step follow each other. The body declares
nothing there, so the names that the condition and the step see are the same in every round.
-/

namespace Lox

variable {rounds depth : Nat} {first : Option Stmt} {condition step : Option Expr} {body : Stmt}

/-- Whether a `for` goes on; it always does if there is no condition. -/
def Expr.evalCondition (depth : Nat) : Option Expr → Action Bool
  | none => return true
  | some e => Value.isTruthy <$> e.eval depth

def Expr.evalStep (depth : Nat) : Option Expr → Action Unit
  | none => return ()
  | some e => discard (e.eval depth)

/-- The rounds of a `for`: as long as the condition holds, the body and then the step. -/
def Stmt.execRounds (rounds depth : Nat) (condition step : Option Expr) (body : Stmt) :
    Action Unit :=
  Action.repeatWhile (Expr.evalCondition depth condition)
    (do
      body.exec rounds depth
      Expr.evalStep depth step)
    rounds

/-- A `for` by its clauses: in one scope of its own, the first clause and then the rounds. -/
def Stmt.execFor (rounds depth : Nat) (first : Option Stmt) (condition step : Option Expr)
    (body : Stmt) : Action Unit :=
  Action.inScope do
    match first with
    | none => pure ()
    | some s => s.exec rounds depth
    Stmt.execRounds rounds depth condition step body

theorem Stmt.declared_eq_nil {s : Stmt} (h : (s.resolvable && !s.declares) = true) :
    s.declared = [] := by
  match s with
  | .declare .. => simp [declares] at h
  | .branch c t none =>
    have hs := (Bool.and_eq_true_iff.mp h).1
    rw [declared, declared_eq_nil (Bool.and_eq_true_iff.mp hs).2]
  | .branch c t (some f) =>
    have hs := (Bool.and_eq_true_iff.mp h).1
    obtain ⟨hct, hf⟩ := Bool.and_eq_true_iff.mp hs
    rw [declared, declared_eq_nil (Bool.and_eq_true_iff.mp hct).2, declared_eq_nil hf,
      List.append_nil]
  | .loop c b =>
    have hs := (Bool.and_eq_true_iff.mp h).1
    rw [declared, declared_eq_nil (Bool.and_eq_true_iff.mp hs).2]
  | .failed | .expression _ | .print _ | .block _ | .function .. | .classDef .. | .giveBack ..
  | .loose _ | .blank | .blankNode => rfl

/-- What is spelt as a statement, and not only as a declaration, declares nothing outside its
blocks. -/
theorem SpellsStatement.declared_eq_nil {ts : List Token} {s : Stmt} {dangling : Bool}
    (h : SpellsStatement ts s dangling) : s.declared = [] :=
  Stmt.declared_eq_nil h.resolvable

namespace Action

theorem evalCondition_respects (depth : Nat) (e : Option Expr) :
    (Expr.evalCondition depth e).Respects (Env.Padded 0) := by
  cases e with
  | none => exact .pure true
  | some e => exact (e.eval_respects depth).map _

theorem evalStep_respects (depth : Nat) (e : Option Expr) :
    (Expr.evalStep depth e).Respects (Env.Padded 0) := by
  cases e with
  | none => exact .pure ()
  | some e => exact (e.eval_respects depth).map _

end Action

theorem Stmt.execRounds_respects (hb : body.declared = []) :
    (execRounds rounds depth condition step body).Respects (Env.Padded 0) := by
  apply (Action.evalCondition_respects depth condition).repeatWhile
  exact (body.exec_respects rounds depth fun _ => hb).bind fun _ =>
    Action.evalStep_respects depth step

theorem Stmt.execFor_none (hb : body.declared = []) :
    execFor rounds depth none condition step body =
      execRounds rounds depth condition step body := by
  simp only [execFor]
  exact (execRounds_respects hb).inScope_eq

theorem Stmt.exec_pair (hb : body.declared = []) (e : Expr) :
    (block [body, .expression e]).exec rounds (depth + 1) =
      body.exec rounds depth >>= fun _ => (Stmt.expression e).exec rounds depth := by
  have hr : Action.Respects (Env.Padded 0)
      (body.exec rounds depth >>= fun _ => (Stmt.expression e).exec rounds depth) :=
    (body.exec_respects rounds depth fun _ => hb).bind fun _ =>
      (Stmt.expression e).exec_respects rounds depth fun _ => rfl
  -- nothing is declared in the block, so it might as well not be there
  rw [← hr.inScope_eq]
  show Action.inScope (body.exec rounds depth >>= fun _ =>
    (Stmt.expression e).exec rounds depth >>= fun _ => pure ()) = _
  rw [bind_pure_unit]

/-- The body of the loop in the tree. -/
def Stmt.withStep (body : Stmt) : Option Expr → Stmt
  | none => body
  | some e => .block [body, .expression e]

theorem Stmt.forLoop_eq : forLoop first condition step body =
    let repeated := loop (condition.getD (.literal (.bool true))) (body.withStep step)
    match first with
    | none => repeated
    | some s => .block [s, repeated] := by
  cases first <;> cases step <;> rfl

section

variable {depth' : Nat}

theorem Expr.condition_deepens (h : depth ≤ depth') (condition : Option Expr) :
    (Value.isTruthy <$> (condition.getD (.literal (.bool true))).eval depth).Deepens
      (evalCondition depth' condition) := by
  cases condition with
  | none =>
    cases depth with
    | zero => exact Action.deepens_of_tooDeep _
    | succ depth => exact .refl _
  | some e => exact (e.eval_deepens h).map _

theorem Expr.evalCondition_deepens (h : depth < depth') (condition : Option Expr) :
    (evalCondition depth condition).Deepens
      (Value.isTruthy <$> (condition.getD (.literal (.bool true))).eval depth') := by
  cases condition with
  | none =>
    obtain ⟨depth', rfl⟩ : ∃ n, depth' = n + 1 := ⟨depth' - 1, by omega⟩
    exact .refl _
  | some e => exact (e.eval_deepens (Nat.le_of_lt h)).map _

theorem Stmt.withStep_deepens (hb : body.declared = []) (h : depth ≤ depth')
    (step : Option Expr) : ((body.withStep step).exec rounds depth).Deepens
      (body.exec rounds depth' >>= fun _ => Expr.evalStep depth' step) := by
  cases step with
  | none =>
    rw [withStep, Expr.evalStep, bind_pure_unit]
    exact body.exec_deepens rounds h
  | some e =>
    cases depth with
    | zero => exact Action.deepens_of_tooDeep _
    | succ depth =>
      rw [withStep, exec_pair hb]
      apply (body.exec_deepens rounds (by omega)).bind
      intro _
      cases depth with
      | zero => exact Action.deepens_of_tooDeep _
      | succ depth => exact (e.eval_deepens (by omega)).map _

theorem Stmt.deepens_withStep (hb : body.declared = []) (h : depth + 2 ≤ depth')
    (step : Option Expr) : (body.exec rounds depth >>= fun _ => Expr.evalStep depth step).Deepens
      ((body.withStep step).exec rounds depth') := by
  cases step with
  | none =>
    rw [withStep, Expr.evalStep, bind_pure_unit]
    exact body.exec_deepens rounds (by omega)
  | some e =>
    obtain ⟨depth', rfl⟩ : ∃ n, depth' = n + 2 := ⟨depth' - 2, by omega⟩
    rw [withStep, exec_pair hb]
    exact (body.exec_deepens rounds (by omega)).bind fun _ => (e.eval_deepens (by omega)).map _

theorem Stmt.loop_deepens (hb : body.declared = []) (h : depth ≤ depth') :
    ((loop (condition.getD (.literal (.bool true))) (body.withStep step)).exec rounds
      depth).Deepens (execRounds rounds depth' condition step body) := by
  cases depth with
  | zero => exact Action.deepens_of_tooDeep _
  | succ depth =>
    apply (Expr.condition_deepens (by omega) condition).repeatWhile
    exact withStep_deepens hb (by omega) step

theorem Stmt.deepens_loop (hb : body.declared = []) (h : depth + 3 ≤ depth') :
    (execRounds rounds depth condition step body).Deepens
      ((loop (condition.getD (.literal (.bool true))) (body.withStep step)).exec rounds
        depth') := by
  obtain ⟨depth', rfl⟩ : ∃ n, depth' = n + 1 := ⟨depth' - 1, by omega⟩
  apply (Expr.evalCondition_deepens (by omega) condition).repeatWhile
  exact deepens_withStep hb (by omega) step

/-- The tree of a `for` does what its clauses tell, unless it goes too deep. -/
theorem Stmt.forLoop_deepens (hb : body.declared = []) (h : depth ≤ depth') :
    ((forLoop first condition step body).exec rounds depth).Deepens
      (execFor rounds depth' first condition step body) := by
  rw [forLoop_eq]
  cases first with
  | none =>
    rw [execFor_none hb]
    exact loop_deepens hb h
  | some s =>
    cases depth with
    | zero => exact Action.deepens_of_tooDeep _
    | succ depth =>
      apply Action.Deepens.inScope
      apply (s.exec_deepens rounds (by omega)).bind
      intro _
      rw [← bind_pure_unit (x := execRounds rounds depth' condition step body)]
      exact (loop_deepens hb (by omega)).bind fun _ => .refl _

/-- What the clauses of a `for` tell, its tree does at a little more depth. -/
theorem Stmt.deepens_forLoop (hb : body.declared = []) (h : depth + 4 ≤ depth') :
    (execFor rounds depth first condition step body).Deepens
      ((forLoop first condition step body).exec rounds depth') := by
  rw [forLoop_eq]
  cases first with
  | none =>
    rw [execFor_none hb]
    exact deepens_loop hb (by omega)
  | some s =>
    obtain ⟨depth', rfl⟩ : ∃ n, depth' = n + 1 := ⟨depth' - 1, by omega⟩
    apply Action.Deepens.inScope
    apply (s.exec_deepens rounds (by omega)).bind
    intro _
    rw [← bind_pure_unit (x := execRounds rounds depth condition step body)]
    exact (deepens_loop hb (by omega)).bind fun _ => .refl _

end

theorem SpellsStatement.exists_for {t : Token} {ts : List Token} {s : Stmt} {dangling : Bool}
    (h : SpellsStatement (t :: ts) s dangling) (ht : t.kind = .kwFor) :
    ∃ first condition step body, SpellsFor (t :: ts) first condition step body ∧
      s = .forLoop first condition step body := by
  generalize hts : t :: ts = us at h
  cases h with
  | forLoop hk ho hf hc hs hp hx hb =>
    exact ⟨_, _, _, _, .mk hk ho hf hc hs hp hx hb rfl, rfl⟩
  | expression h =>
    obtain ⟨u, vs, hu, hk⟩ := h.head
    obtain ⟨rfl, _⟩ := List.cons.inj (hts.trans hu)
    rw [ht] at hk
    cases hk
  | print hk _ _ | block hk _ _ | loop hk _ _ _ _ | branch hk _ _ _ _
  | branchElse hk _ _ _ _ _ _ =>
    obtain ⟨rfl, _⟩ := List.cons.inj hts
    rw [ht] at hk
    cases hk

/-- A `for` that is read without faults does what its clauses tell: unless one of them goes too
deep, its tree and its clauses print the same, fail in the same way and leave the same scopes. No
scope around it has another name afterwards. Its body declares nothing in the scope of the `for`, so
that each name that is looked for after the body, in the step, the condition or the next round, is
found in the same scope as before. -/
theorem forStatement_faithful {d : Nat} {t : Token} {ts rest : List Token} {s : Stmt}
    (ht : t.kind = .kwFor) (h : Parser.statement d (t :: ts) = ⟨.ok s, rest, []⟩) :
    ∃ used first condition step body, t :: ts = used ++ rest ∧
      SpellsFor used first condition step body ∧ ∀ rounds depth,
        (s.exec rounds depth).Deepens (Stmt.execFor rounds depth first condition step body) ∧
        (Stmt.execFor rounds depth first condition step body).Deepens
          (s.exec rounds (depth + 4)) ∧
        (∀ m, ((s.exec rounds depth).after m).env.names = m.env.names) ∧
        ∀ m, ((body.exec rounds depth).after m).env.names = m.env.names ∧ ∀ name,
          ((body.exec rounds depth).after m).env.distance name = m.env.distance name := by
  obtain ⟨used, dangling, hts, hs, _⟩ := (Parser.statement_sound_and_declaration_sound d).1 h
  obtain ⟨u, us, rfl, _⟩ := hs.head
  obtain ⟨rfl, _⟩ := List.cons.inj hts
  have hd := hs.declared_eq_nil
  obtain ⟨first, condition, step, body, hf, rfl⟩ := hs.exists_for ht
  have hb : body.declared = [] := by
    obtain ⟨_, _, _, _, _, _, _, hb, _⟩ := hf
    exact hb.declared_eq_nil
  refine ⟨t :: us, first, condition, step, body, hts, hf, ?_⟩
  intro rounds depth
  refine ⟨?_, ?_, ?_, ?_⟩
  · exact Stmt.forLoop_deepens hb (Nat.le_refl depth)
  · exact Stmt.deepens_forLoop hb (Nat.le_refl _)
  · exact Stmt.names_after_exec hd rounds depth
  · intro m
    have hn := Stmt.names_after_exec hb rounds depth m
    exact ⟨hn, fun name => Env.distance_congr hn name⟩

/-- `for (var i = true; i; i = nil) { var i = false; print i; }` -/
theorem forStatement_faithful_shadowing :
    let token (k : Kind) (lexeme : String) : Token := ⟨k, lexeme, .nil, 1⟩
    let i := token .identifier "i"
    let used := [token .kwFor "for", token .leftParen "(", token .kwVar "var", i,
      token .equal "=", token .kwTrue "true", token .semicolon ";", i, token .semicolon ";", i,
      token .equal "=", token .kwNil "nil", token .rightParen ")", token .leftBrace "\x7b",
      token .kwVar "var", i, token .equal "=", token .kwFalse "false", token .semicolon ";",
      token .kwPrint "print", i, token .semicolon ";", token .rightBrace "\x7d"]
    ∃ s, (token .kwFor "for").kind = .kwFor ∧
      Parser.statement 20 (used ++ [.eof 1]) = ⟨.ok s, [.eof 1], []⟩ ∧
      ∃ first condition step body, SpellsFor used first condition step body ∧
        ∀ rounds depth, (s.exec rounds depth).Deepens
          (Stmt.execFor rounds depth first condition step body) := by
  intro token i used
  have hfaults : (Parser.statement 20 (used ++ [.eof 1])).faults = [] := by decide +kernel
  have hrest : (Parser.statement 20 (used ++ [.eof 1])).rest = [.eof 1] := by decide +kernel
  have hresult : (Parser.statement 20 (used ++ [.eof 1])).result.toOption.isSome := by
    decide +kernel
  obtain ⟨s, h⟩ : ∃ s, Parser.statement 20 (used ++ [.eof 1]) = ⟨.ok s, [.eof 1], []⟩ := by
    generalize Parser.statement 20 (used ++ [.eof 1]) = reply at hfaults hrest hresult ⊢
    obtain ⟨result | s, rest, faults⟩ := reply
    · cases hresult
    · obtain rfl : faults = [] := hfaults
      obtain rfl : rest = [.eof 1] := hrest
      exact ⟨s, rfl⟩
  obtain ⟨used', first, condition, step, body, hts, hf, hs⟩ := forStatement_faithful rfl h
  obtain rfl : used = used' := List.append_cancel_right hts
  exact ⟨s, rfl, h, first, condition, step, body, hf, fun rounds depth => (hs rounds depth).1⟩

end Lox
