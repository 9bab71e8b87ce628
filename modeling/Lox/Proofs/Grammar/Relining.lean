import Lox.Proofs.Grammar.Lookahead

/-! # Lines tell the parser nothing

If the lines of the tokens are changed, the same tree is read and the same faults are found, with
the lines changed.
-/

namespace Lox

variable {g : Token → Int}

def Token.reline (g : Token → Int) (t : Token) : Token := { t with line := g t }

@[simp] theorem Token.reline_kind (t : Token) : (t.reline g).kind = t.kind := rfl

@[simp] theorem Token.reline_lexeme (t : Token) : (t.reline g).lexeme = t.lexeme := rfl

mutual

def Expr.reline (g : Token → Int) : Expr → Expr
  | .literal v => .literal v
  | .grouping e => .grouping (e.reline g)
  | .unary op e => .unary (op.reline g) (e.reline g)
  | .binary l op r => .binary (l.reline g) (op.reline g) (r.reline g)
  | .logical l op r => .logical (l.reline g) (op.reline g) (r.reline g)
  | .ternary c l r => .ternary (c.reline g) (l.reline g) (r.reline g)
  | .var n => .var (n.reline g)
  | .assign n e => .assign (n.reline g) (e.reline g)
  | .call f paren args => .call (f.reline g) (paren.reline g) (Expr.relineAll g args)
  | .get o n => .get (o.reline g) (n.reline g)
  | .set o n e => .set (o.reline g) (n.reline g) (e.reline g)
  | .super k m => .super (k.reline g) (m.reline g)
  | .this k => .this (k.reline g)
  | .blank => .blank
  | .missing => .missing

def Expr.relineAll (g : Token → Int) : List Expr → List Expr
  | [] => []
  | e :: es => e.reline g :: Expr.relineAll g es

end

mutual

def Stmt.reline (g : Token → Int) : Stmt → Stmt
  | .failed => .failed
  | .expression e => .expression (e.reline g)
  | .print e => .print (e.reline g)
  | .declare n e => .declare (n.reline g) (e.map (Expr.reline g))
  | .block body => .block (Program.reline g body)
  | .branch c t none => .branch (c.reline g) (t.reline g) none
  | .branch c t (some e) => .branch (c.reline g) (t.reline g) (some (e.reline g))
  | .loop c body => .loop (c.reline g) (body.reline g)
  | .function n params body =>
    .function (n.reline g) (params.map (Token.reline g)) (Program.reline g body)
  | .classDef n super methods =>
    .classDef (n.reline g) (super.map (Token.reline g)) (Program.reline g methods)
  | .giveBack k e => .giveBack (k.reline g) (e.map (Expr.reline g))
  | .loose e => .loose (e.reline g)
  | .blank => .blank
  | .blankNode => .blankNode

def Program.reline (g : Token → Int) : List Stmt → List Stmt
  | [] => []
  | s :: p => s.reline g :: Program.reline g p

end

theorem Stmt.reline_forLoop (first : Option Stmt) (c step : Option Expr) (body : Stmt) :
    (Stmt.forLoop first c step body).reline g =
      Stmt.forLoop (first.map (Stmt.reline g)) (c.map (Expr.reline g)) (step.map (Expr.reline g))
        (body.reline g) := by
  cases first <;> cases c <;> cases step <;>
    simp [Stmt.forLoop, Stmt.reline, Program.reline, Expr.reline]

def Fault.reline (g : Token → Int) (f : Fault) : Fault := { f with token := f.token.reline g }

/-- A reply for the tokens with their lines changed; `h` changes the result. -/
def Reply.reline {α β : Type} (g : Token → Int) (h : α → β) (reply : Reply α) : Reply β :=
  ⟨reply.result.map h, reply.rest.map (Token.reline g), reply.faults.map (Fault.reline g)⟩

namespace Parser

variable {α β α' β' : Type}

/-- `q` reads the tokens with their lines changed as `p` reads the tokens. -/
def Relines (g : Token → Int) (h : α → α') (p : Parser α) (q : Parser α') : Prop :=
  ∀ ts, q (ts.map (Token.reline g)) = (p ts).reline g h

namespace Relines

variable {h : α → α'} {k : β → β'} {p : Parser α} {q : Parser α'}

theorem bind {f : α → Parser β} {f' : α' → Parser β'} (hp : Relines g h p q)
    (hf : ∀ a, Relines g k (f a) (f' (h a))) : Relines g k (p >>= f) (q >>= f') := by
  intro ts
  have hq := hp ts
  rcases hr : p ts with ⟨s | a, mid, fs⟩ <;> rw [hr] at hq
  · rw [bind_error hr, bind_error hq]
    rfl
  · rw [bind_ok hr, bind_ok hq, hf a mid]
    simp only [Reply.reline, List.map_append]

protected theorem pure (a : α) : Relines g h (pure a) (pure (h a)) := fun _ => rfl

theorem map {f : α → β} {f' : α' → β'} (hp : Relines g h p q) (hf : ∀ a, f' (h a) = k (f a)) :
    Relines g k (f <$> p) (f' <$> q) := by
  rw [← bind_pure_eq_map, ← bind_pure_eq_map]
  refine hp.bind fun a => ?_
  rw [hf]
  exact .pure (f a)

protected theorem stop (s : Stop) : Relines g h (stop s) (stop s) := fun _ => rfl

protected theorem raise (t : Token) (e : SyntaxError) :
    Relines g h (raise t e) (raise (t.reline g) e) := fun _ => rfl

protected theorem note (t : Token) (e : SyntaxError) :
    Relines g id (note t e) (note (t.reline g) e) := fun _ => rfl

protected theorem peek : Relines g (Token.reline g) peek peek := by
  intro ts
  cases ts <;> rfl

protected theorem atEnd : Relines g id atEnd atEnd := Relines.peek.bind fun _ => .pure _

protected theorem check (k : Kind) : Relines g id (check k) (check k) :=
  Relines.peek.bind fun _ => .pure _

protected theorem skip : Relines g id skip skip := by
  intro ts
  cases ts with
  | nil => rfl
  | cons t ts =>
    by_cases ht : t.kind = .eof <;> simp [skip, ht, Reply.reline, Except.map]

protected theorem accept (accepted : Kind → Bool) :
    Relines g (Option.map (Token.reline g)) (accept accepted) (accept accepted) := by
  intro ts
  cases ts with
  | nil => rfl
  | cons t ts =>
    rw [List.map_cons]
    by_cases ha : t.kind = .eof ∨ accepted t.kind = false
    · rw [accept_none ha, accept_none (t := t.reline g) ha]
      rfl
    · obtain ⟨ht, ha⟩ : t.kind ≠ .eof ∧ accepted t.kind := by simpa using ha
      rw [accept_some ht ha, accept_some (t := t.reline g) ht ha]
      rfl

protected theorem accepts (k : Kind) : Relines g id (accepts k) (accepts k) := by
  refine (Relines.accept _).bind fun x => ?_
  cases x <;> exact .pure _

protected theorem expect (k : Kind) (e : SyntaxError) :
    Relines g (Token.reline g) (expect k e) (expect k e) := by
  refine (Relines.accept _).bind fun x => ?_
  cases x with
  | none => exact Relines.peek.bind fun t => .raise t e
  | some t => exact .pure t

theorem ite {p' : Parser α} {q' : Parser α'} (hp : Relines g h p q) (hp' : Relines g h p' q')
    (b : Bool) : Relines g h (if b then p else p') (if b then q else q') := by
  cases b with
  | true => exact hp
  | false => exact hp'

theorem optional {k : Kind} {f : Option α → Parser β} {f' : Option α' → Parser β'} {k' : β → β'}
    (hp : Relines g h p q) (hf : ∀ x, Relines g k' (f x) (f' (x.map h))) :
    Relines g k'
      (do
        let x ← if ← accepts k then some <$> p else Pure.pure none
        f x)
      (do
        let x ← if ← accepts k then some <$> q else Pure.pure none
        f' x) := by
  refine (Relines.accepts k).bind fun b => .ite ?_ ?_ b
  · exact (hp.map (k := Option.map h) fun _ => rfl).bind hf
  · exact hf none

theorem omittable {k : Kind} {f : Option α → Parser β} {f' : Option α' → Parser β'} {k' : β → β'}
    (hp : Relines g h p q) (hf : ∀ x, Relines g k' (f x) (f' (x.map h))) :
    Relines g k'
      (do
        let x ← if ← check k then Pure.pure none else some <$> p
        f x)
      (do
        let x ← if ← check k then Pure.pure none else some <$> q
        f' x) := by
  refine (Relines.check k).bind fun b => .ite ?_ ?_ b
  · exact hf none
  · exact (hp.map (k := Option.map h) fun _ => rfl).bind hf

end Relines

theorem chain_relines {l : Level} {p : Parser Expr} (hp : Relines g (Expr.reline g) p p)
    (clock : List Token) (left : Expr) :
    Relines g (Expr.reline g) (chain l p clock left)
      (chain l p (clock.map (Token.reline g)) (left.reline g)) := by
  induction clock generalizing left with
  | nil => exact .stop _
  | cons c clock ih =>
    refine (Relines.accept _).bind fun x => ?_
    cases x with
    | none => exact .pure left
    | some operator =>
      refine hp.bind fun right => ?_
      have hj : l.join (left.reline g) (operator.reline g) (right.reline g) =
          (l.join left operator right).reline g := by
        cases l <;> simp only [Level.join, Expr.reline]
      show Relines _ _ _ (chain l p _ (l.join (left.reline g) (operator.reline g) (right.reline g)))
      rw [hj]
      exact ih _

theorem assignTo_relines (left : Expr) (equals : Token) (value : Expr) :
    Relines g (Expr.reline g) (assignTo left equals value)
      (assignTo (left.reline g) (equals.reline g) (value.reline g)) := by
  intro ts
  cases left <;> rfl

theorem primary_relines {p : Parser Expr} (hp : Relines g (Expr.reline g) p p) :
    Relines g (Expr.reline g) (primary p) (primary p) := by
  refine Relines.peek.bind fun t => ?_
  rw [Token.reline_kind]
  cases t.kind
  case kwFalse | kwTrue | kwNil | number | string | identifier =>
    exact Relines.skip.bind fun _ => .pure _
  case leftParen =>
    exact Relines.skip.bind fun _ => hp.bind fun e => (Relines.expect _ _).bind fun _ => .pure _
  all_goals exact .raise t _

theorem rule_relines (d : Nat) (r : Rule) : Relines g (Expr.reline g) (rule d r) (rule d r) := by
  induction d generalizing r with
  | zero => exact .stop _
  | succ d ih =>
    cases r with
    | assignment =>
      refine (ih .ternary).bind fun left => (Relines.accept _).bind fun x => ?_
      cases x with
      | none => exact .pure left
      | some equals => exact (ih .assignment).bind fun value => assignTo_relines left equals value
    | ternary =>
      refine (ih _).bind fun c => (Relines.accept _).bind fun x => ?_
      cases x with
      | none => exact .pure c
      | some _ =>
        refine (ih _).bind fun left => (Relines.expect _ _).bind fun _ => ?_
        exact (ih _).bind fun right => .pure (Expr.ternary c left right)
    | level l =>
      intro ts
      exact (ih _).bind (fun left => chain_relines (ih _) ts left) ts
    | unary =>
      refine (Relines.accept _).bind fun x => ?_
      cases x with
      | none => exact ih .primary
      | some operator => exact (ih _).bind fun right => .pure (Expr.unary operator right)
    | primary => exact primary_relines (ih _)

theorem variableDeclaration_relines (d : Nat) :
    Relines g (Stmt.reline g) (variableDeclaration d) (variableDeclaration d) :=
  (Relines.expect _ _).bind fun name => .optional (rule_relines d _) fun x =>
    (Relines.expect _ _).bind fun _ => .pure (Stmt.declare name x)

theorem expressionStatement_relines (d : Nat) :
    Relines g (Stmt.reline g) (expressionStatement d) (expressionStatement d) :=
  (rule_relines d _).bind fun e => (Relines.expect _ _).bind fun _ => .pure (Stmt.expression e)

theorem printStatement_relines (d : Nat) :
    Relines g (Stmt.reline g) (printStatement d) (printStatement d) :=
  (rule_relines d _).bind fun e => (Relines.expect _ _).bind fun _ => .pure (Stmt.print e)

theorem firstClause_relines (d : Nat) :
    Relines g (Option.map (Stmt.reline g)) (firstClause d) (firstClause d) := by
  refine (Relines.accepts _).bind fun b => .ite (.pure none) ?_ b
  refine (Relines.accepts _).bind fun b => .ite ?_ ?_ b
  · exact (variableDeclaration_relines d).map fun _ => rfl
  · exact (expressionStatement_relines d).map fun _ => rfl

section

variable {p : Parser Stmt} (hp : Relines g (Stmt.reline g) p p) (d : Nat)
include hp

theorem whileStatement_relines :
    Relines g (Stmt.reline g) (whileStatement d p) (whileStatement d p) :=
  (Relines.expect _ _).bind fun _ => (rule_relines d _).bind fun c =>
    (Relines.expect _ _).bind fun _ => hp.bind fun body => .pure (Stmt.loop c body)

theorem ifStatement_relines : Relines g (Stmt.reline g) (ifStatement d p) (ifStatement d p) := by
  refine (Relines.expect _ _).bind fun _ => (rule_relines d _).bind fun c => ?_
  refine (Relines.expect _ _).bind fun _ => hp.bind fun whenTrue => .optional hp fun x => ?_
  cases x with
  | none => exact .pure (Stmt.branch c whenTrue none)
  | some whenFalse => exact .pure (Stmt.branch c whenTrue (some whenFalse))

theorem forStatement_relines :
    Relines g (Stmt.reline g) (forStatement d p) (forStatement d p) := by
  refine (Relines.expect _ _).bind fun _ => (firstClause_relines d).bind fun first => ?_
  refine .omittable (rule_relines d _) fun c => (Relines.expect _ _).bind fun _ => ?_
  refine .omittable (rule_relines d _) fun step => (Relines.expect _ _).bind fun _ => ?_
  refine hp.bind fun body => ?_
  rw [← Stmt.reline_forLoop]
  exact .pure _

end

theorem resume_relines (last : Token) :
    Relines g id (resume last) (resume (last.reline g)) := by
  intro ts
  induction ts generalizing last with
  | nil => rfl
  | cons t ts ih =>
    by_cases h : t.kind = .eof ∨ last.kind = .semicolon ∨ t.kind.startsStatement
    · have hl : resume (last.reline g) ((t :: ts).map (Token.reline g)) =
          ⟨.ok (), (t :: ts).map (Token.reline g), []⟩ := if_pos h
      have hr : resume last (t :: ts) = ⟨.ok (), t :: ts, []⟩ := if_pos h
      rw [hl, hr]
      rfl
    · have hl : resume (last.reline g) ((t :: ts).map (Token.reline g)) =
          resume (t.reline g) (ts.map (Token.reline g)) := if_neg h
      have hr : resume last (t :: ts) = resume t ts := if_neg h
      rw [hl, hr, ih t]

theorem synchronize_relines : Relines g id synchronize synchronize := by
  intro ts
  cases ts with
  | nil => rfl
  | cons t ts =>
    by_cases h : t.kind = .eof
    · have hl : synchronize ((t :: ts).map (Token.reline g)) =
          ⟨.ok (), (t :: ts).map (Token.reline g), []⟩ := if_pos h
      have hr : synchronize (t :: ts) = ⟨.ok (), t :: ts, []⟩ := if_pos h
      rw [hl, hr]
      rfl
    · have hl : synchronize ((t :: ts).map (Token.reline g)) =
          resume (t.reline g) (ts.map (Token.reline g)) := if_neg h
      have hr : synchronize (t :: ts) = resume t ts := if_neg h
      rw [hl, hr, resume_relines]

theorem recover_relines {p q : Parser Stmt} (hp : Relines g (Stmt.reline g) p q) :
    Relines g (Stmt.reline g) (recover p) (recover q) := by
  intro ts
  have hq := hp ts
  rcases hr : p ts with ⟨⟨_ | _ | _⟩ | s, mid, fs⟩ <;> rw [hr] at hq
  · have hs : Relines g (Stmt.reline g) ((fun _ => .failed) <$> synchronize)
        ((fun _ => .failed) <$> synchronize) := synchronize_relines.map fun _ => rfl
    have hs := hs mid
    rcases hm : ((fun _ => .failed) <$> synchronize : Parser Stmt) mid with ⟨r, rest, fs'⟩
    rw [hm] at hs
    rw [recover_of_raised hr hm, recover_of_raised hq hs]
    simp only [Reply.reline, List.map_append]
  all_goals
    rw [recover_of_ne_raised hr nofun, recover_of_ne_raised hq nofun]
    rfl

theorem blockOf_relines {p : Parser Stmt} (hp : Relines g (Stmt.reline g) p p)
    (clock : List Token) :
    Relines g (Program.reline g) (blockOf p clock)
      (blockOf p (clock.map (Token.reline g))) := by
  induction clock with
  | nil => exact .stop _
  | cons c clock ih =>
    refine (Relines.check _).bind fun b => Relines.atEnd.bind fun b' => .ite ?_ ?_ (b || b')
    · exact (Relines.expect _ _).bind fun _ => .pure []
    · exact hp.bind fun s => ih.map fun _ => rfl

theorem statement_relines_and_declaration_relines (d : Nat) :
    Relines g (Stmt.reline g) (statement d) (statement d) ∧
      Relines g (Stmt.reline g) (declaration d) (declaration d) := by
  induction d with
  | zero => exact ⟨.stop _, .stop _⟩
  | succ d ih =>
    obtain ⟨hs, hb⟩ := ih
    refine ⟨?_, recover_relines ?_⟩
    · refine (Relines.accepts _).bind fun b => .ite (forStatement_relines hs d) ?_ b
      refine (Relines.accepts _).bind fun b => .ite (ifStatement_relines hs d) ?_ b
      refine (Relines.accepts _).bind fun b => .ite (printStatement_relines d) ?_ b
      refine (Relines.accepts _).bind fun b => .ite (whileStatement_relines hs d) ?_ b
      refine (Relines.accepts _).bind fun b => .ite ?_ (expressionStatement_relines d) b
      exact fun ts => (blockOf_relines hb ts).map (k := Stmt.reline g) (fun _ => rfl) ts
    · exact (Relines.accepts _).bind fun b => .ite (variableDeclaration_relines d) hs b

theorem topLevel_of_tooDeep {d : Nat} {ts mid rest : List Token} {r : Except Stop Stmt}
    {fs fs' : List Fault} (h : declaration d ts = ⟨.error .tooDeep, mid, fs⟩)
    (hm : (do
      note (← peek) .tooDeep
      synchronize
      return .failed : Parser Stmt) mid = ⟨r, rest, fs'⟩) :
    topLevel d ts = ⟨r, rest, fs ++ fs'⟩ := by
  simp only [topLevel, h, hm]

theorem topLevel_relines (d : Nat) : Relines g (Stmt.reline g) (topLevel d) (topLevel d) := by
  intro ts
  have hd := (statement_relines_and_declaration_relines (g := g) d).2 ts
  rcases hr : declaration d ts with ⟨⟨_ | _ | _⟩ | s, mid, fs⟩ <;> rw [hr] at hd
  case error.tooDeep =>
    have hf : Relines g (Stmt.reline g)
        (do
          note (← peek) .tooDeep
          synchronize
          return .failed)
        (do
          note (← peek) .tooDeep
          synchronize
          return .failed) :=
      Relines.peek.bind fun t => (Relines.note t _).bind fun _ =>
        synchronize_relines.bind fun _ => .pure Stmt.failed
    have hf := hf mid
    rcases hm : (do
      note (← peek) .tooDeep
      synchronize
      return .failed : Parser Stmt) mid with ⟨r, rest, fs'⟩
    rw [hm] at hf
    rw [topLevel_of_tooDeep hr hm, topLevel_of_tooDeep hd hf]
    simp only [Reply.reline, List.map_append]
  all_goals
    simp only [topLevel, hr, hd]
    rfl

theorem programOf_relines (d : Nat) (clock : List Token) :
    Relines g (Program.reline g) (programOf d clock)
      (programOf d (clock.map (Token.reline g))) := by
  induction clock with
  | nil => exact .stop _
  | cons c clock ih =>
    refine Relines.atEnd.bind fun b => .ite (.pure []) ?_ b
    exact (topLevel_relines d).bind fun s => ih.map fun _ => rfl

/-- The lines of the tokens do not matter, but for those in the tree and in the faults. -/
theorem program_relines (d : Nat) : Relines g (Program.reline g) (program d) (program d) :=
  fun ts => programOf_relines d ts ts

theorem program_faults_reline (d : Nat) (ts : List Token) :
    (program d (ts.map (Token.reline g))).faults = (program d ts).faults.map (Fault.reline g) :=
  congrArg Reply.faults (program_relines d ts)

end Parser
end Lox
