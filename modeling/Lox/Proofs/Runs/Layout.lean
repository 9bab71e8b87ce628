import Lox.Proofs.Runs.Steps
import Lox.Proofs.Scanning.Layout

/-! # The layout of a source does not matter

Two sources with the same tokens are read as the same program and run alike. Only the lines in what
is reported can tell one from the other.
-/

namespace Lox

def Report.nowhere : Report → Report
  | static _ place message => static 0 place message
  | runtime _ message => runtime 0 message

@[simp] theorem Report.isStatic_nowhere (r : Report) : r.nowhere.isStatic = r.isStatic := by
  cases r <;> rfl

theorem Fault.report_reline (f : Fault) :
    (f.reline Token.nowhere).report = f.report.nowhere := by
  by_cases hk : f.token.kind = .eof <;>
    simp [report, Report.atToken, reline, hk, Report.nowhere, Token.reline, Token.nowhere]

/-- The same program, but perhaps on other lines. -/
def Program.Alike (p q : Program) : Prop :=
  Program.reline Token.nowhere p = Program.reline Token.nowhere q

/-- What is read is the same, but perhaps on other lines. -/
structure Reading.Alike (r r' : Reading) : Prop where
  program : r'.program.Alike r.program
  reports : r'.reports.map Report.nowhere = r.reports.map Report.nowhere

theorem Relaid.reply_eq {a b : String} (h : Relaid a b) (nesting : Nat) :
    (Reading.ofSource b nesting).reply.reline Token.nowhere (Program.reline Token.nowhere) =
      (Reading.ofSource a nesting).reply.reline Token.nowhere (Program.reline Token.nowhere) := by
  have hr (source : String) :
      (Reading.ofSource source nesting).reply.reline Token.nowhere (Program.reline Token.nowhere) =
        Parser.program nesting ((scan source).tokens.map (Token.reline Token.nowhere)) :=
    (Parser.program_relines nesting _).symm
  rw [hr, hr, h.scan_eq.2]

theorem Relaid.reading_alike {a b : String} (h : Relaid a b) (nesting : Nat) :
    (Reading.ofSource a nesting).Alike (.ofSource b nesting) := by
  have hreply := h.reply_eq nesting
  constructor
  · have hresult := congrArg Reply.result hreply
    simp only [Reply.reline, Reading.result_eq] at hresult
    exact Except.ok.inj hresult
  · have hfaults := congrArg Reply.faults hreply
    have hreports (source : String) (hs : (scan source).faults = []) :
        (Reading.ofSource source nesting).reports.map Report.nowhere =
          ((Reading.ofSource source nesting).reply.faults.map (Fault.reline Token.nowhere)).map
            Fault.report := by
      have hscan : (Reading.ofSource source nesting).scan.faults = [] := hs
      simp only [Reading.reports, Scan.reports, hscan, List.map_nil, List.nil_append,
        List.map_map, Function.comp_def, Fault.report_reline]
    rw [hreports b h.scan_eq.1, hreports a h.faults]
    exact congrArg _ hfaults

/-- The ends are the same, but perhaps with the problem at a token on another line. -/
inductive EndsAlike {α : Type} :
    EStateM.Result Failure Machine α → EStateM.Result Failure Machine α → Prop
  | same (result : EStateM.Result Failure Machine α) : EndsAlike result result
  | problem {t t' : Token} (p : Problem) (m : Machine) :
      EndsAlike (.error (.problem t p) m) (.error (.problem t' p) m)

theorem EndsAlike.symm {α : Type} {x y : EStateM.Result Failure Machine α} (h : EndsAlike x y) :
    EndsAlike y x := by
  cases h with
  | same x => exact .same x
  | problem p m => exact .problem p m

theorem EndsAlike.trans {α : Type} {x y z : EStateM.Result Failure Machine α}
    (h : EndsAlike x y) (h' : EndsAlike y z) : EndsAlike x z := by
  cases h with
  | same x => exact h'
  | problem p m =>
    cases h' with
    | same => exact .problem p m
    | problem => exact .problem p m

theorem EndsAlike.bind {α β : Type} {a a' : Action α} {f f' : α → Action β} {m : Machine}
    (h : EndsAlike (a m) (a' m)) (hf : ∀ x m', EndsAlike (f x m') (f' x m')) :
    EndsAlike ((a >>= f) m) ((a' >>= f') m) := by
  generalize hx : a m = x at h
  generalize hy : a' m = y at h
  cases h with
  | same =>
    cases x with
    | ok v m' =>
      rw [Action.bind_of_ok hx, Action.bind_of_ok hy]
      exact hf v m'
    | error e m' =>
      rw [Action.bind_of_error hx, Action.bind_of_error hy]
      exact .same _
  | problem p m' =>
    rw [Action.bind_of_error hx, Action.bind_of_error hy]
    exact .problem p m'

theorem Machine.after_nil (m : Machine) : m.after [] = m := by
  rw [after, List.append_nil]

theorem Failure.endsAlike_reline {α : Type} {g : Token → Int} (f : Failure) (m : Machine) :
    EndsAlike (.error f m : EStateM.Result Failure Machine α) (.error (f.reline g) m) := by
  cases f with
  | problem t p => exact .problem p m
  | _ => exact .same _

/-- A statement on other lines runs alike, also if it is nested too deeply. -/
theorem Stmt.run_alike (limits : Limits) (g : Token → Int) (s : Stmt) (m : Machine) :
    EndsAlike (s.run limits m) ((s.reline g).run limits m) := by
  have hm := (Stmt.mirrors limits.rounds limits.depth s : Mirrors g [] _ _) m
  rw [MirrorsAt, m.after_nil] at hm
  cases he : s.exec limits.rounds limits.depth m with
  | ok x m' =>
    rw [he] at hm
    rw [run_of_ok he, run_of_ok hm, m'.after_nil]
    exact .same _
  | error f m' =>
    rw [he] at hm
    by_cases hf : f = .tooDeep
    · subst hf
      rw [run_of_tooDeep he, run_of_tooDeep hm, m'.after_nil]
      exact .problem _ _
    · rw [run_of_error he hf, run_of_error hm (Failure.reline_ne_tooDeep hf), m'.after_nil]
      exact f.endsAlike_reline m'

theorem Program.run_reline_alike (limits : Limits) (g : Token → Int) (p : Program) (m : Machine) :
    EndsAlike (Program.run limits p m) (Program.run limits (Program.reline g p) m) := by
  induction p generalizing m with
  | nil => exact .same _
  | cons s p ih => exact (s.run_alike limits g m).bind fun _ m' => ih m'

theorem Program.Alike.run {p q : Program} (h : p.Alike q) (limits : Limits) (m : Machine) :
    EndsAlike (Program.run limits p m) (Program.run limits q m) := by
  have hp := run_reline_alike limits Token.nowhere p m
  rw [show Program.reline Token.nowhere p = _ from h] at hp
  exact hp.trans (run_reline_alike limits Token.nowhere q m).symm

namespace Session

/-- The same has come of two runs, but perhaps reported on other lines. -/
structure OutcomesAlike (x y : Session × Outcome) : Prop where
  printed : y.2.printed = x.2.printed
  failure : y.2.failure = x.2.failure
  env : y.1.env = x.1.env
  reports : y.2.reports.map Report.nowhere = x.2.reports.map Report.nowhere

theorem interpret_alike {p q : Program} (h : p.Alike q) (limits : Limits) (s : Session) :
    OutcomesAlike (s.interpret limits p) (s.interpret limits q) := by
  have hm := h.run limits ⟨s.env, []⟩
  rw [interpret, interpret]
  generalize Program.run limits p ⟨s.env, []⟩ = x at hm ⊢
  generalize Program.run limits q ⟨s.env, []⟩ = y at hm ⊢
  cases hm with
  | same => exact ⟨rfl, rfl, rfl, rfl⟩
  | problem p m => exact ⟨rfl, rfl, rfl, rfl⟩

theorem runReading_alike {r r' : Reading} (h : r.Alike r') (limits : Limits) (s : Session) :
    OutcomesAlike (s.runReading limits r) (s.runReading limits r') := by
  have hnil : r'.reports = [] ↔ r.reports = [] := by
    rw [← List.map_eq_nil_iff (f := Report.nowhere), h.reports, List.map_eq_nil_iff]
  rcases hadError_or s r with he | ⟨hs, hr⟩
  · have he' : (s.addEvents r'.events).diagnostics.hadError = true := by
      rw [← Bool.not_eq_false, hadError_addEvents, hnil, ← hadError_addEvents, Bool.not_eq_false]
      exact he
    obtain ⟨hsession, hprinted, hfailure, hreports⟩ := runReading_of_hadError limits he
    obtain ⟨hsession', hprinted', hfailure', hreports'⟩ := runReading_of_hadError limits he'
    constructor
    · rw [hprinted, hprinted']
    · rw [hfailure, hfailure']
    · rw [hsession, hsession']
      rfl
    · rw [hreports, hreports', h.reports]
  · obtain ⟨hsession, hprinted, hfailure, hreports⟩ := runReading_of_reports limits hs hr
    obtain ⟨hsession', hprinted', hfailure', hreports'⟩ :=
      runReading_of_reports limits hs (hnil.mpr hr)
    have hi := interpret_alike h.program.symm limits s
    constructor
    · rw [hprinted, hprinted', hi.printed]
    · rw [hfailure, hfailure', hi.failure]
    · rw [hsession, hsession', hi.env]
    · rw [hreports, hreports', hi.reports]

theorem any_isStatic_of_nowhere {rs rs' : List Report}
    (h : rs'.map Report.nowhere = rs.map Report.nowhere) (f : Bool → Bool) :
    rs'.any (fun r => f r.isStatic) = rs.any fun r => f r.isStatic := by
  have hany (rs : List Report) :
      (rs.map Report.nowhere).any (fun r => f r.isStatic) = rs.any fun r => f r.isStatic := by
    rw [List.any_map]
    simp only [Function.comp_def, Report.isStatic_nowhere]
  rw [← hany, h, hany]

/-- A source without faults of the scan, in another layout, has the same tokens and is read as the
same program, but perhaps on other lines. Whatever has been run before, it prints the same, fails in
the same way and leaves the same variables and flags, and the same is reported, but perhaps on other
lines. -/
theorem run_relaid {a b : String} (h : Relaid a b) :
    (scan b).faults = [] ∧
      (scan b).tokens.map (fun t => (t.kind, t.lexeme, t.literal)) =
        (scan a).tokens.map (fun t => (t.kind, t.lexeme, t.literal)) ∧
      (∀ nesting, (Reading.ofSource b nesting).program.Alike (Reading.ofSource a nesting).program) ∧
      ∀ (limits : Limits) (s : Session),
        let x := s.run limits a
        let y := s.run limits b
        OutcomesAlike x y ∧ y.1.diagnostics.hadError = x.1.diagnostics.hadError ∧
          y.1.diagnostics.hadRuntimeError = x.1.diagnostics.hadRuntimeError ∧
          x.1.diagnostics.reports = s.diagnostics.reports ++ x.2.reports ∧
          y.1.diagnostics.reports = s.diagnostics.reports ++ y.2.reports := by
  obtain ⟨hfaults, htokens⟩ := h.scan_eq
  refine ⟨hfaults, ?_, fun nesting => (h.reading_alike nesting).program, fun limits s => ?_⟩
  · have hmap (ts : List Token) : ts.map (fun t => (t.kind, t.lexeme, t.literal)) =
        (ts.map (Token.reline Token.nowhere)).map fun t => (t.kind, t.lexeme, t.literal) := by
      rw [List.map_map]
      rfl
    rw [hmap, htokens, ← hmap]
  · intro x y
    have ha : OutcomesAlike x y :=
      runReading_alike (h.reading_alike limits.nesting) limits s
    have hx : x.1.diagnostics = s.diagnostics.addAll x.2.reports :=
      runReading_diagnostics limits s (.ofSource a limits.nesting)
    have hy : y.1.diagnostics = s.diagnostics.addAll y.2.reports :=
      runReading_diagnostics limits s (.ofSource b limits.nesting)
    rw [hx, hy]
    refine ⟨ha, congrArg (s.diagnostics.hadError || ·) ?_,
      congrArg (s.diagnostics.hadRuntimeError || ·) ?_, rfl, rfl⟩
    · exact any_isStatic_of_nowhere ha.reports id
    · exact any_isStatic_of_nowhere ha.reports (!·)

/-- `print"a";` with a comment before it that holds a quote. -/
theorem run_relaid_comment :
    let a := "print\"a\";"
    let b := "//\"\nprint /**/\"a\"\t;"
    Relaid a b ∧ ∀ limits : Limits,
      (fresh.run limits b).2.printed = (fresh.run limits a).2.printed := by
  intro a b
  have htexts : tokenTexts a = [['p', 'r', 'i', 'n', 't'], ['"', 'a', '"'], [';']] := by
    decide +kernel
  have hspread : Spread (tokenTexts a) (['p', 'r', 'i', 'n', 't'] ++
      ([' ', '/', '*', '*', '/'] ++ (['"', 'a', '"'] ++ (['\t'] ++ [';'])))) := by
    rw [htexts]
    have hcomment : ¬ ['*', '/'] <:+: ([] : List Char) := by decide
    apply Spread.cons (.blank rfl (.blockComment hcomment .nil)) ⟨_, _, rfl, rfl⟩
    exact .cons (.blank rfl .nil) ⟨_, _, rfl, rfl⟩ .last
  have hquote : '\n' ∉ ['"'] := by decide
  have hgap : Gap ['/', '/', '"', '\n'] := .lineComment hquote .nil
  have h : Relaid a b := ⟨by decide +kernel, _, _, by decide +kernel, hgap, hspread⟩
  exact ⟨h, fun limits => ((run_relaid h).2.2.2 limits fresh).1.printed⟩

end Session

end Lox
