import Lox.CommandLine.Shell
import Lox.Proofs.Grammar.Joining
import Lox.Proofs.Runs.Depth
import Lox.Proofs.Runs.Reading
import Lox.Proofs.Runs.Relining
import Lox.Proofs.Scanning.Joining

/-! # Batches

Two sources that are joined by a newline do what the one does and then the other. Where the second
stops, the line is the one in the whole; only a statement without a token is always reported on
line 1, if it is nested too deeply.
-/

namespace Lox

variable {limits : Limits} {g : Token → Int} {old : List String}

theorem Follows.reline {dangling : Bool} {ts : List Token} (h : Follows dangling ts) :
    Follows dangling (ts.map (Token.reline g)) := by
  obtain ⟨t, us, rfl, ht⟩ := h
  exact ⟨t.reline g, us.map (Token.reline g), rfl, ht⟩

/-- The statements of the one source come before those of the other, which are on later lines. -/
theorem Reading.ofSource_append_newline {a b : String} {nesting : Nat}
    (ha : (ofSource a nesting).reports = []) (hb : (ofSource b nesting).reports = []) :
    (ofSource (a ++ "\n" ++ b) nesting).reports = [] ∧
      (ofSource (a ++ "\n" ++ b) nesting).program = (ofSource a nesting).program ++
        Program.reline (Token.lineBelow (1 + a.toList.count '\n'))
          (ofSource b nesting).program := by
  obtain ⟨ts, e, hts, he, hn, hp, _⟩ := parse_eq ha
  obtain ⟨us, e', hus, he', _, hq, hs⟩ := parse_eq hb
  have hfa : (Lox.scan a).faults = [] := List.map_eq_nil_iff.mp (List.append_eq_nil_iff.mp ha).1
  have hfb : (Lox.scan b).faults = [] := List.map_eq_nil_iff.mp (List.append_eq_nil_iff.mp hb).1
  obtain ⟨htokens, hfaults⟩ := scan_append_newline (b := b) hfa hts
  rw [hus] at htokens
  have hv : Follows true (us ++ [e'] ++ []) := hs.follows (.inr he')
  rw [List.append_nil] at hv
  have hr := Parser.program_relines (g := Token.lineBelow (1 + a.toList.count '\n'))
    nesting (us ++ [e'])
  rw [show Parser.program nesting (us ++ [e']) = _ from hq] at hr
  have hw := Parser.programOf_append hn he hp hv.reline (Nat.le_refl _) hr
  have hreply : (ofSource (a ++ "\n" ++ b) nesting).reply = parse _ nesting :=
    congrArg (parse · nesting) htokens
  rw [parse, Parser.program, hw] at hreply
  constructor
  · rw [reports, hreply]
    simp [Scan.reports, show (ofSource (a ++ "\n" ++ b) nesting).scan.faults = _ from hfaults, hfb]
  · rw [program, hreply]
    rfl

/-- The run of the program stops at a statement that is nested too deeply and holds no token. -/
inductive Program.StopsUnplaced (limits : Limits) : Program → Machine → Prop
  | here {s : Stmt} {p : Program} {m m' : Machine} : s.firstToken? = none →
      s.exec limits.rounds limits.depth m = .error .tooDeep m' → StopsUnplaced limits (s :: p) m
  | later {s : Stmt} {p : Program} {m m' : Machine} : s.run limits m = .ok () m' →
      StopsUnplaced limits p m' → StopsUnplaced limits (s :: p) m

theorem Stmt.run_of_tooDeep {s : Stmt} {m m' : Machine}
    (h : s.exec limits.rounds limits.depth m = .error .tooDeep m') :
    s.run limits m = .error (.problem s.firstToken .stackOverflow) m' := by
  rw [run, h]

theorem Stmt.run_of_ok {s : Stmt} {m m' : Machine}
    (h : s.exec limits.rounds limits.depth m = .ok () m') : s.run limits m = .ok () m' := by
  rw [run, h]

theorem Stmt.run_of_error {s : Stmt} {f : Failure} {m m' : Machine}
    (h : s.exec limits.rounds limits.depth m = .error f m') (hf : f ≠ .tooDeep) :
    s.run limits m = .error f m' := by
  rw [run, h]
  cases f <;> first | rfl | exact absurd rfl hf

theorem Failure.reline_ne_tooDeep {f : Failure} (h : f ≠ .tooDeep) : f.reline g ≠ .tooDeep := by
  cases f with
  | tooDeep => exact absurd rfl h
  | _ => exact Failure.noConfusion

theorem Stmt.firstToken_reline {s : Stmt} (h : s.firstToken? ≠ none) :
    (s.reline g).firstToken = s.firstToken.reline g := by
  obtain ⟨t, ht⟩ := Option.ne_none_iff_exists'.mp h
  have hr : (s.reline g).firstToken? = some (t.reline g) := by
    rw [firstToken?_reline, ht]
    rfl
  rw [firstToken, firstToken, ← firstToken?, ← firstToken?, ht, hr]
  rfl

/-- A statement that holds a token, or that is not nested too deeply, mirrors. -/
theorem Stmt.run_reline {s : Stmt} {m : Machine}
    (h : ∀ m', s.exec limits.rounds limits.depth m = .error .tooDeep m' → s.firstToken? ≠ none) :
    MirrorsAt g old (s.run limits) ((s.reline g).run limits) m := by
  have hm := (Stmt.mirrors limits.rounds limits.depth s : Mirrors g old _ _) m
  unfold MirrorsAt at hm ⊢
  cases he : s.exec limits.rounds limits.depth m with
  | ok x m' =>
    rw [he] at hm
    rw [run_of_ok he, run_of_ok hm]
  | error f m' =>
    rw [he] at hm
    by_cases hf : f = .tooDeep
    · subst hf
      rw [run_of_tooDeep he, run_of_tooDeep hm, firstToken_reline (h m' he)]
      rfl
    · rw [run_of_error he hf, run_of_error hm (Failure.reline_ne_tooDeep hf)]

theorem Program.run_cons (s : Stmt) (p : Program) :
    Program.run limits (s :: p) = s.run limits >>= fun _ => Program.run limits p := rfl

theorem Program.run_append (p q : Program) :
    Program.run limits (p ++ q) = Program.run limits p >>= fun _ => Program.run limits q :=
  List.forM_append

/-- Unless it stops so, the program mirrors. -/
theorem Program.run_reline {p : Program} {m : Machine} (h : ¬ StopsUnplaced limits p m) :
    MirrorsAt g old (Program.run limits p) (Program.run limits (Program.reline g p)) m := by
  induction p generalizing m with
  | nil => rfl
  | cons s p ih =>
    rw [Program.reline, run_cons, run_cons]
    apply (Stmt.run_reline fun m' he hn => h (.here hn he)).bind
    exact fun _ m' hr => ih fun hp => h (.later hr hp)

theorem Stmt.run_of_unplaced {s : Stmt} {m m' : Machine} (h : s.firstToken? = none)
    (he : s.exec limits.rounds limits.depth m = .error .tooDeep m') :
    s.run limits m = .error (.problem (.eof 1) .stackOverflow) m' := by
  rw [run_of_tooDeep he, firstToken, ← firstToken?, h]
  rfl

theorem Program.StopsUnplaced.run (g : Token → Int) (old : List String) {p : Program}
    {m : Machine} (h : StopsUnplaced limits p m) :
    ∃ m', Program.run limits p m = .error (.problem (.eof 1) .stackOverflow) m' ∧
      Program.run limits (Program.reline g p) (m.after old) =
        .error (.problem (.eof 1) .stackOverflow) (m'.after old) := by
  induction h with
  | @here s p m m' hn he =>
    have hm := (Stmt.mirrors limits.rounds limits.depth s : Mirrors g old _ _) m
    rw [MirrorsAt, he] at hm
    have hr : (s.reline g).firstToken? = none := by rw [Stmt.firstToken?_reline, hn]; rfl
    refine ⟨m', ?_, ?_⟩
    · exact Action.bind_of_error (Stmt.run_of_unplaced hn he) _
    · exact Action.bind_of_error (Stmt.run_of_unplaced hr hm) _
  | @later s p m m' hs _ ih =>
    obtain ⟨m'', hp, hp'⟩ := ih
    have hm : MirrorsAt g old (s.run limits) _ m := Stmt.run_reline fun m' he => by
      rw [Stmt.run_of_tooDeep he] at hs
      cases hs
    rw [MirrorsAt, hs] at hm
    refine ⟨m'', ?_, ?_⟩
    · exact (Action.bind_of_ok hs _).trans hp
    · exact (Action.bind_of_ok hm _).trans hp'

def Report.lineBelow (k : Int) : Report → Report
  | static line place message => static (line + k) place message
  | runtime line message => runtime (line + k) message

def Failure.report? : Failure → Option Report
  | problem t p => some (.runtime t.line p.message)
  | _ => none

/-- The failure, unless it is a problem of the program. -/
def Failure.beyond? : Failure → Option Failure
  | problem .. => none
  | f => some f

theorem Failure.report?_reline (k : Int) (f : Failure) :
    (f.reline (Token.lineBelow k)).report? = f.report?.map (Report.lineBelow k) := by
  cases f <;> rfl

theorem Failure.beyond?_reline (f : Failure) : (f.reline g).beyond? = f.beyond? := by
  cases f <;> rfl

theorem Failure.reported_or_beyond (f : Failure) :
    f.beyond? ≠ none ∨ ∀ d : Diagnostics, (d.addAll f.report?.toList).hadRuntimeError = true := by
  cases f with
  | problem t p => exact .inr fun d => by simp [report?, Diagnostics.addAll, Report.isStatic]
  | _ => exact .inl (by simp [beyond?])

namespace Session

variable {s : Session}

/-- The session after a run that has ended so, what was printed, and the failure; `d` is what has
been reported before. -/
def ofRun (d : Diagnostics) :
    EStateM.Result Failure Machine Unit → Session × List String × Option Failure
  | .ok _ m => (⟨m.env, d⟩, m.printed.reverse, none)
  | .error f m => (⟨m.env, d.addAll f.report?.toList⟩, m.printed.reverse, f.beyond?)

theorem interpret_eq (limits : Limits) (s : Session) (p : Program) :
    ((s.interpret limits p).1, (s.interpret limits p).2.printed,
      (s.interpret limits p).2.failure) = ofRun s.diagnostics (p.run limits ⟨s.env, []⟩) := by
  rw [interpret]
  cases p.run limits ⟨s.env, []⟩ with
  | ok _ m => rfl
  | error f m =>
    cases f with
    | problem t p => rfl
    | _ => simp [ofRun, Failure.report?, Failure.beyond?]

theorem run_eq {source : String} (hs : s.diagnostics.hadError = false)
    (h : (Reading.ofSource source limits.nesting).reports = []) :
    ((s.run limits source).1, (s.run limits source).2.printed,
      (s.run limits source).2.failure) =
        ofRun s.diagnostics
          ((Reading.ofSource source limits.nesting).program.run limits ⟨s.env, []⟩) := by
  rw [← interpret_eq, run, runReading, addEvents_of_reports h]
  simp [hs]

theorem ofRun_after (limits : Limits) (d : Diagnostics) (k : Int) (q : Program) (m : Machine) :
    let second := ofRun d (Program.run limits q ⟨m.env, []⟩)
    let whole := ofRun d (Program.run limits (Program.reline (Token.lineBelow k) q) m)
    let unplaced := Program.StopsUnplaced limits q ⟨m.env, []⟩
    whole.2.1 = m.printed.reverse ++ second.2.1 ∧ whole.2.2 = second.2.2 ∧
      whole.1.env = second.1.env ∧ ∃ r : Option Report,
        second.1.diagnostics = d.addAll r.toList ∧
        (¬ unplaced → whole.1.diagnostics = d.addAll (r.map (Report.lineBelow k)).toList) ∧
        (unplaced → r = some (.runtime 1 Problem.stackOverflow.message) ∧
          whole.1.diagnostics = second.1.diagnostics) := by
  intro second whole unplaced
  by_cases hu : unplaced
  · obtain ⟨m', hq, hw⟩ := hu.run (Token.lineBelow k) m.printed
    have hsecond : second = ofRun d (.error _ m') := congrArg (ofRun d) hq
    have hwhole : whole = ofRun d (.error _ (m'.after m.printed)) := congrArg (ofRun d) hw
    rw [hsecond, hwhole]
    refine ⟨by simp [ofRun, Machine.after], rfl, rfl, _, rfl, fun hn => absurd hu hn, fun _ => ?_⟩
    exact ⟨rfl, rfl⟩
  · have hw : Program.run limits (Program.reline (Token.lineBelow k) q)
        (Machine.after m.printed ⟨m.env, []⟩) = _ := Program.run_reline hu
    have hwhole : whole = ofRun d _ := congrArg (ofRun d) hw
    cases hq : Program.run limits q ⟨m.env, []⟩ with
    | ok x m' =>
      have hsecond : second = ofRun d (.ok x m') := congrArg (ofRun d) hq
      rw [hq] at hwhole
      rw [hsecond, hwhole]
      refine ⟨by simp [ofRun, Machine.after], rfl, rfl, none, ?_, fun _ => ?_, fun h => absurd h hu⟩
      · exact d.addAll_nil.symm
      · exact d.addAll_nil.symm
    | error f m' =>
      have hsecond : second = ofRun d (.error f m') := congrArg (ofRun d) hq
      rw [hq] at hwhole
      rw [hsecond, hwhole]
      refine ⟨by simp [ofRun, Machine.after], Failure.beyond?_reline f, rfl, f.report?, rfl,
        fun _ => ?_, fun h => absurd h hu⟩
      rw [← Failure.report?_reline]
      rfl

section

variable {a b : String} (hs : s.diagnostics.hadError = false)
  (ha : (Reading.ofSource a limits.nesting).reports = [])
  (hb : (Reading.ofSource b limits.nesting).reports = [])
include hs ha hb

/-- What `a` and `b` do one after the other on the session, and together. -/
theorem run_joined_of_ok (hf : (s.run limits a).2.failure = none)
    (hd : (s.run limits a).1.diagnostics.hadRuntimeError = false) :
    let first := s.run limits a
    let second := first.1.run limits b
    let whole := s.run limits (a ++ "\n" ++ b)
    let unplaced := Program.StopsUnplaced limits (Reading.ofSource b limits.nesting).program
      ⟨first.1.env, []⟩
    whole.2.printed = first.2.printed ++ second.2.printed ∧
      whole.2.failure = second.2.failure ∧ whole.1.env = second.1.env ∧
      ∃ r : Option Report, second.1.diagnostics = s.diagnostics.addAll r.toList ∧
        (¬ unplaced → whole.1.diagnostics =
          s.diagnostics.addAll (r.map (Report.lineBelow (1 + a.toList.count '\n'))).toList) ∧
        (unplaced → r = some (.runtime 1 Problem.stackOverflow.message) ∧
          whole.1.diagnostics = second.1.diagnostics) := by
  intro first second whole unplaced
  obtain ⟨hreports, hprogram⟩ := Reading.ofSource_append_newline ha hb
  have hfirst : (first.1, first.2.printed, first.2.failure) = ofRun s.diagnostics _ :=
    run_eq hs ha
  have hwhole : (whole.1, whole.2.printed, whole.2.failure) = ofRun s.diagnostics _ :=
    run_eq hs hreports
  rw [hprogram, Program.run_append] at hwhole
  cases hp : Program.run limits (Reading.ofSource a limits.nesting).program ⟨s.env, []⟩ with
  | ok x m =>
    rw [hp] at hfirst
    rw [Action.bind_of_ok hp] at hwhole
    simp only [ofRun, Prod.mk.injEq] at hfirst
    obtain ⟨hfirst, hprinted, _⟩ := hfirst
    have hsecond : (second.1, second.2.printed, second.2.failure) = ofRun first.1.diagnostics _ :=
      run_eq (by rw [hfirst]; exact hs) hb
    rw [hfirst] at hsecond
    have h := ofRun_after limits s.diagnostics (1 + a.toList.count '\n')
      (Reading.ofSource b limits.nesting).program m
    simp only [← hsecond, ← hwhole, ← hprinted] at h
    simp only [unplaced, hfirst]
    exact h
  | error f m =>
    rw [hp] at hfirst
    obtain ⟨hfirst, -, hfailure⟩ :
        first.1 = _ ∧ first.2.printed = _ ∧ first.2.failure = f.beyond? := by
      simpa only [ofRun, Prod.mk.injEq] using hfirst
    rcases f.reported_or_beyond with hn | hn
    · exact absurd (hfailure.symm.trans hf) hn
    · replace hd : first.1.diagnostics.hadRuntimeError = false := hd
      rw [hfirst, hn] at hd
      cases hd

theorem run_joined_of_failed (hr : s.diagnostics.hadRuntimeError = false)
    (hd : (s.run limits a).2.failure ≠ none ∨
      (s.run limits a).1.diagnostics.hadRuntimeError = true) :
    let first := s.run limits a
    let whole := s.run limits (a ++ "\n" ++ b)
    whole.1 = first.1 ∧ whole.2.printed = first.2.printed ∧
      whole.2.failure = first.2.failure := by
  intro first whole
  obtain ⟨hreports, hprogram⟩ := Reading.ofSource_append_newline ha hb
  have hfirst : (first.1, first.2.printed, first.2.failure) = ofRun s.diagnostics _ :=
    run_eq hs ha
  have hwhole : (whole.1, whole.2.printed, whole.2.failure) = ofRun s.diagnostics _ :=
    run_eq hs hreports
  rw [hprogram, Program.run_append] at hwhole
  cases hp : Program.run limits (Reading.ofSource a limits.nesting).program ⟨s.env, []⟩ with
  | ok x m =>
    rw [hp] at hfirst
    simp only [ofRun, Prod.mk.injEq] at hfirst
    obtain ⟨hfirst, _, hfailure⟩ := hfirst
    rcases hd with hd | hd
    · exact absurd hfailure hd
    · replace hd : first.1.diagnostics.hadRuntimeError = true := hd
      rw [hfirst, hr] at hd
      cases hd
  | error f m =>
    rw [hp] at hfirst
    rw [Action.bind_of_error hp] at hwhole
    have h := hwhole.trans hfirst.symm
    simpa only [Prod.mk.injEq] using h

end

/-- Two sources that are joined by a newline do what the one does and then the other, with the line
of what is reported of the second moved; but if a statement of the second is nested too deeply and
holds no token, that is reported on line 1 either way. If the first does not end well, the second
does nothing. -/
theorem run_append_newline (limits : Limits) (hs : s.diagnostics.hadError = false)
    (hr : s.diagnostics.hadRuntimeError = false) {a b : String}
    (ha : (Reading.ofSource a limits.nesting).reports = [])
    (hb : (Reading.ofSource b limits.nesting).reports = []) :
    let first := s.run limits a
    let second := first.1.run limits b
    let whole := s.run limits (a ++ "\n" ++ b)
    let unplaced := Program.StopsUnplaced limits (Reading.ofSource b limits.nesting).program
      ⟨first.1.env, []⟩
    (first.2.failure = none → first.1.diagnostics.hadRuntimeError = false →
      whole.2.printed = first.2.printed ++ second.2.printed ∧
      whole.2.failure = second.2.failure ∧ whole.1.env = second.1.env ∧
      ∃ r : Option Report, second.1.diagnostics = s.diagnostics.addAll r.toList ∧
        (¬ unplaced → whole.1.diagnostics =
          s.diagnostics.addAll (r.map (Report.lineBelow (1 + a.toList.count '\n'))).toList) ∧
        (unplaced → r = some (.runtime 1 Problem.stackOverflow.message) ∧
          whole.1.diagnostics = second.1.diagnostics)) ∧
    (first.2.failure ≠ none ∨ first.1.diagnostics.hadRuntimeError = true →
      whole.1 = first.1 ∧ whole.2.printed = first.2.printed ∧
      whole.2.failure = first.2.failure) :=
  ⟨run_joined_of_ok hs ha hb, run_joined_of_failed hs ha hb hr⟩

/-- A variable of the first source is printed by the second, which then fails. -/
theorem run_append_newline_negation :
    let limits : Limits := ⟨100, 20, 5⟩
    let first := fresh.run limits "var x = true;"
    let second := first.1.run limits "print x; print -x;"
    let whole := fresh.run limits ("var x = true;" ++ "\n" ++ "print x; print -x;")
    (first.2.failure = none ∧ first.1.diagnostics.hadRuntimeError = false) ∧
      whole.2.printed = first.2.printed ++ second.2.printed ∧ whole.1.env = second.1.env := by
  intro limits first second whole
  have hf : first.2.failure = none := by decide +kernel
  have hd : first.1.diagnostics.hadRuntimeError = false := by decide +kernel
  have h := (run_append_newline limits (s := fresh) rfl rfl (a := "var x = true;")
    (b := "print x; print -x;") (by decide +kernel) (by decide +kernel)).1 hf hd
  exact ⟨⟨hf, hd⟩, h.1, h.2.2.1⟩

/-- Branches that can be read but not run are reported on line 1, wherever they stand. -/
theorem run_joined_deepBranches {n : Nat} (hl : limits.depth ≤ n) (hn : n + 22 ≤ limits.nesting)
    (hs : s.diagnostics.hadError = false) {a : String}
    (ha : (Reading.ofSource a limits.nesting).reports = [])
    (hf : (s.run limits a).2.failure = none)
    (hd : (s.run limits a).1.diagnostics.hadRuntimeError = false) :
    ((s.run limits a).1.run limits (deepBranches n)).1.diagnostics =
        s.diagnostics.addAll [.runtime 1 Problem.stackOverflow.message] ∧
      (s.run limits (a ++ "\n" ++ deepBranches n)).1.diagnostics =
        s.diagnostics.addAll [.runtime 1 Problem.stackOverflow.message] := by
  obtain ⟨hb, hp⟩ := Reading.ofSource_deepBranches hn
  obtain ⟨_, _, _, r, hr, _, hu⟩ := run_joined_of_ok hs ha hb hf hd
  rw [hp] at hu
  obtain ⟨rfl, hw⟩ := hu (.here (Stmt.firstToken?_deepBranch n) (Stmt.exec_deepBranch hl _))
  exact ⟨hr, hw.trans hr⟩

/-- An empty line moves nothing of what is reported of 4000 branches. -/
theorem deepBranches_not_moved :
    (Reading.ofSource "" Shell.limits.nesting).reports = [] ∧
      (Reading.ofSource (deepBranches 4000) Shell.limits.nesting).reports = [] ∧
      (fresh.run Shell.limits "").2.failure = none ∧
      (fresh.run Shell.limits "").1.diagnostics.hadRuntimeError = false ∧
      ((fresh.run Shell.limits "").1.run Shell.limits (deepBranches 4000)).1.diagnostics =
        fresh.diagnostics.addAll [.runtime 1 Problem.stackOverflow.message] ∧
      (fresh.run Shell.limits ("" ++ "\n" ++ deepBranches 4000)).1.diagnostics ≠
        fresh.diagnostics.addAll [.runtime 2 Problem.stackOverflow.message] := by
  have ha : (Reading.ofSource "" Shell.limits.nesting).reports = [] := by decide +kernel
  have hf : (fresh.run Shell.limits "").2.failure = none := by decide +kernel
  have hd : (fresh.run Shell.limits "").1.diagnostics.hadRuntimeError = false := by decide +kernel
  have hl : Shell.limits.depth ≤ 4000 := by decide
  have hn : 4000 + 22 ≤ Shell.limits.nesting := by decide
  obtain ⟨hb, -⟩ := Reading.ofSource_deepBranches hn
  obtain ⟨hsecond, hwhole⟩ := run_joined_deepBranches hl hn rfl ha hf hd
  refine ⟨ha, hb, hf, hd, hsecond, ?_⟩
  rw [hwhole]
  decide

end Session

end Lox
