import Lox.Proofs.CommandLine.Scripts
import Lox.Proofs.Runs.Joining
import Lox.Proofs.Scopes.Names

/-! # Steps of a session

In a session sources are run one after the other, and before each of them the diagnostics may be
forgotten. After every step the session is back in the global scope, and its diagnostics are those
that what has been reported since the last reset calls for.
-/

namespace Lox

/-- The reports among the events, in order. -/
def Outcome.reports (o : Outcome) : List Report := o.events.filterMap Event.report?

namespace Session

variable {s : Session} {r : Reading} {told : List Report}

theorem interpret_diagnostics (limits : Limits) (s : Session) (p : Program) :
    (s.interpret limits p).1.diagnostics =
      s.diagnostics.addAll (s.interpret limits p).2.reports := by
  rw [interpret]
  cases p.run limits ⟨s.env, []⟩ with
  | ok _ m => exact (Diagnostics.addAll_nil _).symm
  | error f m =>
    cases f with
    | problem t p => rfl
    | _ => exact (Diagnostics.addAll_nil _).symm

theorem interpret_reports (limits : Limits) (s : Session) (p : Program) :
    (s.interpret limits p).2.reports = [] ∨ (s.interpret limits p).2.failure = none ∧
      ∃ line message, (s.interpret limits p).2.reports = [.runtime line message] := by
  rw [interpret]
  cases p.run limits ⟨s.env, []⟩ with
  | ok _ m => exact .inl rfl
  | error f m =>
    cases f with
    | problem t p => exact .inr ⟨rfl, t.line, p.message, rfl⟩
    | _ => exact .inl rfl

theorem interpret_isGlobal (limits : Limits) (p : Program) (h : s.env.isGlobal) :
    (s.interpret limits p).1.env.isGlobal := (s.interpret_adds limits p).isGlobal h

theorem runReading_of_hadError (limits : Limits)
    (h : (s.addEvents r.events).diagnostics.hadError = true) :
    (s.runReading limits r).1 = s.addEvents r.events ∧
      (s.runReading limits r).2.printed = [] ∧ (s.runReading limits r).2.failure = none ∧
      (s.runReading limits r).2.reports = r.reports := by
  have hr : s.runReading limits r = _ := if_pos h
  rw [hr]
  refine ⟨rfl, rfl, rfl, ?_⟩
  rw [Outcome.reports, List.filterMap_append, r.filterMap_events]
  exact List.append_nil _

theorem runReading_of_reports (limits : Limits) (hs : s.diagnostics.hadError = false)
    (hr : r.reports = []) :
    (s.runReading limits r).1 = (s.interpret limits r.program).1 ∧
      (s.runReading limits r).2.printed = (s.interpret limits r.program).2.printed ∧
      (s.runReading limits r).2.failure = (s.interpret limits r.program).2.failure ∧
      (s.runReading limits r).2.reports = (s.interpret limits r.program).2.reports := by
  have h : s.runReading limits r = ((s.interpret limits r.program).1,
      { (s.interpret limits r.program).2 with
        events := r.events ++ (s.interpret limits r.program).2.events }) := by
    rw [runReading, addEvents_of_reports hr]
    simp [hs]
  rw [h]
  refine ⟨rfl, rfl, rfl, ?_⟩
  rw [Outcome.reports, List.filterMap_append, r.filterMap_events, hr]
  rfl

theorem hadError_or (s : Session) (r : Reading) :
    (s.addEvents r.events).diagnostics.hadError = true ∨
      s.diagnostics.hadError = false ∧ r.reports = [] := by
  rw [← hadError_addEvents]
  exact Bool.eq_false_or_eq_true _

theorem runReading_diagnostics (limits : Limits) (s : Session) (r : Reading) :
    (s.runReading limits r).1.diagnostics =
      s.diagnostics.addAll (s.runReading limits r).2.reports := by
  rcases hadError_or s r with h | ⟨hs, hr⟩
  · obtain ⟨hsession, -, -, hreports⟩ := runReading_of_hadError limits h
    rw [hsession, hreports, addEvents, r.filterMap_events]
  · obtain ⟨hsession, -, -, hreports⟩ := runReading_of_reports limits hs hr
    rw [hsession, hreports, interpret_diagnostics]

theorem runReading_isGlobal (limits : Limits) (r : Reading) (h : s.env.isGlobal) :
    (s.runReading limits r).1.env.isGlobal := by
  rcases hadError_or s r with he | ⟨hs, hr⟩
  · rwa [(runReading_of_hadError limits he).1]
  · rw [(runReading_of_reports limits hs hr).1]
    exact interpret_isGlobal limits r.program h

/-- After the reports on the text there is at most one on the run, and only if nothing is wrong with
any text. -/
theorem runReading_reports (limits : Limits) (s : Session) (r : Reading) :
    (s.runReading limits r).2.reports = r.reports ∨
      s.diagnostics.hadError = false ∧ r.reports = [] ∧
        (s.runReading limits r).2.failure = none ∧
        ∃ line message, (s.runReading limits r).2.reports = [.runtime line message] := by
  rcases hadError_or s r with h | ⟨hs, hr⟩
  · exact .inl (runReading_of_hadError limits h).2.2.2
  · obtain ⟨-, -, hfailure, hreports⟩ := runReading_of_reports limits hs hr
    rw [hreports, hfailure]
    rcases s.interpret_reports limits r.program with h | h
    · exact .inl (h.trans hr.symm)
    · exact .inr ⟨hs, hr, h⟩

/-- A source to run, and whether the diagnostics are forgotten before. -/
structure Step where
  resets : Bool
  source : String

/-- The session in which the source of the step is run. -/
def before (s : Session) (st : Step) : Session := if st.resets then s.reset else s

@[simp] theorem before_env (s : Session) (st : Step) : (s.before st).env = s.env := by
  rw [before]
  split <;> rfl

def step (limits : Limits) (s : Session) (st : Step) : Session × Outcome :=
  (s.before st).run limits st.source

/-- A step, for a session and what has been reported since the last reset. -/
def advance (limits : Limits) : Session × List Report → Step → Session × List Report
  | (s, told), st =>
    ((s.step limits st).1, (if st.resets then [] else told) ++ (s.step limits st).2.reports)

/-- The session after the steps, and what they have reported since the last reset. -/
def play (limits : Limits) (steps : List Step) : Session × List Report :=
  steps.foldl (advance limits) (fresh, [])

/-- A session between two steps, after the reports `told` since the last reset. -/
structure Steady (s : Session) (told : List Report) : Prop where
  isGlobal : s.env.isGlobal
  reports : s.diagnostics.reports = told
  hadError : s.diagnostics.hadError = true ↔ ∃ x ∈ told, x.isStatic = true
  hadRuntimeError : s.diagnostics.hadRuntimeError = true ↔ ∃ x ∈ told, x.isStatic = false

theorem Steady.reset (h : s.env.isGlobal) : Steady s.reset [] := by
  constructor
  · exact h
  · rfl
  · simp [Session.reset, Diagnostics.empty]
  · simp [Session.reset, Diagnostics.empty]

theorem Steady.fresh : Steady fresh [] := .reset (s := .fresh) rfl

theorem Steady.before (h : Steady s told) (st : Step) :
    Steady (s.before st) (if st.resets then [] else told) := by
  rw [Session.before]
  split
  · exact .reset h.isGlobal
  · exact h

theorem Steady.step (h : Steady s told) (limits : Limits) (st : Step) :
    Steady (s.step limits st).1
      ((if st.resets then [] else told) ++ (s.step limits st).2.reports) := by
  have hb := h.before st
  have hd : (s.step limits st).1.diagnostics =
      (s.before st).diagnostics.addAll (s.step limits st).2.reports :=
    runReading_diagnostics limits _ _
  constructor
  · exact runReading_isGlobal limits _ hb.isGlobal
  · rw [hd, Diagnostics.addAll, hb.reports]
  · rw [hd, Diagnostics.addAll, Bool.or_eq_true, hb.hadError, List.any_eq_true]
    simp only [List.mem_append, or_and_right, exists_or]
  · rw [hd, Diagnostics.addAll, Bool.or_eq_true, hb.hadRuntimeError, List.any_eq_true]
    simp only [List.mem_append, or_and_right, exists_or, Bool.not_eq_true']

theorem Steady.steps (h : Steady s told) (limits : Limits) (steps : List Step) :
    Steady (steps.foldl (advance limits) (s, told)).1
      (steps.foldl (advance limits) (s, told)).2 := by
  induction steps generalizing s told with
  | nil => exact h
  | cons st steps ih => exact ih (h.step limits st)

/-- What the step does to the session. -/
structure Step.Effect (limits : Limits) (s : Session) (st : Step) : Prop where
  /-- The reports on the text are appended, and then at most one on the run; there is one only if
  nothing is wrong with any text since the last reset. -/
  reports : ∃ last, (s.step limits st).1.diagnostics.reports =
      (s.before st).diagnostics.reports ++
        ((Reading.ofSource st.source limits.nesting).reports ++ last) ∧
    (last = [] ∨ (∃ line message, last = [.runtime line message]) ∧
      ∀ x ∈ (s.before st).diagnostics.reports ++
          (Reading.ofSource st.source limits.nesting).reports, x.isStatic = false)
  isStatic : ∀ x ∈ (Reading.ofSource st.source limits.nesting).reports, x.isStatic = true
  /-- If something is wrong with a text, nothing is run. -/
  skipped :
    ((s.before st).addEvents
        (Reading.ofSource st.source limits.nesting).events).diagnostics.hadError = true →
      (s.step limits st).1.env = s.env ∧ (s.step limits st).2.printed = []

theorem Steady.effect (h : Steady s told) (limits : Limits) (st : Step) :
    st.Effect limits s := by
  have hb := h.before st
  have hd : (s.step limits st).1.diagnostics.reports =
      (s.before st).diagnostics.reports ++ (s.step limits st).2.reports :=
    congrArg _ (runReading_diagnostics limits _ _)
  constructor
  · rcases runReading_reports limits (s.before st) (.ofSource st.source limits.nesting)
      with hr | ⟨hs, hr, -, line, message, hlast⟩
    · refine ⟨[], ?_, .inl rfl⟩
      rw [hd, List.append_nil, show (s.step limits st).2.reports = _ from hr]
    · rw [hd, hr, show (s.step limits st).2.reports = _ from hlast, List.append_nil]
      refine ⟨[.runtime line message], rfl, .inr ⟨⟨line, message, rfl⟩, ?_⟩⟩
      intro x hx
      rw [hb.reports] at hx
      rw [Bool.eq_false_iff]
      exact fun hstatic => Bool.eq_false_iff.mp hs (hb.hadError.mpr ⟨x, hx, hstatic⟩)
  · exact Reading.isStatic_of_mem_reports _
  · intro he
    obtain ⟨hsession, hprinted, -⟩ := runReading_of_hadError limits he
    exact ⟨(congrArg Session.env hsession).trans (before_env s st), hprinted⟩

/-- The end of a script tells of what the run of its source has reported; `out` is what is written
before the run. -/
structure Tells (run : Session × Outcome) (out : String) (ended : Exit × World) : Prop where
  dataError : ended.1 = .dataError ↔ ∃ x ∈ run.1.diagnostics.reports, x.isStatic = true
  skipped : ended.1 = .dataError → run.1.env = fresh.env ∧ run.2.printed = [] ∧ ended.2.out = out
  software : ended.1 = .software ↔
    ∃ line message, run.1.diagnostics.reports = [.runtime line message]
  ok : ended.1 = .ok ↔ run.1.diagnostics.reports = [] ∧ run.2.failure = none
  /-- The run ends, or would go on for ever. -/
  failure : run.2.failure = none ∨ run.2.failure = some .outOfRounds

variable {o : Options} {w w' : World} {path source : String} {bytes : ByteArray}

theorem Steady.exitFor_of_static (h : Steady s told) (hx : ∃ x ∈ told, x.isStatic = true) :
    Shell.exitFor s.diagnostics = .dataError :=
  if_pos (h.hadError.mpr hx)

theorem Steady.exitFor_of_runtime {line : Int} {message : String}
    (h : Steady s [.runtime line message]) : Shell.exitFor s.diagnostics = .software := by
  have herror : ¬ s.diagnostics.hadError = true := by
    rw [h.hadError]
    rintro ⟨x, hx, hstatic⟩
    obtain rfl := List.mem_singleton.mp hx
    cases hstatic
  rw [Shell.exitFor, if_neg herror, if_pos (h.hadRuntimeError.mpr ⟨_, .head _, rfl⟩)]

theorem Steady.exitFor_of_nil (h : Steady s []) : Shell.exitFor s.diagnostics = .ok := by
  have herror : ¬ s.diagnostics.hadError = true := by
    rw [h.hadError]
    exact nofun
  have hruntime : ¬ s.diagnostics.hadRuntimeError = true := by
    rw [h.hadRuntimeError]
    exact nofun
  rw [Shell.exitFor, if_neg herror, if_neg hruntime]

/-- The four ends of a script: its text is wrong and nothing is run, its run fails, all is well, or
it would run for ever. -/
theorem script_cases (hr : w.files.read path = .ok bytes) (hd : Text.decode bytes = .ok source)
    (hw : Shell.writeAll o w (.ofSource (Text.unifyNewlines source) Shell.limits.nesting) =
      .ok w') :
    let result := fresh.run Shell.limits (Text.unifyNewlines source)
    let reports := result.1.diagnostics.reports
    let exit := (Shell.runScript o w path).1
    (exit = .dataError ∧ result.2.failure = none ∧ (∃ x ∈ reports, x.isStatic = true) ∧
        result.1.env = fresh.env ∧ result.2.printed = [] ∧
        (Shell.runScript o w path).2.out = w'.out) ∨
      (exit = .software ∧ result.2.failure = none ∧
        ∃ line message, reports = [.runtime line message]) ∨
      (exit = .ok ∧ result.2.failure = none ∧ reports = []) ∨
      exit = .failed .outOfRounds ∧ result.2.failure = some .outOfRounds ∧ reports = [] := by
  intro result reports exit
  have hs : Steady result.1 result.2.reports :=
    Steady.fresh.step Shell.limits ⟨false, Text.unifyNewlines source⟩
  have hreports : reports = result.2.reports := hs.reports
  have hrun : Shell.runScript o w path = _ := Shell.runScript_of_decode hr hd hw
  have hexit : exit = Shell.endOf result.1.diagnostics result.2.failure := congrArg Prod.fst hrun
  rw [hreports]
  let read : Reading := .ofSource (Text.unifyNewlines source) Shell.limits.nesting
  rcases hadError_or fresh read with h | ⟨-, hnone⟩
  · obtain ⟨hsession, hprinted, hfailure, -⟩ := runReading_of_hadError Shell.limits h
    rw [← hsession] at h
    have hstatic := hs.hadError.mp h
    have hout : (Shell.runScript o w path).2.out = w'.out ++ result.2.output :=
      congrArg (·.2.out) hrun
    rw [Outcome.output, show result.2.printed = [] from hprinted] at hout
    replace hfailure : result.2.failure = none := hfailure
    rw [hfailure, Shell.endOf, hs.exitFor_of_static hstatic] at hexit
    have henv : result.1.env = fresh.env := (congrArg Session.env hsession).trans rfl
    exact .inl ⟨hexit, hfailure, hstatic, henv, hprinted, hout.trans String.append_empty⟩
  · rcases runReading_reports Shell.limits fresh read with h | ⟨-, -, hfailure, line, message, h⟩
    · replace h : result.2.reports = [] := h.trans hnone
      rw [h] at hs
      rcases (run_settled (s := fresh) Shell.limits (Text.unifyNewlines source)
        (Env.plain_global.mpr nofun)).failure with hf | hf
      · rw [show result.2.failure = none from hf, Shell.endOf, hs.exitFor_of_nil] at hexit
        exact .inr (.inr (.inl ⟨hexit, hf, h⟩))
      · rw [show result.2.failure = some .outOfRounds from hf] at hexit
        exact .inr (.inr (.inr ⟨hexit, hf, h⟩))
    · replace h : result.2.reports = [.runtime line message] := h
      replace hfailure : result.2.failure = none := hfailure
      rw [h] at hs
      rw [hfailure, Shell.endOf, hs.exitFor_of_runtime] at hexit
      exact .inr (.inl ⟨hexit, hfailure, line, message, h⟩)

theorem script_tells (hr : w.files.read path = .ok bytes) (hd : Text.decode bytes = .ok source)
    (hw : Shell.writeAll o w (.ofSource (Text.unifyNewlines source) Shell.limits.nesting) =
      .ok w') :
    Tells (fresh.run Shell.limits (Text.unifyNewlines source)) w'.out
      (Shell.runScript o w path) := by
  rcases script_cases hr hd hw with ⟨he, hf, ⟨x, hx, hstatic⟩, henv, hprinted, hout⟩ |
    ⟨he, hf, line, message, hreports⟩ | ⟨he, hf, hreports⟩ | ⟨he, hf, hreports⟩
  · constructor
    · exact iff_of_true he ⟨x, hx, hstatic⟩
    · exact fun _ => ⟨henv, hprinted, hout⟩
    · apply iff_of_false (by simp [he, Exit.dataError, Exit.software])
      rintro ⟨line, message, hreports⟩
      rw [hreports] at hx
      obtain rfl := List.mem_singleton.mp hx
      cases hstatic
    · apply iff_of_false (by simp [he, Exit.dataError, Exit.ok])
      rintro ⟨hreports, -⟩
      rw [hreports] at hx
      cases hx
    · exact .inl hf
  all_goals
    constructor <;> simp [he, hf, hreports, Exit.dataError, Exit.software, Exit.ok, Report.isStatic]

/-- After any steps a session is in the global scope, and its flags tell of which kinds the reports
since the last reset are. The next step appends to these. A script that is read and decoded ends
with a status that tells of its reports. -/
theorem play_steady (limits : Limits) (steps : List Step) :
    Steady (play limits steps).1 (play limits steps).2 ∧
      (∀ st : Step, st.Effect limits (play limits steps).1) ∧
      ∀ (o : Options) (w w' : World) (path source : String) (bytes : ByteArray),
        w.files.read path = .ok bytes → Text.decode bytes = .ok source →
        Shell.writeAll o w (.ofSource (Text.unifyNewlines source) Shell.limits.nesting) = .ok w' →
        Tells (fresh.run Shell.limits (Text.unifyNewlines source)) w'.out
          (Shell.runScript o w path) := by
  have h : Steady (play limits steps).1 (play limits steps).2 := Steady.fresh.steps limits steps
  exact ⟨h, h.effect limits, fun _ _ _ _ _ _ hr hd hw => script_tells hr hd hw⟩

/-- A wrong text, which is forgotten before the next source is run, and a script. -/
theorem play_steady_semicolon :
    let steps : List Step := [⟨false, "var a = true; a = -a;"⟩, ⟨false, ";"⟩, ⟨true, "print a;"⟩]
    Steady (play ⟨100, 20, 5⟩ steps).1 (play ⟨100, 20, 5⟩ steps).2 ∧
      (Shell.worldOf ⟨#[0x3b]⟩).files.read "s" = .ok ⟨#[0x3b]⟩ ∧
      Text.decode ⟨#[0x3b]⟩ = .ok ";" ∧
      Tells (fresh.run Shell.limits (Text.unifyNewlines ";")) ""
        (Shell.runScript .default (Shell.worldOf ⟨#[0x3b]⟩) "s") := by
  intro steps
  have hr := Shell.read_worldOf ⟨#[0x3b]⟩
  have hw := Shell.writeAll_of_paths (o := .default) rfl rfl (Shell.worldOf ⟨#[0x3b]⟩)
    (.ofSource (Text.unifyNewlines ";") Shell.limits.nesting)
  obtain ⟨h, -, htells⟩ := play_steady ⟨100, 20, 5⟩ steps
  exact ⟨h, hr, Shell.decode_semicolon, htells _ _ _ _ _ _ hr Shell.decode_semicolon hw⟩

end Session

end Lox
