import Lox.Diagnostics
import Lox.Grammar.Statement
import Lox.Run.Machine
import Lox.Token.Scan
import Lox.Tree.Printed

/-! # Sessions

A session is what lasts from one piece of source to the next: the environment and the diagnostics.
`Session.run` scans and parses a source and, if no error has been reported since the last reset,
runs it. What happens on the way is told by `Event`s, in order.
-/

namespace Lox

inductive Stage
  | scanner | parser | interpreter | main
  deriving DecidableEq

def Stage.name : Stage → String
  | scanner => "scanner"
  | parser => "parser"
  | interpreter => "interpreter"
  | main => "main"

/-- A report, or a note on the progress of the work. -/
inductive Event
  | report (r : Report)
  | note (stage : Stage) (text : String)

namespace Event

def report? : Event → Option Report
  | report r => some r
  | note .. => none

/-- What an event adds to the error output; notes only show if wanted. -/
def text (verbose : Bool) : Event → String
  | report r => r.text ++ "\n"
  | note stage text => if verbose then "DEBUG: " ++ stage.name ++ ": " ++ text ++ "\n" else ""

def texts (verbose : Bool) (es : List Event) : String := String.join (es.map (text verbose))

end Event

def Fault.report (f : Fault) : Report := Report.atToken f.token f.error.message

def LexicalError.report (line : Int) (e : LexicalError) : Report := Report.atLine line e.message

def Scan.reports (s : Scan) : List Report := s.faults.map fun f => f.2.report f.1

/-- A fault is reported; if a statement is given up for it, that is noted. -/
def Fault.events (f : Fault) : List Event :=
  .report f.report ::
    if f.error.isRaised then
      [.note .parser ("recovering from parse error: " ++ f.error.message)]
    else []

structure Reading where
  scan : Scan
  reply : Reply Program

namespace Reading

def ofSource (source : String) (nesting : Nat := nestingLimit) : Reading :=
  let s := Lox.scan source
  ⟨s, parse s.tokens nesting⟩

/-- The statements; none if the tokens end too early, which those of a scan do not. -/
def program (r : Reading) : Program := r.reply.result.toOption.getD []

def scanEvents (r : Reading) : List Event :=
  r.scan.reports.map .report ++
    [.note .scanner ("scanned " ++ toString r.scan.tokens.length ++ " tokens over "
      ++ toString r.scan.line ++ " lines")]

def reports (r : Reading) : List Report := r.scan.reports ++ r.reply.faults.map Fault.report

def parseEvents (r : Reading) : List Event := r.reply.faults.flatMap Fault.events

def events (r : Reading) : List Event := r.scanEvents ++ r.parseEvents

end Reading

structure Session where
  env : Env
  diagnostics : Diagnostics

structure Outcome where
  /-- The printed lines in order. -/
  printed : List String
  events : List Event
  /-- The failure that ended the run, unless it was a problem of the program, which is reported. -/
  failure : Option Failure

namespace Session

def fresh : Session := ⟨.global [], .empty⟩

def addEvents (s : Session) (es : List Event) : Session :=
  { s with diagnostics := s.diagnostics.addAll (es.filterMap Event.report?) }

def reset (s : Session) : Session := { s with diagnostics := .empty }

def problemEvents (t : Token) (p : Problem) : List Event :=
  [.note .interpreter ("runtime error at line " ++ toString t.line ++ ": " ++ p.message),
    .report (.runtime t.line p.message)]

def interpret (limits : Limits) (s : Session) (p : Program) : Session × Outcome :=
  match p.run limits ⟨s.env, []⟩ with
  | .ok _ m => ({ s with env := m.env }, ⟨m.printed.reverse, [], none⟩)
  | .error (.problem t problem) m =>
    let es := problemEvents t problem
    ({ s with env := m.env }.addEvents es, ⟨m.printed.reverse, es, none⟩)
  | .error failure m => ({ s with env := m.env }, ⟨m.printed.reverse, [], some failure⟩)

/-- Run a source that has been read, or say why it is not run. -/
def runReading (limits : Limits) (s : Session) (r : Reading) : Session × Outcome :=
  let s := s.addEvents r.events
  if s.diagnostics.hadError then
    let count := toString s.diagnostics.reports.length
    let es := [Event.note .main ("skipping execution: " ++ count ++ " diagnostics")]
    (s, ⟨[], r.events ++ es, none⟩)
  else
    let (s, outcome) := s.interpret limits r.program
    (s, { outcome with events := r.events ++ outcome.events })

def run (limits : Limits) (s : Session) (source : String) : Session × Outcome :=
  s.runReading limits (.ofSource source limits.nesting)

end Session

/-- What a run of a source shows of it, apart from running it. -/
structure Listing where
  tokens : Bool
  tree : Bool

/-- The tokens, numbered, one a line. -/
def tokenListing (tokens : List Token) : String :=
  "Tokens (" ++ toString tokens.length ++ "):\n"
    ++ String.join (tokens.mapIdx fun i t =>
      let number := toString i
      let margin := String.ofList (List.replicate (3 - number.length) ' ')
      "  " ++ margin ++ number ++ ": " ++ t.record ++ "\n")

def treeListing (p : Program) : String := "AST:\n" ++ p.printed ++ "\n"

def Listing.text (l : Listing) (r : Reading) : String :=
  (if l.tokens then tokenListing r.scan.tokens else "")
    ++ (if l.tree then treeListing r.program else "")

def Outcome.output (o : Outcome) : String := String.join (o.printed.map (· ++ "\n"))

end Lox
