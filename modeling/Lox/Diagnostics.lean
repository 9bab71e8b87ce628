import Lox.Token.Basic

/-! # Diagnostics

A `Report` is one message about a program, with its text. `Diagnostics` keeps the reports of a batch
in order, and remembers whether one of them came before the run and whether one came from it.
-/

namespace Lox

inductive Report
  /-- A message about the program's text, found before it runs. -/
  | static (line : Int) (place message : String)
  /-- A message about a failed run. -/
  | runtime (line : Int) (message : String)
  deriving DecidableEq

namespace Report

/-- A message about a place in the text that only its line tells. -/
def atLine (line : Int) (message : String) : Report := static line "" message

def atToken (t : Token) (message : String) : Report :=
  if t.kind = .eof then static t.line "at end" message
  else static t.line (" at '" ++ t.lexeme ++ "'") message

def text : Report → String
  | static line place message => "[" ++ toString line ++ "]: Error " ++ place ++ ": " ++ message
  | runtime line message => message ++ "\n[line " ++ toString line ++ "]"

def isStatic : Report → Bool
  | static .. => true
  | runtime .. => false

end Report

structure Diagnostics where
  reports : List Report
  hadError : Bool
  hadRuntimeError : Bool
  deriving DecidableEq

namespace Diagnostics

def empty : Diagnostics := ⟨[], false, false⟩

def addAll (d : Diagnostics) (rs : List Report) : Diagnostics :=
  { reports := d.reports ++ rs
    hadError := d.hadError || rs.any Report.isStatic
    hadRuntimeError := d.hadRuntimeError || rs.any (!·.isStatic) }

def add (d : Diagnostics) (r : Report) : Diagnostics := d.addAll [r]

@[simp] theorem addAll_nil (d : Diagnostics) : d.addAll [] = d := by simp [addAll]

def messages (d : Diagnostics) : List String := d.reports.map Report.text

end Diagnostics
end Lox
