import Lox.CommandLine.Files
import Lox.CommandLine.Options
import Lox.Text.Lowercase
import Lox.Text.Utf8
import Lox.Tree.Drawing
import Lox.Tree.Dump

/-! # The command line

What the program does with its command line, its files and its input. A script is run once; without
one, each line of the input is run in one session, and the diagnostics are forgotten after each
line.
-/

namespace Lox

/-- How the program ends. -/
inductive Exit
  | status (n : Nat)
  /-- The script is not UTF-8. -/
  | undecodable (e : Text.DecodeError)
  /-- There is no such format for drawings. -/
  | unknownFormat (name : String)
  /-- The option for the format was left without a value, and there is something to draw. -/
  | noFormat
  /-- A path that cannot be asked for at all. -/
  | badPath (e : FileError)
  | failed (f : Failure)

def Exit.ok : Exit := status 0

def Exit.usage : Exit := status 2

def Exit.dataError : Exit := status 65

def Exit.noInput : Exit := status 66

def Exit.software : Exit := status 70

/-- The files, and what has been written to the two outputs. -/
structure World where
  files : Files
  out : String
  err : String

namespace World

def print (w : World) (text : String) : World := { w with out := w.out ++ text }

def printError (w : World) (text : String) : World := { w with err := w.err ++ text }

end World

namespace Shell

def formats : List String := [
  "bmp", "canon", "cgimage", "cmap", "cmapx", "cmapx_np", "dot", "dot_json", "eps", "exr", "fig",
  "gd", "gd2", "gif", "gtk", "gv", "ico", "imap", "imap_np", "ismap", "jp2", "jpe", "jpeg", "jpg",
  "json", "json0", "pct", "pdf", "pic", "pict", "plain", "plain-ext", "png", "pov", "ps", "ps2",
  "psd", "sgi", "svg", "svg_inline", "svgz", "tga", "tif", "tiff", "tk", "vml", "vmlz", "vrml",
  "wbmp", "webp", "x11", "xdot", "xdot1.2", "xdot1.4", "xdot_json", "xlib"]

/-- The format for drawings that is asked for, in small letters, if there is such a format. -/
def checkFormat : Option String → Except Exit Unit
  | none => .error .noFormat
  | some name =>
    let name := Text.lowercase name
    if formats.contains name then .ok () else .error (.unknownFormat name)

def unknownFormatMessage (name : String) : String :=
  "unknown format: " ++ Text.quoted name ++ " (must be one of [" ++
    String.intercalate ", " (formats.map Text.quoted) ++ "])"

def limits : Limits := ⟨nestingLimit, 3000, Nat.pow 10 18⟩

def writeDump (w : World) (path : String) (p : Program) : Except Exit World :=
  if path = "" then .ok w
  else
    match w.files.write path p.dump with
    | .ok files => .ok ({ w with files := files }.print ("Wrote AST JSON to " ++ path ++ "\n"))
    | .error .embeddedNul => .error (.badPath .embeddedNul)
    | .error e =>
      .ok (w.print ("Failed to write AST JSON to " ++ path ++ ": " ++ e.message path ++ "\n"))

def saveDrawing (files : Files) (path : String) (p : Program) : Files.Attempt :=
  let made := files.makeParents path
  if made.error.isSome then made
  else
    match made.files.write path p.drawing with
    | .ok files => ⟨files, none⟩
    | .error e => ⟨made.files, some (e, path)⟩

/-- Write the drawing of a program if it is wanted. It stays as text: the program that renders it is
not there. -/
def writeDrawing (w : World) (o : Options) (p : Program) : Except Exit World :=
  let path := o.drawingPath
  if path = "" then .ok w
  else
    let failed := "Failed to render AST visualization to " ++ path ++ ": "
    match checkFormat o.drawingFormat with
    | .error e => .error e
    | .ok () =>
      let saved := saveDrawing w.files path p
      let w := { w with files := saved.files }
      match saved.error with
      | none =>
        .ok (w.print (failed ++ "failed to execute PosixPath('dot'), " ++
          "make sure the Graphviz executables are on your systems' PATH\n"))
      | some (.embeddedNul, _) => .error (.badPath .embeddedNul)
      | some (e, at_) => .ok (w.print (failed ++ e.message at_ ++ "\n"))

/-- Write all that the options want of a program that has been read. What has been done before an
error remains. -/
def writeAll (o : Options) (w : World) (r : Reading) : Except (Exit × World) World :=
  let w := w.print (o.listing.text r)
  match writeDump w o.dumpPath r.program with
  | .error e => .error (e, w)
  | .ok w =>
    match writeDrawing w o r.program with
    | .error e => .error (e, w)
    | .ok w => .ok w

def runSource (o : Options) (w : World) (s : Session) (source : String) :
    Except (Exit × World) (World × Session) :=
  let r := Reading.ofSource source limits.nesting
  match writeAll o w r with
  | .error (e, w) => .error (e, w.printError (Event.texts o.verbose r.events))
  | .ok w =>
    let (s, outcome) := s.runReading limits r
    let w := (w.print outcome.output).printError (Event.texts o.verbose outcome.events)
    match outcome.failure with
    | none => .ok (w, s)
    | some f => .error (.failed f, w)

def exitFor (d : Diagnostics) : Exit :=
  if d.hadError then .dataError else if d.hadRuntimeError then .software else .ok

def runScript (o : Options) (w : World) (path : String) : Exit × World :=
  match w.files.read path with
  | .error .embeddedNul => (.badPath .embeddedNul, w)
  | .error e =>
    (.noInput, w.printError ("Failed to read file " ++ path ++ ": " ++ e.message path ++ "\n"))
  | .ok bytes =>
    match Text.decode bytes with
    | .error e => (.undecodable e, w)
    | .ok source =>
      match runSource o w .fresh (Text.unifyNewlines source) with
      | .error (ending, w) => (ending, w)
      | .ok (w, s) => (exitFor s.diagnostics, w)

def runLine (o : Options) (w : World) (s : Session) (line : String) :
    Except (Exit × World) (World × Session) :=
  (runSource o (w.print "> ") s line).map fun (w, s) => (w, s.reset)

def runLines (o : Options) : World → Session → List String → Except (Exit × World) World
  | w, _, [] => .ok (w.print "> ")
  | w, s, line :: lines =>
    match runLine o w s line with
    | .error e => .error e
    | .ok (w, s) => runLines o w s lines

/-- Prompt for lines up to the end of the input, or up to an interrupt after its last line. -/
def runPrompt (o : Options) (w : World) (input : String) (interrupt : Bool) : Exit × World :=
  match runLines o w .fresh (Text.lines (Text.unifyNewlines input)) with
  | .error e => e
  | .ok w => (.ok, w.print (if interrupt then "\nExiting...\n" else "\n"))

def run (words : List String) (w : World) (input : String) (interrupt : Bool) : Exit × World :=
  match Usage.parse words with
  | .error e => (.usage, w.printError (Usage.usage ++ "pylox: error: " ++ e.message ++ "\n"))
  | .ok .help => (.ok, w.print Usage.help)
  | .ok (.run o) =>
    match o.script with
    | none | some "" => runPrompt o w input interrupt
    | some path => runScript o w path

end Shell
end Lox
