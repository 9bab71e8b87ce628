import Lox.CommandLine.Shell

/-! # The program

Reads the files that the command line names, lets the shell work on them, and writes what it wrote.
-/

namespace Lox.Terminal

def paths (o : Options) : List String :=
  ([o.script.getD "", o.dumpPath, o.drawingPath]).filter (· ≠ "")

def places (here : Location) (path : String) : List Location :=
  let p := Path.ofString path
  let start := if p.absolute then [] else here
  (p.names.foldl (fun (place, found) name =>
    let place :=
      if name = "." then place else if name = ".." then place.dropLast else place ++ [name]
    (place, place :: found)) (start, [start])).2

def pathOf (place : Location) : String := "/" ++ String.intercalate "/" place

def load (files : Files) (place : Location) : IO Files := do
  let path := (← IO.currentDir) / pathOf place
  if ← path.isDir then return files.put place .directory
  else if ← path.pathExists then return files.put place (.file (← IO.FS.readBinFile path))
  else return files

def loadAll (o : Options) : IO Files := do
  let here := (Path.ofString (← IO.currentDir).toString).names
  ((paths o).flatMap (places here)).foldlM load ⟨[(here, .directory)], here⟩

def save (before after : Files) : IO Unit := do
  let here ← IO.currentDir
  for (place, e) in after.entries.reverse do
    match before.find? place, e with
    | none, .directory => IO.FS.createDirAll (here / pathOf place)
    | some (.file old), .file content =>
      unless old == content do IO.FS.writeBinFile (here / pathOf place) content
    | none, .file content => IO.FS.writeBinFile (here / pathOf place) content
    | _, _ => pure ()

def flush (w : World) : IO Unit := do
  let out ← IO.getStdout
  out.putStr w.out
  out.flush
  (← IO.getStderr).putStr w.err

/-- The exit status of an ending; one that is no status is told on the error output. -/
def exitStatus : Exit → IO UInt32
  | .status n => return UInt32.ofNat n
  | .undecodable e => do
    IO.eprintln e.message
    return 1
  | .unknownFormat name => do
    IO.eprintln (Shell.unknownFormatMessage name)
    return 1
  | .noFormat => do
    IO.eprintln "no format for drawings"
    return 1
  | .badPath e => do
    IO.eprintln e.reason
    return 1
  | .failed _ => return 1

partial def prompt (o : Options) (s : Session) : IO Exit := do
  IO.print "> "
  (← IO.getStdout).flush
  let line ← (← IO.getStdin).getLine
  if line.isEmpty then
    IO.println ""
    return .ok
  let files ← loadAll o
  let source := ((Text.lines (Text.unifyNewlines line)).head?).getD ""
  match Shell.runSource o ⟨files, "", ""⟩ s source with
  | .error (ending, w) =>
    save files w.files
    flush w
    return ending
  | .ok (w, s) =>
    save files w.files
    flush w
    prompt o s.reset

end Lox.Terminal

def main (args : List String) : IO UInt32 := do
  match Lox.Usage.parse args with
  | .ok (.run o) =>
    match o.script with
    | none | some "" => Lox.Terminal.exitStatus (← Lox.Terminal.prompt o .fresh)
    | some path =>
      let files ← Lox.Terminal.loadAll o
      let (ending, w) := Lox.Shell.runScript o ⟨files, "", ""⟩ path
      Lox.Terminal.save files w.files
      Lox.Terminal.flush w
      Lox.Terminal.exitStatus ending
  | _ =>
    let (ending, w) := Lox.Shell.run args ⟨.fresh, "", ""⟩ "" false
    Lox.Terminal.flush w
    Lox.Terminal.exitStatus ending
