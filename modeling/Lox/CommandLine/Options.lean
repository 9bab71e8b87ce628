import Lox.Session
import Lox.Text.Classes
import Lox.Text.Quoted

/-! # Options

What the words of the command line ask for. An option may be shortened as long as it is clear which
is meant; its value follows after an equals sign or as the next word. Options and the script may
come in any order, and after `--` no word is an option.
-/

namespace Lox

/-- The options by what they set. -/
inductive Flag
  | help | printTokens | printAst | dumpAst | vizAst | vizFormat | verbose
  deriving DecidableEq

namespace Flag

def spellings : List (String × Flag) := [
  ("-h", help), ("--help", help), ("--print-tokens", printTokens), ("--print-ast", printAst),
  ("--dump-ast", dumpAst), ("--viz-ast", vizAst), ("--viz-format", vizFormat),
  ("--verbose", verbose), ("-v", verbose)]

def title : Flag → String
  | help => "-h/--help"
  | printTokens => "--print-tokens"
  | printAst => "--print-ast"
  | dumpAst => "--dump-ast"
  | vizAst => "--viz-ast"
  | vizFormat => "--viz-format"
  | verbose => "--verbose/-v"

def takesValue : Flag → Bool
  | dumpAst | vizAst | vizFormat => true
  | _ => false

end Flag

structure Options where
  script : Option String
  listing : Listing
  dumpPath : String
  drawingPath : String
  /-- None, if the option for it was left without a value. -/
  drawingFormat : Option String
  verbose : Bool

def Options.default : Options := ⟨none, ⟨false, false⟩, "", "", some "svg", false⟩

inductive UsageError
  | ambiguous (word : String) (spellings : List String)
  | missingValue (f : Flag)
  | unwantedValue (f : Flag) (value : String)
  | unrecognized (words : List String)

def UsageError.message : UsageError → String
  | ambiguous word spellings =>
    "ambiguous option: " ++ word ++ " could match " ++ String.intercalate ", " spellings
  | missingValue f => "argument " ++ f.title ++ ": expected one argument"
  | unwantedValue f value =>
    "argument " ++ f.title ++ ": ignored explicit argument " ++ Text.quoted value
  | unrecognized words => "unrecognized arguments: " ++ String.intercalate " " words

inductive Request
  | help
  | run (o : Options)

namespace Usage

def usage : String :=
  "usage: pylox [-h] [--print-tokens] [--print-ast] [--dump-ast DUMP_AST]\n" ++
  "             [--viz-ast VIZ_AST] [--viz-format VIZ_FORMAT] [--verbose]\n" ++
  "             [script]\n"

def help : String :=
  usage ++ "\n" ++
  "Run a Lox script, or start an interactive prompt when no script is given\n\n" ++
  "positional arguments:\n" ++
  "  script                Path to source file to run\n\n" ++
  "options:\n" ++
  "  -h, --help            show this help message and exit\n" ++
  "  --print-tokens        Print tokens\n" ++
  "  --print-ast           Print the parsed AST\n" ++
  "  --dump-ast DUMP_AST   Path to write the AST as JSON\n" ++
  "  --viz-ast VIZ_AST     Path (without extension) to write Graphviz\n" ++
  "                        visualization of the AST\n" ++
  "  --viz-format VIZ_FORMAT\n" ++
  "                        Format for Graphviz output (svg, png, pdf, etc)\n" ++
  "  --verbose, -v         Log pipeline progress to standard error\n"

inductive Word
  | plain (text : String)
  /-- `--`, after which all words are plain. -/
  | divider
  /-- An option and what follows its name in the same word; `short` tells of a spelling with one
  dash. -/
  | option (f : Flag) (short : Bool) (tail : Option String)
  | unknown (text : String)

def isDecimalDigit (c : Char) : Bool := (Text.digit? c).isSome

/-- Whether a word is a negative number, in digits of any script. A newline may follow it. -/
def isNegativeNumeral (word : List Char) : Bool :=
  match word with
  | '-' :: cs =>
    let cs := if cs.getLast? = some '\n' then cs.dropLast else cs
    let whole := cs.takeWhile isDecimalDigit
    match cs.dropWhile isDecimalDigit with
    | [] => whole ≠ []
    | '.' :: fraction => fraction ≠ [] && fraction.all isDecimalDigit
    | _ => false
  | _ => false

def cut (word : String) : String × Option String :=
  let cs := word.toList
  match cs.dropWhile (· != '=') with
  | [] => (word, none)
  | _ :: value => (String.ofList (cs.takeWhile (· != '=')), some (String.ofList value))

def isShort (spelling : String) : Bool := !spelling.startsWith "--"

/-- The spellings that a word may be short for. -/
def candidates (word : String) : List (String × Flag × Option String) :=
  if isShort word then
    let letter := String.ofList (word.toList.take 2)
    Flag.spellings.filterMap fun (spelling, f) =>
      if spelling = letter then some (spelling, f, some (String.ofList (word.toList.drop 2)))
      else if spelling.startsWith word then some (spelling, f, none)
      else none
  else
    let (name, tail) := cut word
    Flag.spellings.filterMap fun (spelling, f) =>
      if spelling.startsWith name then some (spelling, f, tail) else none

def spelled? (word : String) : Option Word :=
  match Flag.spellings.lookup word with
  | some f => some (.option f (isShort word) none)
  | none =>
    match cut word with
    | (_, none) => none
    | (name, tail) => (Flag.spellings.lookup name).map fun f => .option f (isShort name) tail

def classify (word : String) : Except UsageError Word :=
  if !word.startsWith "-" || word = "-" then .ok (.plain word)
  else if word = "--" then .ok .divider
  else
    match spelled? word with
    | some w => .ok w
    | none =>
      match candidates word with
      | [(spelling, f, tail)] => .ok (.option f (isShort spelling) tail)
      | [] =>
        if isNegativeNumeral word.toList || word.toList.contains ' ' then .ok (.plain word)
        else .ok (.unknown word)
      | several => .error (.ambiguous word (several.map (·.1)))

def classifyAll : List String → Except UsageError (List Word)
  | [] => .ok []
  | word :: words => do
    match ← classify word with
    | .divider => return .divider :: words.map .plain
    | w => return w :: (← classifyAll words)

/-- The effect of an option; `value` is empty for those that take none. -/
def set (o : Options) (f : Flag) (value : String) : Options :=
  match f with
  | .help => o
  | .printTokens => { o with listing := { o.listing with tokens := true } }
  | .printAst => { o with listing := { o.listing with tree := true } }
  | .dumpAst => { o with dumpPath := value }
  | .vizAst => { o with drawingPath := value }
  | .vizFormat => { o with drawingFormat := some value }
  | .verbose => { o with verbose := true }

/-- The effect of an option whose value follows an equals sign. Two dashes are no value, and leave
the option without one. -/
def setJoined (o : Options) (f : Flag) (value : String) : Options :=
  if value ≠ "--" then set o f value
  else if f = .vizFormat then { o with drawingFormat := none }
  else set o f ""

/-- The options of a word with one dash: `first`, and one more for each letter that follows. What
starts with a letter that is no option is an unwanted value of the option before it. -/
def letters (first : Flag) : List Char → Except UsageError (List Flag)
  | [] => .ok [first]
  | c :: cs =>
    match Flag.spellings.lookup (String.ofList ['-', c]) with
    | none => .error (.unwantedValue first (String.ofList (c :: cs)))
    | some next => (letters next cs).map (first :: ·)

/-- The options of a word whose option takes no value. -/
def switches (f : Flag) (short : Bool) : Option String → Except UsageError (List Flag)
  | none => .ok [f]
  | some text => if short ∧ text ≠ "" then letters f text.toList else .error (.unwantedValue f text)

/-- Follow the words. `extra` holds the words that have no place, the latest first. -/
def follow (o : Options) (extra : List String) : List Word → Except UsageError Request
  | [] => if extra = [] then .ok (.run o) else .error (.unrecognized extra.reverse)
  | .plain text :: .divider :: words =>
    if o.script.isNone then follow { o with script := some text } extra words
    else follow o ("--" :: text :: extra) words
  | .plain text :: words =>
    if o.script.isNone then follow { o with script := some text } extra words
    else follow o (text :: extra) words
  | .divider :: words =>
    if o.script.isNone then follow o extra words else follow o ("--" :: extra) words
  | .unknown text :: words => follow o (text :: extra) words
  | .option f short tail :: words =>
    if f.takesValue then
      match tail, words with
      | none, .plain v :: words => follow (set o f v) extra words
      | none, _ => .error (.missingValue f)
      | some v, words => follow (setJoined o f v) extra words
    else
      match switches f short tail with
      | .error e => .error e
      | .ok fs =>
        if fs.contains .help then .ok .help
        else follow (fs.foldl (fun o f => set o f "") o) extra words

def parse (words : List String) : Except UsageError Request := do
  follow .default [] (← classifyAll words)

end Usage
end Lox
