import Lox.Tree.Outline
import Lox.Text.Quoted

/-! # Dumps

A tree as a JSON document. A node is an object with its kind first and then its parts by name; a
token is its text; what is missing is null. The text has ASCII characters alone: all others are
escaped. It may hold the words `Infinity` and `NaN`, which are no JSON numbers.
-/

namespace Lox

inductive Json
  | null
  | bool (b : Bool)
  | number (n : Number)
  | string (s : String)
  | array (items : List Json)
  | object (members : List (String × Json))

namespace Json

def escapeUnit (n : Nat) : List Char := '\\' :: 'u' :: Text.hexDigits 4 n

def escape (c : Char) : List Char :=
  if c = '"' then ['\\', '"']
  else if c = '\\' then ['\\', '\\']
  else if c = '\n' then ['\\', 'n']
  else if c = '\r' then ['\\', 'r']
  else if c = '\t' then ['\\', 't']
  else if c = '\x08' then ['\\', 'b']
  else if c = '\x0c' then ['\\', 'f']
  else if 0x20 ≤ c.toNat ∧ c.toNat ≤ 0x7e then [c]
  else if c.toNat < 0x10000 then escapeUnit c.toNat
  else
    let n := c.toNat - 0x10000
    escapeUnit (0xd800 + n / 0x400) ++ escapeUnit (0xdc00 + n % 0x400)

def quoted (s : String) : String := String.ofList ('"' :: s.toList.flatMap escape ++ ['"'])

def numberText : Number → String
  | .whole n => toString n
  | .double x =>
    let g := Double.magnitude x
    if Double.infinite < g then "NaN"
    else if g = Double.infinite then (if Double.isNegative x then "-Infinity" else "Infinity")
    else Double.text .literal x

/-- Members or items between brackets, each on a line of its own if lines are indented. -/
def enclose (opening closing : String) (indent : Option Nat) (items : List String) : String :=
  if items = [] then opening ++ closing
  else
    match indent with
    | none => opening ++ String.intercalate ", " items ++ closing
    | some n =>
      let margin := "\n" ++ String.ofList (List.replicate n ' ')
      let inner := margin ++ "  "
      opening ++ inner ++ String.intercalate ("," ++ inner) items ++ margin ++ closing

mutual

/-- The text of a document: on one line, or on several with `indent` blanks before the document's
own lines and two more for each level. -/
def text (indent : Option Nat) : Json → String
  | null => "null"
  | bool b => if b then "true" else "false"
  | number n => numberText n
  | string s => quoted s
  | array items => enclose "[" "]" indent (texts (indent.map (· + 2)) items)
  | object members => enclose "\x7b" "\x7d" indent (memberTexts (indent.map (· + 2)) members)

def texts (indent : Option Nat) : List Json → List String
  | [] => []
  | j :: js => j.text indent :: texts indent js

def memberTexts (indent : Option Nat) : List (String × Json) → List String
  | [] => []
  | (key, j) :: members => (quoted key ++ ": " ++ j.text indent) :: memberTexts indent members

end

end Json

def Value.json : Value → Json
  | nil => .null
  | bool b => .bool b
  | number n => .number n
  | string s => .string s

namespace Outline

mutual

def json : Outline → Json
  | failed => .null
  | absent => .null
  | token t => .string t.lexeme
  | literal v => v.json
  | list items => .array (jsons items)
  | node kind parts => .object (("node_type", .string kind.tag) :: kind.fields.zip (jsons parts))

def jsons : List Outline → List Json
  | [] => []
  | o :: os => o.json :: jsons os

end

/-- The document for one tree, unless a node of it is blank: such a node has no kind to write. -/
def json? (o : Outline) : Except NodeKind Json :=
  match o.blank? with
  | some kind => .error kind
  | none => .ok o.json

end Outline

def Program.json (p : Program) : Json :=
  .object
    [("node_type", .string "Program"), ("statements", .array (Outline.jsons (Stmt.outlines p)))]

def Program.json? (p : Program) : Except NodeKind Json :=
  match Outline.blankIn? (Stmt.outlines p) with
  | some kind => .error kind
  | none => .ok (Program.json p)

/-- The text of a program's dump, with indented lines. How deep a tree can be dumped is not
modelled: no stack runs out. -/
def Program.dump (p : Program) : String := (Program.json p).text (some 0)

end Lox
