import Lox.Proofs.Dumps.Programs
import Lox.Proofs.Printing.Words

/-! # Programs from their printed trees

The head of a parenthesis tells the node that is printed, and how many forms follow it what the node
has of optional parts. Without strings, a form that is a word is a number if it starts with a digit,
and else a name or one of the three constants. So all but the lines of the tokens can be told from
a printed program.
-/

namespace Lox

/-- The expression that a form stands for. The head is scanned as a token, and its kind tells the
node. -/
def Expr.ofForm? : Form → Option Expr
  | .word w =>
    if startsNumber w then
      (Number.readFloat? w.toList).map fun x => .literal (.double x)
    else
      match (Token.ofLexeme w).kind with
      | .kwNil => some (.literal .nil)
      | .kwTrue => some (.literal (.bool true))
      | .kwFalse => some (.literal (.bool false))
      | .identifier => some (.var (.ofLexeme w))
      | _ => none
  | .list (.word head :: parts) =>
    match (Token.ofLexeme head).kind, parts with
    | .identifier, [e] => (ofForm? e).map .grouping
    | .questionMark, [c, l, r] => do
      return .ternary (← ofForm? c) (← ofForm? l) (← ofForm? r)
    | .equal, [.word name, e] => (ofForm? e).map (.assign (.ofLexeme name))
    | .kwAnd, [l, r] | .kwOr, [l, r] => do
      return .logical (← ofForm? l) (.ofLexeme head) (← ofForm? r)
    | _, [e] => (ofForm? e).map (.unary (.ofLexeme head))
    | _, [l, r] => do return .binary (← ofForm? l) (.ofLexeme head) (← ofForm? r)
    | _, _ => none
  | _ => none

mutual

def Stmt.ofForm? : Form → Option Stmt
  | .word "<error>" => some .failed
  | .list (.word head :: parts) =>
    match (Token.ofLexeme head).kind, parts with
    | .semicolon, [e] => (Expr.ofForm? e).map .expression
    | .kwPrint, [e] => (Expr.ofForm? e).map .print
    | .kwVar, [.word name] => some (.declare (.ofLexeme name) none)
    | .kwVar, [.word name, e] => (Expr.ofForm? e).map fun e => .declare (.ofLexeme name) (some e)
    | .identifier, body => (ofForms? body).map .block
    | .kwIf, [c, t] => do return .branch (← Expr.ofForm? c) (← ofForm? t) none
    | .kwIf, [c, t, f] => do
      return .branch (← Expr.ofForm? c) (← ofForm? t) (some (← ofForm? f))
    | .kwWhile, [c, body] => do return .loop (← Expr.ofForm? c) (← ofForm? body)
    | _, _ => none
  | _ => none

def Stmt.ofForms? : List Form → Option (List Stmt)
  | [] => some []
  | f :: fs => do return (← ofForm? f) :: (← ofForms? fs)

end

/-- The program that a printed tree shows, with all tokens on no line. -/
def Program.ofPrinted? (text : String) : Option Program := Stmt.ofForms? (Form.read text)

/-- No string, and no number but a finite one. -/
def Token.isLegible (t : Token) : Bool :=
  t.kind != .string && match t.literal with
    | .number n => n.isFinite
    | _ => true

/-- The text is read as a form that stands for `a`. -/
def Shows {α : Type} (decode : Form → Option α) (text : String) (a : α) : Prop :=
  ∃ f, Form.Reads text f ∧ decode f = some a

/-- The text is one word, which is scanned as a token of the kind. -/
structure IsHead (head : String) (k : Kind) : Prop where
  reads : Form.Reads head (.word head)
  kind : (Token.ofLexeme head).kind = k

/-- The heads that are not tokens of the program, and what they are scanned as. -/
def heads : List (String × Kind) :=
  [("group", .identifier), ("?:", .questionMark), ("=", .equal), (";", .semicolon),
    ("print", .kwPrint), ("var", .kwVar), ("block", .identifier), ("if", .kwIf),
    ("while", .kwWhile)]

theorem isHead_of_mem {head : String} {k : Kind} (h : (head, k) ∈ heads) : IsHead head k := by
  have hall : ∀ b ∈ heads,
      b.1 ≠ "" ∧ b.1.toList.all Form.isWordy ∧ (Token.ofLexeme b.1).kind = b.2 := by
    decide +kernel
  obtain ⟨hne, hwordy, hkind⟩ := hall _ h
  exact ⟨Form.reads_word hne hwordy, hkind⟩

section

variable {source : String}

theorem Token.isHead {t : Token} (h : t ∈ (scan source).tokens)
    (hk : t.kind ∉ [.eof, .string, .leftParen, .rightParen]) : IsHead t.lexeme t.kind :=
  ⟨reads_lexeme h hk, by rw [ofLexeme_of_mem_scan h, reline_kind]⟩

theorem Expr.ofForm?_binary {head : String} {k : Kind} (hhead : IsHead head k) (hk : k.isBinary)
    (l r : Form) : Expr.ofForm? (.list [.word head, l, r]) =
      (do return .binary (← ofForm? l) (.ofLexeme head) (← ofForm? r)) := by
  obtain ⟨-, hkind⟩ := hhead
  cases k <;> first | exact absurd hk (by decide) | simp [Expr.ofForm?, hkind]

theorem Expr.shows_constant {v : Value} (h : v ∈ [.bool true, .bool false, .nil]) :
    Shows Expr.ofForm? v.literal (.literal v) := by
  have hall : ∀ v ∈ [Value.bool true, .bool false, .nil],
      v.literal ≠ "" ∧ v.literal.toList.all Form.isWordy ∧ startsNumber v.literal = false := by
    decide
  have htrue : (Token.ofLexeme "true").kind = .kwTrue := by decide +kernel
  have hfalse : (Token.ofLexeme "false").kind = .kwFalse := by decide +kernel
  have hnil : (Token.ofLexeme "nil").kind = .kwNil := by decide +kernel
  obtain ⟨hne, hwordy, hstart⟩ := hall v h
  refine ⟨_, Form.reads_word hne hwordy, ?_⟩
  simp only [List.mem_cons, List.not_mem_nil, or_false] at h
  rw [Expr.ofForm?, hstart, if_neg Bool.false_ne_true]
  rcases h with rfl | rfl | rfl <;> simp [Value.literal, htrue, hfalse, hnil]

theorem Expr.shows_double {x : Float} (hx : x.isFinite) :
    Shows Expr.ofForm? (Value.double x).literal (.literal (.double x)) := by
  have hfinite := Double.isFinite_iff.mp hx
  refine ⟨_, Double.reads_text hfinite, ?_⟩
  rw [Expr.ofForm?, if_pos (Double.startsNumber_text hfinite), Double.readFloat?_text rfl x]
  rfl

theorem Stmt.map_printed (p : List Stmt) : p.map printed = printedAll p := by
  induction p with
  | nil => rfl
  | cons s p ih => rw [List.map_cons, ih, printedAll]

theorem Stmt.shows_printedAll {body : List Stmt}
    (h : ∀ s ∈ body, Shows Stmt.ofForm? s.printed (s.reline Token.nowhere)) :
    ∃ fs, List.Forall₂ Form.Reads (Stmt.printedAll body) fs ∧
      Stmt.ofForms? fs = some (Program.reline Token.nowhere body) := by
  induction body with
  | nil => exact ⟨[], .nil, rfl⟩
  | cons s body ih =>
    obtain ⟨⟨f, hf, hs⟩, hbody⟩ := List.forall_mem_cons.mp h
    obtain ⟨fs, hfs, hall⟩ := ih hbody
    refine ⟨f :: fs, .cons hf hfs, ?_⟩
    simp [Stmt.ofForms?, hs, hall, Program.reline]

variable (hplain : (scan source).tokens.all Token.isLegible)
include hplain

theorem Expr.shows_literal {t : Token} (ht : t ∈ (scan source).tokens)
    (hk : t.kind = .number ∨ t.kind = .string) :
    Shows Expr.ofForm? t.literal.literal (.literal t.literal) := by
  obtain ⟨hstring, hfinite⟩ := Bool.and_eq_true_iff.mp (List.all_eq_true.mp hplain t ht)
  have hk := hk.resolve_right (bne_iff_ne.mp hstring)
  obtain ⟨-, rest, hm⟩ := Token.munches_of_mem_scan ht (by rw [hk]; decide)
  obtain ⟨x, hx⟩ := hm.word_or_double.2 hk
  have hx : t.literal = .double x := hx
  rw [hx] at hfinite ⊢
  exact shows_double hfinite

theorem Expr.From.shows {e : Expr} (h : e.From (scan source).tokens) :
    Shows Expr.ofForm? e.printed (e.reline Token.nowhere) := by
  induction h with
  | constant hv => exact Expr.shows_constant hv
  | literal ht hk => exact Expr.shows_literal hplain ht hk
  | grouping _ ih =>
    obtain ⟨f, hf, he⟩ := ih
    have hhead : IsHead "group" .identifier := isHead_of_mem (by decide)
    refine ⟨_, Form.reads_parenthesized hhead.reads (.cons hf .nil), ?_⟩
    simp [Expr.ofForm?, hhead.kind, he, Expr.reline]
  | @unary op e ht hk _ ih =>
    obtain ⟨f, hf, he⟩ := ih
    have hhead := Token.isHead ht (by rcases hk with hk | hk <;> rw [hk] <;> decide)
    refine ⟨_, Form.reads_parenthesized hhead.reads (.cons hf .nil), ?_⟩
    rcases hk with hk | hk <;>
      simp [Expr.ofForm?, hk, he, Expr.reline, Token.ofLexeme_of_mem_scan ht]
  | @binary op l r ht hk _ _ ihl ihr =>
    obtain ⟨f, hf, hl⟩ := ihl
    obtain ⟨g, hg, hr⟩ := ihr
    have hhead := Token.isHead ht (by revert hk; cases op.kind <;> decide)
    refine ⟨_, Form.reads_parenthesized hhead.reads (.cons hf (.cons hg .nil)), ?_⟩
    rw [Expr.ofForm?_binary hhead hk, hl, hr, Token.ofLexeme_of_mem_scan ht]
    rfl
  | @logical op l r ht hk _ _ ihl ihr =>
    obtain ⟨f, hf, hl⟩ := ihl
    obtain ⟨g, hg, hr⟩ := ihr
    have hhead := Token.isHead ht (by rcases hk with hk | hk <;> rw [hk] <;> decide)
    refine ⟨_, Form.reads_parenthesized hhead.reads (.cons hf (.cons hg .nil)), ?_⟩
    rcases hk with hk | hk <;>
      simp [Expr.ofForm?, hk, hl, hr, Expr.reline, Token.ofLexeme_of_mem_scan ht]
  | ternary _ _ _ ihc ihl ihr =>
    obtain ⟨f, hf, hc⟩ := ihc
    obtain ⟨g, hg, hl⟩ := ihl
    obtain ⟨i, hi, hr⟩ := ihr
    have hhead : IsHead "?:" .questionMark := isHead_of_mem (by decide)
    refine ⟨_, Form.reads_parenthesized hhead.reads (.cons hf (.cons hg (.cons hi .nil))), ?_⟩
    simp [Expr.ofForm?, hhead.kind, hc, hl, hr, Expr.reline]
  | @var name ht hk =>
    have hhead := Token.isHead ht (by rw [hk]; decide)
    refine ⟨_, hhead.reads, ?_⟩
    simp [Expr.ofForm?, Token.startsNumber_name ht hk, hk, Expr.reline,
      Token.ofLexeme_of_mem_scan ht]
  | @assign name e ht hk _ ih =>
    obtain ⟨f, hf, he⟩ := ih
    have hname := Token.reads_lexeme ht (by rw [hk]; decide)
    have hhead : IsHead "=" .equal := isHead_of_mem (by decide)
    refine ⟨_, Form.reads_parenthesized hhead.reads (.cons hname (.cons hf .nil)), ?_⟩
    simp [Expr.ofForm?, hhead.kind, he, Expr.reline, Token.ofLexeme_of_mem_scan ht]

mutual

theorem Stmt.From.shows {s : Stmt} : s.From (scan source).tokens →
    Shows Stmt.ofForm? s.printed (s.reline Token.nowhere)
  | .expression he => by
    obtain ⟨f, hf, he⟩ := he.shows hplain
    have hhead : IsHead ";" .semicolon := isHead_of_mem (by decide)
    refine ⟨_, Form.reads_parenthesized hhead.reads (.cons hf .nil), ?_⟩
    simp [Stmt.ofForm?, hhead.kind, he, Stmt.reline]
  | .print he => by
    obtain ⟨f, hf, he⟩ := he.shows hplain
    have hhead : IsHead "print" .kwPrint := isHead_of_mem (by decide)
    refine ⟨_, Form.reads_parenthesized hhead.reads (.cons hf .nil), ?_⟩
    simp [Stmt.ofForm?, hhead.kind, he, Stmt.reline]
  | .block hbody => by
    obtain ⟨fs, hfs, hall⟩ := Stmt.shows_printedAll fun s hs => (hbody s hs).shows
    have hhead : IsHead "block" .identifier := isHead_of_mem (by decide)
    refine ⟨_, Form.reads_parenthesized hhead.reads hfs, ?_⟩
    simp [Stmt.ofForm?, hhead.kind, hall, Stmt.reline]
  | @Stmt.From.branch _ c t none hc ht _ => by
    obtain ⟨f, hf, hc⟩ := hc.shows hplain
    obtain ⟨g, hg, ht⟩ := ht.shows
    have hhead : IsHead "if" .kwIf := isHead_of_mem (by decide)
    refine ⟨_, Form.reads_parenthesized hhead.reads (.cons hf (.cons hg .nil)), ?_⟩
    simp [Stmt.ofForm?, hhead.kind, hc, ht, Stmt.reline]
  | @Stmt.From.branch _ c t (some e) hc ht he => by
    obtain ⟨f, hf, hc⟩ := hc.shows hplain
    obtain ⟨g, hg, ht⟩ := ht.shows
    obtain ⟨i, hi, he⟩ := (he e rfl).shows
    have hhead : IsHead "if" .kwIf := isHead_of_mem (by decide)
    refine ⟨_, Form.reads_parenthesized hhead.reads (.cons hf (.cons hg (.cons hi .nil))), ?_⟩
    simp [Stmt.ofForm?, hhead.kind, hc, ht, he, Stmt.reline]
  | .loop hc hbody => by
    obtain ⟨f, hf, hc⟩ := hc.shows hplain
    obtain ⟨g, hg, hbody⟩ := hbody.shows
    have hhead : IsHead "while" .kwWhile := isHead_of_mem (by decide)
    refine ⟨_, Form.reads_parenthesized hhead.reads (.cons hf (.cons hg .nil)), ?_⟩
    simp [Stmt.ofForm?, hhead.kind, hc, hbody, Stmt.reline]

theorem Stmt.Slot.shows {s : Stmt} : s.Slot (scan source).tokens →
    Shows Stmt.ofForm? s.printed (s.reline Token.nowhere)
  | .failed => ⟨_, Form.reads_word (by decide) (by decide), rfl⟩
  | @Stmt.Slot.declare _ name none ht hk _ => by
    have hname := Token.reads_lexeme ht (by rw [hk]; decide)
    have hhead : IsHead "var" .kwVar := isHead_of_mem (by decide)
    refine ⟨_, Form.reads_parenthesized hhead.reads (.cons hname .nil), ?_⟩
    simp [Stmt.ofForm?, hhead.kind, Stmt.reline, Token.ofLexeme_of_mem_scan ht]
  | @Stmt.Slot.declare _ name (some e) ht hk he => by
    obtain ⟨f, hf, he⟩ := (he e rfl).shows hplain
    have hname := Token.reads_lexeme ht (by rw [hk]; decide)
    have hhead : IsHead "var" .kwVar := isHead_of_mem (by decide)
    refine ⟨_, Form.reads_parenthesized hhead.reads (.cons hname (.cons hf .nil)), ?_⟩
    simp [Stmt.ofForm?, hhead.kind, he, Stmt.reline, Token.ofLexeme_of_mem_scan ht]
  | .statement hs => hs.shows

end

end

section

variable {g : Token → Int}

mutual

theorem Expr.printed_reline (e : Expr) : (e.reline g).printed = e.printed := by
  cases e with
  | call f paren args =>
    simp only [reline, printed, Expr.printed_reline f, Expr.printedAll_relineAll args]
  | grouping e | unary _ e | assign _ e | get e _ =>
    simp only [reline, printed, Expr.printed_reline e, Token.reline_lexeme]
  | binary l _ r | logical l _ r | set l _ r =>
    simp only [reline, printed, Expr.printed_reline l, Expr.printed_reline r, Token.reline_lexeme]
  | ternary c l r =>
    simp only [reline, printed, Expr.printed_reline c, Expr.printed_reline l, Expr.printed_reline r]
  | _ => rfl

theorem Expr.printedAll_relineAll (es : List Expr) :
    printedAll (relineAll g es) = printedAll es := by
  match es with
  | [] => rfl
  | e :: es =>
    simp only [relineAll, printedAll, Expr.printed_reline e, Expr.printedAll_relineAll es]

end

theorem Expr.printedParts_reline (e : Option Expr) :
    printedParts (e.map (reline g)) = printedParts e := by
  cases e with
  | none => rfl
  | some e => rw [Option.map_some, printedParts, printed_reline, printedParts]

mutual

theorem Stmt.printed_reline (s : Stmt) : (s.reline g).printed = s.printed := by
  cases s with
  | expression | print | loose => simp only [reline, printed, Expr.printed_reline]
  | declare | giveBack =>
    simp only [reline, printed, Expr.printedParts_reline, Token.reline_lexeme]
  | block body => simp only [reline, printed, Stmt.printedAll_reline body]
  | branch c t f =>
    cases f with
    | none => simp only [reline, printed, Expr.printed_reline, Stmt.printed_reline t]
    | some f =>
      simp only [reline, printed, Expr.printed_reline, Stmt.printed_reline t,
        Stmt.printed_reline f]
  | loop c body => simp only [reline, printed, Expr.printed_reline, Stmt.printed_reline body]
  | function _ params body =>
    simp only [reline, printed, List.map_map, Stmt.printedAll_reline body]
    rfl
  | classDef _ super methods =>
    cases super <;>
      simp only [reline, printed, Option.map, Stmt.printedAll_reline methods, Token.reline_lexeme]
  | failed | blank | blankNode => rfl

theorem Stmt.printedAll_reline (p : List Stmt) :
    printedAll (Program.reline g p) = printedAll p := by
  match p with
  | [] => rfl
  | s :: p =>
    simp only [Program.reline, printedAll, Stmt.printed_reline s, Stmt.printedAll_reline p]

end

theorem Program.printed_reline (p : Program) : printed (Program.reline g p) = p.printed := by
  rw [printed, Stmt.map_printed, Stmt.printedAll_reline, ← Stmt.map_printed]
  rfl

end

/-- What is read of a source without strings and infinities is told from its printed tree. -/
theorem Reading.ofPrinted?_printed {source : String} {nesting : Nat}
    (hplain : (Lox.scan source).tokens.all Token.isLegible) :
    Program.ofPrinted? (Reading.ofSource source nesting).program.printed =
      some (Program.reline Token.nowhere (Reading.ofSource source nesting).program) := by
  obtain ⟨fs, hfs, hall⟩ := Stmt.shows_printedAll fun s hs =>
    (Reading.slots source nesting s hs).shows hplain
  rw [Program.ofPrinted?, Program.printed, Stmt.map_printed, Form.read_lines hfs, hall]

/-- The programs of two sources without strings and infinities are printed alike if and only if they
are the same but for the lines of the tokens. It does not matter if there are faults: what could not
be read is shown too. -/
theorem Reading.printed_eq_iff {source other : String} {nesting : Nat}
    (hsource : (Lox.scan source).tokens.all Token.isLegible)
    (hother : (Lox.scan other).tokens.all Token.isLegible) :
    let p := (Reading.ofSource source nesting).program
    let q := (Reading.ofSource other nesting).program
    Program.printed? p = .ok p.printed ∧ Program.printed? q = .ok q.printed ∧
      (Program.printed? p = Program.printed? q ↔
        Program.reline Token.nowhere p = Program.reline Token.nowhere q) := by
  intro p q
  have hprinted (source : String) : Program.printed? (ofSource source nesting).program =
      .ok (ofSource source nesting).program.printed := by
    have hproper := Stmt.allProper_outlines fun s hs =>
      (slots source nesting s hs).proper_outline
    rw [Program.printed?, hproper.blankIn?_eq]
  have hp : Program.ofPrinted? p.printed = _ := ofPrinted?_printed hsource
  have hq : Program.ofPrinted? q.printed = _ := ofPrinted?_printed hother
  refine ⟨hprinted source, hprinted other, ?_⟩
  rw [hprinted source, hprinted other]
  constructor
  · intro h
    rw [Except.ok.inj h, hq] at hp
    exact (Option.some.inj hp).symm
  · intro h
    rw [← p.printed_reline (g := Token.nowhere), h, Program.printed_reline]

/-- Names that are spelled like heads, both kinds of minus and a number with an exponent, on one
line and on several. -/
theorem Reading.printed_eq_iff_heads :
    let source := "for (var block;;) print -(group) - 10000000000000000.0;"
    let other := "for (var block; ;)\n  print - (group)\n    - 10000000000000000; // again"
    let p := (Reading.ofSource source).program
    let q := (Reading.ofSource other).program
    (Lox.scan source).tokens.all Token.isLegible ∧ (Lox.scan other).tokens.all Token.isLegible ∧
      p.printed =
        "(block (var block) (while true (print (- (- (group group)) 1e+16))))" ∧
      q.printed = p.printed ∧
      Program.reline Token.nowhere p = Program.reline Token.nowhere q := by
  intro source other p q
  have hsource : (Lox.scan source).tokens.all Token.isLegible := by decide +kernel
  have hother : (Lox.scan other).tokens.all Token.isLegible := by decide +kernel
  have hp : p.printed =
      "(block (var block) (while true (print (- (- (group group)) 1e+16))))" := by
    decide +kernel
  have hq : q.printed = p.printed := by decide +kernel
  obtain ⟨hsome, hsome', hiff⟩ := @Reading.printed_eq_iff source other nestingLimit hsource hother
  refine ⟨hsource, hother, hp, hq, hiff.mp ?_⟩
  rw [hsome, hsome']
  exact congrArg Except.ok hq.symm

end Lox
