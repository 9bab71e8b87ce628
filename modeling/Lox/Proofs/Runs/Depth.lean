import Lox.Proofs.Grammar.Lookahead
import Lox.Proofs.Runs.Reading
import Lox.Proofs.Runs.Relining

/-! # Branches nested too deeply

As many branches inside one another can be read as there may be rules, but not all of these can be
run. A branch on `true` around an empty block holds no token, so the problem has no place.
-/

namespace Lox

/-- `if(true)` as often as told, before an empty block. -/
def deepBranches : Nat → String
  | 0 => "\x7b\x7d"
  | n + 1 => "if(true)" ++ deepBranches n

def deepLexemes : Nat → List Lexeme
  | 0 => [⟨['{'], .token .leftBrace .nil⟩, ⟨['}'], .token .rightBrace .nil⟩]
  | n + 1 =>
    ⟨['i', 'f'], .token .kwIf .nil⟩ :: ⟨['('], .token .leftParen .nil⟩ ::
      ⟨['t', 'r', 'u', 'e'], .token .kwTrue .nil⟩ :: ⟨[')'], .token .rightParen .nil⟩ ::
      deepLexemes n

def deepTokens : Nat → List Token
  | 0 => [⟨.leftBrace, "\x7b", .nil, 1⟩, ⟨.rightBrace, "\x7d", .nil, 1⟩]
  | n + 1 =>
    ⟨.kwIf, "if", .nil, 1⟩ :: ⟨.leftParen, "(", .nil, 1⟩ :: ⟨.kwTrue, "true", .nil, 1⟩ ::
      ⟨.rightParen, ")", .nil, 1⟩ :: deepTokens n

def Stmt.deepBranch : Nat → Stmt
  | 0 => .block []
  | n + 1 => .branch (.literal (.bool true)) (deepBranch n) none

theorem longest_word {text rest : List Char} (h : Word text)
    (hr : ∀ c ∈ rest.head?, isAlphaNumeric c = false) : Longest Word text rest := by
  refine ⟨h, ?_⟩
  rintro (_ | ⟨c, cs⟩) hm ⟨d, ds, he, hd, hds⟩
  · rfl
  · obtain ⟨e, es, rfl⟩ : ∃ e es, text = e :: es := by
      obtain ⟨e, es, h, _⟩ := h
      exact ⟨e, es, h⟩
    obtain ⟨more, rfl⟩ := hm
    obtain ⟨_, rfl⟩ := List.cons.inj he
    have hc := hr c rfl
    simp [hc] at hds

theorem munch_word {text rest : List Char} {k : Kind} (h : Word text)
    (hk : (reserved? (String.ofList text)).getD .identifier = k)
    (hr : ∀ c ∈ rest.head?, isAlphaNumeric c = false) : Munch text rest (.token k .nil) :=
  hk ▸ .word (longest_word h hr)

theorem lexes_deepBranches (n : Nat) : Lexes (deepBranches n).toList (deepLexemes n) := by
  induction n with
  | zero => exact .cons (.punctuation rfl) (.cons (.punctuation rfl) .nil)
  | succ n ih =>
    have hi : Word ['i', 'f'] := ⟨'i', ['f'], rfl, rfl, rfl⟩
    have ht : Word ['t', 'r', 'u', 'e'] := ⟨'t', ['r', 'u', 'e'], rfl, rfl, rfl⟩
    have hs : "if(true)".toList = ['i', 'f', '(', 't', 'r', 'u', 'e', ')'] := rfl
    rw [deepBranches, String.toList_append, hs]
    refine .cons (munch_word hi (by decide) ?_) (.cons (.punctuation rfl)
      (.cons (munch_word ht (by decide) ?_) (.cons (.punctuation rfl) ih)))
    · rintro _ ⟨⟩
      rfl
    · rintro _ ⟨⟩
      rfl

theorem findings_deepLexemes (n : Nat) :
    findings 1 (deepLexemes n) = (deepTokens n).map .token := by
  induction n with
  | zero => rfl
  | succ n ih => simp [deepLexemes, deepTokens, findings, Sense.scanned, ih]

theorem scan_deepBranches (n : Nat) : ∃ e : Token, e.kind = .eof ∧
    (scan (deepBranches n)).tokens = deepTokens n ++ [e] ∧
    (scan (deepBranches n)).faults = [] := by
  refine ⟨.eof (1 + (deepBranches n).toList.count '\n'), rfl, ?_, ?_⟩
  · rw [scan_of_lexes (lexes_deepBranches n), findings_deepLexemes]
    simp [List.filterMap_map, Function.comp_def, Scanned.token?]
  · rw [scan_of_lexes (lexes_deepBranches n), findings_deepLexemes]
    simp [List.filterMap_map, Function.comp_def, Scanned.fault?]

namespace Parser

theorem expression_true {d : Nat} (hd : 20 ≤ d) (rest : List Token) :
    expression d (⟨.kwTrue, "true", .nil, 1⟩ :: ⟨.rightParen, ")", .nil, 1⟩ :: rest) =
      ⟨.ok (.literal (.bool true)), ⟨.rightParen, ")", .nil, 1⟩ :: rest, []⟩ := by
  have h : expression 20 (⟨.kwTrue, "true", .nil, 1⟩ :: ⟨.rightParen, ")", .nil, 1⟩ :: rest) =
      ⟨.ok (.literal (.bool true)), ⟨.rightParen, ")", .nil, 1⟩ :: rest, []⟩ := rfl
  obtain ⟨used, hu, -, hd⟩ := expression_local hd _ _ _ h trivial
  rw [hu]
  exact hd _ ⟨_, _, _, rfl, rfl⟩

theorem ifStatement_true {d : Nat} (hd : 20 ≤ d) {p : Parser Stmt} {ts more : List Token}
    {s : Stmt} {e : Token} (hp : p ts = ⟨.ok s, e :: more, []⟩) (he : e.kind ≠ .kwElse) :
    ifStatement d p (⟨.leftParen, "(", .nil, 1⟩ :: ⟨.kwTrue, "true", .nil, 1⟩ ::
      ⟨.rightParen, ")", .nil, 1⟩ :: ts) =
        ⟨.ok (.branch (.literal (.bool true)) s none), e :: more, []⟩ := by
  have hopen (us : List Token) : expect .leftParen .expectParenAfterIf
      (⟨.leftParen, "(", .nil, 1⟩ :: us) = ⟨.ok ⟨.leftParen, "(", .nil, 1⟩, us, []⟩ := rfl
  have hclose (us : List Token) : expect .rightParen .expectParenAfterIfCondition
      (⟨.rightParen, ")", .nil, 1⟩ :: us) = ⟨.ok ⟨.rightParen, ")", .nil, 1⟩, us, []⟩ := rfl
  rw [ifStatement, bind_of_silent (hopen _), bind_of_silent (expression_true hd ts),
    bind_of_silent (hclose ts), bind_of_silent hp]
  exact optional_false he

theorem statement_deepTokens {n d : Nat} (hd : n + 21 ≤ d) {e : Token} (he : e.kind = .eof) :
    statement d (deepTokens n ++ [e]) = ⟨.ok (.deepBranch n), [e], []⟩ := by
  induction n generalizing d with
  | zero =>
    obtain ⟨d, rfl⟩ : ∃ k, d = k + 1 := ⟨d - 1, by omega⟩
    exact (statement_cons d).trans (map_of_ok (blockOf_cons.trans (if_pos rfl)) _)
  | succ n ih =>
    obtain ⟨d, rfl⟩ : ∃ k, d = k + 1 := ⟨d - 1, by omega⟩
    exact (statement_cons d).trans (ifStatement_true (by omega) (ih (by omega)) (by simp [he]))

theorem program_deepTokens {n d : Nat} (hd : n + 22 ≤ d) {e : Token} (he : e.kind = .eof) :
    program d (deepTokens n ++ [e]) = ⟨.ok [.deepBranch n], [e], []⟩ := by
  obtain ⟨d, rfl⟩ : ∃ k, d = k + 1 := ⟨d - 1, by omega⟩
  obtain ⟨t, ts, ht, hv, hk⟩ : ∃ t ts, deepTokens n = t :: ts ∧ t.kind ≠ .kwVar ∧
      t.kind ≠ .eof := by
    cases n <;> exact ⟨_, _, rfl, by decide, by decide⟩
  have hs := statement_deepTokens (show n + 21 ≤ d by omega) he
  rw [ht] at hs ⊢
  have hdecl : declaration (d + 1) (t :: ts ++ [e]) = _ :=
    recover_of_ne_raised ((ifAccepts_false hv).trans hs) nofun
  exact programOf_of_ok hk (topLevel_of_ok hdecl) (programOf_end (by simp) he)

end Parser

/-- The branches are read without reports if there are not too many. -/
theorem Reading.ofSource_deepBranches {n nesting : Nat} (h : n + 22 ≤ nesting) :
    (ofSource (deepBranches n) nesting).reports = [] ∧
      (ofSource (deepBranches n) nesting).program = [.deepBranch n] := by
  obtain ⟨e, he, ht, hf⟩ := scan_deepBranches n
  have hreply : (ofSource (deepBranches n) nesting).reply = parse _ nesting :=
    congrArg (parse · nesting) ht
  rw [parse, Parser.program_deepTokens h he] at hreply
  constructor
  · rw [reports, hreply]
    simp [Scan.reports, show (ofSource (deepBranches n) nesting).scan.faults = [] from hf]
  · rw [program, hreply]
    rfl

variable {rounds : Nat}

theorem Stmt.exec_deepBranch {n depth : Nat} (h : depth ≤ n) (m : Machine) :
    (deepBranch n).exec rounds depth m = .error .tooDeep m := by
  induction depth generalizing n with
  | zero => cases n <;> rfl
  | succ depth ih =>
    obtain ⟨n, rfl⟩ : ∃ k, n = k + 1 := ⟨n - 1, by omega⟩
    cases depth with
    | zero => rfl
    | succ depth => exact ih (by omega)

theorem Stmt.firstToken?_deepBranch (n : Nat) : (deepBranch n).firstToken? = none := by
  have h (pending : List Outline) : Outline.firstToken? ((deepBranch n).outline :: pending) =
      Outline.firstToken? pending := by
    induction n generalizing pending with
    | zero => simp [deepBranch, outline, outlines, Outline.firstToken?]
    | succ n ih => simp [deepBranch, outline, Expr.outline, Outline.firstToken?, ih]
  rw [firstToken?, h, Outline.firstToken?]

end Lox
