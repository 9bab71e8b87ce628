import Lox.Proofs.Grammar.FirstError
import Lox.Proofs.Grammar.Kept
import Lox.Proofs.Runs.Joining

/-! # The leftmost token of a statement

Where a statement is nested too deeply to be run, that is reported at its first token. This is the
leftmost token in the source that the tree keeps, but for a `for` that keeps no token of its first
clause and of its condition: then a token of the body comes before those of the step.
-/

namespace Lox

variable {ts : List Token}

theorem pairwise_numbered (ts : List Token) :
    (numbered ts).Pairwise fun t u => t.line < u.line := by
  rw [List.pairwise_iff_getElem]
  intro i j hi hj hij
  simpa [numbered] using hij

theorem numbered_concat (ts : List Token) (t : Token) :
    numbered (ts ++ [t]) = numbered ts ++ [{ t with line := ts.length }] := by
  simp [numbered]

theorem kind_of_mem_numbered {t : Token} (h : t ∈ numbered ts) : ∃ u ∈ ts, t.kind = u.kind := by
  have hk : t.kind ∈ ts.map Token.kind := kinds_numbered ts ▸ List.mem_map_of_mem h
  obtain ⟨u, hu, hk⟩ := List.mem_map.mp hk
  exact ⟨u, hu, hk.symm⟩

/-- The program that is read of the source if each token has its place for a line. -/
def Reading.numbered (source : String) (nesting : Nat := nestingLimit) : Program :=
  (parse (Lox.numbered (Lox.scan source).tokens) nesting).result.toOption.getD []

theorem SpellsDeclarations.exists_infix {p : List Stmt} (h : SpellsDeclarations ts p) :
    ∀ s ∈ p, ∃ us, us <:+: ts ∧ SpellsDeclaration us s := by
  induction p generalizing ts with
  | nil => simp
  | cons s p ih =>
    cases h with
    | @cons us vs _ _ hs hp =>
      refine List.forall_mem_cons.mpr ⟨⟨us, (List.prefix_append us vs).isInfix, hs⟩, ?_⟩
      intro s' hs'
      obtain ⟨ws, hws, h⟩ := ih hp s' hs'
      exact ⟨ws, hws.trans (List.suffix_append us vs).isInfix, h⟩

/-- The parser does not look at lines, so the program is the same with places for lines. -/
theorem Reading.numbered_spec {source : String} {nesting : Nat}
    (h : (Reading.ofSource source nesting).reports = []) :
    Program.reline (lineAt (Lox.scan source).tokens) (numbered source nesting) =
        (Reading.ofSource source nesting).program ∧
      ∃ us, us <:+: Lox.numbered (Lox.scan source).tokens ∧
        SpellsDeclarations us (numbered source nesting) := by
  obtain ⟨ts, e, hts, he, hn, hparse, -⟩ := parse_eq h
  have hn' : ∀ t ∈ Lox.numbered ts, t.kind ≠ .eof := by
    intro t ht
    obtain ⟨u, hu, hk⟩ := kind_of_mem_numbered ht
    exact hk ▸ hn u hu
  have hrelines := Parser.program_relines (g := lineAt (ts ++ [e])) nesting
    (Lox.numbered (ts ++ [e]))
  rw [reline_numbered, show Parser.program nesting (ts ++ [e]) = _ from hparse,
    numbered_concat] at hrelines
  have hfaults := List.map_eq_nil_iff.mp (congrArg Reply.faults hrelines).symm
  obtain ⟨p, hp, hspells⟩ := Parser.program_sound hn' (by exact he) hfaults
  have hnumbered : numbered source nesting = p := by
    rw [numbered, hts, numbered_concat, parse, hp]
    rfl
  rw [hnumbered, hts, numbered_concat]
  refine ⟨?_, Lox.numbered ts, (List.prefix_append _ _).isInfix, hspells⟩
  rw [hp] at hrelines
  exact (Except.ok.inj (congrArg Reply.result hrelines)).symm

theorem Stmt.firstToken?_eq_head? (s : Stmt) : s.firstToken? = s.tokens.head? := by
  rw [firstToken?, Outline.firstToken?_eq_head?, tokensIn_outline]

/-- The first token of a statement that is read of a source is the leftmost token that its tree
keeps, unless it is one of the body of a `for` and has overtaken the step. The lines are places
here, and `lineAt` leads from them to the lines in the source. -/
theorem Reading.firstToken_leftmost_iff {source : String} {nesting : Nat}
    (h : (Reading.ofSource source nesting).reports = []) :
    Program.reline (lineAt (Lox.scan source).tokens) (numbered source nesting) =
        (Reading.ofSource source nesting).program ∧
      ∀ s ∈ numbered source nesting, s.tokens ≠ [] →
        (s.reline (lineAt (Lox.scan source).tokens)).firstToken =
          s.firstToken.reline (lineAt (Lox.scan source).tokens) ∧
        ∃ us, us <:+: Lox.numbered (Lox.scan source).tokens ∧ SpellsDeclaration us s ∧
          ((∀ t ∈ s.tokens, s.firstToken.line ≤ t.line) ↔ ¬Overtakes s.firstToken us) := by
  obtain ⟨hreline, ts, hts, hspells⟩ := numbered_spec h
  refine ⟨hreline, fun s hs htokens => ⟨Stmt.firstToken_reline ?_, ?_⟩⟩
  · rwa [s.firstToken?_eq_head?, ne_eq, List.head?_eq_none_iff]
  · obtain ⟨us, hus, hdeclaration⟩ := hspells.exists_infix s hs
    have hinfix := hus.trans hts
    have horder := (pairwise_numbered (Lox.scan source).tokens).sublist hinfix.sublist
    exact ⟨us, hinfix, hdeclaration, hdeclaration.firstToken_le_iff horder htokens⟩

/-- The step of the loop stands before its body, and still the first token is one of the body. -/
theorem Reading.not_firstToken_leftmost_step :
    let source := "for (;;x = 1)\ny;"
    (Reading.ofSource source).reports = [] ∧
      (Reading.ofSource source).program.map Stmt.firstToken = [⟨.identifier, "y", .nil, 2⟩] ∧
      (Reading.ofSource source).program.map Stmt.tokens =
        [[⟨.identifier, "y", .nil, 2⟩, ⟨.identifier, "x", .nil, 1⟩]] ∧
      ¬∀ s ∈ numbered source, s.tokens ≠ [] → ∀ t ∈ s.tokens, s.firstToken.line ≤ t.line := by
  have hfirst : Stmt.firstToken = fun s => s.tokens.headD (.eof 1) := funext Stmt.firstToken_eq
  rw [hfirst]
  decide +kernel

/-- The body overtakes the step, but not the first clause. -/
theorem Reading.firstToken_leftmost_iff_loops :
    let source := "for (;;x = 1) y; for (z;;x = 1) y;"
    let ts := Lox.numbered (Lox.scan source).tokens
    (Reading.ofSource source).reports = [] ∧ ∃ s s', numbered source = [s, s'] ∧
      (∃ us, us <:+: ts ∧ SpellsDeclaration us s ∧ Overtakes s.firstToken us) ∧
      ∃ us, us <:+: ts ∧ SpellsDeclaration us s' ∧ ¬Overtakes s'.firstToken us := by
  intro source ts
  have hreports : (Reading.ofSource source).reports = [] := by decide +kernel
  have htokens : (numbered source).map Stmt.tokens =
      [[⟨.identifier, "y", .nil, 8⟩, ⟨.identifier, "x", .nil, 4⟩],
        [⟨.identifier, "z", .nil, 12⟩, ⟨.identifier, "y", .nil, 19⟩,
          ⟨.identifier, "x", .nil, 15⟩]] := by
    decide +kernel
  obtain ⟨s, p, hp, hs, hrest⟩ := List.map_eq_cons_iff.mp htokens
  obtain ⟨s', q, rfl, hs', hq⟩ := List.map_eq_cons_iff.mp hrest
  obtain rfl := List.map_eq_nil_iff.mp hq
  obtain ⟨-, hall⟩ := firstToken_leftmost_iff hreports
  obtain ⟨-, us, hus, hspells, hiff⟩ := hall s (by simp [hp]) (by simp [hs])
  obtain ⟨-, us', hus', hspells', hiff'⟩ := hall s' (by simp [hp]) (by simp [hs'])
  have hafter : ¬∀ t ∈ s.tokens, s.firstToken.line ≤ t.line := by
    rw [s.firstToken_eq, hs]
    decide
  have hleftmost : ∀ t ∈ s'.tokens, s'.firstToken.line ≤ t.line := by
    rw [s'.firstToken_eq, hs']
    decide
  exact ⟨hreports, s, s', hp, ⟨us, hus, hspells, Classical.not_not.mp (mt hiff.mpr hafter)⟩,
    us', hus', hspells', hiff'.mp hleftmost⟩

end Lox
