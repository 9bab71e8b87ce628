import Lox.Proofs.Grammar.Soundness
import Lox.Proofs.Scanning.Lexing
import Lox.Session

/-! # What is read of a source

The tokens of a source have an end, so reading them always gives a program. Without a report the
program is what the tokens spell.
-/

namespace Lox

/-- Every source is read as a program; what could not be read are failed statements in it. -/
theorem Reading.result_eq (source : String) (nesting : Nat) :
    (Reading.ofSource source nesting).reply.result =
      .ok (Reading.ofSource source nesting).program := by
  obtain ⟨ts, e, hts, he, _⟩ := exists_tokens_scan source
  have hend : Ended (ts ++ [e]) := ⟨e, by simp, he⟩
  obtain ⟨p, _, _, _, hp, _⟩ := Parser.program_ok nesting hend
  have hr : (Reading.ofSource source nesting).reply.result = .ok p := by
    show (parse (Lox.scan source).tokens nesting).result = .ok p
    rw [hts, parse, hp]
  rw [program, hr]
  rfl

theorem Reading.parse_eq {source : String} {nesting : Nat}
    (h : (Reading.ofSource source nesting).reports = []) :
    ∃ ts e, (Lox.scan source).tokens = ts ++ [e] ∧ e.kind = .eof ∧ (∀ t ∈ ts, t.kind ≠ .eof) ∧
      parse (ts ++ [e]) nesting = ⟨.ok (Reading.ofSource source nesting).program, [e], []⟩ ∧
      SpellsDeclarations ts (Reading.ofSource source nesting).program := by
  obtain ⟨ts, e, hts, he, hn⟩ := exists_tokens_scan source
  have hf : (parse (Lox.scan source).tokens nesting).faults = [] :=
    List.map_eq_nil_iff.mp (List.append_eq_nil_iff.mp h).2
  rw [hts] at hf
  obtain ⟨p, hp, hs⟩ := Parser.program_sound hn he hf
  have hr : (Reading.ofSource source nesting).reply.result = .ok p := by
    show (parse (Lox.scan source).tokens nesting).result = .ok p
    rw [hts, parse, hp]
  rw [Reading.result_eq] at hr
  obtain rfl := Except.ok.inj hr
  exact ⟨ts, e, hts, he, hn, hp, hs⟩

theorem Reading.spells_program {source : String} {nesting : Nat}
    (h : (Reading.ofSource source nesting).reports = []) :
    ∃ ts e, (Lox.scan source).tokens = ts ++ [e] ∧ e.kind = .eof ∧
      SpellsDeclarations ts (Reading.ofSource source nesting).program := by
  obtain ⟨ts, e, hts, he, _, _, hs⟩ := Reading.parse_eq h
  exact ⟨ts, e, hts, he, hs⟩

theorem Reading.filterMap_events (r : Reading) :
    r.events.filterMap Event.report? = r.reports := by
  have hs : r.scanEvents.filterMap Event.report? = r.scan.reports := by
    simp [scanEvents, List.filterMap_append, List.filterMap_map, Function.comp_def, Event.report?]
  have hf (f : Fault) : f.events.filterMap Event.report? = [f.report] := by
    unfold Fault.events
    split <;> rfl
  have hp : r.parseEvents.filterMap Event.report? = r.reply.faults.map Fault.report := by
    simp [parseEvents, List.filterMap_flatMap, hf, List.map_eq_flatMap]
  rw [events, List.filterMap_append, hs, hp, reports]

theorem Reading.isStatic_of_mem_reports (r : Reading) : ∀ x ∈ r.reports, x.isStatic := by
  intro x hx
  rcases List.mem_append.mp hx with hx | hx
  · obtain ⟨f, _, rfl⟩ := List.mem_map.mp hx
    rfl
  · obtain ⟨f, _, rfl⟩ := List.mem_map.mp hx
    simp only [Fault.report, Report.atToken]
    split <;> rfl

namespace Session

variable {s : Session} {r : Reading} {limits : Limits}

theorem hadError_addEvents :
    (s.addEvents r.events).diagnostics.hadError = false ↔
      s.diagnostics.hadError = false ∧ r.reports = [] := by
  rw [addEvents, Diagnostics.addAll, Reading.filterMap_events, Bool.or_eq_false_iff,
    List.any_eq_false]
  constructor
  · rintro ⟨hs, hr⟩
    exact ⟨hs, List.eq_nil_iff_forall_not_mem.mpr fun x hx =>
      hr x hx (r.isStatic_of_mem_reports x hx)⟩
  · rintro ⟨hs, hr⟩
    exact ⟨hs, by simp [hr]⟩

theorem addEvents_of_reports (h : r.reports = []) : s.addEvents r.events = s := by
  rw [addEvents, Reading.filterMap_events, h, Diagnostics.addAll_nil]

end Session

end Lox
