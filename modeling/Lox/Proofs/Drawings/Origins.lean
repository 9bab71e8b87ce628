import Lox.Proofs.Drawings.Children
import Lox.Proofs.Dumps.Programs
import Lox.Proofs.Runs.Safety

/-! # What drawn trees are made of

The tokens and literals in a tree that is read of a source are those of the scan, and the three
constants. So all of them can be displayed, and there is a drawing.
-/

namespace Lox

mutual

/-- All tokens in a tree are of the list, but no strings and no ends, and all literals are constants
or those of tokens. -/
def Outline.Over (ts : List Token) : Outline → Prop
  | .token t => t ∈ ts ∧ t.kind ∉ [.eof, .string]
  | .literal v => v ∈ [.bool true, .bool false, .nil] ∨
      ∃ t ∈ ts, (t.kind = .number ∨ t.kind = .string) ∧ t.literal = v
  | .list items => Outline.AllOver ts items
  | .node _ parts => Outline.AllOver ts parts
  | _ => True

def Outline.AllOver (ts : List Token) : List Outline → Prop
  | [] => True
  | o :: os => o.Over ts ∧ Outline.AllOver ts os

end

variable {ts : List Token}

theorem Expr.From.over_outline {e : Expr} (h : e.From ts) : e.outline.Over ts := by
  induction h with
  | constant hv => exact ⟨.inl hv, trivial⟩
  | literal ht hk => exact ⟨.inr ⟨_, ht, hk, rfl⟩, trivial⟩
  | var ht hk => exact ⟨⟨ht, by rw [hk]; decide⟩, trivial⟩
  | grouping _ ih => exact ⟨ih, trivial⟩
  | unary ht hk _ ih => exact ⟨⟨ht, by rcases hk with hk | hk <;> rw [hk] <;> decide⟩, ih, trivial⟩
  | assign ht hk _ ih => exact ⟨⟨ht, by rw [hk]; decide⟩, ih, trivial⟩
  | @binary op _ _ ht hk _ _ ihl ihr =>
    exact ⟨ihl, ⟨ht, by revert hk; cases op.kind <;> decide⟩, ihr, trivial⟩
  | logical ht hk _ _ ihl ihr =>
    exact ⟨ihl, ⟨ht, by rcases hk with hk | hk <;> rw [hk] <;> decide⟩, ihr, trivial⟩
  | ternary _ _ _ ihc ihl ihr => exact ⟨ihc, ihl, ihr, trivial⟩

theorem Stmt.over_outlines {body : List Stmt} (h : ∀ s ∈ body, s.outline.Over ts) :
    Outline.AllOver ts (Stmt.outlines body) := by
  induction body with
  | nil => trivial
  | cons s body ih =>
    obtain ⟨hs, hbody⟩ := List.forall_mem_cons.mp h
    exact ⟨hs, ih hbody⟩

mutual

theorem Stmt.From.over_outline {s : Stmt} : s.From ts → s.outline.Over ts
  | .expression he | .print he => ⟨he.over_outline, trivial⟩
  | .block hbody => ⟨Stmt.over_outlines fun s hs => (hbody s hs).over_outline, trivial⟩
  | @Stmt.From.branch _ c t none hc ht _ => ⟨hc.over_outline, ht.over_outline, trivial, trivial⟩
  | @Stmt.From.branch _ c t (some f) hc ht hf =>
    ⟨hc.over_outline, ht.over_outline, (hf f rfl).over_outline, trivial⟩
  | .loop hc hbody => ⟨hc.over_outline, hbody.over_outline, trivial⟩

theorem Stmt.Slot.over_outline {s : Stmt} : s.Slot ts → s.outline.Over ts
  | .failed => trivial
  | @Stmt.Slot.declare _ name none ht hk _ => ⟨⟨ht, by rw [hk]; decide⟩, trivial, trivial⟩
  | @Stmt.Slot.declare _ name (some e) ht hk he =>
    ⟨⟨ht, by rw [hk]; decide⟩, (he e rfl).over_outline, trivial⟩
  | .statement hs => hs.over_outline

end

theorem Reading.over_outline (source : String) (nesting : Nat) :
    (Program.outline (ofSource source nesting).program).Over (Lox.scan source).tokens :=
  Stmt.over_outlines fun s hs => (slots source nesting s hs).over_outline

namespace Outline

theorem AllOver.of_mem {o : Outline} {os : List Outline} (h : AllOver ts os) (ho : o ∈ os) :
    o.Over ts := by
  induction os with
  | nil => cases ho
  | cons p os ih =>
    rw [AllOver] at h
    rcases List.mem_cons.mp ho with rfl | ho
    · exact h.1
    · exact ih h.2 ho

theorem Over.of_mem_hanging {name : String} {o : Outline} {c : String × Outline}
    (h : o.Over ts) (hc : c ∈ hanging name o) : c.2.Over ts := by
  cases o with
  | list items =>
    rw [hanging] at hc
    exact AllOver.of_mem h (mem_of_mem_indexed hc)
  | node kind parts =>
    obtain rfl := List.mem_singleton.mp hc
    exact h
  | _ => cases hc

theorem Over.of_mem_children {o : Outline} {c : String × Outline} (h : o.Over ts)
    (hc : c ∈ o.children) : c.2.Over ts := by
  cases o with
  | list items => exact AllOver.of_mem h (mem_of_mem_indexed hc)
  | node kind parts =>
    obtain ⟨⟨name, part⟩, hpart, hc⟩ := List.mem_flatMap.mp hc
    exact (AllOver.of_mem h (List.of_mem_zip hpart).2).of_mem_hanging hc
  | _ => cases hc

theorem isPlain_of_over (hts : PlainTokens ts) {v : Value} (h : (literal v).Over ts) :
    v.isPlain := by
  rcases h with hv | ⟨t, ht, -, rfl⟩
  · have hall : ∀ v ∈ [Value.bool true, .bool false, .nil], v.isPlain := by decide
    exact hall v hv
  · exact hts t ht

mutual

theorem Over.overflow?_eq (hts : PlainTokens ts) : {o : Outline} → o.Over ts → o.overflow? = none
  | .literal v, h => by
    obtain ⟨text, htext⟩ := Value.display_of_isPlain (isPlain_of_over hts h)
    rw [overflow?, htext]
  | .list items, h => by
    rw [Over] at h
    rw [overflow?, AllOver.overflowIn?_eq hts h]
  | .node _ parts, h => by
    rw [Over] at h
    rw [overflow?, AllOver.overflowIn?_eq hts h]
  | .token _, _ | .failed, _ | .absent, _ => rfl

theorem AllOver.overflowIn?_eq (hts : PlainTokens ts) : {os : List Outline} → AllOver ts os →
    overflowIn? os = none
  | [], _ => rfl
  | _ :: _, h => by
    rw [AllOver] at h
    rw [overflowIn?, Over.overflow?_eq hts h.1, AllOver.overflowIn?_eq hts h.2]
    rfl

end

end Outline

theorem Reading.drawing?_eq (source : String) (nesting : Nat) (quote : String → String) :
    Program.drawing? (ofSource source nesting).program quote =
      .ok (Program.drawing (ofSource source nesting).program quote) := by
  have hover : Outline.AllOver _ (Stmt.outlines (ofSource source nesting).program) :=
    over_outline source nesting
  rw [Program.drawing?, Outline.AllOver.overflowIn?_eq (plainTokens_scan source) hover]

end Lox
