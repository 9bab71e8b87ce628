import Lox.Tree.Outline

/-! # Names in trees

A tree reads, assigns and declares variables. What it mentions are their names, each with the kind
of node that holds it; this is told by the outline, so nothing in a tree is passed over. In the
scope in which it is run a statement declares only what it declares outside its blocks.
-/

namespace Lox

/-- The name that a node holds, if it is one that reads, assigns or declares a variable. -/
def NodeKind.mention? : NodeKind → List Outline → Option (NodeKind × String)
  | .var, .token name :: _ => some (.var, name.lexeme)
  | .assign, .token name :: _ => some (.assign, name.lexeme)
  | .declare, .token name :: _ => some (.declare, name.lexeme)
  | _, _ => none

namespace Outline

mutual

/-- The names of variables in a tree, each with the kind of node that holds it. -/
def mentions : Outline → List (NodeKind × String)
  | list items => mentionsIn items
  | node kind parts => (kind.mention? parts).toList ++ mentionsIn parts
  | _ => []

def mentionsIn : List Outline → List (NodeKind × String)
  | [] => []
  | o :: os => o.mentions ++ mentionsIn os

end

variable {kind : NodeKind} {o : Outline} {parts : List Outline}

theorem mem_mentionsIn {b : NodeKind × String} :
    b ∈ mentionsIn parts ↔ ∃ o ∈ parts, b ∈ o.mentions := by
  induction parts with
  | nil => simp [mentionsIn]
  | cons o os ih => simp [mentionsIn, ih]

theorem mem_mentions_node {b : NodeKind × String} :
    b ∈ (node kind parts).mentions ↔
      kind.mention? parts = some b ∨ ∃ o ∈ parts, b ∈ o.mentions := by
  rw [mentions, List.mem_append, mem_mentionsIn, Option.mem_toList]

/-- All names in the tree are admitted for the nodes that hold them. -/
def Within (admitted : NodeKind → String → Prop) (o : Outline) : Prop :=
  ∀ b ∈ o.mentions, admitted b.1 b.2

variable {admitted : NodeKind → String → Prop}

theorem Within.own {b : NodeKind × String} (h : (node kind parts).Within admitted)
    (hb : kind.mention? parts = some b) : admitted b.1 b.2 :=
  h b (mem_mentions_node.mpr (.inl hb))

theorem Within.part (h : (node kind parts).Within admitted) (ho : o ∈ parts) :
    o.Within admitted :=
  fun b hb => h b (mem_mentions_node.mpr (.inr ⟨o, ho, hb⟩))

theorem Within.item (h : (list parts).Within admitted) (ho : o ∈ parts) : o.Within admitted :=
  fun b hb => h b (mem_mentionsIn.mpr ⟨o, ho, hb⟩)

end Outline

theorem Stmt.outline_mem {s : Stmt} {p : List Stmt} (h : s ∈ p) :
    s.outline ∈ Stmt.outlines p := by
  induction h with
  | head => exact .head _
  | tail _ _ ih => exact .tail _ ih

def Program.mentions (p : Program) : List (NodeKind × String) :=
  Outline.mentionsIn (Stmt.outlines p)

theorem Program.mem_mentions {p : Program} {s : Stmt} (hs : s ∈ p) {b : NodeKind × String}
    (hb : b ∈ s.outline.mentions) : b ∈ p.mentions :=
  Outline.mem_mentionsIn.mpr ⟨s.outline, Stmt.outline_mem hs, hb⟩

/-- The names that a statement declares outside its blocks. -/
def Stmt.declared : Stmt → List String
  | .declare name _ => [name.lexeme]
  | .branch _ whenTrue none => whenTrue.declared
  | .branch _ whenTrue (some whenFalse) => whenTrue.declared ++ whenFalse.declared
  | .loop _ body => body.declared
  | _ => []

theorem Stmt.mem_mentions_of_declared {s : Stmt} {name : String} (h : name ∈ s.declared) :
    (.declare, name) ∈ s.outline.mentions := by
  fun_induction declared s with
  | case1 token initializer =>
    obtain rfl := List.mem_singleton.mp h
    exact Outline.mem_mentions_node.mpr (.inl rfl)
  | case2 c whenTrue ih =>
    exact Outline.mem_mentions_node.mpr (.inr ⟨_, .tail _ (.head _), ih h⟩)
  | case3 c whenTrue whenFalse iht ihf =>
    apply Outline.mem_mentions_node.mpr
    rcases List.mem_append.mp h with h | h
    · exact .inr ⟨_, .tail _ (.head _), iht h⟩
    · exact .inr ⟨_, .tail _ (.tail _ (.head _)), ihf h⟩
  | case4 c body ih =>
    exact Outline.mem_mentions_node.mpr (.inr ⟨_, .tail _ (.head _), ih h⟩)
  | case5 => cases h

end Lox
