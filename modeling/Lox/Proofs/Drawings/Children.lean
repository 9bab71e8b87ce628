import Lox.Tree.Drawing

/-! # Trees as they are drawn

What hangs on a node in a drawing, told from the node alone: the nodes among its parts, and what
stands in its lists apart from tokens. With it the tree is listed in pre-order, and counted.
-/

namespace Lox

def Program.outline (p : Program) : Outline := .list (Stmt.outlines p)

namespace Outline

def isToken : Outline → Bool
  | token _ => true
  | _ => false

def isFailed : Outline → Bool
  | failed => true
  | _ => false

/-- What a list may hold. -/
def isItem (o : Outline) : Bool := o.isToken || o.isFailed || o.isNode

/-- What stands in a list apart from tokens, named for its index; the first item has index `i`. -/
def indexed (name : Nat → String) (i : Nat) (items : List Outline) : List (String × Outline) :=
  ((items.zipIdx i).filter fun x => !x.1.isToken).map fun x => (name x.2, x.1)

/-- What hangs on a node for the part of the name. What is neither a node nor a list is not
drawn. -/
def hanging (name : String) : Outline → List (String × Outline)
  | list items => indexed (fun i => name ++ "[" ++ toString i ++ "]") 0 items
  | node kind parts => [(name, node kind parts)]
  | _ => []

/-- What hangs on each field, in order. -/
def hangings (names : List String) (parts : List Outline) : List (String × Outline) :=
  (names.zip parts).flatMap fun x => hanging x.1 x.2

/-- What hangs on a node, in the order of the fields and of the items, with the labels for it. The
statements of a program have their index for a label. -/
def children : Outline → List (String × Outline)
  | list items => indexed toString 0 items
  | node kind parts => hangings kind.fields parts
  | _ => []

section

variable {name : Nat → String} {i : Nat} {items : List Outline}

@[simp] theorem indexed_token (t : Token) :
    indexed name i (token t :: items) = indexed name (i + 1) items := rfl

theorem indexed_cons {o : Outline} (h : o.isToken = false) :
    indexed name i (o :: items) = (name i, o) :: indexed name (i + 1) items := by
  simp [indexed, h]

theorem mem_of_mem_indexed {c : String × Outline} (h : c ∈ indexed name i items) :
    c.2 ∈ items := by
  obtain ⟨x, hx, rfl⟩ := List.mem_map.mp h
  exact List.fst_mem_of_mem_zipIdx ((List.mem_filter.mp hx).1)

end

theorem size_le_sizes {o : Outline} {os : List Outline} (h : o ∈ os) : o.size ≤ sizes os := by
  induction os with
  | nil => cases h
  | cons p os ih =>
    rw [sizes]
    rcases List.mem_cons.mp h with rfl | h
    · omega
    · have := ih h
      omega

theorem size_le_of_mem_hanging {name : String} {o : Outline} {c : String × Outline}
    (h : c ∈ hanging name o) : c.2.size ≤ o.size := by
  cases o with
  | list items =>
    rw [hanging] at h
    have := size_le_sizes (mem_of_mem_indexed h)
    rw [size]
    omega
  | node kind parts =>
    obtain rfl := List.mem_singleton.mp h
    exact Nat.le_refl _
  | _ => cases h

theorem size_lt_of_mem_children {o : Outline} {c : String × Outline} (h : c ∈ o.children) :
    c.2.size < o.size := by
  cases o with
  | list items =>
    have := size_le_sizes (mem_of_mem_indexed h)
    rw [size]
    omega
  | node kind parts =>
    obtain ⟨⟨name, part⟩, hpart, hc⟩ := List.mem_flatMap.mp h
    have hle : part.size ≤ sizes parts := size_le_sizes (List.of_mem_zip hpart).2
    have : c.2.size ≤ part.size := size_le_of_mem_hanging hc
    rw [size]
    omega
  | _ => cases h

/-- The tree in pre-order: each node before all that hangs on it. -/
def preorder (o : Outline) : List Outline :=
  o :: o.children.attach.flatMap fun c => c.1.2.preorder
termination_by o.size
decreasing_by exact size_lt_of_mem_children c.2

def forest (cs : List (String × Outline)) : List Outline := cs.flatMap fun c => c.2.preorder

theorem preorder_eq (o : Outline) : o.preorder = o :: forest o.children := by
  rw [preorder, forest, List.flatMap_subtype (g := fun c => c.2.preorder) fun _ _ => rfl,
    List.unattach_attach]

@[simp] theorem forest_nil : forest [] = [] := rfl

@[simp] theorem forest_cons (label : String) (o : Outline) (cs : List (String × Outline)) :
    forest ((label, o) :: cs) = o.preorder ++ forest cs := rfl

@[simp] theorem forest_append (cs ds : List (String × Outline)) :
    forest (cs ++ ds) = forest cs ++ forest ds := List.flatMap_append

mutual

def nodes : Outline → Nat
  | list items => nodesIn items
  | node _ parts => nodesIn parts + 1
  | _ => 0

def nodesIn : List Outline → Nat
  | [] => 0
  | o :: os => o.nodes + nodesIn os

end

mutual

/-- How many places in the lists of a tree hold what could not be read. -/
def gaps : Outline → Nat
  | list items => items.countP isFailed + gapsIn items
  | node _ parts => gapsIn parts
  | _ => 0

def gapsIn : List Outline → Nat
  | [] => 0
  | o :: os => o.gaps + gapsIn os

end

mutual

/-- Lists hold tokens, nodes and what could not be read, and each node has a part for every name. -/
def Tidy : Outline → Prop
  | list items => (∀ o ∈ items, o.isItem) ∧ AllTidy items
  | node kind parts => parts.length = kind.fields.length ∧ AllTidy parts
  | _ => True

def AllTidy : List Outline → Prop
  | [] => True
  | o :: os => o.Tidy ∧ AllTidy os

end

mutual

theorem Tidy.length_preorder {o : Outline} (h : o.Tidy) (ht : o.isToken = false)
    (hitem : o.isItem) : o.preorder.length = o.nodes + o.gaps + if o.isFailed then 1 else 0 := by
  cases o with
  | failed =>
    rw [preorder_eq]
    rfl
  | node kind parts =>
    rw [Tidy] at h
    have hparts := AllTidy.length_hangings h.1.symm h.2
    have hfailed : (node kind parts).isFailed = false := rfl
    rw [preorder_eq, List.length_cons, children, hparts, nodes, gaps, hfailed,
      if_neg Bool.false_ne_true]
    omega
  | token => cases ht
  | absent | literal | list => cases hitem

theorem AllTidy.length_hangings : {names : List String} → {parts : List Outline} →
    names.length = parts.length → AllTidy parts →
    (forest (hangings names parts)).length = nodesIn parts + gapsIn parts
  | [], [], _, _ => rfl
  | name :: names, part :: parts, hlength, h => by
    rw [AllTidy] at h
    have hmore := AllTidy.length_hangings (Nat.succ.inj hlength) h.2
    have hpart : (forest (hanging name part)).length = part.nodes + part.gaps := by
      cases part with
      | list items =>
        rw [Tidy] at h
        rw [hanging, AllTidy.length_indexed _ 0 h.1.1 h.1.2, nodes, gaps]
        omega
      | node kind parts' =>
        have := Tidy.length_preorder h.1 rfl rfl
        rw [hanging, forest_cons, forest_nil, List.append_nil, this]
        simp [isFailed]
      | _ => rfl
    have happend : hangings (name :: names) (part :: parts) =
        hanging name part ++ hangings names parts := rfl
    rw [happend, forest_append, List.length_append, hmore, hpart, nodesIn, gapsIn]
    omega

theorem AllTidy.length_indexed (name : Nat → String) : (i : Nat) → {items : List Outline} →
    (∀ o ∈ items, o.isItem) → AllTidy items →
    (forest (indexed name i items)).length = nodesIn items + gapsIn items + items.countP isFailed
  | _, [], _, _ => rfl
  | i, item :: items, hall, h => by
    rw [AllTidy] at h
    obtain ⟨hitem, hitems⟩ := List.forall_mem_cons.mp hall
    have hmore := AllTidy.length_indexed name (i + 1) hitems h.2
    cases item with
    | token t =>
      rw [indexed_token, hmore, nodesIn, gapsIn, List.countP_cons]
      simp [nodes, gaps, isFailed]
    | failed | node =>
      have hitem := Tidy.length_preorder h.1 rfl hitem
      rw [indexed_cons rfl, forest_cons, List.length_append, hmore, hitem, nodesIn, gapsIn,
        List.countP_cons]
      omega
    | _ => cases hitem

end

end Outline

theorem Expr.isItem_outline (e : Expr) : e.outline.isItem := by
  cases e <;> rfl

mutual

theorem Expr.tidy_outline (e : Expr) : e.outline.Tidy := by
  cases e with
  | call f paren args =>
    exact ⟨rfl, f.tidy_outline, trivial, Expr.tidy_outlines args, trivial⟩
  | grouping e => exact ⟨rfl, e.tidy_outline, trivial⟩
  | unary _ e | assign _ e => exact ⟨rfl, trivial, e.tidy_outline, trivial⟩
  | get e _ => exact ⟨rfl, e.tidy_outline, trivial, trivial⟩
  | binary l _ r | logical l _ r | set l _ r =>
    exact ⟨rfl, l.tidy_outline, trivial, r.tidy_outline, trivial⟩
  | ternary c l r => exact ⟨rfl, c.tidy_outline, l.tidy_outline, r.tidy_outline, trivial⟩
  | literal | var | this => exact ⟨rfl, trivial, trivial⟩
  | super => exact ⟨rfl, trivial, trivial, trivial⟩
  | blank => exact ⟨rfl, trivial⟩
  | missing => trivial

theorem Expr.tidy_outlines (es : List Expr) : (Outline.list (Expr.outlines es)).Tidy := by
  match es with
  | [] => exact ⟨List.forall_mem_nil _, trivial⟩
  | e :: es =>
    obtain ⟨hitems, htidy⟩ := Expr.tidy_outlines es
    exact ⟨List.forall_mem_cons.mpr ⟨e.isItem_outline, hitems⟩, e.tidy_outline, htidy⟩

end

theorem Expr.tidy_outline? (e : Option Expr) : (outline? e).Tidy := by
  cases e with
  | none => trivial
  | some e => exact e.tidy_outline

theorem Outline.tidy_tokens (ts : List Token) : (list (ts.map .token)).Tidy := by
  induction ts with
  | nil => exact ⟨List.forall_mem_nil _, trivial⟩
  | cons t ts ih =>
    obtain ⟨hitems, htidy⟩ := ih
    exact ⟨List.forall_mem_cons.mpr ⟨rfl, hitems⟩, trivial, htidy⟩

theorem Stmt.isItem_outline (s : Stmt) : s.outline.isItem := by
  cases s with
  | branch _ _ f => cases f <;> rfl
  | classDef _ super _ => cases super <;> rfl
  | loose e => exact e.isItem_outline
  | _ => rfl

mutual

theorem Stmt.tidy_outline (s : Stmt) : s.outline.Tidy := by
  cases s with
  | expression e | print e => exact ⟨rfl, e.tidy_outline, trivial⟩
  | declare _ e | giveBack _ e => exact ⟨rfl, trivial, Expr.tidy_outline? e, trivial⟩
  | block body => exact ⟨rfl, Stmt.tidy_outlines body, trivial⟩
  | branch c t f =>
    cases f with
    | none => exact ⟨rfl, c.tidy_outline, t.tidy_outline, trivial, trivial⟩
    | some f => exact ⟨rfl, c.tidy_outline, t.tidy_outline, f.tidy_outline, trivial⟩
  | loop c body => exact ⟨rfl, c.tidy_outline, body.tidy_outline, trivial⟩
  | function _ params body =>
    exact ⟨rfl, trivial, Outline.tidy_tokens params, Stmt.tidy_outlines body, trivial⟩
  | classDef _ super methods =>
    cases super with
    | none => exact ⟨rfl, trivial, trivial, Stmt.tidy_outlines methods, trivial⟩
    | some _ =>
      exact ⟨rfl, trivial, ⟨rfl, trivial, trivial⟩, Stmt.tidy_outlines methods, trivial⟩
  | loose e => exact e.tidy_outline
  | blank | blankNode => exact ⟨rfl, trivial⟩
  | failed => trivial

theorem Stmt.tidy_outlines (ss : List Stmt) : (Outline.list (Stmt.outlines ss)).Tidy := by
  match ss with
  | [] => exact ⟨List.forall_mem_nil _, trivial⟩
  | s :: ss =>
    obtain ⟨hitems, htidy⟩ := Stmt.tidy_outlines ss
    exact ⟨List.forall_mem_cons.mpr ⟨s.isItem_outline, hitems⟩, s.tidy_outline, htidy⟩

end

/-- A program has one vertex, one for each node and one for each place that could not be read. -/
theorem Program.length_preorder (p : Program) :
    p.outline.preorder.length = 1 + p.outline.nodes + p.outline.gaps := by
  obtain ⟨hitems, htidy⟩ := Stmt.tidy_outlines p
  have hlength := Outline.AllTidy.length_indexed toString 0 hitems htidy
  rw [Outline.preorder_eq, outline, Outline.children, List.length_cons, hlength, Outline.nodes,
    Outline.gaps]
  omega

end Lox
