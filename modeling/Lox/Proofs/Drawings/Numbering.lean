import Lox.Proofs.Drawings.Origins
import Mathlib

/-! # Drawings are trees

The vertices of a drawing are the nodes of the program in pre-order, numbered from 1 on. Each vertex
but the first has one edge to it, from a vertex with a smaller number, and the edges from a vertex
lead to what hangs on the node.
-/

namespace Lox

structure Edge where
  source : Nat
  target : Nat
  label : String

namespace Mark

def isVertex : Mark → Bool
  | edge .. => false
  | _ => true

def edge? : Mark → Option Edge
  | edge source target label => some ⟨source, target, label⟩
  | _ => none

end Mark

def vertices (marks : List Mark) : List Mark := marks.filter Mark.isVertex

def edges (marks : List Mark) : List Edge := marks.filterMap Mark.edge?

def edgesFrom (id : Nat) (marks : List Mark) : List Edge :=
  (edges marks).filter fun e => e.source == id

namespace Outline

def mark (id : Nat) : Outline → Mark
  | list _ => .vertex id "Program" .doubleoctagon
  | node kind parts => .vertex id (label kind parts) (shape kind)
  | _ => .flaw id

@[simp] theorem isVertex_mark (o : Outline) (id : Nat) : (o.mark id).isVertex := by
  cases o <;> rfl

@[simp] theorem edge?_mark (o : Outline) (id : Nat) : (o.mark id).edge? = none := by
  cases o <;> rfl

/-- `Hangs parent n cs marks next`: the marks draw what hangs on the vertex `parent`, numbered from
`n` on up to `next`. The edge to a child comes after all that hangs on the child. -/
inductive Hangs : Nat → Nat → List (String × Outline) → List Mark → Nat → Prop
  | nil {parent n : Nat} : Hangs parent n [] [] n
  | cons {parent n mid next : Nat} {label : String} {child : Outline}
      {children : List (String × Outline)} {below more : List Mark} :
      Hangs n (n + 1) child.children below mid → Hangs parent mid children more next →
      Hangs parent n ((label, child) :: children)
        (child.mark n :: (below ++ .edge parent n label :: more)) next

section

variable {parent n mid next : Nat} {cs ds : List (String × Outline)} {marks more : List Mark}

theorem Hangs.append (h : Hangs parent n cs marks mid) (h' : Hangs parent mid ds more next) :
    Hangs parent n (cs ++ ds) (marks ++ more) next := by
  induction h with
  | nil => exact h'
  | cons hbelow _ _ ih =>
    rw [List.cons_append, List.cons_append, List.append_assoc, List.cons_append]
    exact .cons hbelow (ih h')

end

mutual

theorem Tidy.draw_hangs (id : Nat) {o : Outline} (h : o.Tidy) (ht : o.isToken = false)
    (hitem : o.isItem) : ∃ below next, draw id o = (o.mark id :: below, next) ∧
      Hangs id (id + 1) o.children below next := by
  cases o with
  | failed => exact ⟨[], id + 1, rfl, .nil⟩
  | node kind parts =>
    rw [Tidy] at h
    refine ⟨_, _, ?_, AllTidy.drawParts_hangs h.2⟩
    rw [draw]
    rfl
  | token => cases ht
  | absent | literal | list => cases hitem

theorem AllTidy.drawParts_hangs {parent next : Nat} : {names : List String} →
    {parts : List Outline} → AllTidy parts →
    Hangs parent next (hangings names parts) (drawParts parent next names parts).1
      (drawParts parent next names parts).2
  | [], parts, _ => by
    rw [drawParts]
    · exact .nil
    · nofun
    · nofun
  | _ :: _, [], _ => by
    rw [drawParts]
    · exact .nil
    · nofun
    · nofun
  | name :: names, part :: parts, h => by
    rw [AllTidy] at h
    obtain ⟨hpart, hparts⟩ := h
    have happend : hangings (name :: names) (part :: parts) =
        hanging name part ++ hangings names parts := rfl
    rw [happend]
    cases part with
    | list items =>
      rw [Tidy] at hpart
      rw [drawParts, hanging]
      exact (AllTidy.drawItems_hangs hpart.1 hpart.2).append (AllTidy.drawParts_hangs hparts)
    | node kind parts' =>
      obtain ⟨below, mid, hdraw, hbelow⟩ := Tidy.draw_hangs next hpart rfl rfl
      rw [drawParts, if_pos (by rfl), hdraw]
      · exact .cons hbelow (AllTidy.drawParts_hangs hparts)
      · intro items hlist
        cases hlist
    | _ =>
      rw [drawParts, if_neg (by exact Bool.false_ne_true)]
      · exact AllTidy.drawParts_hangs hparts
      · intro items hlist
        cases hlist

theorem AllTidy.drawItems_hangs {parent next : Nat} {name : Nat → String} : {i : Nat} →
    {items : List Outline} → (∀ o ∈ items, o.isItem) → AllTidy items →
    Hangs parent next (indexed name i items) (drawItems parent next name i items).1
      (drawItems parent next name i items).2
  | _, [], _, _ => .nil
  | i, item :: items, hall, h => by
    rw [AllTidy] at h
    obtain ⟨hitem, hitems⟩ := List.forall_mem_cons.mp hall
    cases item with
    | token t =>
      rw [indexed_token, drawItems]
      exact AllTidy.drawItems_hangs hitems h.2
    | failed | node =>
      obtain ⟨below, mid, hdraw, hbelow⟩ := Tidy.draw_hangs next h.1 rfl hitem
      rw [indexed_cons rfl, drawItems, hdraw]
      · exact .cons hbelow (AllTidy.drawItems_hangs hitems h.2)
      · intro t htoken
        cases htoken
    | _ => cases hitem

end

/-- The edges lead to the children with their labels, in the order of the numbers that the children
have. -/
structure Leads (numbered : List (Outline × Nat)) (es : List Edge)
    (children : List (String × Outline)) : Prop where
  sorted : es.Pairwise fun e e' => e.target < e'.target
  ends : List.Forall₂ (fun e c => e.label = c.1 ∧ (c.2, e.target) ∈ numbered) es children

/-- What the marks of the trees that hang on a vertex show, if these are numbered from `n` on. -/
structure Shown (parent n : Nat) (cs : List (String × Outline)) (marks : List Mark) : Prop where
  vertices_eq : vertices marks = ((forest cs).zipIdx n).map fun x => x.1.mark x.2
  targets : ((edges marks).map Edge.target).Perm (List.range' n (forest cs).length)
  sources : ∀ e ∈ edges marks, e.source < e.target ∧ (e.source = parent ∨ n ≤ e.source)
  own : Leads ((forest cs).zipIdx n) (edgesFrom parent marks) cs
  inner : ∀ x ∈ (forest cs).zipIdx n,
    Leads ((forest cs).zipIdx n) (edgesFrom x.2 marks) x.1.children

section

variable {parent n id : Nat} {cs children : List (String × Outline)} {marks below more : List Mark}
  {numbered numbered' : List (Outline × Nat)} {es : List Edge} {e : Edge}

theorem Leads.mono (h : Leads numbered es children) (hsub : numbered ⊆ numbered') :
    Leads numbered' es children :=
  ⟨h.sorted, h.ends.imp fun _ _ hec => ⟨hec.1, hsub hec.2⟩⟩

theorem Leads.cons {label : String} {child : Outline} (h : Leads numbered es children)
    (hlabel : e.label = label) (hchild : (child, e.target) ∈ numbered)
    (hlt : ∀ e' ∈ es, e.target < e'.target) :
    Leads numbered (e :: es) ((label, child) :: children) :=
  ⟨List.pairwise_cons.mpr ⟨hlt, h.sorted⟩, .cons ⟨hlabel, hchild⟩ h.ends⟩

theorem Shown.target_bounds (h : Shown parent n cs marks) (he : e ∈ edges marks) :
    n ≤ e.target ∧ e.target < n + (forest cs).length := by
  have hmem := h.targets.mem_iff.mp (List.mem_map_of_mem he)
  exact List.mem_range'_1.mp hmem

theorem edgesFrom_eq_nil (h : ∀ e ∈ edges marks, e.source ≠ id) : edgesFrom id marks = [] := by
  rw [edgesFrom, List.filter_eq_nil_iff]
  exact fun e he => by simpa using h e he

theorem vertices_cons_mark (o : Outline) :
    vertices (o.mark n :: marks) = o.mark n :: vertices marks :=
  List.filter_cons_of_pos (isVertex_mark o n)

theorem edges_cons_mark (o : Outline) : edges (o.mark n :: marks) = edges marks :=
  List.filterMap_cons_none (edge?_mark o n)

theorem edgesFrom_cons_mark (o : Outline) :
    edgesFrom id (o.mark n :: marks) = edgesFrom id marks := by
  rw [edgesFrom, edges_cons_mark, edgesFrom]

theorem vertices_branch (child : Outline) (label : String) :
    vertices (child.mark n :: (below ++ .edge parent n label :: more)) =
      child.mark n :: (vertices below ++ vertices more) := by
  rw [vertices_cons_mark, vertices, List.filter_append]
  rfl

theorem edges_branch (child : Outline) (label : String) :
    edges (child.mark n :: (below ++ .edge parent n label :: more)) =
      edges below ++ ⟨parent, n, label⟩ :: edges more := by
  rw [edges_cons_mark, edges, List.filterMap_append]
  rfl

theorem edgesFrom_branch (child : Outline) (label : String) :
    edgesFrom id (child.mark n :: (below ++ .edge parent n label :: more)) =
      edgesFrom id below ++
        ((if parent = id then [⟨parent, n, label⟩] else []) ++ edgesFrom id more) := by
  rw [edgesFrom, edges_branch, List.filter_append, List.filter_cons]
  by_cases h : parent = id
  · rw [if_pos h, if_pos (beq_iff_eq.mpr h)]
    rfl
  · rw [if_neg h, if_neg (by simpa using h)]
    rfl

theorem numbered_branch (label : String) (child : Outline) :
    (forest ((label, child) :: children)).zipIdx n =
      (child, n) :: ((forest child.children).zipIdx (n + 1) ++
        (forest children).zipIdx (n + 1 + (forest child.children).length)) := by
  rw [forest_cons, preorder_eq, List.cons_append, List.zipIdx_cons, List.zipIdx_append]

theorem Shown.branch {label : String} {child : Outline} (hp : parent < n)
    (hb : Shown n (n + 1) child.children below)
    (hm : Shown parent (n + 1 + (forest child.children).length) children more) :
    Shown parent n ((label, child) :: children)
      (child.mark n :: (below ++ .edge parent n label :: more)) := by
  have hnumbered : (forest ((label, child) :: children)).zipIdx n = _ :=
    numbered_branch label child
  have hsubBelow : (forest child.children).zipIdx (n + 1) ⊆
      (forest ((label, child) :: children)).zipIdx n := by
    rw [hnumbered]
    exact fun x hx => List.mem_cons_of_mem _ (List.mem_append_left _ hx)
  have hsubMore : (forest children).zipIdx (n + 1 + (forest child.children).length) ⊆
      (forest ((label, child) :: children)).zipIdx n := by
    rw [hnumbered]
    exact fun x hx => List.mem_cons_of_mem _ (List.mem_append_right _ hx)
  have hbelow (id : Nat) (hid : id < n ∨ n + 1 + (forest child.children).length ≤ id) :
      edgesFrom id below = [] := by
    refine edgesFrom_eq_nil fun e he => ?_
    have := (hb.target_bounds he).2
    have := hb.sources e he
    omega
  have hmore (id : Nat) (hid : n ≤ id) (hid' : id < n + 1 + (forest child.children).length) :
      edgesFrom id more = [] := by
    refine edgesFrom_eq_nil fun e he => ?_
    have := (hm.sources e he).2
    omega
  constructor
  · rw [vertices_branch, hnumbered, hb.vertices_eq, hm.vertices_eq, List.map_cons, List.map_append]
  · have hrange : List.range' n (forest ((label, child) :: children)).length =
        n :: (List.range' (n + 1) (forest child.children).length ++
          List.range' (n + 1 + (forest child.children).length) (forest children).length) := by
      rw [List.range'_append_1, ← List.range'_succ, forest_cons, preorder_eq, List.cons_append,
        List.length_cons, List.length_append]
    rw [hrange, edges_branch, List.map_append, List.map_cons]
    exact List.perm_middle.trans ((hb.targets.append hm.targets).cons n)
  · rw [edges_branch]
    intro e he
    rcases List.mem_append.mp he with he | he
    · have := hb.sources e he
      omega
    · rcases List.mem_cons.mp he with rfl | he
      · exact ⟨hp, .inl rfl⟩
      · have := hm.sources e he
        omega
  · rw [edgesFrom_branch, hbelow parent (.inl hp), if_pos rfl, List.nil_append]
    refine (hm.own.mono hsubMore).cons rfl ?_ fun e he => ?_
    · rw [hnumbered]
      exact List.mem_cons_self
    · show n < e.target
      have := hm.target_bounds (List.mem_of_mem_filter he)
      omega
  · intro x hx
    rw [hnumbered] at hx
    rw [edgesFrom_branch]
    rcases List.mem_cons.mp hx with rfl | hx
    · rw [if_neg hp.ne, hmore n (Nat.le_refl n) (by omega), List.append_nil, List.append_nil]
      exact hb.own.mono hsubBelow
    rcases List.mem_append.mp hx with hx | hx
    · have hid := List.mem_zipIdx hx
      rw [if_neg (by omega), hmore x.2 (by omega) (by omega), List.append_nil, List.append_nil]
      exact (hb.inner x hx).mono hsubBelow
    · have hid := List.mem_zipIdx hx
      rw [if_neg (by omega), hbelow x.2 (.inr (by omega)), List.nil_append, List.nil_append]
      exact (hm.inner x hx).mono hsubMore

theorem Hangs.shown {next : Nat} (h : Hangs parent n cs marks next) (hp : parent < n) :
    Shown parent n cs marks ∧ next = n + (forest cs).length := by
  induction h with
  | nil => exact ⟨⟨rfl, .nil, nofun, ⟨.nil, .nil⟩, nofun⟩, rfl⟩
  | @cons parent n mid next label child children below more _ _ ihbelow ihmore =>
    obtain ⟨hb, rfl⟩ := ihbelow (Nat.lt_succ_self n)
    obtain ⟨hm, rfl⟩ := ihmore (by omega)
    refine ⟨.branch hp hb hm, ?_⟩
    rw [forest_cons, preorder_eq, List.length_append, List.length_cons]
    omega

end

end Outline

def Mark.declared? : Mark → Option Nat
  | vertex id .. => some id
  | flaw id => some id
  | edge .. => none

/-- The marks draw the program as a tree. -/
structure Program.Drawn (p : Program) (marks : List Mark) : Prop where
  /-- The numbers up to that of all nodes and gaps are declared in order. -/
  declared : marks.filterMap Mark.declared? =
    List.range' 1 (1 + p.outline.nodes + p.outline.gaps)
  /-- The vertices are those of the nodes in pre-order. -/
  vertices_eq : vertices marks = (p.outline.preorder.zipIdx 1).map fun x => x.1.mark x.2
  length_edges : (edges marks).length = p.outline.nodes + p.outline.gaps
  /-- There is one edge to each vertex but the first, and none to that. -/
  targets : ((edges marks).map Edge.target).Perm (List.range' 2 (edges marks).length)
  sources : ∀ e ∈ edges marks, 1 ≤ e.source ∧ e.source < e.target
  /-- The edges from a vertex lead to what hangs on the node. -/
  leads : ∀ x ∈ p.outline.preorder.zipIdx 1,
    Outline.Leads (p.outline.preorder.zipIdx 1) (edgesFrom x.2 marks) x.1.children
  reachable : ∀ id ∈ marks.filterMap Mark.declared?,
    Relation.ReflTransGen (fun a b => ∃ e ∈ edges marks, e.source = a ∧ e.target = b) 1 id

/-- From a root there is a way along the edges to all vertices, if there is an edge to each of the
others from a smaller number. -/
theorem reachable_of_sources {es : List Edge} {n : Nat}
    (htargets : (es.map Edge.target).Perm (List.range' 2 n))
    (hsources : ∀ e ∈ es, 1 ≤ e.source ∧ e.source < e.target) (id : Nat) (hid : 1 ≤ id)
    (hn : id ≤ n + 1) :
    Relation.ReflTransGen (fun a b => ∃ e ∈ es, e.source = a ∧ e.target = b) 1 id := by
  induction id using Nat.strong_induction_on with
  | _ id ih =>
    rcases hid.eq_or_lt with rfl | hid
    · exact .refl
    · have hmem : id ∈ es.map Edge.target := by
        rw [htargets.mem_iff, List.mem_range'_1]
        omega
      obtain ⟨e, he, rfl⟩ := List.mem_map.mp hmem
      obtain ⟨hone, hlt⟩ := hsources e he
      exact (ih e.source hlt hone (by omega)).tail ⟨e, he, rfl, rfl⟩

theorem Outline.declared?_mark (o : Outline) (id : Nat) : (o.mark id).declared? = some id := by
  cases o <;> rfl

theorem declared_of_vertices {marks : List Mark} {os : List Outline} {n : Nat}
    (h : vertices marks = (os.zipIdx n).map fun x => x.1.mark x.2) :
    marks.filterMap Mark.declared? = List.range' n os.length := by
  have hvertices : (vertices marks).filterMap Mark.declared? = marks.filterMap Mark.declared? := by
    rw [vertices, List.filterMap_filter]
    refine List.filterMap_congr fun mark _ => ?_
    cases mark <;> rfl
  have hids : (Mark.declared? ∘ fun x : Outline × ℕ => x.1.mark x.2) = some ∘ Prod.snd :=
    funext fun x => x.1.declared?_mark x.2
  rw [← hvertices, h, List.filterMap_map, hids, List.filterMap_eq_map, List.zipIdx_map_snd]

theorem Program.exists_hangs (p : Program) : ∃ below next, p.marks = p.outline.mark 1 :: below ∧
    Outline.Hangs 1 2 p.outline.children below next := by
  obtain ⟨hitems, htidy⟩ := Stmt.tidy_outlines p
  exact ⟨_, _, rfl, Outline.AllTidy.drawItems_hangs hitems htidy⟩

theorem Program.drawn (p : Program) : p.Drawn p.marks := by
  obtain ⟨below, next, hmarks, hhangs⟩ := p.exists_hangs
  obtain ⟨h, -⟩ := hhangs.shown (Nat.lt_succ_self 1)
  have hlength := p.length_preorder
  have hcount : (Outline.forest p.outline.children).length = p.outline.nodes + p.outline.gaps := by
    rw [Outline.preorder_eq, List.length_cons] at hlength
    omega
  have hnumbered : p.outline.preorder.zipIdx 1 =
      (p.outline, 1) :: (Outline.forest p.outline.children).zipIdx 2 := by
    rw [Outline.preorder_eq, List.zipIdx_cons]
  have hsub : (Outline.forest p.outline.children).zipIdx 2 ⊆ p.outline.preorder.zipIdx 1 := by
    rw [hnumbered]
    exact List.subset_cons_self _ _
  have hvertices : vertices p.marks = (p.outline.preorder.zipIdx 1).map fun x => x.1.mark x.2 := by
    rw [hmarks, Outline.vertices_cons_mark, h.vertices_eq, hnumbered, List.map_cons]
  have hdeclared := declared_of_vertices hvertices
  rw [hlength] at hdeclared
  have hedges : edges p.marks = edges below := by rw [hmarks, Outline.edges_cons_mark]
  have hlengthEdges : (edges p.marks).length = p.outline.nodes + p.outline.gaps := by
    have := h.targets.length_eq
    rwa [List.length_map, List.length_range', hcount, ← hedges] at this
  have htargets : ((edges p.marks).map Edge.target).Perm
      (List.range' 2 (edges p.marks).length) := by
    rw [hlengthEdges, ← hcount, hedges]
    exact h.targets
  have hsources : ∀ e ∈ edges p.marks, 1 ≤ e.source ∧ e.source < e.target := by
    intro e he
    have := h.sources e (hedges ▸ he)
    omega
  refine ⟨hdeclared, hvertices, hlengthEdges, htargets, hsources, ?_, ?_⟩
  · intro x hx
    rw [hnumbered] at hx
    rw [hmarks, Outline.edgesFrom_cons_mark]
    rcases List.mem_cons.mp hx with rfl | hx
    · exact h.own.mono hsub
    · exact (h.inner x hx).mono hsub
  · intro id hid
    rw [hdeclared, List.mem_range'_1] at hid
    exact reachable_of_sources htargets hsources id hid.1 (by omega)

/-- What is read of a source has a drawing, and the drawing of any program is its tree. -/
theorem Program.drawn_marks :
    (∀ source nesting quote, Program.drawing? (Reading.ofSource source nesting).program quote =
      .ok (Program.drawing (Reading.ofSource source nesting).program quote)) ∧
    ∀ p : Program, p.Drawn p.marks :=
  ⟨Reading.drawing?_eq, Program.drawn⟩

example : let p : Program := [.block [.failed], .print (.literal .nil)]
    (edges p.marks).map (fun e => (e.source, e.target, e.label)) =
      [(2, 3, "statements[0]"), (1, 2, "0"), (4, 5, "expression"), (1, 4, "1")] := by
  decide +kernel

end Lox
