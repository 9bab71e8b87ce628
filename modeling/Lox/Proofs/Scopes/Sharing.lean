import Lox.Proofs.Scopes.Simulation
import Lox.Run.Forest

/-! # Bindings in shared scopes

Scopes may be enclosed in the same scope, so an assignment can show in many environments. It changes
one binding, that of the innermost scope that has the name; who finds another binding of the name,
or none, sees no change. A declaration changes the scope in which it is made and no other.
-/

namespace Lox

namespace Env

theorem contains_iff (env : Env) (name : String) :
    env.contains name = true ↔ ∃ s ∈ env.scopes, name ∈ s.names := by
  induction env with
  | global s => simp [contains, scopes, Scope.isSome_get?_iff]
  | inner s env ih => simp [contains, scopes, Scope.isSome_get?_iff, ih]

/-- What becomes of looking up a name and of assigning to it: both succeed, as the name is known,
or both fail and change nothing. -/
inductive Access (env : Env) (name : Token) (v : Value) (printed : List String) : Prop
  | known {x : Value} {env' : Env} : env.contains name.lexeme = true →
      env.get? name.lexeme = some x → env.assign? name.lexeme v = some env' →
      Action.lookUp name ⟨env, printed⟩ = .ok x ⟨env, printed⟩ →
      Action.assign name v ⟨env, printed⟩ = .ok () ⟨env', printed⟩ → Access env name v printed
  | unknown {p : Problem} : env.contains name.lexeme = false →
      env.get? name.lexeme = none → env.assign? name.lexeme v = none →
      p.message = "Undefined variable " ++ name.lexeme →
      Action.lookUp name ⟨env, printed⟩ = .error (.problem name p) ⟨env, printed⟩ →
      Action.assign name v ⟨env, printed⟩ = .error (.problem name p) ⟨env, printed⟩ →
      Access env name v printed

theorem access (env : Env) (name : Token) (v : Value) (printed : List String) :
    env.Access name v printed := by
  have hget := env.isSome_get? name.lexeme
  have hassign := env.isSome_assign? name.lexeme v
  have hlook := Action.lookUp_eq name ⟨env, printed⟩
  have hset := Action.assign_eq name v ⟨env, printed⟩
  cases hc : env.contains name.lexeme with
  | true =>
    rw [hc, Option.isSome_iff_exists] at hget hassign
    obtain ⟨x, hx⟩ := hget
    obtain ⟨env', he⟩ := hassign
    simp only [hx] at hlook
    simp only [he] at hset
    exact .known hc hx he hlook hset
  | false =>
    rw [hc, Option.isSome_eq_false_iff, Option.isNone_iff_eq_none] at hget hassign
    simp only [hget] at hlook
    simp only [hassign] at hset
    exact .unknown hc hget hassign rfl hlook hset

end Env

namespace Forest

variable {f g : Forest} {steps i j k o : Nat} {ps : List Nat} {s : Scope} {name : String}
  {v : Value}

def parent? (f : Forest) (i : Nat) : Option Nat := f[i]?.bind Prod.snd

/-- Every scope is enclosed in one with a smaller number, or in none. -/
def Rooted (f : Forest) : Prop := ∀ b ∈ f.zipIdx, ∀ j ∈ b.1.2, j < b.2

instance : Decidable f.Rooted := inferInstanceAs (Decidable (∀ b ∈ f.zipIdx, ∀ j ∈ b.1.2, j < b.2))

theorem Rooted.lt (hf : f.Rooted) (h : f.parent? i = some j) : j < i := by
  obtain ⟨b, hb, hj⟩ := Option.bind_eq_some_iff.mp h
  exact hf (b, i) (List.mem_zipIdx_iff_getElem?.mpr hb) j hj

theorem rooted_of_parent? (h : ∀ i j, f.parent? i = some j → j < i) : f.Rooted := by
  rintro ⟨b, i⟩ hb j hj
  exact h i j (Option.bind_eq_some_iff.mpr ⟨b, List.mem_zipIdx_iff_getElem?.mp hb, hj⟩)

theorem path_succ : f.path (steps + 1) i =
    match f.parent? i with
    | some j => i :: f.path steps j
    | none => [i] := by
  rw [path, parent?]
  rcases f[i]? with _ | ⟨s, _ | j⟩ <;> rfl

theorem exists_path_eq_cons (f : Forest) (steps i : Nat) : ∃ ps, f.path steps i = i :: ps := by
  cases steps with
  | zero => exact ⟨[], rfl⟩
  | succ steps =>
    rw [path_succ]
    cases f.parent? i <;> exact ⟨_, rfl⟩

theorem path_ne_nil : f.path steps i ≠ [] := by
  obtain ⟨ps, hps⟩ := f.exists_path_eq_cons steps i
  rw [hps]
  exact List.cons_ne_nil _ _

theorem le_of_mem_path (hf : f.Rooted) (hk : k ∈ f.path steps i) : k ≤ i := by
  induction steps generalizing i with
  | zero => exact Nat.le_of_eq (List.mem_singleton.mp hk)
  | succ steps ih =>
    rw [path_succ] at hk
    cases hp : f.parent? i with
    | none =>
      rw [hp] at hk
      exact Nat.le_of_eq (List.mem_singleton.mp hk)
    | some j =>
      rw [hp] at hk
      rcases List.mem_cons.mp hk with rfl | hk
      · exact Nat.le_refl k
      · exact Nat.le_trans (ih hk) (Nat.le_of_lt (hf.lt hp))

theorem nodup_path (hf : f.Rooted) : (f.path steps i).Nodup := by
  induction steps generalizing i with
  | zero => exact List.pairwise_singleton _ i
  | succ steps ih =>
    rw [path_succ]
    cases hp : f.parent? i with
    | none => exact List.pairwise_singleton _ i
    | some j =>
      refine List.nodup_cons.mpr ⟨fun hi => ?_, ih⟩
      have hij := le_of_mem_path hf hi
      have hji := hf.lt hp
      omega

theorem path_congr (hf : f.Rooted) (h : ∀ k ≤ i, g.parent? k = f.parent? k) :
    g.path steps i = f.path steps i := by
  induction steps generalizing i with
  | zero => rfl
  | succ steps ih =>
    rw [path_succ, path_succ, h i (Nat.le_refl i)]
    cases hp : f.parent? i with
    | none => rfl
    | some j =>
      have hj := hf.lt hp
      exact congrArg (i :: ·) (ih fun k hk => h k (by omega))

theorem envOf_cons (h : ps ≠ []) : f.envOf (i :: ps) = .inner (f.scope i) (f.envOf ps) := by
  cases ps with
  | nil => exact absurd rfl h
  | cons j ps => rfl

theorem envOf_congr (h : ∀ k ∈ ps, g.scope k = f.scope k) : g.envOf ps = f.envOf ps := by
  induction ps with
  | nil => rfl
  | cons i ps ih =>
    obtain ⟨hi, hps⟩ := List.forall_mem_cons.mp h
    by_cases hne : ps = []
    · rw [hne, envOf, envOf, hi]
    · rw [envOf_cons hne, envOf_cons hne, hi, ih hps]

theorem scopes_envOf (h : ps ≠ []) : (f.envOf ps).scopes = ps.map f.scope := by
  induction ps with
  | nil => exact absurd rfl h
  | cons i ps ih =>
    by_cases hne : ps = []
    · rw [hne]
      rfl
    · rw [envOf_cons hne, Env.scopes, ih hne, List.map_cons]

def set (f : Forest) (i : Nat) (s : Scope) : Forest := f.modify i fun b => (s, b.2)

theorem getElem?_set :
    (f.set i s)[k]? = if k = i then f[k]?.map (fun b => (s, b.2)) else f[k]? := by
  rw [set]
  by_cases hk : k = i
  · rw [if_pos hk, hk, List.getElem?_modify_eq]
    rfl
  · rw [if_neg hk, List.getElem?_modify_ne _ _ (Ne.symm hk)]

theorem parent?_set : (f.set i s).parent? k = f.parent? k := by
  rw [parent?, parent?, getElem?_set]
  split
  · cases f[k]? <;> rfl
  · rfl

theorem length_set : (f.set i s).length = f.length := List.length_modify ..

theorem scope_set (hi : i < f.length) :
    (f.set i s).scope k = if k = i then s else f.scope k := by
  rw [scope, getElem?_set, scope]
  split
  · next hk => rw [hk, List.getElem?_eq_getElem hi]; rfl
  · rfl

theorem scope_set_self (hi : i < f.length) : (f.set i s).scope i = s := by
  rw [scope_set hi, if_pos rfl]

theorem scope_set_ne (hk : k ≠ i) : (f.set i s).scope k = f.scope k := by
  rw [scope, getElem?_set, if_neg hk, scope]

theorem envOf_set_of_not_mem (hi : i ∉ ps) : (f.set i s).envOf ps = f.envOf ps :=
  envOf_congr fun _ hk => scope_set_ne fun hki => hi (hki ▸ hk)

theorem path_set (hf : f.Rooted) : (f.set i s).path steps j = f.path steps j :=
  path_congr hf fun _ _ => parent?_set

theorem env_set (hf : f.Rooted) : (f.set i s).env j = (f.set i s).envOf (f.path f.length j) := by
  rw [env, length_set, path_set hf]

theorem scope_of_le (hi : f.length ≤ i) : f.scope i = [] := by
  rw [scope, List.getElem?_eq_none hi]
  rfl

theorem lt_length_of_get? (h : ((f.scope i).get? name).isSome) : i < f.length := by
  refine Nat.lt_of_not_le fun hi => ?_
  rw [scope_of_le hi] at h
  cases h

theorem replace_eq (f : Forest) (i : Nat) (e : Env) :
    f.replace i e = ((f.path f.length i).zip e.scopes).foldl (fun f b => f.set b.1 b.2) f := rfl

theorem ext_of_scope (hp : ∀ k, f.parent? k = g.parent? k) (hl : f.length = g.length)
    (hs : ∀ k, f.scope k = g.scope k) : f = g := by
  refine List.ext_getElem hl fun k hf hg => ?_
  have hp := hp k
  have hs := hs k
  rw [parent?, parent?, List.getElem?_eq_getElem hf, List.getElem?_eq_getElem hg] at hp
  rw [scope, scope, List.getElem?_eq_getElem hf, List.getElem?_eq_getElem hg] at hs
  exact Prod.ext hs hp

/-- Scopes of `g` are put into `f`, which differs from it in these only. -/
theorem foldl_set (hp : ∀ k, f.parent? k = g.parent? k) (hl : f.length = g.length)
    (hs : ∀ k, k ∉ ps → f.scope k = g.scope k) :
    (ps.zip (ps.map g.scope)).foldl (fun f b => f.set b.1 b.2) f = g := by
  induction ps generalizing f with
  | nil => exact ext_of_scope hp hl fun k => hs k List.not_mem_nil
  | cons i ps ih =>
    refine ih (fun k => parent?_set.trans (hp k)) (length_set.trans hl) fun k hk => ?_
    by_cases hki : k = i
    · by_cases hi : i < f.length
      · rw [scope_set hi, if_pos hki, hki]
      · rw [scope_of_le (by rw [length_set]; omega), scope_of_le (by omega)]
    · rw [scope_set_ne hki]
      exact hs k (by simp [hki, hk])

theorem replace_set (hf : f.Rooted) (hi : o ∈ f.path f.length i) :
    f.replace i ((f.set o s).env i) = f.set o s := by
  rw [replace_eq, env_set hf, scopes_envOf path_ne_nil]
  refine foldl_set (fun k => parent?_set.symm) length_set.symm fun k hk => ?_
  rw [scope_set_ne]
  rintro rfl
  exact hk hi

/-- The innermost scope that has the name, as seen from a scope. -/
def owner? (f : Forest) (name : String) (i : Nat) : Option Nat :=
  (f.path f.length i).find? fun k => ((f.scope k).get? name).isSome

theorem get?_envOf : (f.envOf ps).get? name =
    (ps.find? fun k => ((f.scope k).get? name).isSome).bind fun k => (f.scope k).get? name := by
  induction ps with
  | nil => rfl
  | cons i ps ih =>
    rw [List.find?_cons]
    by_cases hne : ps = []
    · rw [hne, envOf, Env.get?]
      cases h : (f.scope i).get? name with
      | none => rfl
      | some x => exact h.symm
    · rw [envOf_cons hne, Env.get?, ih]
      cases h : (f.scope i).get? name with
      | none => rfl
      | some x => exact h.symm

theorem get?_env : (f.env i).get? name =
    (f.owner? name i).bind fun k => (f.scope k).get? name := get?_envOf

theorem assign?_envOf (hps : ps.Nodup) : (f.envOf ps).assign? name v =
    (ps.find? fun k => ((f.scope k).get? name).isSome).map
      fun o => (f.set o ((f.scope o).define name v)).envOf ps := by
  induction ps with
  | nil => rfl
  | cons i ps ih =>
    obtain ⟨hi, hps⟩ := List.nodup_cons.mp hps
    rw [List.find?_cons]
    cases h : ((f.scope i).get? name).isSome with
    | true =>
      have hset := scope_set_self (s := (f.scope i).define name v) (lt_length_of_get? h)
      by_cases hne : ps = []
      · rw [hne, envOf, Env.assign?, if_pos h, Option.map_some, envOf, hset]
      · rw [envOf_cons hne, Env.assign?, if_pos h, Option.map_some, envOf_cons hne, hset,
          envOf_set_of_not_mem hi]
    | false =>
      by_cases hne : ps = []
      · rw [hne, envOf, Env.assign?, if_neg (by rw [h]; exact Bool.false_ne_true)]
        rfl
      · rw [envOf_cons hne, Env.assign?, if_neg (by rw [h]; exact Bool.false_ne_true), ih hps,
          Option.map_map]
        refine Option.map_congr fun o ho => ?_
        have hoi : i ≠ o := by
          rintro rfl
          exact hi (List.mem_of_find?_eq_some ho)
        rw [Function.comp_apply, envOf_cons hne, scope_set_ne hoi]

/-- An assignment changes the scope that owns the name. -/
theorem assign?_env (hf : f.Rooted) : (f.env i).assign? name v =
    (f.owner? name i).map fun o => (f.set o ((f.scope o).define name v)).env i := by
  rw [env, assign?_envOf (nodup_path hf)]
  exact Option.map_congr fun o _ => (env_set hf).symm

/-- A declaration changes the scope where it is made. -/
theorem define_env (hf : f.Rooted) (hi : i < f.length) :
    (f.env i).define name v = (f.set i ((f.scope i).define name v)).env i := by
  rw [env_set hf, env]
  have hset := scope_set_self (s := (f.scope i).define name v) hi
  obtain ⟨ps, hps⟩ := f.exists_path_eq_cons f.length i
  have hnodup : (f.path f.length i).Nodup := nodup_path hf
  rw [hps] at hnodup ⊢
  obtain ⟨hn, -⟩ := List.nodup_cons.mp hnodup
  by_cases hne : ps = []
  · rw [hne, envOf, Env.define, envOf, hset]
  · rw [envOf_cons hne, Env.define, envOf_cons hne, hset, envOf_set_of_not_mem hn]

section

variable {other : String} (hf : f.Rooted) (ho : o < f.length)
include ho

theorem names_scope_set (hs : s.names = (f.scope o).names) :
    ((f.set o s).scope k).names = (f.scope k).names := by
  rw [scope_set ho]
  split
  · next hk => rw [hs, hk]
  · rfl

include hf

theorem owner?_set (hs : s.names = (f.scope o).names) :
    (f.set o s).owner? other j = f.owner? other j := by
  rw [owner?, length_set, path_set hf, owner?]
  congr 1
  funext k
  rw [Bool.eq_iff_iff, Scope.isSome_get?_iff, Scope.isSome_get?_iff, names_scope_set ho hs]

/-- If a scope keeps its names, only those see a change whose binding it has. -/
theorem get?_env_set (hs : s.names = (f.scope o).names) :
    ((f.set o s).env j).get? other =
      if f.owner? other j = some o then s.get? other else (f.env j).get? other := by
  rw [get?_env, owner?_set hf ho hs, get?_env]
  cases f.owner? other j with
  | none => rfl
  | some k =>
    rw [Option.bind_some, Option.bind_some, scope_set ho]
    simp only [Option.some.injEq]
    split <;> rfl

end

/-- A change is not seen from where no path leads to it. -/
theorem env_set_of_not_mem (hf : f.Rooted) (hj : i ∉ f.path f.length j) :
    (f.set i s).env j = f.env j := by
  rw [env_set hf, env, envOf_set_of_not_mem hj]

/-- The forests have the same scopes around each scope. -/
def SameShape (f g : Forest) : Prop := f.length = g.length ∧ ∀ k, f.parent? k = g.parent? k

theorem sameShape_set : SameShape (f.set i s) f := ⟨length_set, fun _ => parent?_set⟩

/-- What assigning a name in the scope `i` makes of the forest: one binding is changed. -/
structure Assigned (f : Forest) (i : Nat) (name : String) (v : Value) (o : Nat) (g : Forest) :
    Prop where
  /-- The binding is in the innermost scope that has the name. -/
  innermost : ∃ inner outer, f.path f.length i = inner ++ o :: outer ∧
    name ∈ (f.scope o).names ∧ ∀ k ∈ inner, name ∉ (f.scope k).names
  shape : g.SameShape f
  names : ∀ k, (g.scope k).names = (f.scope k).names
  changed : ∀ k other, (g.scope k).get? other =
    if k = o ∧ other = name then some v else (f.scope k).get? other
  here : (g.env i).get? name = some v
  /-- Only those see the change who find this binding. -/
  elsewhere : ∀ j other, f.owner? other j ≠ some o ∨ other ≠ name →
    (g.env j).get? other = (f.env j).get? other

/-- What declaring a name in the scope `i` makes of the forest. -/
structure Declared (f : Forest) (i : Nat) (name : String) (v : Value) (g : Forest) : Prop where
  shape : g.SameShape f
  here : ∀ other, (g.env i).get? other =
    if other = name then some v else (f.env i).get? other
  changed : ∀ k other, (g.scope k).get? other =
    if k = i ∧ other = name then some v else (f.scope k).get? other
  /-- A new name comes last, and one that was there keeps its place. -/
  names : ∀ k, (g.scope k).names =
    if k = i ∧ name ∉ (f.scope k).names then (f.scope k).names ++ [name] else (f.scope k).names
  outer : ∀ j ∈ f.path f.length i, j ≠ i → g.env j = f.env j

theorem owner?_eq_some (h : f.owner? name i = some o) : ((f.scope o).get? name).isSome ∧
    ∃ inner outer, f.path f.length i = inner ++ o :: outer ∧
      ∀ k ∈ inner, name ∉ (f.scope k).names := by
  obtain ⟨ho, inner, outer, hpath, hinner⟩ := List.find?_eq_some_iff_append.mp h
  refine ⟨ho, inner, outer, hpath, fun k hk hmem => ?_⟩
  have hk := hinner k hk
  rw [(Scope.isSome_get?_iff _ _).mpr hmem] at hk
  cases hk

theorem names_define_of_get? (h : (s.get? name).isSome) : (s.define name v).names = s.names := by
  rw [Scope.names_define, if_pos ((Scope.isSome_get?_iff _ _).mp h)]

theorem assigned_set (hf : f.Rooted) (h : f.owner? name i = some o) :
    f.Assigned i name v o (f.set o ((f.scope o).define name v)) := by
  obtain ⟨hsome, inner, outer, hpath, hinner⟩ := owner?_eq_some h
  have ho := lt_length_of_get? hsome
  have hnames := names_define_of_get? (v := v) hsome
  constructor
  · exact ⟨inner, outer, hpath, (Scope.isSome_get?_iff _ _).mp hsome, hinner⟩
  · exact sameShape_set
  · exact fun k => names_scope_set ho hnames
  · intro k other
    rw [scope_set ho]
    by_cases hk : k = o
    · simp only [hk, if_true, true_and, Scope.get?_define]
    · simp only [hk, if_false, false_and]
  · rw [get?_env_set hf ho hnames, if_pos h, Scope.get?_define, if_pos rfl]
  · intro j other hj
    rw [get?_env_set hf ho hnames]
    split
    · next hown =>
      have hne := hj.resolve_left fun hne => hne hown
      rw [Scope.get?_define, if_neg hne, get?_env, hown]
      rfl
    · rfl

theorem declared_set (hf : f.Rooted) (hi : i < f.length) :
    f.Declared i name v (f.set i ((f.scope i).define name v)) := by
  constructor
  · exact sameShape_set
  · intro other
    rw [← define_env hf hi]
    cases f.env i with
    | global s => exact s.get?_define name other v
    | inner s env =>
      simp only [Env.define, Env.get?, Scope.get?_define]
      split <;> rfl
  · intro k other
    rw [scope_set hi]
    by_cases hk : k = i
    · simp only [hk, if_true, true_and, Scope.get?_define]
    · simp only [hk, if_false, false_and]
  · intro k
    rw [scope_set hi]
    by_cases hk : k = i
    · simp only [hk, if_true, true_and, Scope.names_define, ite_not]
    · simp only [hk, if_false, false_and]
  · intro j hj hne
    refine env_set_of_not_mem hf fun hij => ?_
    have hji := le_of_mem_path hf hj
    have hij := le_of_mem_path hf hij
    omega

/-- Every environment is that of a scope in a forest. -/
theorem exists_env_eq (env : Env) : ∃ (f : Forest) (i : Nat),
    f.Rooted ∧ i < f.length ∧ f.env i = env := by
  induction env with
  | global s =>
    refine ⟨[(s, none)], 0, fun b hb j hj => ?_, Nat.one_pos, rfl⟩
    obtain rfl := List.mem_singleton.mp hb
    cases hj
  | inner s env ih =>
    obtain ⟨f, i, hf, hi, rfl⟩ := ih
    have hold {k : Nat} (hk : k < f.length) : (f ++ [(s, some i)])[k]? = f[k]? :=
      List.getElem?_append_left hk
    have hnew : (f ++ [(s, some i)])[f.length]? = some (s, some i) := List.getElem?_concat_length
    have hparent {k : Nat} (hk : k < f.length) : (f ++ [(s, some i)]).parent? k = f.parent? k := by
      rw [parent?, hold hk, parent?]
    have hlast : (f ++ [(s, some i)]).parent? f.length = some i := by rw [parent?, hnew]; rfl
    refine ⟨f ++ [(s, some i)], f.length, rooted_of_parent? fun k j hj => ?_, ?_, ?_⟩
    · rcases Nat.lt_trichotomy k f.length with hk | rfl | hk
      · exact hf.lt ((hparent hk).symm.trans hj)
      · obtain rfl := Option.some.inj (hlast.symm.trans hj)
        exact hi
      · rw [parent?, List.getElem?_eq_none (by rw [List.length_append]; exact hk)] at hj
        cases hj
    · rw [List.length_append]
      exact Nat.lt_succ_self _
    · have hpath : (f ++ [(s, some i)]).path f.length i = f.path f.length i :=
        path_congr hf fun k hk => hparent (by omega)
      have hscopes : (f ++ [(s, some i)]).envOf (f.path f.length i) = f.envOf (f.path f.length i) :=
        envOf_congr fun k hk => by
          have := le_of_mem_path hf hk
          rw [scope, hold (by omega), scope]
      rw [env, List.length_append, List.length_singleton, path_succ, hlast]
      simp only [hpath]
      rw [envOf_cons path_ne_nil, hscopes, scope, hnew]
      rfl

/-- Laws of looking up, assigning and declaring a name. Looking up and assigning succeed just if the
name is known, and change nothing if not. An assignment changes the innermost binding of the name,
as all see who find this binding and nobody else. A declaration changes its scope only. -/
theorem store_laws (name : Token) (v : Value) (printed : List String) :
    (∀ env : Env, env.Access name v printed ∧
      (env.contains name.lexeme = true ↔ ∃ s ∈ env.scopes, name.lexeme ∈ s.names) ∧
      ∃ (f : Forest) (i : Nat), f.Rooted ∧ i < f.length ∧ f.env i = env) ∧
    ∀ f : Forest, f.Rooted → ∀ i < f.length,
      (∀ e, (f.env i).assign? name.lexeme v = some e →
        ∃ o, f.owner? name.lexeme i = some o ∧ (f.replace i e).env i = e ∧
          f.Assigned i name.lexeme v o (f.replace i e)) ∧
      (f.replace i ((f.env i).define name.lexeme v)).env i = (f.env i).define name.lexeme v ∧
      f.Declared i name.lexeme v (f.replace i ((f.env i).define name.lexeme v)) := by
  refine ⟨fun env => ⟨env.access name v printed, env.contains_iff _, exists_env_eq env⟩, ?_⟩
  intro f hf i hi
  constructor
  · intro e he
    rw [assign?_env hf] at he
    obtain ⟨o, ho, rfl⟩ := Option.map_eq_some_iff.mp he
    rw [replace_set hf (List.mem_of_find?_eq_some ho)]
    exact ⟨o, ho, rfl, assigned_set hf ho⟩
  · obtain ⟨ps, hps⟩ := f.exists_path_eq_cons f.length i
    have hself : i ∈ f.path f.length i := by
      rw [hps]
      exact List.mem_cons_self
    rw [define_env hf hi, replace_set hf hself]
    exact ⟨rfl, declared_set hf hi⟩

/-- `a` is declared in the global scope and, hiding that, in one of the two scopes inside it. From
the scope inside the other one, an assignment finds the global `a`, which is nil. -/
theorem store_laws_hidden :
    let f : Forest := [([("a", .nil), ("b", .bool true)], none), ([("c", .nil)], some 0),
      ([("a", .string "hidden")], some 0), ([], some 1)]
    let g : Forest := [([("a", .bool false), ("b", .bool true)], none), ([("c", .nil)], some 0),
      ([("a", .string "hidden")], some 0), ([], some 1)]
    f.Rooted ∧ 3 < f.length ∧ (f.env 3).assign? "a" (.bool false) = some (g.env 3) ∧
      f.replace 3 (g.env 3) = g ∧ f.Assigned 3 "a" (.bool false) 0 g := by
  intro f g
  have hf : f.Rooted := by decide
  have he : (f.env 3).assign? "a" (.bool false) = some (g.env 3) := rfl
  have hlaws := store_laws ⟨.identifier, "a", .nil, 1⟩ (.bool false) []
  obtain ⟨o, ho, -, hassigned⟩ := (hlaws.2 f hf 3 (by decide)).1 (g.env 3) he
  obtain rfl : 0 = o := Option.some.inj ho
  exact ⟨hf, by decide, he, rfl, hassigned⟩

end Forest
end Lox
