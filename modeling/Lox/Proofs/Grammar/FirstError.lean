import Lox.Proofs.Grammar.Relining
import Lox.Proofs.Grammar.Tracking

/-! # Where the first error is raised

The first error raised is at the first token with which the tokens are no longer the beginning of a
program. To tell tokens that are alike, they are read with their places for lines.
-/

namespace Lox

open Grammar Phrase

/-- Only the kinds of the tokens matter to a grammar. -/
theorem Grammar.Derives.of_kinds {g : Symbol → Phrase} {φ : Phrase} {ts us : List Token}
    (h : Derives g φ ts) (hk : ts.map Token.kind = us.map Token.kind) : Derives g φ us := by
  induction h generalizing us with
  | kind t =>
    obtain ⟨u, rfl, hu⟩ := List.map_eq_singleton_iff.mp hk.symm
    exact .token hu
  | symbol _ ih => exact .symbol (ih hk)
  | seq _ _ ih ih' =>
    rw [List.map_append] at hk
    obtain ⟨vs, ws, rfl, hv, hw⟩ := List.map_eq_append_iff.mp hk.symm
    exact .seq (ih hv.symm) (ih' hw.symm)
  | left _ ih => exact .left (ih hk)
  | right _ ih => exact .right (ih hk)
  | none =>
    obtain rfl := List.map_eq_nil_iff.mp hk.symm
    exact .none
  | some _ ih => exact .some (ih hk)
  | nil =>
    obtain rfl := List.map_eq_nil_iff.mp hk.symm
    exact .nil
  | cons _ _ ih ih' =>
    rw [List.map_append] at hk
    obtain ⟨vs, ws, rfl, hv, hw⟩ := List.map_eq_append_iff.mp hk.symm
    exact .cons (ih hv.symm) (ih' hw.symm)

/-- The tokens with their places for lines. -/
def numbered (ts : List Token) : List Token := ts.mapIdx fun i t => { t with line := i }

@[simp] theorem getElem?_numbered (ts : List Token) (i : Nat) :
    (numbered ts)[i]? = ts[i]?.map fun t => { t with line := i } := by
  simp [numbered]

theorem kinds_numbered (ts : List Token) : (numbered ts).map Token.kind = ts.map Token.kind := by
  apply List.ext_getElem?
  intro i
  cases h : ts[i]? <;> simp [h]

/-- The line of the token whose place is the line of `t`. -/
def lineAt (ts : List Token) (t : Token) : Int := (ts[t.line.toNat]?.map Token.line).getD 0

theorem reline_numbered (ts : List Token) : (numbered ts).map (Token.reline (lineAt ts)) = ts := by
  apply List.ext_getElem?
  intro i
  cases h : ts[i]? <;> simp [h, Token.reline, lineAt]

theorem line_of_numbered {ts pre post : List Token} {t : Token}
    (h : numbered ts = pre ++ t :: post) : t.line = pre.length := by
  have ht : (numbered ts)[pre.length]? = some t := by rw [h]; simp
  rw [getElem?_numbered, Option.map_eq_some_iff] at ht
  obtain ⟨u, _, rfl⟩ := ht
  rfl

theorem mild_reline {g : Token → Int} {fs : List Fault} :
    Mild (fs.map (Fault.reline g)) ↔ Mild fs := by
  simp [Mild, Fault.reline]

namespace Parser

def places (d : Nat) (ts : List Token) : List Int :=
  (program d (numbered ts)).faults.map fun f => f.token.line

/-- Among numbered tokens there is one place for the error, whatever the depth. -/
theorem numbered_located {d : Nat} {ts : List Token} (he : Ended (numbered ts))
    (hd : ∀ f ∈ (program d (numbered ts)).faults, f.error ≠ .tooDeep) {before after : List Fault}
    {f : Fault} (h : (program d (numbered ts)).faults = before ++ f :: after) (hb : Mild before)
    (hf : f.error ≠ .invalidTarget) :
    ∃ pre post, numbered ts = pre ++ f.token :: post ∧
      (∃ more, Derives looseRules (symbol .program) (pre ++ more)) ∧
      ∀ d', d ≤ d' → ∀ post', ¬ Mild (program d' (pre ++ f.token :: post')).faults := by
  obtain ⟨pre, post, hts, hmore, _⟩ := program_located (Nat.le_refl d) he hd h hb hf
  refine ⟨pre, post, hts, hmore, fun d' hle post' hm => ?_⟩
  obtain ⟨pre', _, hts', _, hq⟩ := program_located hle he hd h hb hf
  have hlen : (pre.length : Int) = pre'.length :=
    (line_of_numbered hts).symm.trans (line_of_numbered hts')
  obtain ⟨rfl, _⟩ := List.append_inj (hts.symm.trans hts') (Int.ofNat_inj.mp hlen)
  obtain ⟨after', ha⟩ := hq post'
  rw [ha] at hm
  exact hf (hm f (by simp))

/-- Let `i` be the place of the first token at which an error is raised. The tokens before it are
the beginning of a program, those up to it are not. -/
theorem first_error_located {d : Nat} {ts : List Token} {e : Token} (he : e.kind = .eof)
    (hd : ∀ f ∈ (program d (ts ++ [e])).faults, f.error ≠ .tooDeep)
    {before after : List Fault} {f : Fault}
    (h : (program d (ts ++ [e])).faults = before ++ f :: after) (hb : Mild before)
    (hf : f.error ≠ .invalidTarget) :
    ∃ i : Nat, (places d (ts ++ [e]))[before.length]? = some (i : Int) ∧
      (ts ++ [e])[i]? = some f.token ∧
      (∃ more, Derives looseRules (symbol .program) (ts.take i ++ more)) ∧
      (∀ more, ¬ Derives looseRules (symbol .program) ((ts ++ [e]).take (i + 1) ++ more)) ∧
      (f.token.kind = .eof → ¬ Derives looseRules (symbol .program) (ts.take i)) := by
  have hr := program_faults_reline (g := lineAt (ts ++ [e])) d (numbered (ts ++ [e]))
  rw [reline_numbered] at hr
  rw [hr] at h
  rw [hr, List.forall_mem_map] at hd
  obtain ⟨before, rest, hfaults, rfl, hrest⟩ := List.map_eq_append_iff.mp h
  obtain ⟨f, after, rfl, rfl, rfl⟩ := List.map_eq_cons_iff.mp hrest
  have hended : Ended (numbered (ts ++ [e])) := by
    have hm : Kind.eof ∈ (numbered (ts ++ [e])).map Token.kind := by simp [kinds_numbered, he]
    simpa [Ended] using hm
  obtain ⟨pre, post, hsplit, ⟨more, hmore⟩, hnot⟩ :=
    numbered_located hended hd hfaults (mild_reline.mp hb) hf
  have hkinds : ts.map Token.kind ++ [e.kind] =
      pre.map Token.kind ++ f.token.kind :: post.map Token.kind := by
    have := kinds_numbered (ts ++ [e])
    rw [hsplit] at this
    simpa using this.symm
  have hlen : pre.length ≤ ts.length := by
    have := congrArg List.length hkinds
    simp only [List.length_append, List.length_map, List.length_cons, List.length_nil] at this
    omega
  have hbefore : pre.map Token.kind = (ts.take pre.length).map Token.kind := by
    have := congrArg (List.take pre.length) hkinds
    rwa [List.take_append_of_le_length (by simpa using hlen), List.take_left' (by simp),
      ← List.map_take, eq_comm] at this
  have hupto : (pre ++ [f.token]).map Token.kind =
      ((ts ++ [e]).take (pre.length + 1)).map Token.kind := by
    have := congrArg (List.take (pre.length + 1)) hkinds
    rw [List.map_append, List.map_singleton, List.map_take, List.map_append, List.map_singleton,
      this]
    simp [List.take_append, List.take_of_length_le]
  refine ⟨pre.length, ?_, ?_, ⟨more, hmore.of_kinds ?_⟩, fun more' h' => ?_, fun hk h' => ?_⟩
  · simp [places, hfaults, line_of_numbered hsplit]
  · have := congrArg (fun us => us[pre.length]?) (reline_numbered (ts ++ [e]))
    rw [hsplit] at this
    simpa [Fault.reline] using this.symm
  · rw [List.map_append, List.map_append, hbefore]
  · have h' : Derives looseRules (symbol .program) (pre ++ [f.token] ++ more') :=
      h'.of_kinds (by rw [List.map_append, ← hupto, ← List.map_append])
    obtain ⟨n, hn⟩ := mild_of_derives h' he
    refine hnot (max d n) (Nat.le_max_left d n) (more' ++ [e]) ?_
    simpa using hn (max d n) (Nat.le_max_right d n)
  · obtain ⟨n, hn⟩ := mild_of_derives (e := f.token) (h'.of_kinds hbefore.symm) hk
    exact hnot (max d n) (Nat.le_max_left d n) [] (hn (max d n) (Nat.le_max_right d n))

/-- After `print 1 +` a program may go on, but not with a semicolon. -/
theorem first_error_located_sum :
    let tokens : List Token := [⟨.kwPrint, "print", .nil, 1⟩, ⟨.number, "1", .nil, 1⟩,
      ⟨.plus, "+", .nil, 1⟩, ⟨.semicolon, ";", .nil, 1⟩]
    (∃ more, Derives looseRules (symbol .program) (tokens.take 3 ++ more)) ∧
      ¬ Derives looseRules (symbol .program) tokens := by
  intro tokens
  have h : (program nestingLimit (tokens ++ [.eof 1])).faults =
      [] ++ ⟨⟨.semicolon, ";", .nil, 1⟩, .expectExpression⟩ :: [] := by decide
  obtain ⟨i, hi, -, hmore, hnot, -⟩ :=
    first_error_located (e := .eof 1) rfl (by decide) h mild_nil (by decide)
  have hplaces : (places nestingLimit (tokens ++ [.eof 1]))[0]? = some 3 := by decide
  obtain rfl : i = 3 := Int.ofNat_inj.mp (Option.some.inj (hi.symm.trans hplaces))
  exact ⟨hmore, hnot []⟩

end Parser
end Lox
