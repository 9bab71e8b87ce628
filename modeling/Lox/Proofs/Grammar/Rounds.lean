import Lox.Grammar.Cursor
import Lox.Proofs.Grammar.Progress

/-! # Places of the cursor

Reading moves a cursor over a fixed list of tokens. It never goes back and never past the first
token of kind `eof`, where the reading of a program ends. Each round of a list of declarations
starts before that token and takes a token at least, also if the declaration is given up, so there
are no more declarations than tokens.
-/

namespace Lox

/-- The number of the first token of kind `eof`. -/
def endOf? (ts : List Token) : Option Nat := ts.findIdx? fun t => t.kind == .eof

namespace Cursor

open Lox.Parser

variable {α : Type} {ts rest : List Token} {p : Parser α} {r : Except Stop α}
  {faults : List Fault} {i j k m n d : Nat}

/-- The parser moves the cursor from `i` to `j`. -/
def Goes (ts : List Token) (p : Parser α) (i : Nat) (r : Except Stop α) (faults : List Fault)
    (j : Nat) : Prop :=
  (Cursor.mk ts i).run p = (⟨r, ts.drop j, faults⟩, ⟨ts, j⟩)

theorem Goes.reply (h : Goes ts p i r faults j) : p (ts.drop i) = ⟨r, ts.drop j, faults⟩ :=
  congrArg Prod.fst h

theorem goes_of_reply (h : p (ts.drop i) = ⟨r, ts.drop j, faults⟩) (hj : j ≤ ts.length) :
    Goes ts p i r faults j := by
  simp only [Goes, run, h, List.length_drop]
  rw [Nat.sub_sub_self hj]

section

variable (h : endOf? ts = some n)
include h

theorem lt_length_of_endOf? : n < ts.length :=
  (List.findIdx?_eq_some_iff_getElem.mp h).choose

theorem kind_end (hn : n < ts.length) : ts[n].kind = .eof :=
  beq_iff_eq.mp (List.findIdx?_eq_some_iff_getElem.mp h).choose_spec.1

theorem kind_ne_eof (hi : i < n) (hlt : i < ts.length) : ts[i].kind ≠ .eof := fun hk =>
  (List.findIdx?_eq_some_iff_getElem.mp h).choose_spec.2 i hi (beq_iff_eq.mpr hk)

theorem drop_end : ∃ e more, ts.drop n = e :: more ∧ ts[n]? = some e ∧ e.kind = .eof :=
  have hn := lt_length_of_endOf? h
  ⟨ts[n], ts.drop (n + 1), List.drop_eq_getElem_cons hn, List.getElem?_eq_getElem hn,
    kind_end h hn⟩

theorem drop_before_end (hi : i < n) :
    ∃ t more, ts.drop i = t :: more ∧ ts[i]? = some t ∧ t.kind ≠ .eof :=
  have hlt := Nat.lt_trans hi (lt_length_of_endOf? h)
  ⟨ts[i], ts.drop (i + 1), List.drop_eq_getElem_cons hlt, List.getElem?_eq_getElem hlt,
    kind_ne_eof h hi hlt⟩

theorem ended_drop (hi : i ≤ n) : Ended (ts.drop i) := by
  obtain ⟨e, more, hdrop, -, he⟩ := drop_end h
  refine ⟨e, ?_, he⟩
  have hsplit : (ts.drop i).drop (n - i) = e :: more := by
    rw [List.drop_drop, Nat.add_sub_cancel' hi, hdrop]
  exact List.mem_of_mem_drop (hsplit ▸ List.mem_cons_self)

theorem drop_ne_nil (hi : i ≤ n) : ts.drop i ≠ [] := by
  intro hnil
  exact Ended.not_nil (hnil ▸ ended_drop h hi)

theorem exists_place (hi : i ≤ n) (hp : Passes m (ts.drop i) rest) :
    ∃ j, i + m ≤ j ∧ j ≤ n ∧ rest = ts.drop j := by
  obtain ⟨used, hused, hm, hkinds⟩ := hp
  refine ⟨i + used.length, by omega, ?_, ?_⟩
  · refine Nat.le_of_not_lt fun hlt => ?_
    have hn := lt_length_of_endOf? h
    have hat : (ts.drop i)[n - i]? = some ts[n] := by
      rw [List.getElem?_drop, Nat.add_sub_cancel' hi, List.getElem?_eq_getElem hn]
    rw [hused, List.getElem?_append_left (by omega)] at hat
    exact hkinds _ (List.mem_of_getElem? hat) (kind_end h hn)
  · rw [← List.drop_drop, hused, List.drop_left]

theorem goes_of_steady (hi : i ≤ n) (hp : Steady m p (ts.drop i)) :
    ∃ r faults j, Goes ts p i r faults j ∧ i ≤ j ∧ j ≤ n ∧ r ≠ .error .pastEnd ∧
      ∀ a, r = .ok a → i + m ≤ j := by
  have hn := lt_length_of_endOf? h
  rcases hreply : p (ts.drop i) with ⟨r, rest, faults⟩
  rw [Steady, hreply] at hp
  cases hp with
  | ok hr =>
    obtain ⟨j, hij, hj, rfl⟩ := exists_place h hi hr
    exact ⟨_, _, j, goes_of_reply hreply (by omega), by omega, hj, by simp, fun _ _ => hij⟩
  | raised hr | tooDeep hr =>
    obtain ⟨j, hij, hj, hrest⟩ := exists_place h hi hr
    rw [hrest] at hreply
    exact ⟨_, _, j, goes_of_reply hreply (by omega), hij, hj, by simp, by simp⟩
  | pastEnd hne => exact absurd (ended_drop h hi) hne

end

/-- Declarations are read one after the other from `i` on. Each starts before the end and leaves the
cursor at a later place. -/
inductive Rounds (ts : List Token) (n : Nat) (read : Parser Stmt) :
    Nat → List Stmt → List Fault → Nat → Prop
  | nil {i : Nat} : Rounds ts n read i [] [] i
  | cons {i j k : Nat} {s : Stmt} {ss : List Stmt} {faults faults' : List Fault} : i < n →
      Goes ts read i (.ok s) faults j → i < j → Rounds ts n read j ss faults' k →
      Rounds ts n read i (s :: ss) (faults ++ faults') k

theorem Rounds.length_le {read : Parser Stmt} {ss : List Stmt}
    (h : Rounds ts n read i ss faults j) : i + ss.length ≤ j := by
  induction h with
  | nil => exact Nat.le_refl _
  | cons _ _ hij _ ih =>
    rw [List.length_cons]
    omega

/-- How the reading of a block from `i` on ends: with its brace, without it at the end of the
tokens, or in a declaration that is nested too deeply. -/
inductive BlockRead (ts : List Token) (n d i : Nat) :
    Except Stop (List Stmt) → List Fault → Nat → Prop
  | closed {ss : List Stmt} {faults : List Fault} {j : Nat} {brace : Token} :
      Rounds ts n (declaration d) i ss faults j → j < n → ts[j]? = some brace →
      brace.kind = .rightBrace → BlockRead ts n d i (.ok ss) faults (j + 1)
  | unclosed {ss : List Stmt} {faults : List Fault} {e : Token} :
      Rounds ts n (declaration d) i ss faults n → ts[n]? = some e →
      BlockRead ts n d i (.error (.raised .expectBraceAfterBlock))
        (faults ++ [⟨e, .expectBraceAfterBlock⟩]) n
  | tooDeep {ss : List Stmt} {faults faults' : List Fault} {j k : Nat} :
      Rounds ts n (declaration d) i ss faults j → j < n →
      Goes ts (declaration d) j (.error .tooDeep) faults' k → j ≤ k → k ≤ n →
      BlockRead ts n d i (.error .tooDeep) (faults ++ faults') k

theorem length_drop_le_clock {c : Token} {clock : List Token} (hij : i < j)
    (hc : (ts.drop i).length ≤ (c :: clock).length) : (ts.drop j).length ≤ clock.length := by
  rw [List.length_drop, List.length_cons] at hc
  rw [List.length_drop]
  omega

theorem BlockRead.cons {s : Stmt} {rs : Except Stop (List Stmt)} {faults' : List Fault}
    (hi : i < n) (hs : Goes ts (declaration d) i (.ok s) faults j) (hij : i < j)
    (h : BlockRead ts n d j rs faults' k) :
    BlockRead ts n d i (rs.map (s :: ·)) (faults ++ faults') k := by
  cases h with
  | closed hr hlt hb hk => exact .closed (.cons hi hs hij hr) hlt hb hk
  | unclosed hr he =>
    rw [← List.append_assoc]
    exact .unclosed (.cons hi hs hij hr) he
  | tooDeep hr hlt hd hle hk =>
    rw [← List.append_assoc]
    exact .tooDeep (.cons hi hs hij hr) hlt hd hle hk

section

variable (h : endOf? ts = some n)
include h

/-- A declaration is read, or given up, and takes a token, or it is nested too deeply. -/
theorem declaration_goes (hi : i < n) : ∃ r faults j, Goes ts (declaration d) i r faults j ∧
    i ≤ j ∧ j ≤ n ∧ (r = .error .tooDeep ∨ ∃ s, r = .ok s ∧ i < j) := by
  obtain ⟨t, more, hdrop, -, hk⟩ := drop_before_end h hi
  have hsteady : Steady 1 (declaration d) (ts.drop i) := hdrop ▸ declaration_steady d hk
  obtain ⟨r, faults, j, hgo, hij, hj, hr, htakes⟩ := goes_of_steady h (Nat.le_of_lt hi) hsteady
  refine ⟨r, faults, j, hgo, hij, hj, ?_⟩
  rcases r with ⟨e | _ | _⟩ | s
  · exact absurd (congrArg Reply.result hgo.reply) (declaration_ne_raised d)
  · exact .inl rfl
  · exact absurd rfl hr
  · exact .inr ⟨s, rfl, htakes s rfl⟩

/-- A declaration of a program always takes a token. If it is nested too deeply, it is given up, and
reading goes on at a later place. -/
theorem topLevel_goes (hi : i < n) : ∃ s faults j, Goes ts (topLevel d) i (.ok s) faults j ∧
    i < j ∧ j ≤ n ∧ (Goes ts (declaration d) i (.ok s) faults j ∨ s = .failed ∧
      ∃ faults' k, Goes ts (declaration d) i (.error .tooDeep) faults' k ∧ i ≤ k ∧ k ≤ j) := by
  have hn := lt_length_of_endOf? h
  obtain ⟨t, more, hdrop, -, hkind⟩ := drop_before_end h hi
  have hended := ended_drop h (Nat.le_of_lt hi)
  rw [hdrop] at hended
  obtain ⟨s, rest, faults, hreply, hpasses⟩ := topLevel_ok d hkind hended
  rw [← hdrop] at hreply hpasses
  obtain ⟨j, hij, hj, rfl⟩ := exists_place h (Nat.le_of_lt hi) hpasses
  refine ⟨s, faults, j, goes_of_reply hreply (by omega), hij, hj, ?_⟩
  obtain ⟨r, faults', k, hgo, hik, hk, rfl | ⟨s', rfl, -⟩⟩ := declaration_goes (d := d) h hi
  · right
    obtain ⟨u, more', hrest⟩ := (ended_drop h hk).cons
    have hdeclaration := hgo.reply
    rw [hrest] at hdeclaration
    rw [topLevel_tooDeep hdeclaration, ← hrest] at hreply
    obtain ⟨r, _, j', hsync, hkj, hj', -⟩ := goes_of_steady h hk synchronize_steady
    rw [hsync.reply] at hreply
    injection hreply with hresult hdrops
    have hlength := congrArg List.length hdrops
    rw [List.length_drop, List.length_drop] at hlength
    refine ⟨?_, faults', k, hgo, hik, by omega⟩
    cases r <;> cases hresult
    rfl
  · left
    have heq : topLevel d (ts.drop i) = declaration d (ts.drop i) := by
      rw [topLevel, hgo.reply]
    exact goes_of_reply (heq ▸ hreply) (by omega)

/-- A program is read in rounds up to the end. -/
theorem programOf_rounds {clock : List Token} (hi : i ≤ n)
    (hc : (ts.drop i).length ≤ clock.length) : ∃ ss faults,
      programOf d clock (ts.drop i) = ⟨.ok ss, ts.drop n, faults⟩ ∧
      Rounds ts n (topLevel d) i ss faults n := by
  induction clock generalizing i with
  | nil =>
    exact absurd (List.eq_nil_of_length_eq_zero (Nat.le_zero.mp hc)) (drop_ne_nil h hi)
  | cons c clock ih =>
    by_cases hin : i = n
    · subst hin
      obtain ⟨e, more, hdrop, -, he⟩ := drop_end h
      refine ⟨[], [], ?_, .nil⟩
      rw [hdrop, programOf_cons, if_pos he]
    · have hlt := Nat.lt_of_le_of_ne hi hin
      obtain ⟨t, more, hdrop, -, hkind⟩ := drop_before_end h hlt
      obtain ⟨s, faults, j, hgo, hij, hj, -⟩ := topLevel_goes (d := d) h hlt
      obtain ⟨ss, faults', hrest, hrounds⟩ := ih hj (length_drop_le_clock hij hc)
      refine ⟨s :: ss, faults ++ faults', ?_, .cons hlt hgo hij hrounds⟩
      rw [hdrop, programOf_cons, if_neg hkind, ← hdrop, bind_ok hgo.reply, map_apply, hrest]
      rfl

/-- The declarations of a block are read in rounds up to where the block ends. -/
theorem blockOf_rounds {clock : List Token} (hi : i ≤ n)
    (hc : (ts.drop i).length ≤ clock.length) : ∃ r faults j,
      blockOf (declaration d) clock (ts.drop i) = ⟨r, ts.drop j, faults⟩ ∧ i ≤ j ∧ j ≤ n ∧
      BlockRead ts n d i r faults j := by
  induction clock generalizing i with
  | nil =>
    exact absurd (List.eq_nil_of_length_eq_zero (Nat.le_zero.mp hc)) (drop_ne_nil h hi)
  | cons c clock ih =>
    by_cases hin : i = n
    · subst hin
      obtain ⟨e, more, hdrop, hat, he⟩ := drop_end h
      refine ⟨_, _, i, ?_, Nat.le_refl i, hi, .unclosed .nil hat⟩
      rw [hdrop, blockOf_cons, if_neg (by rw [he]; decide), if_pos he, List.nil_append]
    · have hlt := Nat.lt_of_le_of_ne hi hin
      obtain ⟨t, more, hdrop, hat, hkind⟩ := drop_before_end h hlt
      by_cases hbrace : t.kind = .rightBrace
      · refine ⟨_, _, i + 1, ?_, Nat.le_succ i, hlt, .closed .nil hlt hat hbrace⟩
        rw [← List.drop_drop, hdrop, blockOf_cons, if_pos hbrace]
        rfl
      · have hround : blockOf (declaration d) (c :: clock) (ts.drop i) = (do
            let s ← declaration d
            (s :: ·) <$> blockOf (declaration d) clock : Parser (List Stmt)) (ts.drop i) := by
          rw [hdrop, blockOf_cons, if_neg hbrace, if_neg hkind]
        obtain ⟨r, faults, j, hgo, hij, hj, rfl | ⟨s, rfl, hlater⟩⟩ :=
          declaration_goes (d := d) h hlt
        · refine ⟨_, _, j, ?_, hij, hj, .tooDeep .nil hlt hgo hij hj⟩
          rw [hround, bind_error hgo.reply, List.nil_append]
        · obtain ⟨rs, faults', k, hrest, hjk, hk, hread⟩ := ih hj (length_drop_le_clock hlater hc)
          refine ⟨_, _, k, ?_, Nat.le_trans hij hjk, hk, hread.cons hlt hgo hlater⟩
          rw [hround, bind_ok hgo.reply, map_apply, hrest]

end

/-- The parsers of the grammar that may stand anywhere up to the end. -/
inductive Part : {α : Type} → Parser α → Prop
  | peek : Part peek
  | atEnd : Part atEnd
  | skip : Part skip
  | check (k : Kind) : Part (check k)
  | accept (accepted : Kind → Bool) : Part (accept accepted)
  | accepts (k : Kind) : Part (accepts k)
  | expect {k : Kind} (e : SyntaxError) : k ≠ .eof → Part (expect k e)
  | synchronize : Part synchronize
  | rule (d : Nat) (r : Rule) : Part (rule d r)
  | variableDeclaration (d : Nat) : Part (variableDeclaration d)
  | expressionStatement (d : Nat) : Part (expressionStatement d)
  | printStatement (d : Nat) : Part (printStatement d)
  | ifStatement (d d' : Nat) : Part (ifStatement d (statement d'))
  | whileStatement (d d' : Nat) : Part (whileStatement d (statement d'))
  | firstClause (d : Nat) : Part (firstClause d)
  | forStatement (d d' : Nat) : Part (forStatement d (statement d'))
  | statement (d : Nat) : Part (statement d)
  | block (d : Nat) : Part (block d)

theorem Part.steady (h : Part p) : Steady 0 p ts := by
  cases h with
  | peek => exact peek_steady
  | atEnd | check => exact peek_steady.bind fun _ _ _ => .pure _
  | skip => exact skip_steady
  | accept accepted => exact accept_steady accepted
  | accepts => exact (accept_steady _).bind fun _ _ _ => .pure _
  | expect e hk => exact (Steady.expect e hk).mono (Nat.zero_le 1)
  | synchronize => exact synchronize_steady
  | rule d r => exact (rule_steady d r).mono (Nat.zero_le 1)
  | variableDeclaration d => exact (variableDeclaration_steady d).mono (Nat.zero_le 1)
  | expressionStatement d => exact (expressionStatement_steady d).mono (Nat.zero_le 1)
  | printStatement d => exact (printStatement_steady d).mono (Nat.zero_le 1)
  | ifStatement d d' =>
    exact (ifStatement_steady (fun _ => statement_steady d') d).mono (Nat.zero_le 1)
  | whileStatement d d' =>
    exact (whileStatement_steady (fun _ => statement_steady d') d).mono (Nat.zero_le 1)
  | firstClause d => exact firstClause_steady d
  | forStatement d d' =>
    exact (forStatement_steady (fun _ => statement_steady d') d).mono (Nat.zero_le 1)
  | statement d => exact (statement_steady d).mono (Nat.zero_le 1)
  | block d =>
    exact (blockOf_steady (fun _ _ ht => declaration_steady d ht) (Nat.le_refl _)).mono
      (Nat.zero_le 1)

/-- Where the cursor goes while a program is read, with the end at the place `n`. -/
structure Course (ts : List Token) (n d : Nat) : Prop where
  /-- A program is read up to the end, in rounds. -/
  program : ∃ ss faults, Goes ts (program d) 0 (.ok ss) faults n ∧
    Rounds ts n (topLevel d) 0 ss faults n ∧ ss.length ≤ n
  topLevel : ∀ i < n, ∃ s faults j, Goes ts (topLevel d) i (.ok s) faults j ∧ i < j ∧ j ≤ n ∧
    (Goes ts (declaration d) i (.ok s) faults j ∨ s = .failed ∧
      ∃ faults' k, Goes ts (declaration d) i (.error .tooDeep) faults' k ∧ i ≤ k ∧ k ≤ j)
  /-- No error leaves a declaration, but it may be nested too deeply. -/
  declaration : ∀ d', ∀ i < n, ∃ r faults j, Goes ts (declaration d') i r faults j ∧
    i ≤ j ∧ j ≤ n ∧ (r = .error .tooDeep ∨ ∃ s, r = .ok s ∧ i < j)
  block : ∀ d', ∀ i ≤ n, ∃ r faults j, Goes ts (block d') i r faults j ∧ j ≤ n ∧
    BlockRead ts n d' i r faults j ∧ ∀ ss, r = .ok ss → i + ss.length < j
  part : ∀ {α : Type} {p : Parser α}, Part p → ∀ i ≤ n, ∃ r faults j,
    Goes ts p i r faults j ∧ i ≤ j ∧ j ≤ n ∧ r ≠ .error .pastEnd
  advance : ∀ i ≤ n, ∃ t, (Cursor.mk ts i).advance = (.ok t, ⟨ts, min (i + 1) n⟩)

theorem BlockRead.length_lt {ss : List Stmt} (h : BlockRead ts n d i (.ok ss) faults j) :
    i + ss.length < j := by
  cases h with
  | closed hr => exact Nat.lt_succ_of_le hr.length_le

section

variable (h : endOf? ts = some n)
include h

theorem advance_eq (hi : i ≤ n) :
    ∃ t, (Cursor.mk ts i).advance = (.ok t, ⟨ts, min (i + 1) n⟩) := by
  have hn := lt_length_of_endOf? h
  have hskip : Goes ts skip i (.ok ()) [] (min (i + 1) n) := by
    refine goes_of_reply ?_ (by omega)
    rcases Nat.lt_or_eq_of_le hi with hlt | rfl
    · obtain ⟨t, more, hdrop, -, hk⟩ := drop_before_end h hlt
      rw [Nat.min_eq_left (show i + 1 ≤ n from hlt), ← List.drop_drop, hdrop, skip_cons hk]
      rfl
    · obtain ⟨e, more, hdrop, -, he⟩ := drop_end h
      rw [Nat.min_eq_right (Nat.le_succ i), hdrop, skip, if_pos he]
  have hprevious : ∃ t, (Cursor.mk ts (min (i + 1) n)).previous? = some t := by
    rw [previous?]
    split
    · have hne : ts ≠ [] := List.ne_nil_of_length_pos (by omega)
      exact ⟨_, List.getLast?_eq_some_getLast hne⟩
    · have hlt : min (i + 1) n - 1 < ts.length := by omega
      exact ⟨_, List.getElem?_eq_getElem hlt⟩
  obtain ⟨t, ht⟩ := hprevious
  refine ⟨t, ?_⟩
  rw [Cursor.advance, hskip]
  simp only [ht]

/-- Reading goes on from token to token and stays before the end. -/
theorem course_of_end (d : Nat) : Course ts n d := by
  have hn := lt_length_of_endOf? h
  constructor
  · obtain ⟨ss, faults, hreply, hrounds⟩ :=
      programOf_rounds (d := d) h (Nat.zero_le n) (Nat.le_refl _)
    have hlength := hrounds.length_le
    exact ⟨ss, faults, goes_of_reply hreply (Nat.le_of_lt hn), hrounds, by omega⟩
  · exact fun i hi => topLevel_goes h hi
  · exact fun d' i hi => declaration_goes h hi
  · intro d' i hi
    obtain ⟨r, faults, j, hreply, -, hj, hread⟩ :=
      blockOf_rounds (d := d') h hi (Nat.le_refl _)
    exact ⟨r, faults, j, goes_of_reply hreply (by omega), hj, hread,
      fun ss hss => (hss ▸ hread).length_lt⟩
  · intro α p hp i hi
    have hsteady : Steady 0 p (ts.drop i) := hp.steady
    obtain ⟨r, faults, j, hgo, hij, hj, hr, -⟩ := goes_of_steady h hi hsteady
    exact ⟨r, faults, j, hgo, hij, hj, hr⟩
  · exact fun i hi => advance_eq h hi

end

/-- The first declaration fails at its first token, and the second at the end, in a block without
its brace. The last token stands after the end and is not read. -/
theorem course_of_end_failures :
    let plus : Token := ⟨.plus, "+", .nil, 1⟩
    let semicolon : Token := ⟨.semicolon, ";", .nil, 1⟩
    let brace : Token := ⟨.leftBrace, "\x7b", .nil, 1⟩
    let e : Token := ⟨.eof, "", .nil, 1⟩
    let ts := [plus, semicolon, brace, e, semicolon]
    endOf? ts = some 3 ∧ Course ts 3 nestingLimit ∧
      Goes ts (program nestingLimit) 0 (.ok [.failed, .failed])
        [⟨plus, .expectExpression⟩, ⟨e, .expectBraceAfterBlock⟩] 3 :=
  ⟨rfl, course_of_end rfl nestingLimit, rfl⟩

end Cursor
end Lox
