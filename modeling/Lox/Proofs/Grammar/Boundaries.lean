import Lox.Proofs.Grammar.Rounds
import Mathlib.Order.Bounds.Defs

/-! # Where reading goes on after an error

After an error the tokens are given up to the nearest boundary: the place after a semicolon, a token
that starts a statement, or the end. Away from the end a token at least is given up, whatever it is.
-/

namespace Lox.Cursor

open Lox.Parser

variable {ts : List Token} {i j e : Nat}

def isEnd (ts : List Token) (i : Nat) : Bool := ts[i]?.any (·.kind == .eof)

/-- Whether a semicolon stands before the place, or a token that starts a statement at it. -/
def isBoundary (ts : List Token) (i : Nat) : Bool :=
  ts[i - 1]?.any (·.kind == .semicolon) || ts[i]?.any (·.kind.startsStatement)

theorem lt_length_of_isEnd (h : isEnd ts i) : i < ts.length := by
  obtain ⟨t, ht, -⟩ := (Option.any_eq_true ..).mp h
  exact (List.getElem?_eq_some_iff.mp ht).1

theorem end_from (h : IsLeast {k | i ≤ k ∧ isEnd ts k} e) (hij : i ≤ j) (hje : j ≤ e) :
    IsLeast {k | j ≤ k ∧ isEnd ts k} e :=
  ⟨⟨hje, h.1.2⟩, fun _ hk => h.2 ⟨Nat.le_trans hij hk.1, hk.2⟩⟩

theorem drop_to_end (h : IsLeast {k | i ≤ k ∧ isEnd ts k} e) :
    ∃ t, ts[i]? = some t ∧ ts.drop i = t :: ts.drop (i + 1) ∧ (t.kind = .eof ↔ i = e) := by
  obtain ⟨⟨hie, hend⟩, hleast⟩ := h
  have hi : i < ts.length := Nat.lt_of_le_of_lt hie (lt_length_of_isEnd hend)
  have ht : ts[i]? = some ts[i] := List.getElem?_eq_getElem hi
  have hkind : ts[i].kind = .eof ↔ isEnd ts i := by
    rw [isEnd, ht, Option.any_some, beq_iff_eq]
  refine ⟨ts[i], ht, List.drop_eq_getElem_cons hi, hkind.trans ⟨fun h => ?_, ?_⟩⟩
  · exact Nat.le_antisymm hie (hleast ⟨Nat.le_refl i, h⟩)
  · rintro rfl
    exact hend

theorem isBoundary_iff {last t : Token} (hlast : ts[i - 1]? = some last) (ht : ts[i]? = some t) :
    isBoundary ts i ↔ last.kind = .semicolon ∨ t.kind.startsStatement := by
  simp [isBoundary, hlast, ht]

/-- After `last` the tokens are given up to the nearest boundary. -/
theorem resume_goes {last : Token} {j : Nat} (he : IsLeast {k | j ≤ k ∧ isEnd ts k} e)
    (hlast : ts[j - 1]? = some last) : ∃ k, Goes ts (resume last) j (.ok ()) [] k ∧
      IsLeast {k | j ≤ k ∧ k ≤ e ∧ (k = e ∨ isBoundary ts k)} k := by
  obtain ⟨t, ht, hdrop, hkind⟩ := drop_to_end he
  have hlength := lt_length_of_isEnd he.1.2
  have hje : j ≤ e := he.1.1
  have hstop : (t.kind = .eof ∨ last.kind = .semicolon ∨ t.kind.startsStatement) ↔
      j = e ∨ isBoundary ts j := by
    rw [hkind, isBoundary_iff hlast ht]
  by_cases h : j = e ∨ isBoundary ts j
  · refine ⟨j, goes_of_reply ?_ (by omega), ⟨Nat.le_refl j, hje, h⟩, fun k hk => hk.1⟩
    rw [hdrop, resume, if_pos (hstop.mpr h)]
  · have hlt : j < e := Nat.lt_of_le_of_ne hje fun heq => h (.inl heq)
    obtain ⟨k, hgo, ⟨hjk, hke, hk⟩, hleast⟩ := resume_goes (end_from he (Nat.le_succ j) hlt) ht
    refine ⟨k, goes_of_reply ?_ (by omega), ⟨Nat.le_of_succ_le hjk, hke, hk⟩, fun m hm => ?_⟩
    · rw [hdrop, resume, if_neg (mt hstop.mp h), hgo.reply]
    · have hne : j ≠ m := fun hjm => h (hjm ▸ hm.2.2)
      exact hleast ⟨Nat.lt_of_le_of_ne hm.1 hne, hm.2⟩
termination_by e - j

/-- Giving up after an error moves the cursor to the nearest boundary after it, or to the end if
that is nearer; at the end it stays. No further fault is noted. -/
theorem synchronize_goes (he : IsLeast {k | i ≤ k ∧ isEnd ts k} e) :
    ∃ j, Goes ts synchronize i (.ok ()) [] j ∧ (i = e → j = e) ∧
      (i < e → IsLeast {k | i < k ∧ k ≤ e ∧ (k = e ∨ isBoundary ts k)} j) := by
  obtain ⟨t, ht, hdrop, hkind⟩ := drop_to_end he
  have hlength := lt_length_of_isEnd he.1.2
  rcases Nat.eq_or_lt_of_le he.1.1 with heq | hlt
  · refine ⟨i, goes_of_reply ?_ (by omega), id, fun hlt => absurd heq (Nat.ne_of_lt hlt)⟩
    rw [hdrop, synchronize, if_pos (hkind.mpr heq)]
  · have hne := Nat.ne_of_lt hlt
    obtain ⟨j, hgo, hleast⟩ := resume_goes (end_from he (Nat.le_succ i) hlt) ht
    refine ⟨j, goes_of_reply ?_ (Nat.le_trans hleast.1.2.1 (Nat.le_of_lt hlength)),
      fun heq => absurd heq hne, fun _ => hleast⟩
    rw [hdrop, synchronize, if_neg (mt hkind.mp hne), hgo.reply]

/-- The token that is given up first starts a statement itself; an end before it does not matter. -/
theorem synchronize_goes_print :
    let token (k : Kind) : Token := ⟨k, "", .nil, 1⟩
    let ts := [.eof 1, token .kwVar, token .plus, token .kwPrint, token .semicolon, .eof 1]
    IsLeast {k | 1 ≤ k ∧ isEnd ts k} 5 ∧ Goes ts synchronize 1 (.ok ()) [] 3 ∧
      IsLeast {k | 1 < k ∧ k ≤ 5 ∧ (k = 5 ∨ isBoundary ts k)} 3 := by
  intro token ts
  have he : IsLeast {k | 1 ≤ k ∧ isEnd ts k} 5 := by
    have hbefore : ∀ k < 5, 1 ≤ k → ¬isEnd ts k := by decide
    exact ⟨⟨by decide, rfl⟩, fun k hk => Nat.le_of_not_lt fun hlt => hbefore k hlt hk.1 hk.2⟩
  have hgoes : Goes ts synchronize 1 (.ok ()) [] 3 := rfl
  obtain ⟨j, hgo, -, hleast⟩ := synchronize_goes he
  obtain rfl : j = 3 := congrArg (fun r => r.2.position) (hgo.symm.trans hgoes)
  exact ⟨he, hgoes, hleast (by decide)⟩

end Lox.Cursor
