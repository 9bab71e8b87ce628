import Lox.Proofs.Scanning.Munch

/-! # Numerals denote numbers

The text of a numeral is read as the double nearest to it. The reader allows for far more than
numerals; none of that is in one.
-/

namespace Lox

theorem isDigit_iff {c : Char} :
    isDigit c ↔ c ∈ ['0', '1', '2', '3', '4', '5', '6', '7', '8', '9'] := by
  constructor
  · intro h
    simp only [isDigit, decide_eq_true_eq, Char.le_def, UInt32.le_iff_toNat_le] at h
    have hc : Char.ofNat c.toNat = c := Char.ofNat_toNat c
    have : c.toNat = 48 ∨ c.toNat = 49 ∨ c.toNat = 50 ∨ c.toNat = 51 ∨ c.toNat = 52 ∨
        c.toNat = 53 ∨ c.toNat = 54 ∨ c.toNat = 55 ∨ c.toNat = 56 ∨ c.toNat = 57 := by
      have h₁ : 48 ≤ c.toNat := h.1
      have h₂ : c.toNat ≤ 57 := h.2
      omega
    rcases this with h | h | h | h | h | h | h | h | h | h <;> rw [← hc, h] <;> decide
  · intro h
    have hd : ['0', '1', '2', '3', '4', '5', '6', '7', '8', '9'].all isDigit := by decide
    exact List.all_eq_true.mp hd c h

theorem newline_not_mem_numeral {text : List Char} (h : Numeral text) : '\n' ∉ text :=
  fun hn => absurd (h.digit_or_point _ hn) (by decide)

namespace Number

theorem forall_mem_numeral {text : List Char} (h : Numeral text) {p : Char → Prop}
    [DecidablePred p]
    (hall : ['.', '0', '1', '2', '3', '4', '5', '6', '7', '8', '9'].all (p ·)) :
    ∀ c ∈ text, p c := by
  have hp : ∀ c ∈ ['.', '0', '1', '2', '3', '4', '5', '6', '7', '8', '9'], p c := fun c hc =>
    of_decide_eq_true (List.all_eq_true.mp hall c hc)
  intro c hc
  rcases h.digit_or_point c hc with hd | rfl
  · exact hp c (List.mem_cons_of_mem _ (isDigit_iff.mp hd))
  · exact hp _ List.mem_cons_self

theorem dropWhile_of_not_mem {c : Char} {cs : List Char} (h : c ∉ cs) :
    cs.dropWhile (· == c) = cs := by
  cases cs with
  | nil => rfl
  | cons d ds =>
    rw [List.mem_cons, not_or] at h
    rw [List.dropWhile_cons_of_neg]
    simpa using Ne.symm h.1

theorem trim_of_not_mem {cs : List Char} (h : ' ' ∉ cs) : trim cs = cs := by
  rw [trim, dropWhile_of_not_mem h, dropWhile_of_not_mem (by simpa using h), List.reverse_reverse]

theorem prepare_numeral {text : List Char} (h : Numeral text) :
    prepare? text = some (false, text) := by
  have hmap : text.map normalise = text :=
    (List.map_congr_left (forall_mem_numeral h (by decide))).trans (List.map_id text)
  have hblank : ' ' ∉ text := fun hm => forall_mem_numeral h (p := (· ≠ ' ')) (by decide) _ hm rfl
  have hunder : '_' ∉ text := fun hm => forall_mem_numeral h (p := (· ≠ '_')) (by decide) _ hm rfl
  have hsign : splitSign text = (false, text) := by
    unfold splitSign
    split
    · exact absurd rfl (forall_mem_numeral h (p := (· ≠ '-')) (by decide) _ List.mem_cons_self)
    · exact absurd rfl (forall_mem_numeral h (p := (· ≠ '+')) (by decide) _ List.mem_cons_self)
    · rfl
  simp [prepare?, hmap, trim_of_not_mem hblank, hunder, hsign]

/-- A numeral is none of the words for infinity and for no number, which all have an `n`. -/
theorem lowercase_numeral {text : List Char} (h : Numeral text) : 'n' ∉ text.map Char.toLower := by
  rw [List.mem_map]
  rintro ⟨c, hc, hn⟩
  exact forall_mem_numeral h (p := (Char.toLower · ≠ 'n')) (by decide) c hc hn

theorem isDigit_eq : isDigit = Char.isDigit := by
  funext c
  simp [isDigit, Char.isDigit, Char.le_def]

theorem unsigned_numeral {text : List Char} (h : Numeral text) (negative : Bool) :
    ∃ d : Decimal, unsigned? negative text =
      some (Double.ofMagnitude negative (nearestScaled d 0)) := by
  have hn := lowercase_numeral h
  obtain ⟨whole, hne, hw, ht⟩ := h
  rw [isDigit_eq] at hw
  have hword : ¬(text.map Char.toLower = "inf".toList ∨
      text.map Char.toLower = "infinity".toList) := by
    rintro (h | h) <;> rw [h] at hn <;> exact hn (by decide)
  have hnan : text.map Char.toLower ≠ "nan".toList := by
    intro h
    rw [h] at hn
    exact hn (by decide)
  simp only [unsigned?, parts?, if_neg hword, if_neg hnan]
  rcases ht with rfl | ⟨fraction, hne', hf, rfl⟩
  · have htake := takeWhile_of_all hw
    have hdrop := dropWhile_of_all hw
    exact ⟨⟨Nat.ofDigitChars 10 text 0, 0⟩, by simp [htake, hdrop, hne, exponent?]⟩
  · rw [isDigit_eq] at hf
    have hp : ∀ c cs, '.' :: fraction = c :: cs → c.isDigit = false := by
      rintro c cs ⟨⟩
      rfl
    have htake := takeWhile_of_all hf
    have hdrop := dropWhile_of_all hf
    exact ⟨⟨Nat.ofDigitChars 10 (whole ++ fraction) 0, -fraction.length⟩, by
      simp [takeWhile_append_of_all hw hp, dropWhile_append_of_all hw hp, htake, hdrop, hne,
        exponent?]⟩

theorem readFloat_numeral {text : List Char} (h : Numeral text) :
    ∃ x, readFloat? text = some x := by
  obtain ⟨d, hd⟩ := unsigned_numeral h false
  exact ⟨_, by rw [readFloat?, prepare_numeral h]; exact hd⟩

end Number
end Lox
