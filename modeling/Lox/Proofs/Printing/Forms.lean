import Lox.Tree.Printed
import Mathlib

/-! # Nested forms

A printed tree is words in parentheses inside one another. Read from left to right, with a stack of
the parentheses that are open, it shows the forms that it is made of: what is printed for a tree is
one form wherever it stands.
-/

namespace Lox

inductive Form
  | word (w : String)
  | list (parts : List Form)

namespace Form

/-- How far a text has been read. -/
structure Progress where
  /-- What there is of the word that has begun. -/
  word : List Char
  /-- The forms of the innermost open parenthesis, the latest first. -/
  forms : List Form
  /-- The same for the parentheses around it. -/
  outer : List (List Form)

namespace Progress

def endWord (p : Progress) : Progress :=
  if p.word = [] then p else ⟨[], .word (String.ofList p.word) :: p.forms, p.outer⟩

def openList (p : Progress) : Progress := ⟨[], [], p.forms :: p.outer⟩

/-- Close the innermost parenthesis; what was never opened starts with the text. -/
def closeList (p : Progress) : Progress :=
  match p.outer with
  | [] => ⟨[], [.list p.forms.reverse], []⟩
  | forms :: outer => ⟨[], .list p.forms.reverse :: forms, outer⟩

end Progress

def isSeparator (c : Char) : Bool := c == ' ' || c == '\n'

def isWordy (c : Char) : Bool := c != '(' && c != ')' && !isSeparator c

def step (p : Progress) (c : Char) : Progress :=
  if c = '(' then p.endWord.openList
  else if c = ')' then p.endWord.closeList
  else if isSeparator c then p.endWord
  else { p with word := p.word ++ [c] }

def read (text : String) : List Form :=
  (text.toList.foldl step ⟨[], [], []⟩).endWord.forms.reverse

/-- The text is read as the forms, after whatever came before. -/
def ReadAll (cs : List Char) (fs : List Form) : Prop :=
  ∀ forms outer, (cs.foldl step ⟨[], forms, outer⟩).endWord = ⟨[], fs.reverse ++ forms, outer⟩

/-- The text is read as one form. -/
def Reads (text : String) (f : Form) : Prop := ReadAll text.toList [f]

variable {text : String} {f : Form} {texts : List String} {fs : List Form}

theorem foldl_wordy {cs : List Char} (h : cs.all isWordy) (p : Progress) :
    cs.foldl step p = { p with word := p.word ++ cs } := by
  induction cs generalizing p with
  | nil => simp
  | cons c cs ih =>
    obtain ⟨hc, hcs⟩ := Bool.and_eq_true_iff.mp h
    simp only [isWordy, Bool.and_eq_true, bne_iff_ne, Bool.not_eq_true'] at hc
    rw [List.foldl_cons, ih hcs, step, if_neg hc.1.1, if_neg hc.1.2, hc.2,
      if_neg Bool.false_ne_true, List.append_assoc]
    rfl

theorem reads_word (hne : text ≠ "") (h : text.toList.all isWordy) : Reads text (.word text) := by
  intro forms outer
  have hne' : text.toList ≠ [] := fun hnil => hne (String.toList_eq_nil_iff.mp hnil)
  rw [foldl_wordy h, Progress.endWord, List.nil_append, if_neg hne', String.ofList_toList]
  rfl

theorem step_open (forms : List Form) (outer : List (List Form)) :
    step ⟨[], forms, outer⟩ '(' = ⟨[], [], forms :: outer⟩ := rfl

theorem step_close (p : Progress) : step p ')' = p.endWord.closeList := rfl

theorem step_separator {c : Char} (hc : isSeparator c) (p : Progress) : step p c = p.endWord := by
  have hopen : c ≠ '(' := by
    rintro rfl
    cases hc
  have hclose : c ≠ ')' := by
    rintro rfl
    cases hc
  rw [step, if_neg hopen, if_neg hclose, if_pos hc]

theorem Reads.cons {c : Char} {cs : List Char} (hf : Reads text f) (hc : isSeparator c)
    (h : ReadAll cs fs) : ReadAll (text.toList ++ c :: cs) (f :: fs) := by
  intro forms outer
  rw [List.foldl_append, List.foldl_cons, step_separator hc, hf, h, List.reverse_cons]
  simp

theorem readAll_intercalate {c : Char} (hc : isSeparator c) (h : List.Forall₂ Reads texts fs) :
    ReadAll (List.intercalate [c] (texts.map String.toList)) fs := by
  induction h with
  | nil => exact fun _ _ => rfl
  | @cons text f texts fs hf hfs ih =>
    cases hfs with
    | nil =>
      rw [List.map_cons, List.map_nil, List.intercalate_singleton]
      exact hf
    | cons hg hfs =>
      rw [List.map_cons, List.map_cons, List.intercalate_cons_cons, List.append_assoc]
      exact hf.cons hc ih

/-- Each line is read by itself. -/
theorem read_lines (h : List.Forall₂ Reads texts fs) :
    read (String.intercalate "\n" texts) = fs := by
  have hlines := readAll_intercalate (c := '\n') rfl h [] []
  have htext : (String.intercalate "\n" texts).toList =
      List.intercalate ['\n'] (texts.map String.toList) := String.toList_intercalate
  rw [read, htext, hlines, List.append_nil, List.reverse_reverse]

theorem reads_parenthesized {head : String} (hhead : Reads head (.word head))
    (h : List.Forall₂ Reads texts fs) :
    Reads (parenthesized head texts) (.list (.word head :: fs)) := by
  intro forms outer
  have hparts := readAll_intercalate (c := ' ') rfl (.cons hhead h) [] (forms :: outer)
  have htext : (parenthesized head texts).toList =
      '(' :: (List.intercalate [' '] ((head :: texts).map String.toList) ++ [')']) := by
    simp [parenthesized, String.toList_intercalate]
  rw [htext, List.foldl_cons, step_open, List.foldl_append, List.foldl_cons, step_close, hparts,
    List.append_nil, Progress.closeList, List.reverse_reverse]
  rfl

end Form
end Lox
