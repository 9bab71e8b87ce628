import Lox.Proofs.Numbers.Bits
import Lox.Proofs.Runs.Relining
import Mathlib

/-! # Equality and order

A number lies at a point of the line of rationals with an end on either side, and two numbers
compare as their points do, whole numbers of any size and doubles alike. So what comparisons of
numbers tell agrees with a linear order, and equality is an equivalence that keeps the kinds of
values apart.
-/

namespace Lox

namespace Number

def isNaN : Number → Bool
  | double x => x.isNaN
  | whole _ => false

/-- The point at which a number lies; for what is no number it has no meaning. -/
def point : Number → WithBot (WithTop ℚ)
  | double x =>
    if Double.magnitude x = Double.infinite then (if Double.isNegative x then ⊥ else ⊤)
    else
      let sign : ℤ := if Double.isNegative x then -1 else 1
      ↑(↑((sign * Double.units (Double.magnitude x) : ℤ) / (Double.unitsPerOne : ℚ)) : WithTop ℚ)
  | whole n => ↑(↑(n : ℚ) : WithTop ℚ)

end Number

namespace Place

inductive At : Place → WithBot (WithTop ℚ) → Prop
  | lower : At ⟨-1, 0⟩ ⊥
  | upper : At ⟨1, 0⟩ ⊤
  | between (units : ℤ) : At ⟨0, units⟩ ↑(↑((units : ℚ) / Double.unitsPerOne) : WithTop ℚ)

theorem unitsPerOne_pos : (0 : ℚ) < Double.unitsPerOne :=
  Nat.cast_pos.mpr (by decide +kernel)

/-- Places are in the order of their points. -/
theorem At.compare_eq {p q : Place} {x y : WithBot (WithTop ℚ)} (hp : At p x) (hq : At q y) :
    p.compare q = cmp x y := by
  cases hp with
  | lower =>
    cases hq with
    | lower => exact (cmp_self_eq_eq _).symm
    | upper => exact ((cmp_eq_lt_iff _ _).mpr bot_lt_top).symm
    | between => exact ((cmp_eq_lt_iff _ _).mpr (WithBot.bot_lt_coe _)).symm
  | upper =>
    cases hq with
    | lower => exact ((cmp_eq_gt_iff _ _).mpr bot_lt_top).symm
    | upper => exact (cmp_self_eq_eq _).symm
    | between n =>
      exact ((cmp_eq_gt_iff _ _).mpr (WithBot.coe_lt_coe.mpr (WithTop.coe_lt_top _))).symm
  | between m =>
    cases hq with
    | lower => exact ((cmp_eq_gt_iff _ _).mpr (WithBot.bot_lt_coe _)).symm
    | upper =>
      exact ((cmp_eq_lt_iff _ _).mpr (WithBot.coe_lt_coe.mpr (WithTop.coe_lt_top _))).symm
    | between n =>
      have hmono : StrictMono fun n : ℤ =>
          (↑(↑((n : ℚ) / Double.unitsPerOne) : WithTop ℚ) : WithBot (WithTop ℚ)) := by
        intro m n h
        rw [WithBot.coe_lt_coe, WithTop.coe_lt_coe]
        exact div_lt_div_of_pos_right (Int.cast_lt.mpr h) unitsPerOne_pos
      rw [hmono.cmp_map_eq, cmp_eq_compare]
      rfl

end Place

namespace Number

variable {a b c : Number}

theorem exists_place (h : a.isNaN = false) : ∃ p, a.place? = some p ∧ Place.At p a.point := by
  cases a with
  | whole n =>
    refine ⟨_, rfl, ?_⟩
    have hpoint : ((n * Double.unitsPerOne : ℤ) : ℚ) / Double.unitsPerOne = n := by
      push_cast
      exact mul_div_cancel_right₀ _ Place.unitsPerOne_pos.ne'
    rw [point, ← hpoint]
    exact .between _
  | double x =>
    have hx : ¬Double.infinite < Double.magnitude x :=
      fun hx => Bool.eq_false_iff.mp h (Double.isNaN_iff.mpr hx)
    simp only [place?, Double.place?, point, if_neg hx]
    split
    · refine ⟨_, rfl, ?_⟩
      split
      · exact .lower
      · exact .upper
    · exact ⟨_, rfl, .between _⟩

theorem compare?_eq (ha : a.isNaN = false) (hb : b.isNaN = false) :
    a.compare? b = some (cmp a.point b.point) := by
  obtain ⟨p, hp, hpa⟩ := exists_place ha
  obtain ⟨q, hq, hqb⟩ := exists_place hb
  rw [compare?, hp, hq, ← hpa.compare_eq hqb]

theorem lt_eq (ha : a.isNaN = false) (hb : b.isNaN = false) :
    a.lt b = decide (a.point < b.point) := by
  rw [Bool.eq_iff_iff, decide_eq_true_iff, lt, compare?_eq ha hb, beq_iff_eq, Option.some.injEq,
    cmp_eq_lt_iff]

theorem beq_eq (ha : a.isNaN = false) (hb : b.isNaN = false) :
    a.beq b = decide (a.point = b.point) := by
  rw [Bool.eq_iff_iff, decide_eq_true_iff, beq, compare?_eq ha hb, beq_iff_eq, Option.some.injEq,
    cmp_eq_eq_iff]

theorem le_eq (ha : a.isNaN = false) (hb : b.isNaN = false) : a.le b = (a.lt b || a.beq b) := by
  rw [le, lt, beq, compare?_eq ha hb]
  cases cmp a.point b.point <;> rfl

end Number

inductive ValueKind
  | nil
  | bool
  | number
  | string
  deriving DecidableEq

namespace Value

def isNaN : Value → Bool
  | number n => n.isNaN
  | _ => false

def kind : Value → ValueKind
  | nil => .nil
  | bool _ => .bool
  | number _ => .number
  | string _ => .string

/-- What is the same for equal values: of a number its point. -/
def essence : Value → Value ⊕ WithBot (WithTop ℚ)
  | number n => .inr n.point
  | v => .inl v

variable {v w : Value}

theorem kind_eq_of_isEqual (h : v.isEqual w) : v.kind = w.kind := by
  cases v <;> cases w <;> first | rfl | exact absurd h Bool.false_ne_true

theorem isEqual_iff (hv : v.isNaN = false) (hw : w.isNaN = false) :
    v.isEqual w ↔ v.essence = w.essence := by
  cases v with
  | nil => cases w <;> simp [isEqual, essence]
  | bool | string => cases w <;> simp [isEqual, essence]
  | number m =>
    cases w with
    | number n =>
      show m.beq n ↔ _
      rw [Number.beq_eq hv hw, decide_eq_true_iff, essence, essence, Sum.inr.injEq]
    | _ => simp [isEqual, essence]

theorem isEqual_equivalence :
    Equivalence fun v w : {v : Value // v.isNaN = false} => v.1.isEqual w.1 = true := by
  have h : (fun v w : {v : Value // v.isNaN = false} => v.1.isEqual w.1 = true) =
      InvImage (· = ·) fun v => v.1.essence := by
    ext v w
    exact isEqual_iff v.2 w.2
  rw [h]
  exact eq_equivalence.comap _

end Value

/-- Between expressions for the numbers a comparison gives the answer, and does no more than
they. -/
def Compares (k : Kind) (a b : Number) (answer : Bool) : Prop :=
  ∀ (operator : Token) (l r : Expr) (depth : ℕ) (m m₁ m₂ : Machine), operator.kind = k →
    l.eval depth m = .ok (.number a) m₁ → r.eval depth m₁ = .ok (.number b) m₂ →
    (Expr.binary l operator r).eval (depth + 1) m = .ok (.bool answer) m₂

/-- What comparisons answer is in agreement, as to all that are numbers. -/
structure Coherent (answer : Kind → Number → Number → Bool) : Prop where
  compares : ∀ k ∈ [Kind.less, .lessEqual, .greater, .greaterEqual, .equalEqual, .bangEqual],
    ∀ a b, Compares k a b (answer k a b)
  less_eq : ∀ a b : Number, a.isNaN = false → b.isNaN = false →
    answer .less a b = decide (a.point < b.point)
  one_holds : ∀ a b : Number, a.isNaN = false → b.isNaN = false →
    [answer .less a b, answer .equalEqual a b, answer .greater a b].count true = 1
  lessEqual_eq : ∀ a b : Number, a.isNaN = false → b.isNaN = false →
    answer .lessEqual a b = (answer .less a b || answer .equalEqual a b)
  greaterEqual_eq : ∀ a b : Number, a.isNaN = false → b.isNaN = false →
    answer .greaterEqual a b = (answer .greater a b || answer .equalEqual a b)
  bangEqual_eq : ∀ a b : Number, answer .bangEqual a b = !answer .equalEqual a b
  less_trans : ∀ a b c : Number, a.isNaN = false → b.isNaN = false → c.isNaN = false →
    answer .less a b → answer .less b c → answer .less a c
  less_congr : ∀ a b c : Number, a.isNaN = false → b.isNaN = false → c.isNaN = false →
    answer .equalEqual a b → answer .less a c = answer .less b c ∧
      answer .less c a = answer .less c b

def Kind.answer : Kind → Number → Number → Bool
  | less, a, b => a.lt b
  | lessEqual, a, b => a.le b
  | greater, a, b => b.lt a
  | greaterEqual, a, b => b.le a
  | equalEqual, a, b => a.beq b
  | bangEqual, a, b => !a.beq b
  | _, _, _ => false

theorem Kind.compares_answer {k : Kind}
    (hk : k ∈ [less, lessEqual, greater, greaterEqual, equalEqual, bangEqual]) (a b : Number) :
    Compares k a b (k.answer a b) := by
  intro operator l r depth m m₁ m₂ ho hl hr
  have hbinary : Operator.binary operator (.number a) (.number b) = .ok (.bool (k.answer a b)) := by
    simp only [List.mem_cons, List.not_mem_nil, or_false] at hk
    rw [Operator.binary, ho]
    rcases hk with rfl | rfl | rfl | rfl | rfl | rfl <;> rfl
  rw [Expr.eval, Action.bind_of_ok hl, Action.bind_of_ok hr, hbinary]
  rfl

theorem coherent_answer : Coherent Kind.answer where
  compares k hk := Kind.compares_answer hk
  less_eq a b := Number.lt_eq
  one_holds a b ha hb := by
    simp only [Kind.answer, Number.lt_eq ha hb, Number.lt_eq hb ha, Number.beq_eq ha hb]
    rcases lt_trichotomy a.point b.point with h | h | h
    · simp [h, h.ne, h.not_gt]
    · simp [h]
    · simp [h, h.ne', h.not_gt]
  lessEqual_eq a b := Number.le_eq
  greaterEqual_eq a b ha hb := by
    have hcomm : b.beq a = a.beq b := by
      rw [Number.beq_eq hb ha, Number.beq_eq ha hb]
      exact decide_eq_decide.mpr eq_comm
    exact (Number.le_eq hb ha).trans (by rw [hcomm]; rfl)
  bangEqual_eq a b := rfl
  less_trans a b c ha hb hc hab hbc := by
    simp only [Kind.answer, Number.lt_eq, ha, hb, hc, decide_eq_true_eq] at hab hbc ⊢
    exact hab.trans hbc
  less_congr a b c ha hb hc hab := by
    simp only [Kind.answer, Number.lt_eq, Number.beq_eq, ha, hb, hc, decide_eq_true_eq] at hab ⊢
    rw [hab]
    exact ⟨rfl, rfl⟩

/-- Equality of values is an equivalence that keeps kinds apart, and what comparisons of numbers
answer agrees with it and with a linear order. -/
theorem comparisons_coherent :
    (Equivalence fun v w : {v : Value // v.isNaN = false} => v.1.isEqual w.1 = true) ∧
      (∀ v w : Value, v.kind ≠ w.kind → v.isEqual w = false) ∧ Coherent Kind.answer := by
  refine ⟨Value.isEqual_equivalence, fun v w h => ?_, coherent_answer⟩
  exact Bool.eq_false_iff.mpr fun he => h (Value.kind_eq_of_isEqual he)

/-- The least whole number that is no double is above the double nearest to it. -/
theorem comparisons_coherent_large :
    let a := Number.double (Float.ofBits 0x4340000000000000)
    let b := Number.whole 9007199254740993
    a.isNaN = false ∧ b.isNaN = false ∧ b.toDouble = .ok (Float.ofBits 0x4340000000000000) ∧
      Compares .less a b true ∧ Compares .equalEqual a b false ∧
      Value.isEqual (.bool true) (.number (.whole 1)) = false := by
  intro a b
  obtain ⟨-, hkinds, hcoherent⟩ := comparisons_coherent
  have hless : Kind.answer .less a b = true := by decide +kernel
  have hequal : Kind.answer .equalEqual a b = false := by decide +kernel
  refine ⟨by decide +kernel, rfl, by decide +kernel, ?_, ?_, hkinds _ _ (by decide)⟩
  · exact hless ▸ hcoherent.compares .less (by decide) a b
  · exact hequal ▸ hcoherent.compares .equalEqual (by decide) a b

end Lox
