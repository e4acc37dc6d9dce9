import Mathlib.Analysis.SpecialFunctions.Complex.Arg
import Mathlib.Analysis.SpecialFunctions.Pow.Real
import Mathlib.Tactic
import WeakForm.Capacity

/-!
# Real scalars

The reals are the exact scalars. Whole numbers are unbounded and nothing is too large for memory;
there are no infinite or undefined values, whose places are taken by zero. The operations are those
of the reals themselves, so that all that is known about real sums applies to them.
-/

namespace WeakForm

section Numerals

/-! The numerals of real formulas refer to these facts by their names. -/

instance atLeastTwo_two : Nat.AtLeastTwo 2 := ⟨le_rfl⟩

instance atLeastTwo_three : Nat.AtLeastTwo 3 := ⟨by decide⟩

instance atLeastTwo_four : Nat.AtLeastTwo 4 := ⟨by decide⟩

instance atLeastTwo_five : Nat.AtLeastTwo 5 := ⟨by decide⟩

instance atLeastTwo_six : Nat.AtLeastTwo 6 := ⟨by decide⟩

end Numerals

noncomputable instance : Scalar ℝ where
  toZero := inferInstance
  toOne := inferInstance
  toAdd := inferInstance
  toSub := inferInstance
  toMul := inferInstance
  toDiv := inferInstance
  toNeg := inferInstance
  toOfScientific := inferInstance
  toNatCast := inferInstance
  toIntCast := inferInstance
  less x y := decide (x < y)
  atMost x y := decide (x ≤ y)
  same x y := decide (x = y)
  sqrt := Real.sqrt
  power x y := x ^ y
  exp := Real.exp
  log := Real.log
  sin := Real.sin
  cos := Real.cos
  angle y x := Complex.arg ⟨x, y⟩
  ofDecimal d := d.mantissa * (10 : ℝ) ^ d.exponent
  truncate x := some (if 0 ≤ x then ⌊x⌋ else ⌈x⌉)
  quotient m n := m / n
  word n := n
  naturalWord n := n
  infinity := 0
  undefined := 0
  precision := 0

@[simp] theorem less_real (x y : ℝ) : Scalar.less x y = decide (x < y) := rfl

@[simp] theorem same_real (x y : ℝ) : Scalar.same x y = decide (x = y) := rfl

theorem abs_real (x : ℝ) : Scalar.abs x = |x| := by
  simp only [Scalar.abs, less_real, decide_eq_true_eq]
  split_ifs with h
  · exact (abs_of_neg h).symm
  · exact (abs_of_nonneg (not_lt.mp h)).symm

theorem max_real : (Scalar.max : ℝ → ℝ → ℝ) = max := by
  funext x y
  simp [Scalar.max, Scalar.atMost, max_def]

theorem min_real : (Scalar.min : ℝ → ℝ → ℝ) = min := by
  funext x y
  simp [Scalar.min, Scalar.atMost, min_def']

/-- Over the reals there may be an array of any length. -/
@[simp] theorem checkCapacity_real (bytes count : ℕ) :
    (checkCapacity bytes count : Except (Error ℝ) Unit) = .ok () := by
  simp [checkCapacity, Scalar.isWord, Scalar.word]

end WeakForm
