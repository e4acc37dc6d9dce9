import WeakForm.Proofs.Outcome
import WeakForm.Proofs.RealScalar
import WeakForm.Value.Number

/-!
# Real numbers among the values

Over the reals a number of any kind but the complex one stands for a real number, and arithmetic on
such numbers is that of the reals. A power is a real number unless zero is raised to a negative
exponent or a negative number to a fractional one.
-/

namespace WeakForm
namespace Number

/-- The real number that a number stands for; of a complex one the real part. -/
noncomputable def value (a : Number ℝ) : ℝ := a.toComplex.re

def IsReal : Number ℝ → Prop
  | complex _ => False
  | _ => True

/-- Real numbers that are no truth values. -/
def IsNumeric : Number ℝ → Prop
  | integer _ | real _ => True
  | _ => False

theorem IsNumeric.isReal {a : Number ℝ} (h : a.IsNumeric) : a.IsReal := by
  cases a
  · exact trivial
  · exact trivial
  · exact trivial
  · cases h

@[simp] theorem value_integer (n : ℤ) : (integer n : Number ℝ).value = n := rfl

@[simp] theorem value_real (x : ℝ) : (real x).value = x := rfl

@[simp] theorem value_flag (b : Bool) : (flag b : Number ℝ).value = integerOfFlag b := rfl

@[simp] theorem realOfInteger_real (n : ℤ) :
    (realOfInteger n : Except (Error ℝ) ℝ) = .ok (n : ℝ) := rfl

/-- Counted real numbers are whole or real. -/
theorem counted_cases {a : Number ℝ} (h : a.IsReal) :
    (∃ n : ℤ, a.counted = integer n ∧ a.value = n) ∨ ∃ x, a.counted = real x ∧ a.value = x := by
  cases a with
  | flag b => exact .inl ⟨integerOfFlag b, rfl, rfl⟩
  | integer n => exact .inl ⟨n, rfl, rfl⟩
  | real x => exact .inr ⟨x, rfl, rfl⟩
  | complex z => cases h

/-- Two real numbers are matched as whole numbers or as real ones. -/
theorem matched_cases {a b : Number ℝ} (ha : a.IsReal) (hb : b.IsReal) :
    (∃ m n : ℤ, matched a b = .ok (.integers m n) ∧ a.value = m ∧ b.value = n) ∨
      matched a b = .ok (.reals a.value b.value) := by
  unfold matched
  rcases counted_cases ha with ⟨m, hm, hma⟩ | ⟨x, hx, hxa⟩ <;>
    rcases counted_cases hb with ⟨n, hn, hnb⟩ | ⟨y, hy, hyb⟩
  · exact .inl ⟨m, n, by rw [hm, hn], hma, hnb⟩
  · exact .inr (by rw [hm, hy, hma, hyb]; rfl)
  · exact .inr (by rw [hx, hn, hxa, hnb]; rfl)
  · exact .inr (by rw [hx, hy, hxa, hyb])

/-- A result that is the given real number. -/
def Yields (x : Except (Error ℝ) (Number ℝ)) (r : ℝ) : Prop :=
  ∃ c, x = .ok c ∧ c.IsNumeric ∧ c.value = r

theorem yields_add {a b : Number ℝ} (ha : a.IsReal) (hb : b.IsReal) :
    Yields (add a b) (a.value + b.value) := by
  unfold add
  rcases matched_cases ha hb with ⟨m, n, h, hm, hn⟩ | h
  · exact ⟨integer (m + n), by rw [h]; rfl, trivial, by simp [hm, hn]⟩
  · exact ⟨real (a.value + b.value), by rw [h]; rfl, trivial, rfl⟩

theorem yields_sub {a b : Number ℝ} (ha : a.IsReal) (hb : b.IsReal) :
    Yields (sub a b) (a.value - b.value) := by
  unfold sub
  rcases matched_cases ha hb with ⟨m, n, h, hm, hn⟩ | h
  · exact ⟨integer (m - n), by rw [h]; rfl, trivial, by simp [hm, hn]⟩
  · exact ⟨real (a.value - b.value), by rw [h]; rfl, trivial, rfl⟩

theorem yields_mul {a b : Number ℝ} (ha : a.IsReal) (hb : b.IsReal) :
    Yields (mul a b) (a.value * b.value) := by
  unfold mul
  rcases matched_cases ha hb with ⟨m, n, h, hm, hn⟩ | h
  · exact ⟨integer (m * n), by rw [h]; rfl, trivial, by simp [hm, hn]⟩
  · exact ⟨real (a.value * b.value), by rw [h]; rfl, trivial, rfl⟩

theorem yields_div {a b : Number ℝ} (ha : a.IsReal) (hb : b.IsReal) (hne : b.value ≠ 0) :
    Yields (div a b) (a.value / b.value) := by
  unfold div
  rcases matched_cases ha hb with ⟨m, n, h, hm, hn⟩ | h
  · have hn0 : n ≠ 0 := by
      rintro rfl
      exact hne (by simpa using hn)
    have hfinite : Scalar.isFinite (Scalar.quotient m n : ℝ) = true := rfl
    refine ⟨real (Scalar.quotient m n), ?_, trivial, ?_⟩
    · simp [h, hn0, hfinite]
    · rw [hm, hn]
      rfl
  · exact ⟨real (a.value / b.value), by simp [h, realQuotient, hne], trivial, rfl⟩

theorem value_neg {a : Number ℝ} (ha : a.IsReal) : a.neg.IsNumeric ∧ a.neg.value = -a.value := by
  unfold neg
  rcases counted_cases ha with ⟨m, hm, hma⟩ | ⟨x, hx, hxa⟩
  · rw [hm, hma]
    exact ⟨trivial, by simp⟩
  · rw [hx, hxa]
    exact ⟨trivial, rfl⟩

theorem toReal_eq {a : Number ℝ} (ha : a.IsReal) : a.toReal = .ok a.value := by
  unfold toReal
  rcases counted_cases ha with ⟨m, hm, hma⟩ | ⟨x, hx, hxa⟩
  · rw [hm, hma]
    rfl
  · rw [hx, hxa]

section Whole

theorem truncate_eq (x : ℝ) : Scalar.truncate x = some (if 0 ≤ x then ⌊x⌋ else ⌈x⌉) := rfl

/-- The whole part of a number is the number itself exactly if its floor is. -/
theorem cast_truncate_eq_iff (x : ℝ) :
    (((if 0 ≤ x then ⌊x⌋ else ⌈x⌉ : ℤ) : ℝ) = x) ↔ (⌊x⌋ : ℝ) = x := by
  split_ifs
  · exact Iff.rfl
  · constructor
    · intro h
      rw [← h, Int.floor_intCast]
    · intro h
      rw [← h, Int.ceil_intCast]

theorem truncate_of_whole {x : ℝ} (h : (⌊x⌋ : ℝ) = x) :
    (if 0 ≤ x then ⌊x⌋ else ⌈x⌉) = ⌊x⌋ := by
  have hcast := ((cast_truncate_eq_iff x).mpr h).trans h.symm
  exact Int.cast_injective hcast

theorem isWhole_iff (x : ℝ) : isWhole x = true ↔ (⌊x⌋ : ℝ) = x := by
  rw [isWhole, truncate_eq]
  simp only [same_real, decide_eq_true_eq]
  exact cast_truncate_eq_iff x

/-- An exponent has to be whole. -/
theorem wholeExponent_eq {a : Number ℝ} (ha : a.IsReal) :
    ((⌊a.value⌋ : ℝ) = a.value → a.wholeExponent = .ok ⌊a.value⌋) ∧
      ((⌊a.value⌋ : ℝ) ≠ a.value → a.wholeExponent = .error .fractionalExponent) := by
  unfold wholeExponent
  rcases counted_cases ha with ⟨n, hn, hna⟩ | ⟨x, hx, hxa⟩
  · rw [hn, hna]
    simp
  · rw [hx, hxa]
    simp only [truncate_eq, same_real, decide_eq_true_eq, cast_truncate_eq_iff]
    constructor
    · intro h
      rw [if_pos h, truncate_of_whole h]
    · intro h
      rw [if_neg h]

end Whole

/-- The power of real numbers, where it is real. -/
noncomputable def realPower? (x y : ℝ) : Option ℝ :=
  if x = 0 ∧ y < 0 ∨ x < 0 ∧ (⌊y⌋ : ℝ) ≠ y then none else some (x ^ y)

/-- A complex power is no real number. -/
theorem complexPower_not_isReal (z w : ComplexPair ℝ) {c : Number ℝ}
    (h : complexPower z w = .ok c) : ¬ c.IsReal := by
  have hrange {p : ComplexPair ℝ} (h : complexInRange p = .ok c) : ¬ c.IsReal := by
    unfold complexInRange at h
    split_ifs at h
    cases h
    exact id
  unfold complexPower at h
  dsimp only at h
  split at h
  · split_ifs at h
    · exact hrange h
    · exact hrange h
  · split_ifs at h
    · cases h
      exact id
    · exact hrange h

theorem realPower_spec (x y : ℝ) :
    match realPower? x y with
    | some r => Yields (realPower x y) r
    | none => ∀ c, realPower x y = .ok c → ¬ c.IsReal := by
  have hfinite (z : ℝ) : Scalar.isFinite z = true := rfl
  have hwhole : isWhole y = false ↔ (⌊y⌋ : ℝ) ≠ y := by
    rw [← Bool.not_eq_true, isWhole_iff]
  unfold realPower realPower?
  simp only [same_real, less_real, hfinite, Bool.and_true, Bool.not_true, Bool.and_false,
    Bool.false_eq_true, if_false, Bool.and_eq_true, decide_eq_true_eq, Bool.not_eq_true', hwhole]
  by_cases hy : y = 0
  · simp only [hy, lt_irrefl, and_false, Int.floor_zero, Int.cast_zero, ne_eq, not_true_eq_false,
      or_self, if_false, if_true]
    exact ⟨real 1, rfl, trivial, by simp⟩
  · by_cases hzero : x = 0 ∧ y < 0
    · simp [hy, hzero]
    · by_cases hneg : x < 0 ∧ (⌊y⌋ : ℝ) ≠ y
      · rw [if_pos (.inr hneg), if_neg hy, if_neg hzero, if_pos hneg]
        exact fun c hc => complexPower_not_isReal _ _ hc
      · rw [if_neg (by tauto), if_neg hy, if_neg hzero, if_neg hneg]
        exact ⟨real (x ^ y), rfl, trivial, rfl⟩

/-- A power of real numbers is the real power, where that is real. Elsewhere it is that of the real
numbers they stand for, and no real number. -/
theorem pow_spec {a b : Number ℝ} (ha : a.IsReal) (hb : b.IsReal) :
    match realPower? a.value b.value with
    | some r => Yields (pow a b) r
    | none => pow a b = realPower a.value b.value ∧ ∀ c, pow a b = .ok c → ¬ c.IsReal := by
  unfold pow
  rcases matched_cases ha hb with ⟨m, n, h, hm, hn⟩ | h
  · rw [h, hm, hn]
    by_cases hn0 : 0 ≤ n
    · have hpower : realPower? m n = some ((m : ℝ) ^ (n : ℝ)) := by
        have hnonneg : ¬ (n : ℝ) < 0 := not_lt.mpr (by exact_mod_cast hn0)
        simp [realPower?, hnonneg]
      rw [hpower]
      refine ⟨integer (wholePower m n.toNat), by simp [hn0], trivial, ?_⟩
      obtain ⟨k, rfl⟩ := Int.eq_ofNat_of_zero_le hn0
      rw [value_integer, wholePower_eq, Int.toNat_natCast, Int.cast_natCast, Real.rpow_natCast]
      exact Int.cast_pow m k
    · simp only [hn0, if_false, realOfInteger_real, true_and]
      exact realPower_spec m n
  · simp only [h, true_and]
    exact realPower_spec _ _

/-- Numbers that stand for the same real number. -/
structure SameReal (a b : Number ℝ) : Prop where
  left : a.IsReal
  right : b.IsReal
  value_eq : a.value = b.value

/-- Powers of numbers that stand for the same real numbers stand for the same one. -/
theorem alike_pow {a a' b b' : Number ℝ} (ha : SameReal a a') (hb : SameReal b b')
    (hreal : ∀ c, pow a' b' = .ok c → c.IsReal) :
    Alike (fun c c' => SameReal c c' ∧ c.IsNumeric) (pow a b) (pow a' b') := by
  have hspec := pow_spec ha.left hb.left
  have hspec' := pow_spec ha.right hb.right
  rw [← ha.value_eq, ← hb.value_eq] at hspec'
  cases hpower : realPower? a.value b.value with
  | some r =>
    rw [hpower] at hspec hspec'
    obtain ⟨c, hc, hnumeric, hvalue⟩ := hspec
    obtain ⟨c', hc', hnumeric', hvalue'⟩ := hspec'
    rw [hc, hc']
    exact .ok ⟨⟨hnumeric.isReal, hnumeric'.isReal, hvalue.trans hvalue'.symm⟩, hnumeric⟩
  | none =>
    rw [hpower] at hspec hspec'
    rw [hspec.1.trans hspec'.1.symm]
    cases hresult : pow a' b' with
    | error e => exact .error e e
    | ok c => exact absurd (hreal c hresult) (hspec'.2 c hresult)

theorem alike_wholeExponent {a b : Number ℝ} (h : SameReal a b) :
    Alike Eq a.wholeExponent b.wholeExponent := by
  have ha := wholeExponent_eq h.left
  have hb := wholeExponent_eq h.right
  rw [← h.value_eq] at hb
  by_cases hfloor : (⌊a.value⌋ : ℝ) = a.value
  · rw [ha.1 hfloor, hb.1 hfloor]
    exact .ok rfl
  · rw [ha.2 hfloor, hb.2 hfloor]
    exact .error _ _

end Number
end WeakForm
