import Mathlib.Algebra.MvPolynomial.Degrees
import Mathlib.Analysis.SpecialFunctions.Integrals.Basic
import Mathlib.MeasureTheory.Integral.Pi
import Mathlib.MeasureTheory.Integral.Prod
import Mathlib.Tactic
import WeakForm.Proofs.Outcome
import WeakForm.Proofs.Quadrature.TensorProducts
import WeakForm.Proofs.RealScalar
import WeakForm.Quadrature

/-!
# Exactness of the rules

The Gauss rule with `n` points integrates every polynomial of degree less than `2 * n` exactly. The
points lie symmetrically around zero, so odd powers cancel, and the even ones are identities between
the squares of the points, which hold one root less. Combined over several dimensions the rule is exact
for every polynomial whose degree in each variable is so low: both sides are linear, and for monomials
both are products over the variables.
-/

namespace WeakForm
namespace Quadrature

open MeasureTheory Finset
open scoped Nat

/-!
## The segment
-/

/-- The sum of a power over the points of a rule of the segment. -/
noncomputable def moment (rule : List (ℝ × ℝ)) (k : ℕ) : ℝ := (rule.map fun p => p.2 * p.1 ^ k).sum

/-- The rule integrates all powers below the given one exactly. -/
def IsExactBelow (rule : List (ℝ × ℝ)) (bound : ℕ) : Prop :=
  ∀ k < bound, moment rule k = ∫ x in (-1)..1, x ^ k

section Symmetric

/-- Points at zero, given by their weights, and pairs of opposite points with their common weight. -/
def symmetricRule (center : List ℝ) (pairs : List (ℝ × ℝ)) : List (ℝ × ℝ) :=
  center.map (fun w => (0, w)) ++ pairs.flatMap fun p => [(-p.1, p.2), (p.1, p.2)]

variable (center : List ℝ) (pairs : List (ℝ × ℝ)) (k : ℕ)

theorem moment_symmetricRule : moment (symmetricRule center pairs) k =
    center.sum * 0 ^ k + (pairs.map fun p => p.2 * ((-p.1) ^ k + p.1 ^ k)).sum := by
  have hcenter : moment (center.map fun w => (0, w)) k = center.sum * 0 ^ k := by
    rw [moment, List.map_map]
    exact (List.sum_map_mul_right center id (0 ^ k)).trans (by rw [List.map_id])
  have hpairs : moment (pairs.flatMap fun p => [(-p.1, p.2), (p.1, p.2)]) k =
      (pairs.map fun p => p.2 * ((-p.1) ^ k + p.1 ^ k)).sum := by
    induction pairs with
    | nil => rfl
    | cons p pairs ih =>
      rw [moment] at ih ⊢
      simp [ih]
      ring
  rw [symmetricRule, moment, List.map_append, List.sum_append, ← hcenter, ← hpairs]
  rfl

theorem integral_even (j : ℕ) : ∫ x in (-1 : ℝ)..1, x ^ (2 * j) = 2 / (2 * j + 1) := by
  rw [integral_pow, (odd_two_mul_add_one j).neg_pow]
  norm_num

theorem integral_odd (j : ℕ) : ∫ x in (-1 : ℝ)..1, x ^ (2 * j + 1) = 0 := by
  rw [integral_pow, show 2 * j + 1 + 1 = 2 * (j + 1) from rfl, (even_two_mul (j + 1)).neg_pow]
  norm_num

variable {center pairs}

/-- Of a symmetric rule only the even powers have to be checked. -/
theorem isExactBelow_symmetricRule {n : ℕ} (h : ∀ j < n, center.sum * 0 ^ j +
    (pairs.map fun p => 2 * p.2 * (p.1 ^ 2) ^ j).sum = 2 / (2 * j + 1)) :
    IsExactBelow (symmetricRule center pairs) (2 * n) := by
  intro k hk
  rw [moment_symmetricRule]
  obtain ⟨j, rfl | rfl⟩ := Nat.even_or_odd' k
  · have hzero : (0 : ℝ) ^ (2 * j) = 0 ^ j := by
      rw [pow_mul, zero_pow two_ne_zero]
    rw [integral_even, ← h j (by omega), hzero]
    congr 2
    refine List.map_congr_left fun p _ => ?_
    rw [(even_two_mul j).neg_pow, pow_mul]
    ring
  · rw [integral_odd, zero_pow (by omega), mul_zero, zero_add]
    refine List.sum_eq_zero fun y hy => ?_
    obtain ⟨p, -, rfl⟩ := List.mem_map.mp hy
    rw [(odd_two_mul_add_one j).neg_pow, neg_add_cancel, mul_zero]

end Symmetric

section Tables

theorem sqrt_real (x : ℝ) : Scalar.sqrt x = √x := rfl

/-! The square of every point is rational in one root `r`, and so are the weights: the moments are
identities of polynomials in `r` modulo the equation of `r`. -/

theorem isExactBelow_one : gaussLine 1 = some (symmetricRule [(2 : ℝ)] []) ∧
    IsExactBelow (symmetricRule [2] []) (2 * 1) := by
  refine ⟨by norm_num [gaussLine, symmetricRule], isExactBelow_symmetricRule fun j hj => ?_⟩
  interval_cases j
  norm_num

theorem isExactBelow_two : gaussLine 2 = some (symmetricRule [] [(1 / √3, 1)]) ∧
    IsExactBelow (symmetricRule [] [(1 / √3, 1)]) (2 * 2) := by
  refine ⟨by norm_num [gaussLine, symmetricRule, sqrt_real], isExactBelow_symmetricRule fun j hj => ?_⟩
  interval_cases j <;> norm_num

theorem isExactBelow_three : gaussLine 3 = some (symmetricRule [8 / 9] [(√(3 / 5), 5 / 9)]) ∧
    IsExactBelow (symmetricRule [8 / 9] [(√(3 / 5), 5 / 9)]) (2 * 3) := by
  refine ⟨by norm_num [gaussLine, symmetricRule, sqrt_real], isExactBelow_symmetricRule fun j hj => ?_⟩
  simp only [List.map_cons, List.map_nil, Real.sq_sqrt (show (0 : ℝ) ≤ 3 / 5 by norm_num)]
  interval_cases j <;> norm_num

theorem exists_isExactBelow_four : ∃ rule : List (ℝ × ℝ), gaussLine 4 = some rule ∧
    IsExactBelow rule (2 * 4) := by
  obtain ⟨r, hr⟩ : ∃ r, r = √(6 / 5 : ℝ) := ⟨_, rfl⟩
  have h2 : r ^ 2 = 6 / 5 := by rw [hr, Real.sq_sqrt (by norm_num)]
  have h4 : r ^ 4 = 36 / 25 := by rw [show r ^ 4 = (r ^ 2) ^ 2 by ring, h2]; norm_num
  have hpos : 0 ≤ r := hr ▸ Real.sqrt_nonneg _
  have hsmall : r ≤ 3 / 2 := by nlinarith
  have h30 : √(30 : ℝ) = 5 * r := by
    rw [show (30 : ℝ) = (5 * r) ^ 2 by rw [mul_pow, h2]; norm_num, Real.sqrt_sq (by linarith)]
  refine ⟨symmetricRule [] [(√((3 - 2 * r) / 7), (18 + 5 * r) / 36),
    (√((3 + 2 * r) / 7), (18 - 5 * r) / 36)], ?_, isExactBelow_symmetricRule fun j hj => ?_⟩
  · rw [← h30, hr]
    norm_num [gaussLine, symmetricRule, sqrt_real]
  · simp only [List.map_cons, List.map_nil, List.sum_cons, List.sum_nil,
      Real.sq_sqrt (show 0 ≤ (3 - 2 * r) / 7 by linarith),
      Real.sq_sqrt (show 0 ≤ (3 + 2 * r) / 7 by linarith)]
    interval_cases j <;> push_cast
    · ring
    · linear_combination -(10 / 63) * h2
    · linear_combination 4 / 147 * h2
    · linear_combination 6 / 49 * h2 - 40 / 3087 * h4

theorem exists_isExactBelow_five : ∃ rule : List (ℝ × ℝ), gaussLine 5 = some rule ∧
    IsExactBelow rule (2 * 5) := by
  obtain ⟨r, hr⟩ : ∃ r, r = √(10 / 7 : ℝ) := ⟨_, rfl⟩
  have h2 : r ^ 2 = 10 / 7 := by rw [hr, Real.sq_sqrt (by norm_num)]
  have h4 : r ^ 4 = 100 / 49 := by rw [show r ^ 4 = (r ^ 2) ^ 2 by ring, h2]; norm_num
  have hpos : 0 ≤ r := hr ▸ Real.sqrt_nonneg _
  have hsmall : r ≤ 5 / 2 := by nlinarith
  have h70 : √(70 : ℝ) = 7 * r := by
    rw [show (70 : ℝ) = (7 * r) ^ 2 by rw [mul_pow, h2]; norm_num, Real.sqrt_sq (by linarith)]
  refine ⟨symmetricRule [128 / 225] [(√(5 - 2 * r) / 3, (322 + 13 * (7 * r)) / 900),
    (√(5 + 2 * r) / 3, (322 - 13 * (7 * r)) / 900)], ?_, isExactBelow_symmetricRule fun j hj => ?_⟩
  · rw [← h70, hr]
    norm_num [gaussLine, symmetricRule, sqrt_real]
  · simp only [List.map_cons, List.map_nil, List.sum_cons, List.sum_nil, div_pow,
      Real.sq_sqrt (show 0 ≤ 5 - 2 * r by linarith), Real.sq_sqrt (show 0 ≤ 5 + 2 * r by linarith)]
    interval_cases j <;> push_cast
    · ring
    · linear_combination -(182 / 2025) * h2
    · linear_combination -(532 / 18225) * h2
    · linear_combination 14 / 405 * h2 - 728 / 164025 * h4
    · linear_combination 4088 / 59049 * h2 - 3136 / 492075 * h4

/-- The Gauss rule with `n` points is exact for all powers below `2 * n`. -/
theorem exists_isExactBelow {n : ℕ} (hn : n ∈ Icc 1 5) :
    ∃ rule : List (ℝ × ℝ), gaussLine n = some rule ∧ IsExactBelow rule (2 * n) := by
  obtain ⟨hlow, hhigh⟩ := mem_Icc.mp hn
  interval_cases n
  · exact ⟨_, isExactBelow_one⟩
  · exact ⟨_, isExactBelow_two⟩
  · exact ⟨_, isExactBelow_three⟩
  · exact exists_isExactBelow_four
  · exact exists_isExactBelow_five

end Tables

/-!
## Boxes
-/

section Boxes

open MvPolynomial

variable {n d : ℕ}

theorem weightedSum_sum {ι : Type} (points : List (QuadraturePoint ℝ)) (s : Finset ι) (c : ι → ℝ)
    (g : ι → List ℝ → ℝ) : weightedSum points (fun ξ => ∑ m ∈ s, c m * g m ξ) =
      ∑ m ∈ s, c m * weightedSum points (g m) := by
  induction points with
  | nil => simp [weightedSum]
  | cons q points ih =>
    simp only [weightedSum, List.map_cons, List.sum_cons, mul_add, sum_add_distrib] at ih ⊢
    rw [ih, mul_sum]
    simp only [mul_left_comm]

/-- Both sides of exactness are linear: a rule that is exact for the monomials of a polynomial is
exact for the polynomial. -/
theorem weightedSum_eval (points : List (QuadraturePoint ℝ)) {region : Set (Fin d → ℝ)}
    (hregion : IsCompact region) (p : MvPolynomial (Fin d) ℝ)
    (h : ∀ m ∈ p.support, weightedSum points (fun ξ => ∏ i : Fin d, ξ.getD i 0 ^ m i) =
      ∫ x in region, ∏ i, x i ^ m i) :
    weightedSum points (fun ξ => eval (fun i : Fin d => ξ.getD i 0) p) = ∫ x in region, eval x p := by
  simp only [eval_eq', weightedSum_sum]
  rw [integral_finsetSum]
  · refine sum_congr rfl fun m hm => ?_
    rw [integral_const_mul, h m hm]
  · intro m _
    exact ContinuousOn.integrableOn_compact hregion (by fun_prop)

theorem integral_box (m : Fin d → ℕ) : ∫ x in Set.Icc (-1 : Fin d → ℝ) 1, ∏ i, x i ^ m i =
    ∏ i, ∫ x in (-1 : ℝ)..1, x ^ m i := by
  have hbox : (MeasureSpace.volume : Measure (Fin d → ℝ)).restrict (Set.Icc (-1) 1) =
      Measure.pi fun _ => (MeasureSpace.volume : Measure ℝ).restrict (Set.Icc (-1) 1) := by
    rw [← Set.pi_univ_Icc, volume_pi, Measure.restrict_pi_pi]
    rfl
  rw [hbox, integral_fintype_prod_eq_prod fun i (x : ℝ) => x ^ m i]
  refine prod_congr rfl fun i _ => ?_
  rw [intervalIntegral.integral_of_le (by norm_num), integral_Icc_eq_integral_Ioc]

/-- Combined over several dimensions a rule is exact for all polynomials whose degree in each variable
it covers. -/
theorem IsExactBelow.weightedSum_tensorProduct {rule : List (ℝ × ℝ)} {bound : ℕ}
    (h : IsExactBelow rule bound) {p : MvPolynomial (Fin d) ℝ} (hp : ∀ i, p.degreeOf i < bound) :
    weightedSum (tensorProduct rule d) (fun ξ => eval (fun i : Fin d => ξ.getD i 0) p) =
      ∫ x in Set.Icc (-1 : Fin d → ℝ) 1, eval x p := by
  refine weightedSum_eval _ isCompact_Icc p fun m hm => ?_
  rw [Quadrature.weightedSum_tensorProduct rule fun i (x : ℝ) => x ^ m i, integral_box]
  exact prod_congr rfl fun i _ => h (m i) ((monomial_le_degreeOf i hm).trans_lt (hp i))

end Boxes

/-!
## The triangle
-/

section Triangle

open MvPolynomial

/-- The triangle of (0,0), (1,0) and (0,1). -/
def referenceTriangle : Set (Fin 2 → ℝ) := {x | (∀ i, 0 ≤ x i) ∧ ∑ i, x i ≤ 1}

/-- The triangle as a set of pairs. -/
def pairTriangle : Set (ℝ × ℝ) := {q | 0 ≤ q.1 ∧ 0 ≤ q.2 ∧ q.1 + q.2 ≤ 1}

theorem isCompact_referenceTriangle : IsCompact referenceTriangle := by
  refine isCompact_Icc.of_isClosed_subset (s := Set.Icc (0 : Fin 2 → ℝ) 1) ?_ fun x hx => ?_
  · have hlow : IsClosed {x : Fin 2 → ℝ | ∀ i, 0 ≤ x i} := isClosed_Ici
    have hsum : IsClosed {x : Fin 2 → ℝ | ∑ i, x i ≤ 1} := isClosed_le (by fun_prop) (by fun_prop)
    exact hlow.inter hsum
  · exact ⟨hx.1, fun i => (single_le_sum (fun j _ => hx.1 j) (mem_univ i)).trans hx.2⟩

theorem preimage_pairTriangle :
    Set.preimage MeasurableEquiv.finTwoArrow pairTriangle = referenceTriangle := by
  ext x
  simp [pairTriangle, referenceTriangle, and_assoc]

theorem measurableSet_pairTriangle : MeasurableSet pairTriangle := by
  have hfirst : IsClosed {q : ℝ × ℝ | 0 ≤ q.1} := isClosed_le continuous_const continuous_fst
  have hsecond : IsClosed {q : ℝ × ℝ | 0 ≤ q.2} := isClosed_le continuous_const continuous_snd
  have hsum : IsClosed {q : ℝ × ℝ | q.1 + q.2 ≤ 1} := isClosed_le (by fun_prop) (by fun_prop)
  exact (hfirst.inter (hsecond.inter hsum)).measurableSet

theorem pairTriangle_subset : pairTriangle ⊆ Set.Icc 0 1 := by
  rintro q ⟨h1, h2, hsum⟩
  exact ⟨⟨h1, h2⟩, show q.1 ≤ 1 by linarith, show q.2 ≤ 1 by linarith⟩

theorem integral_pow_mul_one_sub_pow (a b : ℕ) :
    ∫ x in (0 : ℝ)..1, x ^ a * (1 - x) ^ b = a ! * b ! / (a + b + 1)! := by
  induction b generalizing a with
  | zero => simp [integral_pow, Nat.factorial_succ]; field_simp
  | succ b ih =>
    have hsplit : ∀ x : ℝ, x ^ a * (1 - x) ^ (b + 1) =
        x ^ a * (1 - x) ^ b - x ^ (a + 1) * (1 - x) ^ b := fun x => by ring
    simp only [hsplit]
    rw [intervalIntegral.integral_sub (Continuous.intervalIntegrable (by fun_prop) _ _)
      (Continuous.intervalIntegrable (by fun_prop) _ _), ih, ih,
      show a + 1 + b + 1 = a + b + 1 + 1 by ring, show a + (b + 1) + 1 = a + b + 1 + 1 by ring]
    simp only [Nat.factorial_succ]
    push_cast
    field_simp
    ring

/-- Along a line of fixed first coordinate the second runs up to what the first leaves of one. -/
theorem integral_slice (a b : ℕ) (x : ℝ) :
    ∫ y, pairTriangle.indicator (fun q => q.1 ^ a * q.2 ^ b) (x, y) =
      (Set.Icc (0 : ℝ) 1).indicator (fun x => x ^ a * (1 - x) ^ (b + 1) / (b + 1)) x := by
  by_cases hx : x ∈ Set.Icc (0 : ℝ) 1
  · have hslice : ∀ y, pairTriangle.indicator (fun q => q.1 ^ a * q.2 ^ b) (x, y) =
        (Set.Icc 0 (1 - x)).indicator (fun y => x ^ a * y ^ b) y := by
      intro y
      have hmem : (x, y) ∈ pairTriangle ↔ y ∈ Set.Icc 0 (1 - x) :=
        ⟨fun h => ⟨h.2.1, by linarith [h.2.2]⟩, fun h => ⟨hx.1, h.1, by linarith [h.2]⟩⟩
      by_cases hy : (x, y) ∈ pairTriangle
      · rw [Set.indicator_of_mem hy, Set.indicator_of_mem (hmem.mp hy)]
      · rw [Set.indicator_of_notMem hy, Set.indicator_of_notMem (mt hmem.mpr hy)]
    simp only [hslice]
    rw [Set.indicator_of_mem hx, integral_indicator measurableSet_Icc,
      integral_Icc_eq_integral_Ioc, ← intervalIntegral.integral_of_le (sub_nonneg.mpr hx.2),
      intervalIntegral.integral_const_mul, integral_pow, zero_pow (by omega)]
    ring
  · rw [Set.indicator_of_notMem hx]
    refine integral_eq_zero_of_ae (Filter.Eventually.of_forall fun y => ?_)
    refine Set.indicator_of_notMem (fun hmem => hx ⟨hmem.1, ?_⟩) _
    linarith [hmem.2.1, hmem.2.2]

theorem integral_referenceTriangle (a b : ℕ) :
    ∫ x in referenceTriangle, x 0 ^ a * x 1 ^ b = a ! * b ! / (a + b + 2)! := by
  have hintegrable : IntegrableOn (fun q : ℝ × ℝ => q.1 ^ a * q.2 ^ b) pairTriangle :=
    (Continuous.integrableOn_Icc (by fun_prop)).mono_set pairTriangle_subset
  calc ∫ x in referenceTriangle, x 0 ^ a * x 1 ^ b
      = ∫ q in pairTriangle, q.1 ^ a * q.2 ^ b := by
        rw [← preimage_pairTriangle]
        exact (volume_preserving_finTwoArrow ℝ).setIntegral_preimage_emb
          MeasurableEquiv.finTwoArrow.measurableEmbedding (fun q : ℝ × ℝ => q.1 ^ a * q.2 ^ b)
          pairTriangle
    _ = ∫ x, ∫ y, pairTriangle.indicator (fun q => q.1 ^ a * q.2 ^ b) (x, y) := by
        rw [← integral_indicator measurableSet_pairTriangle, Measure.volume_eq_prod,
          integral_prod _ (hintegrable.integrable_indicator measurableSet_pairTriangle)]
    _ = (∫ x in (0 : ℝ)..1, x ^ a * (1 - x) ^ (b + 1)) / (b + 1) := by
        simp only [integral_slice]
        rw [integral_indicator measurableSet_Icc, integral_Icc_eq_integral_Ioc,
          ← intervalIntegral.integral_of_le zero_le_one, intervalIntegral.integral_div]
    _ = a ! * b ! / (a + b + 2)! := by
        rw [integral_pow_mul_one_sub_pow, Nat.factorial_succ b, ← add_assoc]
        push_cast
        field_simp

/-- A rule of the triangle is exact up to the total degree to which it has the right moments. -/
theorem weightedSum_eval_triangle {points : List (QuadraturePoint ℝ)} {degree : ℕ}
    (h : ∀ a b, a + b ≤ degree → weightedSum points (fun ξ => ξ.getD 0 0 ^ a * ξ.getD 1 0 ^ b) =
      a ! * b ! / (a + b + 2)!)
    {p : MvPolynomial (Fin 2) ℝ} (hp : p.totalDegree ≤ degree) :
    weightedSum points (fun ξ => eval (fun i : Fin 2 => ξ.getD i 0) p) =
      ∫ x in referenceTriangle, eval x p := by
  refine weightedSum_eval _ isCompact_referenceTriangle p fun m hm => ?_
  have hdegree : m 0 + m 1 ≤ degree := by
    have hle := (le_totalDegree hm).trans hp
    rwa [Finsupp.sum_fintype _ _ fun _ => rfl, Fin.sum_univ_two] at hle
  simp only [Fin.prod_univ_two]
  exact (h _ _ hdegree).trans (integral_referenceTriangle _ _).symm

/-- The numbers of points of the rules of the triangle with the total degrees they are exact for. -/
def triangleDegrees : List (ℕ × ℕ) := [(1, 1), (3, 2), (4, 3)]

theorem exists_moments_triangle {x : ℕ × ℕ} (hx : x ∈ triangleDegrees) :
    ∃ points : List (QuadraturePoint ℝ), gaussTriangle x.1 = some points ∧ points.length = x.1 ∧
      ∀ a b, a + b ≤ x.2 →
        weightedSum points (fun ξ => ξ.getD 0 0 ^ a * ξ.getD 1 0 ^ b) = a ! * b ! / (a + b + 2)! := by
  simp only [triangleDegrees, List.mem_cons, List.not_mem_nil, or_false] at hx
  obtain rfl | rfl | rfl := hx
  all_goals
    refine ⟨_, rfl, rfl, fun a b h => ?_⟩
    simp only at h
    have ha := (Nat.le_add_right a b).trans h
    have hb := Nat.le_sub_of_add_le' h
    interval_cases a <;> interval_cases b <;> norm_num [weightedSum, Nat.factorial]

end Triangle

/-!
## Rules by name
-/

theorem lookup_name (kind : RuleKind) {order : ℕ} {points : List (QuadraturePoint ℝ)}
    (h : rule? kind order = some points) :
    lookup (.text kind.name) (.integer order) true = .ok (kind, points) := by
  have hname : Text.lowercase kind.name = kind.name := by
    cases kind <;> decide +kernel
  have hkind : kindOf (.text kind.name : Datum ℝ) = .ok kind := by
    simp only [kindOf, hname]
    cases kind <;> rfl
  have horder : orderOf? (.integer order : Datum ℝ) = some order := rfl
  simp only [lookup, hkind, ok_bind, horder, Option.bind_some, if_true, h]
  rfl

/-- The rules of segments, squares and cubes with up to five points in a row integrate all
polynomials whose degree in each variable is less than twice that number, and the rules of the
triangle with one, three and four points those of total degree one, two and three. -/
theorem rules_exact :
    (∀ kind : RuleKind, kind ≠ .tri → ∀ n : ℕ, n ∈ Icc 1 5 → ∃ points : List (QuadraturePoint ℝ),
      lookup (.text kind.name) (.integer n) true = .ok (kind, points) ∧
      ∀ p : MvPolynomial (Fin kind.dim) ℝ, (∀ i, p.degreeOf i ≤ 2 * n - 1) →
        weightedSum points (fun ξ => p.eval fun i : Fin kind.dim => ξ.getD i 0) =
          ∫ x in Set.Icc (-1 : Fin kind.dim → ℝ) 1, p.eval x) ∧
    ∀ x ∈ triangleDegrees, ∃ points : List (QuadraturePoint ℝ),
      lookup (.text RuleKind.tri.name) (.integer x.1) true = .ok (.tri, points) ∧
      points.length = x.1 ∧
      ∀ p : MvPolynomial (Fin 2) ℝ, p.totalDegree ≤ x.2 →
        weightedSum points (fun ξ => p.eval fun i : Fin 2 => ξ.getD i 0) =
          ∫ y in referenceTriangle, p.eval y := by
  refine ⟨fun kind hkind n hn => ?_, fun x hx => ?_⟩
  · obtain ⟨rule, hrule, hexact⟩ := exists_isExactBelow hn
    have hlookup : rule? kind n = some (tensorProduct rule kind.dim) := by
      cases kind <;> simp_all [rule?]
    refine ⟨_, lookup_name kind hlookup, fun p hp => hexact.weightedSum_tensorProduct fun i => ?_⟩
    have hpos := (mem_Icc.mp hn).1
    have hdegree := hp i
    omega
  · obtain ⟨points, hrule, hlength, hmoments⟩ := exists_moments_triangle hx
    exact ⟨points, lookup_name .tri hrule, hlength, fun p hp => weightedSum_eval_triangle hmoments hp⟩

/-- The rule with five points of the segment and the one with four points of the triangle, at
monomials that are just within their reach. -/
theorem rules_exact_monomials : RuleKind.line ≠ .tri ∧ 5 ∈ Icc 1 5 ∧
    (∃ points : List (QuadraturePoint ℝ),
      lookup (.text "line") (.integer 5) true = .ok (.line, points) ∧
      weightedSum points (fun ξ => ξ.getD 0 0 ^ 8) = 2 / 9) ∧
    (4, 3) ∈ triangleDegrees ∧
    ∃ points : List (QuadraturePoint ℝ),
      lookup (.text "tri") (.integer 4) true = .ok (.tri, points) ∧
      weightedSum points (fun ξ => ξ.getD 0 0 ^ 2 * ξ.getD 1 0) = 1 / 60 := by
  obtain ⟨segment, hsegment, hpower⟩ := rules_exact.1 .line (by decide) 5 (by decide)
  obtain ⟨triangle, htriangle, -, hmonomial⟩ := rules_exact.2 (4, 3) (by decide)
  refine ⟨by decide, by decide, ⟨segment, hsegment, ?_⟩, by decide, triangle, htriangle, ?_⟩
  · have hdegree (i : Fin 1) : (MvPolynomial.X 0 ^ 8 : MvPolynomial (Fin 1) ℝ).degreeOf i ≤ 9 := by
      rw [Fin.fin_one_eq_zero i]
      exact (MvPolynomial.degreeOf_pow_le _ _ _).trans (by simp)
    calc weightedSum segment (fun ξ => ξ.getD 0 0 ^ 8)
        = weightedSum segment (fun ξ => (MvPolynomial.X 0 ^ 8).eval fun i : Fin 1 => ξ.getD i 0) := by
          simp
      _ = ∫ x in Set.Icc (-1 : Fin 1 → ℝ) 1, (MvPolynomial.X 0 ^ 8).eval x := hpower _ hdegree
      _ = ∫ x in (-1 : ℝ)..1, x ^ (2 * 4) := by
          simpa using integral_box (d := 1) fun _ => 8
      _ = 2 / 9 := by
          rw [integral_even]
          norm_num
  · have hdegree : (MvPolynomial.X 0 ^ 2 * MvPolynomial.X 1 : MvPolynomial (Fin 2) ℝ).totalDegree ≤ 3 :=
      (MvPolynomial.totalDegree_mul _ _).trans
        (Nat.add_le_add (MvPolynomial.totalDegree_X_pow _ _).le (MvPolynomial.totalDegree_X _).le)
    calc weightedSum triangle (fun ξ => ξ.getD 0 0 ^ 2 * ξ.getD 1 0)
        = weightedSum triangle (fun ξ =>
            MvPolynomial.eval (fun i : Fin 2 => ξ.getD i 0)
              (MvPolynomial.X 0 ^ 2 * MvPolynomial.X 1)) := by
          simp
      _ = ∫ x in referenceTriangle, MvPolynomial.eval x (MvPolynomial.X 0 ^ 2 * MvPolynomial.X 1) :=
          hmonomial _ hdegree
      _ = 2 ! * 1 ! / (2 + 1 + 2)! := by
          rw [← integral_referenceTriangle]
          simp
      _ = 1 / 60 := by
          norm_num [Nat.factorial]

end Quadrature
end WeakForm
