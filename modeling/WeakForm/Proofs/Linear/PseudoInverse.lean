import WeakForm.Proofs.RealScalar
import WeakForm.Linear.PseudoInverse
import WeakForm.Proofs.Linear.Cancellation
import WeakForm.Proofs.Linear.Elimination

/-!
# Pseudo-inverses of matrices of full row rank

The product of a matrix with one or two independent rows and its pseudo-inverse is the identity. Over
the reals nothing is negligible, so two rows are split as soon as they are independent.
-/

namespace WeakForm
namespace DenseMatrix

open Finset

variable {n : ℕ} {f g h : ℕ → ℝ} {c : ℝ}

/-- The inner product of the first `n` entries. -/
noncomputable def dot (n : ℕ) (f g : ℕ → ℝ) : ℝ := ∑ k ∈ range n, f k * g k

section Products

theorem dot_comm (n : ℕ) (f g : ℕ → ℝ) : dot n f g = dot n g f :=
  sum_congr rfl fun _ _ => mul_comm _ _

theorem dot_sub (n : ℕ) (f g h : ℕ → ℝ) (c : ℝ) :
    dot n f (fun k => g k - c * h k) = dot n f g - c * dot n f h := by
  simp only [dot, mul_sub, sum_sub_distrib, mul_sum, mul_left_comm]

theorem dot_div (n : ℕ) (f g : ℕ → ℝ) (c : ℝ) : dot n f (fun k => g k / c) = dot n f g / c := by
  simp only [dot, sum_div, mul_div_assoc]

theorem dot_self_nonneg (n : ℕ) (f : ℕ → ℝ) : 0 ≤ dot n f f :=
  sum_nonneg fun _ _ => mul_self_nonneg _

end Products

section Lists

theorem inner_map (n : ℕ) (f g : ℕ → ℝ) :
    inner ((List.range n).map f) ((List.range n).map g) = dot n f g := by
  rw [inner, ← List.sum_eq_foldl, List.zipWith_map, List.zipWith_self]
  rfl

theorem subScaled_map (n : ℕ) (f g : ℕ → ℝ) (c : ℝ) :
    subScaled ((List.range n).map f) c ((List.range n).map g) =
      (List.range n).map fun k => f k - c * g k := by
  rw [subScaled, List.zipWith_map, List.zipWith_self]

theorem getD_map_range (n : ℕ) (f : ℕ → ℝ) {k : ℕ} (hk : k < n) :
    ((List.range n).map f).getD k 0 = f k := by
  simp [hk]

end Lists

section Pairs

variable {p o : ℕ → ℝ}

/-- What is left of `o` after its part along `p` has been split off is orthogonal to `p`. -/
theorem split_map (hp : dot n p p ≠ 0) :
    split ((List.range n).map p) ((List.range n).map o) =
      (dot n p o / dot n p p, (List.range n).map fun k => o k - dot n p o / dot n p p * p k) := by
  have hrest : dot n p (fun k => o k - dot n p o / dot n p p * p k) = 0 := by
    rw [dot_sub, div_mul_cancel₀ _ hp, sub_self]
  rw [split]
  simp only [inner_map, subScaled_map, hrest, zero_div, add_zero, zero_mul, sub_zero]

/-- The columns that belong to two independent rows. -/
theorem pairInverse_map (hp : dot n p p ≠ 0) (hgram : dot n p p * dot n o o ≠ dot n p o * dot n p o) :
    ∃ u v : ℕ → ℝ, pairInverse ((List.range n).map p) ((List.range n).map o) =
        ((List.range n).map u, (List.range n).map v) ∧
      dot n p u = 1 ∧ dot n o u = 0 ∧ dot n p v = 0 ∧ dot n o v = 1 := by
  obtain ⟨c, hc⟩ : ∃ c, c = dot n p o / dot n p p := ⟨_, rfl⟩
  obtain ⟨q, hq⟩ : ∃ q : ℕ → ℝ, q = fun k => o k - c * p k := ⟨_, rfl⟩
  have hcp : c * dot n p p = dot n p o := by rw [hc, div_mul_cancel₀ _ hp]
  have hpq : dot n p q = 0 := by rw [hq, dot_sub, hcp, sub_self]
  have hoq : dot n o q = dot n q q := by
    have hqq : dot n q q = dot n q o - c * dot n q p := by
      conv_lhs => rw [hq, dot_sub, ← hq]
    rw [hqq, dot_comm n q p, hpq, mul_zero, sub_zero, dot_comm]
  have hq0 : dot n q q ≠ 0 := by
    intro hzero
    rw [← hoq, hq, dot_sub, dot_comm n o p] at hzero
    apply hgram
    linear_combination dot n p p * hzero + dot n p o * hcp
  have hnegligible : negligible ((List.range n).map p) ((List.range n).map q)
      (dot n p p + dot n o o) = false := by
    have hpos : 0 < dot n p p * dot n q q :=
      mul_pos ((dot_self_nonneg n p).lt_of_ne' hp) ((dot_self_nonneg n q).lt_of_ne' hq0)
    have hzero (s : ℝ) : Scalar.precision * Scalar.precision * (s * s) = (0 : ℝ) := by
      change (0 : ℝ) * 0 * (s * s) = 0
      ring
    rw [negligible, inner_map, inner_map, hzero]
    exact decide_eq_false (not_le.mpr hpos)
  refine ⟨fun k => p k / dot n p p - c * (q k / dot n q q), fun k => q k / dot n q q, ?_, ?_, ?_, ?_,
    ?_⟩
  · rw [pairInverse, split_map hp, ← hc, ← hq]
    simp only [inner_map, hnegligible, Bool.false_eq_true, if_false, List.map_map]
    exact congrArg (·, _) (subScaled_map n _ _ _)
  · rw [dot_sub, dot_div, dot_div, hpq, zero_div, mul_zero, sub_zero, div_self hp]
  · rw [dot_sub, dot_div, dot_div, hoq, div_self hq0, mul_one, dot_comm n o p, hc, sub_self]
  · rw [dot_div, hpq, zero_div]
  · rw [dot_div, hoq, div_self hq0]

end Pairs

section Inverses

variable {A : DenseMatrix ℝ}

/-- No entry is larger than the largest one. -/
theorem abs_le_largest (A : DenseMatrix ℝ) {x : ℝ} (hx : x ∈ A.data) : |x| ≤ A.largest := by
  have hfold (xs : List ℝ) (m : ℝ) : m ≤ xs.foldl
      (fun m x => if Scalar.less m (Scalar.abs x) then Scalar.abs x else m) m ∧
        ∀ x ∈ xs, |x| ≤ xs.foldl
          (fun m x => if Scalar.less m (Scalar.abs x) then Scalar.abs x else m) m := by
    induction xs generalizing m with
    | nil => simp
    | cons y xs ih =>
      have hstep : m ≤ (if Scalar.less m (Scalar.abs y) then Scalar.abs y else m) ∧
          |y| ≤ if Scalar.less m (Scalar.abs y) then Scalar.abs y else m := by
        simp only [less_real, abs_real, decide_eq_true_eq]
        split_ifs with hless
        · exact ⟨hless.le, le_rfl⟩
        · exact ⟨le_rfl, not_lt.mp hless⟩
      obtain ⟨hle, hall⟩ := ih (if Scalar.less m (Scalar.abs y) then Scalar.abs y else m)
      rw [List.foldl_cons]
      exact ⟨hstep.1.trans hle, List.forall_mem_cons.mpr ⟨hstep.2.trans hle, hall⟩⟩
  rw [largest, ← Array.foldl_toList]
  exact (hfold _ _).2 x (Array.mem_toList_iff.mpr hx)

theorem entry_eq_zero_of_largest (h : A.largest = 0) (i j : ℕ) : A.entry i j = 0 := by
  unfold entry
  split_ifs
  · by_cases hk : i * A.cols + j < A.data.size
    · have hle := A.abs_le_largest (Array.getElem_mem hk)
      rw [h] at hle
      simpa [hk] using abs_nonpos_iff.mp hle
    · simp [hk]
  · rfl

/-- The entries of the product of a matrix and its transpose. -/
theorem entry_mul_transpose (A : DenseMatrix ℝ) {i j : ℕ} (hj : j < A.rows) :
    (A.mul A.transpose).entry i j = dot A.cols (A.entry i) (A.entry j) := by
  rw [entry_mul]
  refine sum_congr rfl fun k hk => ?_
  rw [transpose, entry_ofFn _ (mem_range.mp hk) hj]

theorem scaledRow (A : DenseMatrix ℝ) (i : ℕ) (m : ℝ) :
    (A.row i).map (fun x => x / m) = (List.range A.cols).map fun k => A.entry i k / m := by
  rw [row, List.map_map]
  rfl

theorem size_wideInverse (A : DenseMatrix ℝ) :
    A.wideInverse.rows = A.cols ∧ A.wideInverse.cols = A.rows := by
  have hlength : (A.toRows.map fun r => r.map fun x => x / A.largest).length = A.rows := by
    simp [toRows]
  unfold wideInverse
  dsimp only
  split_ifs
  · exact ⟨rfl, rfl⟩
  · split
    · rename_i h
      exact ⟨rfl, by rw [← hlength, h]; rfl⟩
    · rename_i h
      exact ⟨rfl, by rw [← hlength, h]; rfl⟩
    · exact ⟨rfl, rfl⟩

/-- The rows are scaled by the largest entry. -/
noncomputable def scaled (A : DenseMatrix ℝ) (i k : ℕ) : ℝ := A.entry i k / A.largest

theorem dot_scaled (A : DenseMatrix ℝ) (i j : ℕ) : dot A.cols (A.scaled i) (A.scaled j) =
    dot A.cols (A.entry i) (A.entry j) / A.largest / A.largest := by
  unfold scaled
  rw [dot_div, dot_comm, dot_div, dot_comm]

/-- The columns that belong to two scaled rows, of which the longer one comes first. -/
noncomputable def scaledColumns (A : DenseMatrix ℝ) : List ℝ × List ℝ :=
  let r := (List.range A.cols).map (A.scaled 0)
  let s := (List.range A.cols).map (A.scaled 1)
  if Scalar.less (inner r r) (inner s s) then (pairInverse s r).swap else pairInverse r s

section Entries

variable (hm : A.largest ≠ 0) {k : ℕ} (hk : k < A.cols)
include hm hk

theorem entry_wideInverse_one (hrows : A.rows = 1) : A.wideInverse.entry k 0 = A.scaled 0 k /
    Scalar.sqrt (dot A.cols (A.scaled 0) (A.scaled 0)) *
      (1 / (Scalar.sqrt (dot A.cols (A.scaled 0) (A.scaled 0)) * A.largest)) := by
  have htoRows : A.toRows = [A.row 0] := by rw [toRows, hrows]; rfl
  have hinverse : A.wideInverse = ofFn A.cols 1 fun i _ => ((List.range A.cols).map (A.scaled 0)).getD i 0 /
      Scalar.sqrt (dot A.cols (A.scaled 0) (A.scaled 0)) *
        (1 / (Scalar.sqrt (dot A.cols (A.scaled 0) (A.scaled 0)) * A.largest)) := by
    rw [wideInverse, ← inner_map]
    simp only [same_real, decide_eq_true_eq, hm, if_false, htoRows, List.map_cons, List.map_nil, scaledRow]
    rfl
  rw [hinverse, entry_ofFn _ hk Nat.one_pos, getD_map_range _ _ hk]

theorem entry_wideInverse_two (hrows : A.rows = 2) {u v : ℕ → ℝ}
    (hcolumns : A.scaledColumns = ((List.range A.cols).map u, (List.range A.cols).map v)) {j : ℕ} (hj : j < 2) :
    A.wideInverse.entry k j = (if j = 0 then u else v) k / A.largest := by
  have htoRows : A.toRows = [A.row 0, A.row 1] := by rw [toRows, hrows]; rfl
  have hinverse : A.wideInverse = ofFn A.cols 2 fun i j =>
      (if j = 0 then A.scaledColumns.1 else A.scaledColumns.2).getD i 0 / A.largest := by
    rw [wideInverse]
    simp only [same_real, decide_eq_true_eq, hm, if_false, htoRows, List.map_cons, List.map_nil, scaledRow]
    rfl
  rw [hinverse, entry_ofFn _ hk hj, hcolumns]
  split_ifs <;> rw [getD_map_range _ _ hk]

end Entries

/-- The pseudo-inverse of a row that is not zero. -/
theorem mul_wideInverse_one (hrows : A.rows = 1) (hdet : dot A.cols (A.entry 0) (A.entry 0) ≠ 0) :
    ∑ k ∈ range A.cols, A.entry 0 k * A.wideInverse.entry k 0 = 1 := by
  have hm : A.largest ≠ 0 := fun hm => hdet <| by simp [dot, entry_eq_zero_of_largest hm]
  have hnorm : dot A.cols (A.entry 0) (A.scaled 0) = A.largest * dot A.cols (A.scaled 0) (A.scaled 0) := by
    simp only [dot, mul_sum, scaled]
    refine sum_congr rfl fun k _ => ?_
    rw [← mul_assoc, mul_div_cancel₀ _ hm]
  have hs : dot A.cols (A.scaled 0) (A.scaled 0) ≠ 0 := by
    rw [dot_scaled]
    exact div_ne_zero (div_ne_zero hdet hm) hm
  have hlength : Scalar.sqrt (dot A.cols (A.scaled 0) (A.scaled 0)) *
      Scalar.sqrt (dot A.cols (A.scaled 0) (A.scaled 0)) = dot A.cols (A.scaled 0) (A.scaled 0) :=
    Real.mul_self_sqrt (dot_self_nonneg _ _)
  calc ∑ k ∈ range A.cols, A.entry 0 k * A.wideInverse.entry k 0
      = ∑ k ∈ range A.cols, A.entry 0 k * A.scaled 0 k / (A.largest * dot A.cols (A.scaled 0) (A.scaled 0)) := by
        refine sum_congr rfl fun k hk => ?_
        rw [entry_wideInverse_one hm (mem_range.mp hk) hrows, div_mul_div_comm, mul_one, ← mul_assoc, hlength,
          mul_comm (dot A.cols _ _), mul_div_assoc]
    _ = 1 := by
        rw [← sum_div, div_eq_one_iff_eq (mul_ne_zero hm hs)]
        exact hnorm

/-- The pseudo-inverse of two independent rows. -/
theorem mul_wideInverse_two (hrows : A.rows = 2)
    (hdet : dot A.cols (A.entry 0) (A.entry 0) * dot A.cols (A.entry 1) (A.entry 1) ≠
      dot A.cols (A.entry 0) (A.entry 1) * dot A.cols (A.entry 0) (A.entry 1)) {i j : ℕ} (hi : i < 2)
    (hj : j < 2) :
    ∑ k ∈ range A.cols, A.entry i k * A.wideInverse.entry k j = if i = j then 1 else 0 := by
  have hm : A.largest ≠ 0 := fun hm => hdet <| by simp [dot, entry_eq_zero_of_largest hm]
  have hgram : dot A.cols (A.scaled 0) (A.scaled 0) * dot A.cols (A.scaled 1) (A.scaled 1) ≠
      dot A.cols (A.scaled 0) (A.scaled 1) * dot A.cols (A.scaled 0) (A.scaled 1) := by
    rw [dot_scaled, dot_scaled, dot_scaled]
    intro h
    apply hdet
    field_simp at h
    linear_combination h
  obtain ⟨u, v, hcolumns, h00, h10, h01, h11⟩ : ∃ u v : ℕ → ℝ,
      A.scaledColumns = ((List.range A.cols).map u, (List.range A.cols).map v) ∧
      dot A.cols (A.scaled 0) u = 1 ∧ dot A.cols (A.scaled 1) u = 0 ∧ dot A.cols (A.scaled 0) v = 0 ∧
        dot A.cols (A.scaled 1) v = 1 := by
    simp only [scaledColumns, inner_map, less_real]
    have hnonneg := dot_self_nonneg A.cols (A.scaled 0)
    have hnonneg' := dot_self_nonneg A.cols (A.scaled 1)
    have hcauchy : dot A.cols (A.scaled 0) (A.scaled 0) = 0 → dot A.cols (A.scaled 0) (A.scaled 1) = 0 := by
      intro hzero
      refine sum_eq_zero fun k hk => ?_
      have hk := (sum_eq_zero_iff_of_nonneg fun k _ => mul_self_nonneg (A.scaled 0 k)).mp hzero k hk
      rw [mul_self_eq_zero.mp hk, zero_mul]
    by_cases hless : dot A.cols (A.scaled 0) (A.scaled 0) < dot A.cols (A.scaled 1) (A.scaled 1)
    · obtain ⟨u, v, hpair, h1, h2, h3, h4⟩ := pairInverse_map (p := A.scaled 1) (o := A.scaled 0)
        (hnonneg.trans_lt hless).ne' (by rw [dot_comm _ (A.scaled 1) (A.scaled 0), mul_comm]; exact hgram)
      rw [decide_eq_true hless, if_pos rfl, hpair]
      exact ⟨v, u, rfl, h4, h3, h2, h1⟩
    · have hp : dot A.cols (A.scaled 0) (A.scaled 0) ≠ 0 := by
        intro hzero
        apply hgram
        rw [hzero, hcauchy hzero, zero_mul, zero_mul]
      obtain ⟨u, v, hpair, h1, h2, h3, h4⟩ := pairInverse_map hp hgram
      rw [decide_eq_false hless, if_neg Bool.false_ne_true, hpair]
      exact ⟨u, v, rfl, h1, h2, h3, h4⟩
  have hproduct : ∑ k ∈ range A.cols, A.entry i k * A.wideInverse.entry k j =
      dot A.cols (A.scaled i) (if j = 0 then u else v) := by
    refine sum_congr rfl fun k hk => ?_
    rw [entry_wideInverse_two hm (mem_range.mp hk) hrows hcolumns hj, scaled]
    ring
  rw [hproduct]
  interval_cases i <;> interval_cases j <;> simp [h00, h10, h01, h11]

end Inverses

section Spans

variable {S : Submodule ℝ (ℕ → ℝ)}

theorem div_mem (hf : f ∈ S) (c : ℝ) : (fun k => f k / c) ∈ S := by
  have hsmul : (fun k => f k / c) = c⁻¹ • f := funext fun k => div_eq_inv_mul (f k) c
  exact hsmul ▸ S.smul_mem c⁻¹ hf

/-- The columns that belong to two rows are combinations of them, whether they are independent or not. -/
theorem pairInverse_mem {p o : ℕ → ℝ} (hp : p ∈ S) (ho : o ∈ S) : ∃ u ∈ S, ∃ v ∈ S,
    pairInverse ((List.range n).map p) ((List.range n).map o) =
      ((List.range n).map u, (List.range n).map v) := by
  have hdiff {f g : ℕ → ℝ} (hf : f ∈ S) (hg : g ∈ S) (c : ℝ) : (fun k => f k - c * g k) ∈ S :=
    S.sub_mem hf (S.smul_mem c hg)
  obtain ⟨c, q, hq, hsplit⟩ : ∃ c, ∃ q ∈ S,
      split ((List.range n).map p) ((List.range n).map o) = (c, (List.range n).map q) := by
    simp only [split, subScaled_map]
    exact ⟨_, _, hdiff (hdiff ho hp _) hp _, rfl⟩
  rw [pairInverse, hsplit]
  simp only [List.map_map]
  split_ifs
  · exact ⟨_, div_mem hp _, _, div_mem ho _, rfl⟩
  · exact ⟨_, hdiff (div_mem hp _) (div_mem hq _) c, _, div_mem hq _, congrArg (·, _) (subScaled_map n _ _ _)⟩

/-- The columns of the pseudo-inverse are combinations of the rows. -/
theorem wideInverse_mem {A : DenseMatrix ℝ} (hA : ∀ i < A.rows, A.entry i ∈ S) (hrows : 0 < A.rows ∧ A.rows ≤ 2)
    {j : ℕ} (hj : j < A.rows) : ∃ w ∈ S, ∀ k < A.cols, A.wideInverse.entry k j = w k := by
  by_cases hm : A.largest = 0
  · refine ⟨0, S.zero_mem, fun k hk => ?_⟩
    have hzero : A.wideInverse = zero A.cols A.rows := by
      rw [wideInverse]
      simp only [same_real, hm, decide_true, if_true]
    rw [hzero, zero, entry_ofFn _ hk hj, Pi.zero_apply]
  have hscaled {i : ℕ} (hi : i < A.rows) : A.scaled i ∈ S := div_mem (hA i hi) _
  obtain hone | htwo : A.rows = 1 ∨ A.rows = 2 := by omega
  · obtain rfl : j = 0 := by omega
    refine ⟨_, S.smul_mem (1 / (Scalar.sqrt (dot A.cols (A.scaled 0) (A.scaled 0)) * A.largest))
      (div_mem (hscaled hrows.1) (Scalar.sqrt (dot A.cols (A.scaled 0) (A.scaled 0)))), fun k hk => ?_⟩
    rw [entry_wideInverse_one hm hk hone, mul_comm]
    rfl
  · obtain ⟨u, hu, v, hv, hcolumns⟩ : ∃ u ∈ S, ∃ v ∈ S,
        A.scaledColumns = ((List.range A.cols).map u, (List.range A.cols).map v) := by
      rw [scaledColumns]
      split_ifs
      · obtain ⟨u, hu, v, hv, hpair⟩ := pairInverse_mem (n := A.cols) (hscaled (htwo ▸ one_lt_two)) (hscaled hrows.1)
        exact ⟨v, hv, u, hu, by rw [hpair]; rfl⟩
      · exact pairInverse_mem (hscaled hrows.1) (hscaled (htwo ▸ one_lt_two))
    refine ⟨_, div_mem (f := if j = 0 then u else v) (by split_ifs <;> assumption) A.largest, fun k hk => ?_⟩
    exact entry_wideInverse_two hm hk htwo hcolumns (htwo ▸ hj)

end Spans

section Combinations

variable {A : DenseMatrix ℝ}

theorem exists_combination_wideInverse (hrows : 0 < A.rows ∧ A.rows ≤ 2) : ∃ a : ℕ → ℕ → ℝ,
    ∀ j < A.rows, ∀ k < A.cols, A.wideInverse.entry k j = ∑ i ∈ range A.rows, a i j * A.entry i k := by
  have hcolumn : ∀ j < A.rows, ∃ a : ℕ → ℝ, ∀ k < A.cols,
      A.wideInverse.entry k j = ∑ i ∈ range A.rows, a i * A.entry i k := by
    intro j hj
    have hrow : ∀ i < A.rows, A.entry i ∈ Submodule.span ℝ (Set.image A.entry (range A.rows)) := fun i hi =>
      Submodule.subset_span (Set.mem_image_of_mem _ (mem_coe.mpr (mem_range.mpr hi)))
    obtain ⟨w, hw, hentry⟩ := wideInverse_mem hrow hrows hj
    obtain ⟨a, rfl⟩ := (Submodule.mem_span_image_finset_iff_exists_fun' ℝ).mp hw
    refine ⟨a, fun k hk => (hentry k hk).trans ?_⟩
    rw [Finset.sum_apply]
    rfl
  choose! a ha using hcolumn
  exact ⟨fun i j => a j i, ha⟩

/-- A combination of the rows that is orthogonal to all of them vanishes. -/
theorem eq_zero_of_combination {a d : ℕ → ℝ}
    (hd : ∀ k < A.cols, d k = ∑ i ∈ range A.rows, a i * A.entry i k)
    (h : ∀ i < A.rows, dot A.cols (A.entry i) d = 0) : ∀ k < A.cols, d k = 0 := by
  have hsquares : dot A.cols d d = 0 := by
    calc ∑ k ∈ range A.cols, d k * d k
        = ∑ k ∈ range A.cols, ∑ i ∈ range A.rows, a i * (A.entry i k * d k) := by
          refine sum_congr rfl fun k hk => ?_
          simp only [← mul_assoc]
          rw [← sum_mul, ← hd k (mem_range.mp hk)]
      _ = ∑ i ∈ range A.rows, a i * dot A.cols (A.entry i) d := by
          rw [sum_comm]
          simp only [dot, mul_sum]
      _ = 0 := sum_eq_zero fun i hi => by rw [h i (mem_range.mp hi), mul_zero]
  intro k hk
  exact mul_self_eq_zero.mp ((sum_eq_zero_iff_of_nonneg fun k _ => mul_self_nonneg (d k)).mp hsquares k
    (mem_range.mpr hk))

end Combinations

end DenseMatrix
end WeakForm
