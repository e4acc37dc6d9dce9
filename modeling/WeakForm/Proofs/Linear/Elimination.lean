import WeakForm.Proofs.RealScalar
import WeakForm.Linear.Elimination
import WeakForm.Proofs.Linear.SparseEntries
import WeakForm.Proofs.Lists

/-!
# Elimination over the reals

Eliminating an unknown from an equation takes a multiple of the pivot equation off it. So values of
the unknowns solve all equations exactly if they solve the pivot equation and the smaller system:
what elimination finds is a solution, and if it finds none the equations do not determine the
unknowns.
-/

namespace WeakForm
namespace Equation

/-- The sum of the products of coefficients and unknowns; coefficients that are left out are zero. -/
noncomputable def combination : (coefficients unknowns : List ℝ) → ℝ
  | _, [] => 0
  | cs, x :: xs => cs.headD 0 * x + combination cs.tail xs

/-- By how much an equation is missed. -/
noncomputable def residual (e : Equation ℝ) (xs : List ℝ) : ℝ := combination e.coefficients xs - e.value

variable {storage : Storage} {p e : Equation ℝ} {es : List (Equation ℝ)} {xs : List ℝ} {x : ℝ}

theorem combination_cons (cs : List ℝ) (x : ℝ) (xs : List ℝ) :
    combination cs (x :: xs) = cs.headD 0 * x + combination cs.tail xs := rfl

theorem combination_coefficients (e : Equation ℝ) (x : ℝ) (xs : List ℝ) :
    combination e.coefficients (x :: xs) = e.lead * x + combination e.coefficients.tail xs := rfl

theorem combination_nil_left (xs : List ℝ) : combination [] xs = 0 := by
  induction xs with
  | nil => rfl
  | cons x xs ih => simp [combination_cons, ih]

/-- The sum runs over the unknowns. -/
theorem combination_eq_sum (cs xs : List ℝ) :
    combination cs xs = ∑ k ∈ Finset.range xs.length, cs.getD k 0 * xs.getD k 0 := by
  induction xs generalizing cs with
  | nil => rfl
  | cons x xs ih =>
    rw [combination_cons, ih, List.length_cons, Finset.sum_range_succ']
    cases cs with
    | nil => simp
    | cons c cs => simp [add_comm]

section Reals

@[simp] theorem size_eq (c : ℝ) : storage.size c = |c| := by
  simp [Storage.size, abs_real]

@[simp] theorem quotient_eq (alone : Bool) (x y : ℝ) : storage.quotient alone x y = x / y := by
  unfold Storage.quotient
  split
  · rw [mul_one_div]
  · rfl

theorem combination_subtract (factor : ℝ) (cs qs xs : List ℝ) :
    combination (subtract factor cs qs) xs = combination cs xs - factor * combination qs xs := by
  induction xs generalizing cs qs with
  | nil => simp [combination]
  | cons x xs ih =>
    cases cs with
    | nil =>
      cases qs with
      | nil => simp [subtract, combination_nil_left]
      | cons q qs =>
        simp only [subtract, combination_cons, List.headD_cons, List.tail_cons, ih]
        simp only [List.headD_nil, List.tail_nil]
        ring
    | cons c cs =>
      cases qs with
      | nil => simp [subtract, combination_nil_left]
      | cons q qs =>
        simp only [subtract, combination_cons, List.headD_cons, List.tail_cons, ih]
        ring

/-- Elimination takes a multiple of the pivot equation off. -/
theorem combination_reduce (hp : p.lead ≠ 0) (n : ℕ) (harmless : Bool) (x : ℝ) (xs : List ℝ) :
    combination (reduce storage n harmless p e).coefficients xs =
      combination e.coefficients (x :: xs) -
        e.lead / p.lead * combination p.coefficients (x :: xs) := by
  have hfinite (y : ℝ) : Scalar.isFinite y = true := rfl
  unfold reduce
  simp only [quotient_eq, hfinite, if_true, combination_coefficients]
  split
  · rename_i h
    have he : e.lead = 0 := by
      simp only [same_real, Bool.and_eq_true, decide_eq_true_eq] at h
      exact h.1
    rw [he]
    ring
  · rw [combination_subtract]
    field_simp
    ring

theorem value_reduce (n : ℕ) (harmless : Bool) :
    (reduce storage n harmless p e).value = e.value - e.lead / p.lead * p.value := by
  unfold reduce
  simp only [quotient_eq]
  split
  · rename_i h
    have he : e.lead = 0 := by
      simp only [same_real, Bool.and_eq_true, decide_eq_true_eq] at h
      exact h.1
    rw [he]
    ring
  · rfl

theorem residual_reduce (hp : p.lead ≠ 0) (n : ℕ) (harmless : Bool) (x : ℝ) (xs : List ℝ) :
    (reduce storage n harmless p e).residual xs =
      e.residual (x :: xs) - e.lead / p.lead * p.residual (x :: xs) := by
  rw [residual, combination_reduce hp n harmless x, value_reduce, residual, residual]
  ring

/-- The dot product passes over products that are zero anyway. -/
theorem dot_eq (block : ℕ) (blocks : List ℕ) (cs : List ℝ) {xs : List ℝ}
    (h : blocks.length = xs.length) : dot block blocks cs xs = combination cs xs := by
  induction xs generalizing blocks cs with
  | nil => cases blocks <;> rfl
  | cons x xs ih =>
    cases blocks with
    | nil => cases h
    | cons b blocks =>
      have hlen : blocks.length = xs.length := by simpa using h
      rw [dot, combination_cons, ih blocks cs.tail hlen]
      simp only [same_real, Bool.and_eq_true, decide_eq_true_eq]
      split
      · rename_i hc
        rw [hc.1, zero_mul, zero_add]
      · rfl

/-- The first unknown solves the pivot equation. -/
theorem residual_backSubstitute (hp : p.lead ≠ 0) (blocks : List ℕ)
    (h : blocks.length = xs.length) :
    p.residual (backSubstitute storage p blocks xs :: xs) = 0 := by
  rw [backSubstitute, quotient_eq, dot_eq _ _ _ h, residual, combination_coefficients]
  field_simp
  ring

end Reals

section Pivots

theorem pivot?_eq_none : pivot? storage es = none ↔ es = [] := by
  cases es with
  | nil => simp [pivot?]
  | cons e es =>
    rw [pivot?]
    cases pivot? storage es with
    | none => simp
    | some found =>
      obtain ⟨k, p, others⟩ := found
      dsimp only
      split <;> simp

/-- The pivot equation is one of the equations, and none has a larger leading coefficient. -/
theorem pivot?_eq_some {k : ℕ} {others : List (Equation ℝ)}
    (h : pivot? storage es = some (k, p, others)) :
    es.Perm (p :: others) ∧ ∀ e ∈ es, |e.lead| ≤ |p.lead| := by
  induction es generalizing k p others with
  | nil => cases h
  | cons e es ih =>
    rw [pivot?] at h
    cases hpivot : pivot? storage es with
    | none =>
      rw [hpivot] at h
      cases h
      rw [pivot?_eq_none.mp hpivot]
      simp
    | some found =>
      obtain ⟨k', p', others'⟩ := found
      obtain ⟨hperm, hle⟩ := ih hpivot
      rw [hpivot] at h
      simp only [size_eq, less_real, decide_eq_true_eq] at h
      split at h
      · rename_i hlt
        cases h
        exact ⟨(hperm.cons e).trans (.swap _ _ _), List.forall_mem_cons.mpr ⟨hlt.le, hle⟩⟩
      · rename_i hlt
        cases h
        refine ⟨.refl _, List.forall_mem_cons.mpr ⟨le_rfl, fun d hd => ?_⟩⟩
        exact (hle d hd).trans (not_lt.mp hlt)

end Pivots

/-- What elimination finds solves all equations. -/
theorem residual_of_solve {blocks : List ℕ} (h : solve storage blocks es = some xs)
    (hlen : es.length = blocks.length) :
    xs.length = blocks.length ∧ ∀ e ∈ es, e.residual xs = 0 := by
  induction blocks generalizing es xs with
  | nil =>
    cases h
    rw [List.length_eq_zero_iff.mp hlen]
    simp
  | cons b blocks ih =>
    rw [solve] at h
    cases hpivot : pivot? storage es with
    | none =>
      rw [hpivot] at h
      cases h
    | some found =>
      obtain ⟨k, p, others⟩ := found
      obtain ⟨hperm, -⟩ := pivot?_eq_some hpivot
      rw [hpivot] at h
      simp only [size_eq, same_real, abs_eq_zero, decide_eq_true_eq] at h
      split_ifs at h with hp
      have hothers : others.length = blocks.length := by
        have hlength := hperm.length_eq
        rw [hlen, List.length_cons, List.length_cons] at hlength
        exact (Nat.succ.inj hlength).symm
      cases hsolve : solve storage blocks
          (others.map (reduce storage blocks.length (p.isHarmless storage) p)) with
      | none =>
        rw [hsolve] at h
        cases h
      | some ys =>
        rw [hsolve] at h
        cases h
        obtain ⟨hys, hreduced⟩ := ih hsolve (by rw [List.length_map, hothers])
        have hfirst : p.residual (backSubstitute storage p blocks ys :: ys) = 0 :=
          residual_backSubstitute hp blocks hys.symm
        refine ⟨by rw [List.length_cons, List.length_cons, hys], fun e he => ?_⟩
        rcases List.mem_cons.mp (hperm.mem_iff.mp he) with rfl | he
        · exact hfirst
        · have hrest := hreduced _ (List.mem_map_of_mem he)
          rw [residual_reduce hp _ _ (backSubstitute storage p blocks ys), hfirst, mul_zero,
            sub_zero] at hrest
          exact hrest

/-- Where elimination finds nothing, the equations do not determine the unknowns: other values than
zeros make nothing of all of them. -/
theorem exists_of_solve_eq_none {blocks : List ℕ} (h : solve storage blocks es = none)
    (hlen : es.length = blocks.length) :
    ∃ xs : List ℝ, xs.length = blocks.length ∧ (∃ x ∈ xs, x ≠ 0) ∧
      ∀ e ∈ es, combination e.coefficients xs = 0 := by
  induction blocks generalizing es with
  | nil => cases h
  | cons b blocks ih =>
    rw [solve] at h
    cases hpivot : pivot? storage es with
    | none =>
      rw [pivot?_eq_none.mp hpivot] at hlen
      cases hlen
    | some found =>
      obtain ⟨k, p, others⟩ := found
      obtain ⟨hperm, hle⟩ := pivot?_eq_some hpivot
      rw [hpivot] at h
      simp only [size_eq, same_real, abs_eq_zero, decide_eq_true_eq] at h
      split_ifs at h with hp
      · -- no equation has the first unknown
        refine ⟨1 :: List.replicate blocks.length 0, by simp, ⟨1, by simp, one_ne_zero⟩, fun e he => ?_⟩
        have hlead : e.lead = 0 := by
          have hle := hle e he
          rwa [hp, abs_zero, abs_nonpos_iff] at hle
        rw [combination_coefficients, hlead, zero_mul, zero_add, combination_eq_sum]
        refine Finset.sum_eq_zero fun k hk => ?_
        have hk : k < blocks.length := by simpa using hk
        simp [hk]
      · have hothers : others.length = blocks.length := by
          have hlength := hperm.length_eq
          rw [hlen, List.length_cons, List.length_cons] at hlength
          exact (Nat.succ.inj hlength).symm
        cases hsolve : solve storage blocks
            (others.map (reduce storage blocks.length (p.isHarmless storage) p)) with
        | some ys =>
          rw [hsolve] at h
          cases h
        | none =>
          obtain ⟨ys, hys, ⟨y, hy, hne⟩, hzero⟩ := ih hsolve (by rw [List.length_map, hothers])
          let x := -combination p.coefficients.tail ys / p.lead
          have hfirst : combination p.coefficients (x :: ys) = 0 := by
            rw [combination_coefficients, mul_div_cancel₀ _ hp]
            ring
          refine ⟨x :: ys, by simp [hys], ⟨y, List.mem_cons_of_mem _ hy, hne⟩, fun e he => ?_⟩
          rcases List.mem_cons.mp (hperm.mem_iff.mp he) with rfl | he
          · exact hfirst
          · have hrest := hzero _ (List.mem_map_of_mem he)
            rw [combination_reduce hp _ _ x, hfirst, mul_zero, sub_zero] at hrest
            exact hrest

end Equation
end WeakForm

/-!
## Sparse systems over the reals

A sparse system is solved by elimination, whatever its blocks are. If the zero vector is the only
one that the matrix takes to zero, there is a solution.
-/

namespace WeakForm
namespace SparseMatrix

variable {A : SparseMatrix ℝ} {b : List ℝ} {xs : List ℝ}

theorem size_joinLabels (labels : Array ℕ) (columns : List ℕ) :
    (joinLabels labels columns).size = labels.size := by
  unfold joinLabels
  split
  · rfl
  · split
    · rfl
    · exact Array.size_map

theorem size_columnLabels (A : SparseMatrix ℝ) : A.columnLabels.size = A.cols := by
  have hfold (rows : List (SparseRow ℝ)) (labels : Array ℕ) :
      (rows.foldl (fun labels row => joinLabels labels row.columns) labels).size = labels.size := by
    induction rows generalizing labels with
    | nil => rfl
    | cons row rows ih => rw [List.foldl_cons, ih, size_joinLabels]
  rw [columnLabels, ← Array.foldl_toList, hfold, Array.size_range]

/-- The columns that store an entry are before the width of the row. -/
theorem lt_width_of_mem {columns : List ℕ} {j : ℕ} (h : j ∈ columns) :
    j < (columns.map (· + 1)).foldl max 0 := by
  have hle : j + 1 ≤ (columns.map (· + 1)).foldl max 0 :=
    (le_foldl_max (columns.map (· + 1)) 0).2 (j + 1) (List.mem_map_of_mem h)
  omega

/-- The coefficients of an equation are the entries of its row. -/
theorem combination_equations (A : SparseMatrix ℝ) (i : ℕ) (xs : List ℝ) :
    Equation.combination ((List.range (((A.data.getD i []).columns.map (· + 1)).foldl max 0)).map
      (A.entry i)) xs = ∑ j ∈ Finset.range xs.length, A.entry i j * xs.getD j 0 := by
  rw [Equation.combination_eq_sum]
  refine Finset.sum_congr rfl fun j _ => ?_
  congr 1
  have hwide : ¬ j < ((A.data.getD i []).columns.map (· + 1)).foldl max 0 → A.entry i j = 0 := by
    intro hj
    have hnone : j ∉ (A.data.getD i []).columns := fun hmem => hj (lt_width_of_mem hmem)
    rw [entry, stored?, SparseRow.lookup_eq_none_of_notMem hnone]
    rfl
  generalize ((A.data.getD i []).columns.map (· + 1)).foldl max 0 = width at hwide
  by_cases hj : j < width
  · simp [hj]
  · simp [hj, hwide hj]

/-- The solution of a system solves its equations. -/
theorem sum_of_solve? (hsquare : A.rows = A.cols) (h : A.solve? b = some xs) :
    xs.length = A.cols ∧ ∀ i, i < A.rows →
      ∑ j ∈ Finset.range A.cols, A.entry i j * xs.getD j 0 = b.getD i 0 := by
  have hlen : (A.equations A.columnLabels b).length = A.columnLabels.toList.length := by
    rw [equations, List.length_map, List.length_range, Array.length_toList, size_columnLabels,
      hsquare]
  obtain ⟨hxs, hresidual⟩ := Equation.residual_of_solve h hlen
  have hxs : xs.length = A.cols := hxs.trans (by rw [Array.length_toList, size_columnLabels])
  refine ⟨hxs, fun i hi => ?_⟩
  have hi' := hresidual _ (List.mem_map_of_mem (List.mem_range.mpr hi))
  rw [Equation.residual, combination_equations, hxs] at hi'
  simpa using sub_eq_zero.mp hi'

/-- A system whose matrix takes only zeros to zero has a solution. -/
theorem solve?_isSome (hsquare : A.rows = A.cols)
    (hregular : ∀ xs : List ℝ, xs.length = A.cols →
      (∀ i, i < A.rows → ∑ j ∈ Finset.range A.cols, A.entry i j * xs.getD j 0 = 0) →
      ∀ x ∈ xs, x = 0) (b : List ℝ) : (A.solve? b).isSome = true := by
  have hlen : (A.equations A.columnLabels b).length = A.columnLabels.toList.length := by
    rw [equations, List.length_map, List.length_range, Array.length_toList, size_columnLabels,
      hsquare]
  by_contra hnone
  rw [Option.not_isSome_iff_eq_none] at hnone
  obtain ⟨xs, hxs, ⟨x, hx, hne⟩, hzero⟩ := Equation.exists_of_solve_eq_none hnone hlen
  have hxs : xs.length = A.cols := hxs.trans (by rw [Array.length_toList, size_columnLabels])
  refine hne (hregular xs hxs (fun i hi => ?_) x hx)
  have hi' := hzero _ (List.mem_map_of_mem (List.mem_range.mpr hi))
  rwa [combination_equations, hxs] at hi'

end SparseMatrix
end WeakForm

/-!
## Determinants

The product of the pivots with the sign of their moves is the determinant, here of matrices with
two rows.
-/

namespace WeakForm

namespace Equation

theorem size_dense (c : ℝ) : Storage.size .dense c = |c| := by
  have hs : (Storage.dense == Storage.sparse) = false := rfl
  simp only [Storage.size, hs, Bool.false_and, Bool.false_eq_true, if_false, abs_real]

theorem pivotProduct_one (e : Equation ℝ) :
    pivotProduct 1 [e] = if e.lead = 0 then none else some e.lead := by
  have heven : (0 % 2 == 0) = true := rfl
  simp only [pivotProduct, pivot?, same_real, decide_eq_true_eq, heven, if_true, Option.map_some,
    mul_one]

theorem lead_of_coefficients {e : Equation ℝ} {a : ℝ} {cs : List ℝ} (h : e.coefficients = a :: cs) :
    e.lead = a := by
  rw [lead, h]
  rfl

/-- Over the reals it makes no difference whether a zero is eliminated or passed over. -/
theorem lead_reduce (harmless : Bool) {p e : Equation ℝ} {a b c d : ℝ}
    (hp : p.coefficients = [a, b]) (he : e.coefficients = [c, d]) :
    (reduce .dense 1 harmless p e).lead = d - c / a * b := by
  have hfinite (x : ℝ) : Scalar.isFinite x = true := rfl
  have hs : (Storage.dense == Storage.sparse) = false := rfl
  unfold reduce
  split
  · rename_i h
    have hc : c = 0 := by
      simp only [same_real, Bool.and_eq_true, decide_eq_true_eq, lead_of_coefficients he] at h
      exact h.1
    simp [lead, he, hc]
  · simp [lead, he, hp, subtract, Storage.quotient, hs, hfinite]

theorem pivot?_two (e₀ e₁ : Equation ℝ) :
    pivot? .dense [e₀, e₁] =
      if |e₀.lead| < |e₁.lead| then some (1, e₁, [e₀]) else some (0, e₀, [e₁]) := by
  simp only [pivot?, size_dense, less_real, decide_eq_true_eq, Nat.zero_add]

theorem pivotProduct_two {e₀ e₁ : Equation ℝ} {a b c d : ℝ} (h₀ : e₀.coefficients = [a, b])
    (h₁ : e₁.coefficients = [c, d]) : (pivotProduct 2 [e₀, e₁]).getD 0 = a * d - b * c := by
  have ha := lead_of_coefficients h₀
  have hc := lead_of_coefficients h₁
  rw [pivotProduct, pivot?_two, ha, hc]
  by_cases hlt : |a| < |c|
  · have hc0 : c ≠ 0 := abs_pos.mp ((abs_nonneg a).trans_lt hlt)
    have hodd : (1 % 2 == 0) = false := rfl
    simp only [if_pos hlt, hc, same_real, decide_eq_true_eq, hc0, if_false, List.map_cons,
      List.map_nil, pivotProduct_one, lead_reduce _ h₁ h₀, hodd, Bool.false_eq_true]
    split_ifs with hminor
    · have hb : b = a / c * d := sub_eq_zero.mp hminor
      rw [hb]
      field_simp
      simp
    · simp only [Option.map_some, Option.getD_some]
      field_simp
      ring
  · have heven : (0 % 2 == 0) = true := rfl
    simp only [if_neg hlt, ha, same_real, decide_eq_true_eq, heven, if_true]
    split_ifs with ha0
    · have hc0 : c = 0 := by
        rw [ha0, abs_zero, abs_pos, not_not] at hlt
        exact hlt
      simp [ha0, hc0]
    · simp only [List.map_cons, List.map_nil, pivotProduct_one, lead_reduce _ h₀ h₁]
      split_ifs with hminor
      · have hd : d = c / a * b := sub_eq_zero.mp hminor
        rw [hd]
        field_simp
        simp
      · simp only [Option.map_some, Option.getD_some]
        field_simp

end Equation

namespace DenseMatrix

theorem det_one {A : DenseMatrix ℝ} (hr : A.rows = 1) (hc : A.cols = 1) :
    A.det = A.entry 0 0 := by
  have heqs : A.equations (fun _ => 0) = [⟨[A.entry 0 0], 0, 0, false⟩] := by
    simp [equations, hr, row, hc, List.range_succ]
  rw [det, heqs, hr, Equation.pivotProduct_one, Equation.lead_of_coefficients rfl]
  split_ifs with h
  · exact h.symm
  · rfl

theorem det_two {A : DenseMatrix ℝ} (hr : A.rows = 2) (hc : A.cols = 2) :
    A.det = A.entry 0 0 * A.entry 1 1 - A.entry 0 1 * A.entry 1 0 := by
  have heqs : A.equations (fun _ => 0) =
      [⟨[A.entry 0 0, A.entry 0 1], 0, 0, false⟩, ⟨[A.entry 1 0, A.entry 1 1], 0, 0, false⟩] := by
    simp [equations, hr, row, hc, List.range_succ]
  rw [det, heqs, hr]
  exact Equation.pivotProduct_two rfl rfl

theorem det_ofFn_two {cols : ℕ} (hc : cols = 2) (g : ℕ → ℕ → ℝ) :
    (ofFn 2 cols g).det = g 0 0 * g 1 1 - g 0 1 * g 1 0 := by
  have hentry {i k : ℕ} (hi : i < 2) (hk : k < 2) : (ofFn 2 cols g).entry i k = g i k :=
    entry_ofFn g hi (hc ▸ hk)
  rw [det_two (A := ofFn 2 cols g) rfl hc, hentry two_pos two_pos, hentry one_lt_two one_lt_two,
    hentry two_pos one_lt_two, hentry one_lt_two two_pos]

end DenseMatrix
end WeakForm
