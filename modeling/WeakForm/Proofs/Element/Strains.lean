import WeakForm.Proofs.RealScalar
import WeakForm.Proofs.Element.Columns
import WeakForm.Proofs.Element.Fields
import WeakForm.Proofs.Element.Placements

/-!
# Strains of vector fields

With several degrees of freedom per node the basis functions act on every component of the nodal values
alone, and where a displacement has as many components as there are coordinates, the derivative matrix
makes engineering strains of them. For other numbers of components there is no derivative matrix. A beam
has functions of its own for both degrees of freedom of a node, so nothing is spread there.
-/

namespace WeakForm

open Finset DenseMatrix

namespace DenseMatrix

/-- Row by row, the entries of a matrix follow each other. -/
theorem getD_toArray (A : DenseMatrix ℝ) (i : ℕ) {j : ℕ} (hj : j < A.cols) :
    A.toArray.toList.getD (i * A.cols + j) 0 = A.entry i j := by
  rw [entry, if_pos hj]
  simp [toArray]

end DenseMatrix

namespace Element

variable {e : Element ℝ} {b : DenseMatrix ℝ}

section Matrices

/-- The normal strains and the shear angles, in the order of the derivative matrix, of a displacement whose
component `c` has the derivative `H k c` in coordinate `k`. -/
noncomputable def engineeringStrain (H : DenseMatrix ℝ) : List ℝ :=
  if H.rows = 2 then [H.entry 0 0, H.entry 1 1, H.entry 0 1 + H.entry 1 0]
  else [H.entry 0 0, H.entry 1 1, H.entry 2 2, H.entry 1 2 + H.entry 2 1, H.entry 0 2 + H.entry 2 0,
    H.entry 0 1 + H.entry 1 0]

variable (hb : b.rows = 2 ∨ b.rows = 3)
include hb

theorem size_strainMatrix : (strainMatrix b).rows = (strains b.rows).length ∧
    (strainMatrix b).cols = b.rows * b.cols := by
  rcases hb with hb | hb <;> simp [strainMatrix, hb]

theorem entry_strainMatrix (i : ℕ) {p c : ℕ} (hp : p < b.cols) (hc : c < b.rows) :
    (strainMatrix b).entry i (p * b.rows + c) =
      (((strains b.rows).getD i []).lookup c).elim 0 fun k => b.entry k p := by
  by_cases hi : i < (strains b.rows).length
  · have hcomponents : (if b.rows = 2 then 2 else 3) = b.rows := by split_ifs <;> omega
    have hlt : p * b.rows + c < (if b.rows = 2 then 2 else 3) * b.cols := by
      rw [hcomponents, mul_comm b.rows]
      exact index_lt hp hc
    refine (entry_ofFn _ hi hlt).trans ?_
    obtain ⟨hnode, hcomponent⟩ := index_div_mod hc p
    rw [hcomponents, hnode, hcomponent]
    cases ((strains b.rows).getD i []).lookup c <;> rfl
  · rw [List.getD_eq_default _ _ (not_lt.mp hi)]
    exact entry_of_rows_le _ ((size_strainMatrix hb).1.trans_le (not_lt.mp hi))

/-- Every strain is the sum of the derivatives that its table lists. -/
theorem times_strainMatrix_eq_sum (u : ℕ → ℝ) (i : ℕ) : (strainMatrix b).times u i =
    ∑ c ∈ range b.rows, (((strains b.rows).getD i []).lookup c).elim 0 fun k =>
      b.times (fun p => u (p * b.rows + c)) k := by
  rw [times, (size_strainMatrix hb).2, mul_comm, sum_range_mul_eq, sum_comm]
  refine sum_congr rfl fun c hc => ?_
  have hentry (p : ℕ) (hp : p ∈ range b.cols) :=
    entry_strainMatrix hb i (mem_range.mp hp) (mem_range.mp hc)
  rw [sum_congr rfl fun p hp => by rw [hentry p hp]]
  cases ((strains b.rows).getD i []).lookup c with
  | none => simp
  | some k => rfl

/-- The derivative matrix makes strains of the components of a field. -/
theorem mulVec_strainMatrix {U : DenseMatrix ℝ} (hU : U.cols = b.rows) :
    (strainMatrix b).mulVec U.toArray.toList = engineeringStrain (b.mul U) := by
  have hcomponent {c : ℕ} (hc : c < b.rows) (k : ℕ) :
      b.times (fun p => U.toArray.toList.getD (p * b.rows + c) 0) k = (b.mul U).entry k c := by
    rw [entry_mul, times]
    refine sum_congr rfl fun p _ => ?_
    rw [← hU, getD_toArray U p (hU ▸ hc)]
  have hstrain (i : ℕ) : (strainMatrix b).times (fun j => U.toArray.toList.getD j 0) i =
      ∑ c ∈ range b.rows, (((strains b.rows).getD i []).lookup c).elim 0 fun k => (b.mul U).entry k c := by
    rw [times_strainMatrix_eq_sum hb]
    refine sum_congr rfl fun c hc => ?_
    cases ((strains b.rows).getD i []).lookup c with
    | none => rfl
    | some k => exact hcomponent (mem_range.mp hc) k
  have hrows : (b.mul U).rows = b.rows := rfl
  rw [mulVec_eq_times, (size_strainMatrix hb).1, engineeringStrain, hrows, List.map_congr_left fun i _ => hstrain i]
  rcases hb with hb | hb <;> rw [hb] <;>
    simp [strains, List.range_succ, sum_range_succ, List.lookup, add_comm]

end Matrices

section Expansions

/-- The matrices of an element act on nodal values, a row of `U` for every node, as the functions of its family
do on each column. -/
structure IsComponentwise (e : Element ℝ) : Prop where
  exists_basis : ∀ ξ : List ℝ, e.family.dim ≤ ξ.length → ∃ n, e.family.basis e.nodes ξ = .ok n
  shape : ∀ ξ n, e.family.basis e.nodes ξ = .ok n → n.length = e.family.nodeCount ∧
    ∃ N, e.shape ξ = .ok N ∧ N.cols = e.dofs ∧ ∀ U : DenseMatrix ℝ, U.rows = e.family.nodeCount →
      U.cols = e.dofsPerNode → N.mulVec U.toArray.toList = U.vecMul n
  strain : ∀ ξ b, e.family.gradient e.nodes ξ = .ok b → b.rows = e.dofsPerNode →
    (e.dofsPerNode = 2 ∨ e.dofsPerNode = 3) ∧ b.cols = e.family.nodeCount ∧
    ∃ B, e.shapeDerivative ξ = .ok B ∧ B.cols = e.dofs ∧ ∀ U : DenseMatrix ℝ, U.rows = e.family.nodeCount →
      U.cols = e.dofsPerNode → B.mulVec U.toArray.toList = engineeringStrain (b.mul U)
  unsupported : ∀ ξ b, e.family.gradient e.nodes ξ = .ok b → b.rows ≠ e.dofsPerNode →
    e.shapeDerivative ξ = .error (.noDerivative e.dofsPerNode b.rows)

/-- With several degrees of freedom per node, the derivative matrix is that of the strains, if there is one. -/
theorem shapeDerivative_of_components (hf : e.family ≠ .beam2) (hdofs : 1 < e.dofsPerNode) (ξ : List ℝ) :
    e.shapeDerivative ξ = e.family.gradient e.nodes ξ >>= fun b =>
      if e.dofsPerNode = b.rows then .ok (strainMatrix b) else .error (.noDerivative e.dofsPerNode b.rows) := by
  rw [shapeDerivative]
  cases hb : e.family.gradient e.nodes ξ with
  | error _ => rfl
  | ok b =>
    have hcount : e.family.functionCount = e.family.nodeCount := if_neg hf
    rw [ok_bind, Family.cols_gradient hb, hcount, expands_nodeCount, decide_eq_true hdofs]
    rfl

/-- The functions of a beam belong to its degrees of freedom, so they are not spread. -/
theorem IsPlaced.shape_beam (he : e.IsPlaced) (hf : e.family = .beam2) (ξ : List ℝ) :
    e.shape ξ = (e.family.basis e.nodes ξ).map (fun n => .ofRows n.length [n]) ∧
      e.shapeDerivative ξ = e.family.gradient e.nodes ξ := by
  have hcount : e.family.functionCount = e.dofs := (if_pos hf).trans (he.dofs_beam hf).symm
  have hexpands : e.expands e.family.functionCount = false := by simp [expands, hcount]
  constructor
  · rw [Element.shape]
    cases hn : e.family.basis e.nodes ξ with
    | error _ => rfl
    | ok n => simp only [ok_bind, Family.length_basis hn, hexpands, Except.map]; rfl
  · rw [Element.shapeDerivative]
    cases hb : e.family.gradient e.nodes ξ with
    | error _ => rfl
    | ok b => simp only [ok_bind, Family.cols_gradient hb, hexpands]; rfl

variable (he : e.IsPlaced) (hdofs : 1 < e.dofsPerNode)
include he hdofs

/-- Several degrees of freedom per node are components, except on beams. -/
theorem IsPlaced.isComponentwise (hf : e.family ≠ .beam2) : e.IsComponentwise := by
  have hcount : e.family.functionCount = e.family.nodeCount := if_neg hf
  have hderivative := shapeDerivative_of_components hf hdofs
  constructor
  · intro ξ hξ
    obtain hpoint | hbeam | hlagrange := e.family.cases_lagrange
    · exact ⟨[1], by rw [hpoint]; rfl⟩
    · exact absurd hbeam hf
    · exact hlagrange.exists_basis_of_length hξ e.nodes
  · intro ξ n hn
    have hlength := (Family.length_basis hn).trans hcount
    obtain ⟨N, hN, hrows, hcols, htimes⟩ := exists_shape hn hlength (Nat.zero_lt_of_lt hdofs)
    refine ⟨hlength, N, hN, hcols, fun U hU hU' => ?_⟩
    rw [mulVec_eq_times, vecMul_eq_blend U (hlength.trans hU.symm), hrows, hU']
    refine List.map_congr_left fun c hc => (htimes _ c (List.mem_range.mp hc)).trans ?_
    refine blend_congr fun p _ => ?_
    rw [← hU', getD_toArray U p (hU' ▸ List.mem_range.mp hc)]
  · intro ξ b hb hrows
    have hle := he.rows_gradient hb hf
    have htwo : b.rows = 2 ∨ b.rows = 3 := by omega
    have hB : e.shapeDerivative ξ = .ok (strainMatrix b) := by
      rw [hderivative, hb, ok_bind, if_pos hrows.symm]
    exact ⟨hrows ▸ htwo, (Family.cols_gradient hb).trans hcount, _, hB, he.cols_shapeDerivative hB,
      fun U _ hU => mulVec_strainMatrix htwo (hU.trans hrows.symm)⟩
  · intro ξ b hb hrows
    rw [hderivative, hb, ok_bind, if_neg (Ne.symm hrows)]

/-- Vector elements act componentwise, and a beam does so at its ends alone. -/
theorem expansion_componentwise : (e.family ≠ .beam2 → e.IsComponentwise) ∧
    (e.family = .beam2 →
      (∀ ξ, e.shape ξ = (e.family.basis e.nodes ξ).map (fun n => .ofRows n.length [n]) ∧
        e.shapeDerivative ξ = e.family.gradient e.nodes ξ) ∧
      ∀ s : ℤ, -2 ≤ s → s < 2 → ∃ side, e.buildSide s = .ok side ∧ side.family = .point ∧
        side.dofsPerNode = 2 ∧ side.IsComponentwise) := by
  refine ⟨he.isComponentwise hdofs, fun hf => ⟨he.shape_beam hf, fun s hlow hhigh => ?_⟩⟩
  have hends : e.family.sideFamily = some .point := by rw [hf]; rfl
  obtain ⟨nodes, hnodes⟩ : ∃ nodes, e.sideNodes s = .ok nodes := by
    rw [sideNodes, hf]
    interval_cases s <;> exact ⟨_, rfl⟩
  obtain ⟨side, hside⟩ := exists_buildSide hends hnodes
  obtain ⟨-, -, hsame, -⟩ := buildSide_eq_ok hside
  have hpoint : side.family = .point := Option.some.inj ((sideFamily_of_buildSide hside).symm.trans hends)
  refine ⟨side, hside, hpoint, hsame.trans (he.fixedDofs 2 (by rw [hf]; rfl)), ?_⟩
  exact (he.of_buildSide hside).isComponentwise (hsame ▸ hdofs) (by rw [hpoint]; decide)

end Expansions

/-- A sloped triangle in space has the strains of a surface everywhere. -/
theorem expansion_componentwise_triangle : let e : Element ℝ :=
      ⟨1, .tri3, .ofRows 3 [[0, 0, 0], [1, 0, 0], [0, 1, 1]], [1, 2, 3], 3, none, rfl, rfl⟩
    (e.IsPlaced ∧ 1 < e.dofsPerNode) ∧ e.IsComponentwise ∧
      ∃ b B, e.family.gradient e.nodes [1 / 3, 1 / 3] = .ok b ∧ b.rows = 3 ∧ e.shapeDerivative [1 / 3, 1 / 3] = .ok B := by
  intro e
  have he : e.IsPlaced := ⟨by decide, nofun, le_rfl⟩
  have hdofs : 1 < e.dofsPerNode := by decide
  have haffine := IsAffine.of_tri3 (e := e) rfl
  have hmeasure : 0 < measure (.ofFn 2 3 fun d k => e.nodes.entry (d + 1) k - e.nodes.entry 0 k) := by
    refine Real.sqrt_pos.mpr ?_
    rw [det_two rfl rfl]
    norm_num [e, entry_mul, transpose, ofRows, entry_ofFn_eq, sum_range_succ]
  obtain ⟨b, hb⟩ := haffine.exists_gradient (by decide) hmeasure (ξ := [1 / 3, 1 / 3]) rfl
  have hrows : b.rows = 3 := Family.IsLagrange.rows_gradient (by decide) e.rows_nodes hb
  have hcomponents := (expansion_componentwise he hdofs).1 (by decide)
  obtain ⟨-, -, B, hB, -⟩ := hcomponents.strain _ _ hb hrows
  exact ⟨⟨he, hdofs⟩, hcomponents, b, B, hb, hrows, hB⟩

end Element
end WeakForm
