import WeakForm.Proofs.RealScalar
import WeakForm.Proofs.Assembly.Energy
import WeakForm.Proofs.Element.Fields

/-!
# Mass matrices

The matrix of `N'*N` on an element of a Lagrange family multiplies two vectors of nodal values by
the integral of the product of the fields they stand for. With one degree of freedom per node, the
entries of the matrix and those of the vector of `N'` add up to the sum of all weights in space.
-/

namespace WeakForm

open Finset

namespace Element

/-- The sum of the weights in space of all points of the rule. -/
noncomputable def totalWeight (e : Element ℝ) : ℝ := (e.points.map e.weightAt).sum

end Element

namespace Kernel

variable {defs : Definitions ℝ} {label : String} {k : Kernel ℝ} {e : Element ℝ}

section Regular

variable (hf : e.family.IsLagrange) (he : e.IsPlaced) (hregular : e.IsRegular)
include hf he hregular

/-- The values of `N'*N` are those of the shape matrix. -/
theorem isQuadratic_mass (hk : compile label "N'*N" defs = .ok k) :
    k.IsQuadratic e (DenseMatrix.scalarWeight 1) e.shapeAt := by
  have hdofs : e.dofs ≠ 1 := by
    have hcount := hf.two_le_nodeCount
    have hle := Nat.le_mul_of_pos_right e.family.nodeCount he.dofsPerNode_pos
    rw [Element.dofs]
    omega
  refine ⟨hregular, isSome_rule hf, fun q hq => ?_, fun q hq => ?_⟩
  · obtain ⟨hshape, -⟩ := Element.shapeAt_spec hf he.dofsPerNode_pos hq
    rw [integrand_square hk parse_square (fun _ => meaning_shape)
      fun ξ N hN => (he.cols_shape hN).trans_ne hdofs]
    exact congrArg (Except.map _) hshape
  · exact he.cols_shape (Element.shapeAt_spec hf he.dofsPerNode_pos hq).1

theorem exists_localMatrix_mass (hk : compile label "N'*N" defs = .ok k) :
    ∃ K, k.localMatrix e = .ok K :=
  (isQuadratic_mass hf he hregular hk).localMatrix.imp fun _ h => h.1

/-- The matrix multiplies nodal values by the integral of the product of their fields. -/
theorem sum_mass (hk : compile label "N'*N" defs = .ok k) (x y : ℕ → ℝ) :
    ∑ p ∈ range e.dofs, ∑ q ∈ range e.dofs, x p * (k.matrixOf e).entry p q * y q =
      (e.points.map fun q => e.weightAt q * ∑ i ∈ range e.dofsPerNode,
        (blend (e.basisAt q) fun p => x (p * e.dofsPerNode + i)) *
          blend (e.basisAt q) fun p => y (p * e.dofsPerNode + i)).sum := by
  rw [(isQuadratic_mass hf he hregular hk).sum_matrixOf]
  refine congrArg List.sum (List.map_congr_left fun q hq => ?_)
  obtain ⟨-, hrows, htimes⟩ := Element.shapeAt_spec hf he.dofsPerNode_pos hq
  rw [DenseMatrix.pairing_scalarWeight, one_mul, hrows]
  congr 1
  apply sum_congr rfl
  intro i hi
  rw [htimes x i (mem_range.mp hi), htimes y i (mem_range.mp hi)]

section Scalars

variable (hscalar : e.dofsPerNode = 1)
include hscalar

theorem sum_mass_one (hk : compile label "N'*N" defs = .ok k) :
    ∑ p ∈ range e.dofs, ∑ q ∈ range e.dofs, (k.matrixOf e).entry p q = e.totalWeight := by
  have hsum := sum_mass hf he hregular hk 1 1
  simp only [Pi.one_apply, one_mul, mul_one] at hsum
  rw [hsum, Element.totalWeight]
  refine congrArg List.sum (List.map_congr_left fun q hq => ?_)
  obtain ⟨-, -, hone⟩ := Element.basisAt_spec hf hq
  have hblend : (blend (e.basisAt q) fun _ => 1) = 1 := hone
  rw [hscalar, sum_range_one, hblend, mul_one, mul_one]

/-- The entries of the vector of `N'` are the integrals of the basis functions. -/
theorem exists_load (hk : compile label "N'" defs = .ok k) : ∃ v, k.localVector e = .ok v ∧
    ∀ p < e.dofs, v.getD p 0 = (e.points.map fun q => e.weightAt q * (e.shapeAt q).entry 0 p).sum := by
  have hshape {q : QuadraturePoint ℝ} (hq : q ∈ e.points) :=
    (Element.shapeAt_spec hf he.dofsPerNode_pos hq).1
  have hcolumn := isColumn_transpose hk (e := e) fun ξ N hN => by
    obtain ⟨n, -, hN⟩ := bind_eq_ok.mp hN
    have hexpands : e.expands n.length = false := by simp [Element.expands, hscalar]
    rw [hexpands] at hN
    cases hN
    rfl
  exact hcolumn.localVector hregular (fun q hq => ⟨_, hshape hq, he.cols_shape (hshape hq)⟩)
    (isSome_rule hf)

/-- The values of `N'` add up to one. -/
theorem sum_load_one (hk : compile label "N'" defs = .ok k) :
    ∑ p ∈ range e.dofs, (k.vectorOf e).getD p 0 = e.totalWeight := by
  obtain ⟨v, hv, hentry⟩ := exists_load hf he hregular hscalar hk
  rw [vectorOf_eq hv, sum_congr rfl fun p hp => hentry p (mem_range.mp hp),
    Element.totalWeight, sum_sum_map]
  refine congrArg List.sum (List.map_congr_left fun q hq => ?_)
  obtain ⟨hN, -, htimes⟩ := Element.shapeAt_spec hf he.dofsPerNode_pos hq
  obtain ⟨-, -, hone⟩ := Element.basisAt_spec hf hq
  have htotal : ∑ p ∈ range e.dofs, (e.shapeAt q).entry 0 p = 1 := by
    have hrow := htimes 1 0 he.dofsPerNode_pos
    simp only [DenseMatrix.times, he.cols_shape hN, Pi.one_apply, mul_one] at hrow
    exact hrow.trans hone
  rw [← mul_sum, htotal, mul_one]

end Scalars

end Regular

end Kernel
end WeakForm
