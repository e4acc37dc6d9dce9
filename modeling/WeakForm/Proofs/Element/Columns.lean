import WeakForm.Proofs.RealScalar
import WeakForm.Proofs.Element.Gradients
import WeakForm.Proofs.Kernel.Integrals
import WeakForm.Proofs.Linear.PseudoInverse
import WeakForm.Proofs.Mesh.Elements

/-!
# Columns of element matrices

The shape and derivative matrices of the elements of a mesh and of their sides have a column for
every degree of freedom. So the forms of their derivative matrices are stiffness matrices.
-/

namespace WeakForm

open DenseMatrix

namespace Family

variable {f : Family} {nodes J G b : DenseMatrix ℝ} {ξ : List ℝ}

theorem rows_pullBack (h : pullBack J G = .ok b) : b.rows = J.cols := by
  unfold pullBack at h
  split_ifs at h with hsquare
  · split at h
    · rename_i X hX
      cases h
      exact (solveMatrix?_eq_some hX).1.trans hsquare
    · cases h
  · cases h
    change J.pseudoInverse.rows = J.cols
    unfold pseudoInverse
    split_ifs
    · exact (size_wideInverse J).1
    · exact (size_wideInverse J.transpose).2

/-- Derivatives in physical coordinates have a row for every coordinate. -/
theorem IsLagrange.rows_gradient (hf : f.IsLagrange) (hnodes : nodes.rows = f.nodeCount)
    (h : f.gradient nodes ξ = .ok b) : b.rows = nodes.cols := by
  obtain ⟨G, -, h⟩ := hf.gradient_eq_ok hnodes h
  exact (rows_pullBack h).trans rfl

theorem cases_lagrange (f : Family) : f = .point ∨ f = .beam2 ∨ f.IsLagrange := by
  cases f <;> decide

/-- The number of basis functions: one for every node, but two on beams. -/
def functionCount (f : Family) : ℕ := if f = .beam2 then 4 else f.nodeCount

theorem length_basis {n : List ℝ} (h : f.basis nodes ξ = .ok n) : n.length = f.functionCount := by
  unfold basis at h
  split at h
  case h_7 =>
    obtain ⟨L, -, rfl⟩ := map_eq_ok.mp h
    rfl
  case h_8 => cases h
  all_goals
    cases h
    rfl

theorem cols_gradient (h : f.gradient nodes ξ = .ok b) : b.cols = f.functionCount := by
  obtain rfl | rfl | hf := f.cases_lagrange
  · cases h
    rfl
  · cases ξ with
    | nil => cases h
    | cons x ξ =>
      obtain ⟨L, -, h⟩ := bind_eq_ok.mp h
      split_ifs at h
      cases h
      rfl
  · have hbeam : f ≠ .beam2 := by
      rintro rfl
      exact absurd hf (by decide)
    exact (hf.rowsCancel_gradient h).2.trans (if_neg hbeam).symm

end Family

namespace Element

variable {e : Element ℝ} {ξ : List ℝ}

theorem shapeDerivative_of_scalar (hscalar : e.dofsPerNode = 1) (ξ : List ℝ) :
    e.shapeDerivative ξ = e.family.gradient e.nodes ξ := by
  have hexpands (size : ℕ) : e.expands size = false := by simp [expands, hscalar]
  unfold shapeDerivative
  simp only [hexpands]
  exact bind_pure _

theorem rows_shapeDerivative (hf : e.family.IsLagrange) (hscalar : e.dofsPerNode = 1)
    {B : DenseMatrix ℝ} (h : e.shapeDerivative ξ = .ok B) : B.rows = e.nodes.cols := by
  rw [shapeDerivative_of_scalar hscalar] at h
  exact hf.rows_gradient e.rows_nodes h

theorem rows_shape (hscalar : e.dofsPerNode = 1) {N : DenseMatrix ℝ} (hN : e.shape ξ = .ok N) :
    N.rows = 1 := by
  obtain ⟨values, -, hN⟩ := bind_eq_ok.mp hN
  have hexpands : e.expands values.length = false := by simp [expands, hscalar]
  rw [hexpands] at hN
  cases hN
  rfl

/-- The nodes have degrees of freedom, those of a beam two of them, and at most three coordinates. -/
structure IsPlaced (e : Element ℝ) : Prop where
  dofsPerNode_pos : 0 < e.dofsPerNode
  fixedDofs : ∀ fixed, e.family.fixedDofs = some fixed → e.dofsPerNode = fixed
  cols_le : e.nodes.cols ≤ 3

namespace IsPlaced

/-- Functions that are spread over the components of their nodes have a column for every one. -/
theorem dofs_of_expands (he : e.IsPlaced) {size : ℕ} (hsize : size = e.family.nodeCount ∨ size = e.dofs) :
    (if e.expands size then e.dofsPerNode * size else size) = e.dofs := by
  have hpos := he.dofsPerNode_pos
  by_cases hdofs : size = e.dofs
  · simp [expands, hdofs]
  · have hcount := hsize.resolve_right hdofs
    have hone : 1 < e.dofsPerNode := by
      by_contra hle
      exact hdofs (by rw [hcount, dofs, show e.dofsPerNode = 1 by omega, mul_one])
    have hexpands : e.expands size = true := by simp [expands, hdofs, hone]
    rw [hexpands, if_pos rfl, hcount, dofs, mul_comm]

/-- A beam has as many functions as degrees of freedom. -/
theorem dofs_beam (he : e.IsPlaced) (hf : e.family = .beam2) : e.dofs = 4 := by
  rw [dofs, he.fixedDofs 2 (by rw [hf]; rfl), hf]
  rfl

theorem functionCount_eq (he : e.IsPlaced) :
    e.family.functionCount = e.family.nodeCount ∨ e.family.functionCount = e.dofs := by
  by_cases hf : e.family = .beam2
  · exact .inr ((if_pos hf).trans (he.dofs_beam hf).symm)
  · exact .inl (if_neg hf)

theorem cols_shape (he : e.IsPlaced) {N : DenseMatrix ℝ} (h : e.shape ξ = .ok N) : N.cols = e.dofs := by
  obtain ⟨n, hn, h⟩ := bind_eq_ok.mp h
  rw [← he.dofs_of_expands (Family.length_basis hn ▸ he.functionCount_eq)]
  split_ifs at h ⊢ <;> cases h <;> rfl

/-- Where there is no function for every degree of freedom, derivatives are taken in at most three coordinates. -/
theorem rows_gradient (he : e.IsPlaced) {b : DenseMatrix ℝ} (h : e.family.gradient e.nodes ξ = .ok b)
    (hf : e.family ≠ .beam2) : b.rows ≤ 3 := by
  obtain hpoint | hbeam | hlagrange := e.family.cases_lagrange
  · rw [hpoint] at h
    cases h
    exact Nat.zero_le 3
  · exact absurd hbeam hf
  · exact (hlagrange.rows_gradient e.rows_nodes h).trans_le he.cols_le

theorem cols_shapeDerivative (he : e.IsPlaced) {B : DenseMatrix ℝ} (h : e.shapeDerivative ξ = .ok B) :
    B.cols = e.dofs := by
  obtain ⟨b, hb, h⟩ := bind_eq_ok.mp h
  have hcols := Family.cols_gradient hb
  rw [← he.dofs_of_expands (hcols ▸ he.functionCount_eq)]
  cases hexpands : e.expands b.cols with
  | false =>
    rw [hexpands] at h
    cases h
    rfl
  | true =>
    rw [hexpands] at h
    simp only [expands, Bool.and_eq_true, decide_eq_true_eq, bne_iff_ne] at hexpands
    obtain ⟨hone, hne⟩ := hexpands
    have hle := he.rows_gradient hb fun hf =>
      hne (hcols.trans ((if_pos hf).trans (he.dofs_beam hf).symm))
    simp only [Bool.not_true, Bool.false_eq_true, if_false] at h
    split_ifs at h with hrows
    cases h
    have hcomponents : (if b.rows = 2 then 2 else 3) = e.dofsPerNode := by
      split_ifs <;> omega
    exact congrArg (· * b.cols) hcomponents

theorem of_buildSide {side : Element ℝ} {s : ℤ} (he : e.IsPlaced) (h : e.buildSide s = .ok side) :
    side.IsPlaced := by
  obtain ⟨nodes, -, hdofs, -⟩ := buildSide_eq_ok h
  have hfamily := sideFamily_of_buildSide h
  refine ⟨hdofs ▸ he.dofsPerNode_pos, fun fixed hfixed => ?_, ?_⟩
  · revert hfamily hfixed
    cases e.family <;> cases side.family <;> simp [Family.sideFamily, Family.fixedDofs]
  · exact (cols_nodes_of_buildSide h).trans (by decide)

end IsPlaced

end Element

namespace Mesh

variable {m : Mesh ℝ}

theorem WellFormed.isPlaced (hm : m.WellFormed) (hf : m.frozen = true) {c : Cell ℝ}
    (hc : c ∈ m.cells) : c.element.IsPlaced := by
  have hb := hm.built hf
  obtain ⟨hmade, -⟩ := hb.isMade_of_mem hc
  refine ⟨hm.dofsPerNode_pos hf hc, fun fixed hfixed => hb.fixedDofs hc hfixed, ?_⟩
  rw [hmade.nodes_eq]
  exact hm.nodeDim_le

end Mesh

namespace Kernel

variable {defs : Definitions ℝ} {label text name : String} {k : Kernel ℝ} {e : Element ℝ}

theorem isSome_rule (hf : e.family.IsLagrange) : (rule e : Option _).isSome := by
  rw [rule]
  rcases hf.cases with h | h | h | h | h <;> rw [h] <;> rfl

/-- The derivative matrices of scalar Lagrange elements have more than one column. -/
theorem cols_shapeDerivative (hf : e.family.IsLagrange) (hscalar : e.dofsPerNode = 1) {ξ : List ℝ}
    {B : DenseMatrix ℝ} (hB : e.shapeDerivative ξ = .ok B) : B.cols = e.dofs ∧ B.cols ≠ 1 := by
  have hcols := (Element.rowsCancel_shapeDerivative hf hscalar hB).2
  have htwo := hf.two_le_nodeCount
  refine ⟨hcols, ?_⟩
  rw [hcols, Element.dofs, hscalar, mul_one]
  omega

theorem isStiffness_grammian (hk : compile label "B'*B" defs = .ok k) (hf : e.family.IsLagrange)
    (hscalar : e.dofsPerNode = 1) : k.IsStiffness e (DenseMatrix.scalarWeight 1) where
  isCongruence := isCongruence_grammian hk fun _ _ hB => (cols_shapeDerivative hf hscalar hB).2
  cols_eq := fun _ _ hB => (cols_shapeDerivative hf hscalar hB).1
  hasRule := isSome_rule hf

theorem isStiffness_scalar (hk : compile label text defs = .ok k)
    (hparse : Expr.parse text = .ok (sandwich "B" name)) (hreserved : Names.isReserved name = false)
    {x : ℝ} (hname : defs.lookup name = some (.constant (.plain (.real x))))
    (hf : e.family.IsLagrange) (hscalar : e.dofsPerNode = 1) :
    k.IsStiffness e (DenseMatrix.scalarWeight x) where
  isCongruence := isCongruence_scalar hk hparse hreserved
    (Value.isScalar_plain (x := .real x) trivial) hname fun _ _ hB =>
      (cols_shapeDerivative hf hscalar hB).2
  cols_eq := fun _ _ hB => (cols_shapeDerivative hf hscalar hB).1
  hasRule := isSome_rule hf

end Kernel
end WeakForm
