import WeakForm.Proofs.RealScalar
import WeakForm.Proofs.Assembly.Diffusion
import WeakForm.Proofs.Element.LocalProducts
import WeakForm.Proofs.Mesh.Rectangles
import WeakForm.Proofs.Solver.AffineFields
import WeakForm.Proofs.Solver.Problems
import WeakForm.Proofs.Solver.WellPosed

/-!
# The patch test

A field that is affine in the coordinates has a constant flux, and the flux through the sides of the
cells of a grid cancels at all inner nodes. Prescribed on the rim of a rectangle, such a field is
therefore what the solver returns at all nodes.
-/

namespace WeakForm

open Matrix Condition WeakForm.Partition

namespace Grid

section Cells

variable {f : Family} {xlo xhi ylo yhi : ℝ} {nx ny j i : ℕ} {pattern : List (ℕ × ℕ)} {e : Element ℝ}

/-- The mean values on the sides of an element cut from a cell, each times the steps along the side
by rows or by columns. -/
noncomputable def patternSum (f : Family) (pattern : List (ℕ × ℕ)) (along : ℕ × ℕ → ℕ)
    (w : ℕ × ℕ → ℝ) : ℝ :=
  (f.sides.map fun s =>
    let a := pattern.getD (s.getD 0 0) (0, 0)
    let b := pattern.getD (s.getD 1 0) (0, 0)
    (w a + w b) / 2 * ((along b : ℝ) - along a)).sum

/-- The elements of a cell have together the mean differences from side to side. -/
theorem sum_patternSum (hf : IsPlanar f) (w : ℕ × ℕ → ℝ) :
    ((patterns f).map fun pattern => patternSum f pattern Prod.fst w).sum =
        ((w (0, 1) - w (0, 0)) + (w (1, 1) - w (1, 0))) / 2 ∧
      ((patterns f).map fun pattern => patternSum f pattern Prod.snd w).sum =
        ((w (0, 0) - w (1, 0)) + (w (0, 1) - w (1, 1))) / 2 := by
  rcases hf with rfl | rfl <;> simp [patterns, patternSum, Family.sides] <;> constructor <;> ring

variable (hj : j < ny) (hi : i < nx) (hpattern : pattern ∈ patterns f)
  (he : e.IsMade f (Mesh.nodesOf (Mesh.coordinateMatrix (rectangleNodes xlo xhi ylo yhi nx ny))
    (place nx j i pattern)) (place nx j i pattern) 1)
include hj hi hpattern he

/-- The coordinates of a corner. -/
theorem entry_place {p : ℕ} (hp : p < f.nodeCount) :
    e.nodes.entry p 0 = xlo + (i + (pattern.getD p (0, 0)).2 : ℕ) * spacing xlo xhi nx ∧
      e.nodes.entry p 1 = ylo + (j + (pattern.getD p (0, 0)).1 : ℕ) * spacing ylo yhi ny := by
  have hlt : p < pattern.length := (length_of_mem_patterns hpattern).symm ▸ hp
  obtain ⟨hrow, hcolumn⟩ := le_one_of_mem_patterns hpattern _ (List.getElem_mem hlt)
  have hr : j + pattern[p].1 ≤ ny := by omega
  have hc : i + pattern[p].2 ≤ nx := by omega
  rw [List.getD_eq_getElem _ _ hlt, he.nodes_eq]
  exact entry_nodesOf_place xlo xhi ylo yhi (List.getElem?_eq_getElem hlt) hr hc

theorem isPlane_of_isMade (hf : IsPlanar f) (hx : xlo < xhi) (hy : ylo < yhi) : e.IsPlane := by
  have hcols : e.nodes.cols = 2 := by
    rw [he.nodes_eq]
    exact nodeDim_rectangleNodes
  have hentry := fun p hp => entry_place (p := p) hj hi hpattern he hp
  have hpos := mul_pos (spacing_pos hx (Nat.zero_lt_of_lt hi)) (spacing_pos hy (Nat.zero_lt_of_lt hj))
  refine ⟨he.family_eq ▸ hf, hcols, he.dofsPerNode_eq, fun hquad k => ?_, ?_⟩
  · obtain rfl : f = .quad4 := he.family_eq.symm.trans hquad
    obtain rfl := List.mem_singleton.mp hpattern
    obtain ⟨hx0, hy0⟩ := hentry 0 (by decide)
    obtain ⟨hx1, hy1⟩ := hentry 1 (by decide)
    obtain ⟨hx2, hy2⟩ := hentry 2 (by decide)
    obtain ⟨hx3, hy3⟩ := hentry 3 (by decide)
    match k with
    | 0 =>
      rw [hx0, hx1, hx2, hx3]
      exact add_comm _ _
    | 1 =>
      rw [hy0, hy1, hy2, hy3]
      rfl
    | k + 2 =>
      simp only [DenseMatrix.entry_of_cols_le _ (show e.nodes.cols ≤ k + 2 by omega)]
  · obtain ⟨hx0, hy0⟩ := hentry 0 (by rcases hf with rfl | rfl <;> decide)
    obtain ⟨hx1, hy1⟩ := hentry 1 (by rcases hf with rfl | rfl <;> decide)
    obtain ⟨hxl, hyl⟩ := hentry (f.nodeCount - 1) (by rcases hf with rfl | rfl <;> decide)
    rw [he.family_eq, hx0, hy0, hx1, hy1, hxl, hyl]
    rcases hf with rfl | rfl
    · obtain rfl := List.mem_singleton.mp hpattern
      simpa [Family.nodeCount, add_mul] using hpos
    · simp only [patterns, List.mem_cons, List.not_mem_nil, or_false] at hpattern
      rcases hpattern with rfl | rfl <;> simpa [Family.nodeCount, add_mul] using hpos

/-- The value that the element takes at a corner is that at its place of the lattice. -/
theorem valuesOf_place {n : ℕ} (hn : n = (ny + 1) * (nx + 1)) (w : Fin n → ℝ) {p : ℕ}
    (hp : p < f.nodeCount) : e.valuesOf w p = Element.nodal w
      (nodeId (nx + 1) (j + (pattern.getD p (0, 0)).1) (i + (pattern.getD p (0, 0)).2)) := by
  have hlt : p < pattern.length := (length_of_mem_patterns hpattern).symm ▸ hp
  rw [List.getD_eq_getElem _ _ hlt]
  obtain ⟨hrow, hcolumn⟩ := le_one_of_mem_patterns hpattern _ (List.getElem_mem hlt)
  have hr : j + pattern[p].1 ≤ ny := by omega
  have hc : i + pattern[p].2 ≤ nx := by omega
  obtain ⟨hone, hle⟩ := nodeId_bounds hr hc
  refine Element.valuesOf_nodal he.dofsPerNode_eq w ?_ hone (hn ▸ hle)
  rw [he.nodeIds_eq]
  simp [place, hlt]

/-- The sums over the sides of the element are those over its corners. -/
theorem rimSum_valuesOf (hf : IsPlanar f) {n : ℕ} (hn : n = (ny + 1) * (nx + 1)) (w : Fin n → ℝ) :
    e.rimSum (e.valuesOf w) 1 = patternSum f pattern Prod.fst
        (fun o => Element.nodal w (nodeId (nx + 1) (j + o.1) (i + o.2))) * spacing ylo yhi ny ∧
      e.rimSum (e.valuesOf w) 0 = patternSum f pattern Prod.snd
        (fun o => Element.nodal w (nodeId (nx + 1) (j + o.1) (i + o.2))) * spacing xlo xhi nx := by
  have hends {s : List ℕ} (hs : s ∈ f.sides) : s.getD 0 0 < f.nodeCount ∧ s.getD 1 0 < f.nodeCount := by
    revert s
    rcases hf with rfl | rfl <;> decide
  simp only [Element.rimSum, patternSum, he.family_eq, ← List.sum_map_mul_right]
  constructor <;>
  · refine congrArg List.sum (List.map_congr_left fun s hs => ?_)
    obtain ⟨ha, hb⟩ := hends hs
    obtain ⟨hxa, hya⟩ := entry_place hj hi hpattern he ha
    obtain ⟨hxb, hyb⟩ := entry_place hj hi hpattern he hb
    simp only [valuesOf_place hj hi hpattern he hn w ha, valuesOf_place hj hi hpattern he hn w hb, hxa,
      hya, hxb, hyb]
    push_cast
    ring

end Cells

section Sums

variable {f : Family} {nx ny : ℕ} {w : ℕ → ℕ → ℝ}

/-- Against values that vanish on the rim the sums over all elements vanish: row by row and column by
column they telescope to the values at both ends. -/
theorem sum_places_of_rim (hf : IsPlanar f)
    (hrim : ∀ r ≤ ny, ∀ c ≤ nx, r = 0 ∨ r = ny ∨ c = 0 ∨ c = nx → w r c = 0) :
    ((places f nx ny).map fun x =>
        patternSum f x.2.2 Prod.fst fun o => w (x.1 + o.1) (x.2.1 + o.2)).sum = 0 ∧
      ((places f nx ny).map fun x =>
        patternSum f x.2.2 Prod.snd fun o => w (x.1 + o.1) (x.2.1 + o.2)).sum = 0 := by
  rw [sum_places, sum_places]
  constructor
  · refine Finset.sum_eq_zero fun j hj => ?_
    have hj := Finset.mem_range.mp hj
    have hcell (i : ℕ) := (sum_patternSum hf fun o => w (j + o.1) (i + o.2)).1
    simp only [hcell, ← Finset.sum_div, Finset.sum_add_distrib, Nat.add_zero, Finset.sum_range_sub]
    rw [hrim j (by omega) nx le_rfl (by simp), hrim j (by omega) 0 (Nat.zero_le _) (by simp),
      hrim (j + 1) hj nx le_rfl (by simp), hrim (j + 1) hj 0 (Nat.zero_le _) (by simp)]
    norm_num
  · rw [Finset.sum_comm]
    refine Finset.sum_eq_zero fun i hi => ?_
    have hi := Finset.mem_range.mp hi
    have hcell (j : ℕ) := (sum_patternSum hf fun o => w (j + o.1) (i + o.2)).2
    simp only [hcell, ← Finset.sum_div, Finset.sum_add_distrib, Nat.add_zero, Finset.sum_range_sub']
    rw [hrim ny le_rfl i (by omega) (by simp), hrim 0 (Nat.zero_le _) i (by omega) (by simp),
      hrim ny le_rfl (i + 1) hi (by simp), hrim 0 (Nat.zero_le _) (i + 1) hi (by simp)]
    norm_num

end Sums

section Products

variable {f : Family} {xlo xhi ylo yhi : ℝ} {nx ny : ℕ} {m : Mesh ℝ} {k : Kernel ℝ} (hf : IsPlanar f)
  (hx : xlo < xhi) (hy : ylo < yhi)
  (h : m.IsOver (rectangleNodes xlo xhi ylo yhi nx ny) (rectangleCells f nx ny) 1)
include hf hx hy h

theorem forall_planes {P : Element ℝ → Prop} (hP : ∀ e : Element ℝ, e.IsPlane → P e) :
    ∀ c ∈ m.cells, P c.element := by
  refine h.of_mem_cells fun c hc e he => ?_
  obtain ⟨j, hj, i, hi, pattern, hpattern, rfl⟩ := mem_rectangleCells.mp hc
  exact hP e (isPlane_of_isMade hj hi hpattern he hf hx hy)

/-- The fluxes of an affine field balance at all inner nodes. -/
theorem dotProduct_mulVec_rectangle {A : SparseMatrix ℝ}
    (hA : k.IsMatrixOver (m.cells.map Cell.element) m.dofs A) {W : ℕ → ℕ → ℝ}
    (hk : ∀ e : Element ℝ, e.IsPlane → k.IsStiffness e W) {u w : Fin m.dofs → ℝ} (c : ℝ)
    (slopes : ℕ → ℝ) (hu : ∀ row ≤ ny, ∀ col ≤ nx, Element.nodal u (nodeId (nx + 1) row col) =
      c + ((xlo + col * spacing xlo xhi nx) * slopes 0 + (ylo + row * spacing ylo yhi ny) * slopes 1))
    (hw : ∀ row ≤ ny, ∀ col ≤ nx, row = 0 ∨ row = ny ∨ col = 0 ∨ col = nx →
      Element.nodal w (nodeId (nx + 1) row col) = 0) :
    w ⬝ᵥ A.matrix m.dofs *ᵥ u = 0 := by
  have hdofs : m.dofs = (ny + 1) * (nx + 1) := by rw [h.dofs_eq, length_rectangleNodes, mul_one]
  have hcell : ∀ x ∈ places f nx ny, ∀ e : Element ℝ, e.IsMade f
      (Mesh.nodesOf (Mesh.coordinateMatrix (rectangleNodes xlo xhi ylo yhi nx ny))
        (place nx x.1 x.2.1 x.2.2)) (place nx x.1 x.2.1 x.2.2) 1 →
      ∑ p ∈ Finset.range e.dofs, ∑ q ∈ Finset.range e.dofs,
        e.valuesOf w p * (k.matrixOf e).entry p q * e.valuesOf u q =
      patternSum f x.2.2 Prod.fst (fun o => Element.nodal w (nodeId (nx + 1) (x.1 + o.1) (x.2.1 + o.2))) *
          (spacing ylo yhi ny * (W 0 0 * slopes 0 + W 0 1 * slopes 1)) +
        patternSum f x.2.2 Prod.snd (fun o => Element.nodal w (nodeId (nx + 1) (x.1 + o.1) (x.2.1 + o.2))) *
          -(spacing xlo xhi nx * (W 1 0 * slopes 0 + W 1 1 * slopes 1)) := by
    intro x hx' e he
    obtain ⟨hj, hi, hpattern⟩ := mem_places.mp hx'
    have hplane := isPlane_of_isMade hj hi hpattern he hf hx hy
    obtain ⟨hrows, hcolumns⟩ := rimSum_valuesOf hj hi hpattern he hf hdofs w
    have haffine : ∀ p < e.family.nodeCount, e.valuesOf u p = c + e.nodes.times slopes p := by
      intro p hp
      rw [he.family_eq] at hp
      have hlt : p < x.2.2.length := (length_of_mem_patterns hpattern).symm ▸ hp
      obtain ⟨hrow, hcolumn⟩ := le_one_of_mem_patterns hpattern _ (List.getElem_mem hlt)
      obtain ⟨hfirst, hsecond⟩ := entry_place hj hi hpattern he hp
      rw [← List.getD_eq_getElem _ (0, 0) hlt] at hrow hcolumn
      rw [valuesOf_place hj hi hpattern he hdofs u hp, hu _ (by omega) _ (by omega),
        DenseMatrix.times, hplane.cols_eq, Finset.sum_range_succ, Finset.sum_range_one, hfirst, hsecond]
    rw [hplane.sum_matrixOf (hk e hplane) haffine, DenseMatrix.pairing, hrows, hcolumns]
    simp only [Finset.sum_range_succ, Finset.sum_range_zero, if_true, one_ne_zero, if_false]
    ring
  obtain ⟨hrows, hcolumns⟩ := sum_places_of_rim (w := fun r c => Element.nodal w (nodeId (nx + 1) r c)) hf hw
  rw [hA.dotProduct_mulVec, h.sum_cells (rectangleCells_eq f nx ny) hcell, List.sum_map_add,
    List.sum_map_mul_right, List.sum_map_mul_right, hrows, hcolumns, zero_mul, zero_mul, add_zero]

end Products

end Grid

section Weights

/-- A matrix as data, row by row. -/
def Datum.ofMatrix (D : Matrix (Fin 2) (Fin 2) ℝ) : Datum ℝ :=
  .list [.list [.real (D 0 0), .real (D 0 1)], .list [.real (D 1 0), .real (D 1 1)]]

/-- The entries of a matrix, row by row. -/
noncomputable def DenseMatrix.ofMatrix (D : Matrix (Fin 2) (Fin 2) ℝ) : DenseMatrix ℝ :=
  .ofRows 2 [[D 0 0, D 0 1], [D 1 0, D 1 1]]

variable {D : Matrix (Fin 2) (Fin 2) ℝ}

theorem valueOfData_ofMatrix (D : Matrix (Fin 2) (Fin 2) ℝ) :
    Definition.valueOfData (Datum.ofMatrix D) = .ok (.ofTensor (.ofMatrix (.ofMatrix D))) := by
  have hshape : (Datum.ofMatrix D).shape? = some [2, 2] := by
    simp [Datum.ofMatrix, Datum.shape?, Datum.commonShape?]
  have hleaves : (Datum.ofMatrix D).leaves = [.real (D 0 0), .real (D 0 1), .real (D 1 0), .real (D 1 1)] := by
    simp [Datum.ofMatrix, Datum.leaves, Datum.itemLeaves]
  have hentries : (Datum.ofMatrix D).toReals = .ok (.ofMatrix (.ofMatrix D)) := by
    have hvalues : [Datum.real (D 0 0), .real (D 0 1), .real (D 1 0), .real (D 1 1)].mapM Datum.toReal =
        .ok [D 0 0, D 0 1, D 1 0, D 1 1] := by simp [Datum.toReal, pure, Except.pure]
    unfold Datum.toReals Datum.entries
    rw [hshape]
    dsimp only
    rw [if_neg (by decide), hleaves, hvalues, ok_bind, Tensor.reshape?, dif_pos (by rfl)]
    refine congrArg Except.ok (Tensor.ext rfl ?_)
    simp [Tensor.ofArray, Tensor.ofMatrix, DenseMatrix.ofMatrix, DenseMatrix.ofRows, DenseMatrix.ofFn, Array.ofFn_succ]
  change (Datum.ofMatrix D).toReals.map Value.ofTensor = _
  rw [hentries]
  rfl

theorem DenseMatrix.isPositive_ofMatrix (hD : D.PosDef) : IsPositive (ofMatrix D).entry 2 := by
  have hentry (k l : Fin 2) : (ofMatrix D).entry k l = D k l := by
    rw [ofMatrix, entry_ofRows k.isLt l.isLt]
    fin_cases k <;> fin_cases l <;> rfl
  refine ⟨fun k hk l hl => ?_, fun x hx => ?_⟩
  · exact (hentry ⟨k, hk⟩ ⟨l, hl⟩).trans ((hD.isHermitian.apply _ _).symm.trans (hentry ⟨l, hl⟩ ⟨k, hk⟩).symm)
  · obtain ⟨k, hk, hne⟩ := hx
    have hpos := hD.dotProduct_mulVec_pos (x := fun k : Fin 2 => x k) fun hzero =>
      hne (congrFun hzero ⟨k, hk⟩)
    refine hpos.trans_eq ?_
    have h00 : (ofMatrix D).entry 0 0 = D 0 0 := hentry 0 0
    have h01 : (ofMatrix D).entry 0 1 = D 0 1 := hentry 0 1
    have h10 : (ofMatrix D).entry 1 0 = D 1 0 := hentry 1 0
    have h11 : (ofMatrix D).entry 1 1 = D 1 1 := hentry 1 1
    simp only [star_trivial, pairing, dotProduct, Matrix.mulVec, Fin.sum_univ_two, Finset.sum_range_succ,
      Finset.sum_range_zero, h00, h01, h10, h11, Fin.val_zero, Fin.val_one]
    ring

/-- The form `B'*D*B` with a matrix in the middle. -/
theorem Kernel.isStiffness_matrix {defs : Definitions ℝ} {label text name : String} {k : Kernel ℝ}
    {e : Element ℝ} (hk : compile label text defs = .ok k)
    (hparse : Expr.parse text = .ok (sandwich "B" name)) (hreserved : Names.isReserved name = false)
    (hname : defs.lookup name = some (.constant (.ofTensor (.ofMatrix (.ofMatrix D)))))
    (he : e.IsPlane) : k.IsStiffness e (DenseMatrix.ofMatrix D).entry where
  isCongruence := isCongruence_matrix hk hparse hreserved (Value.isMatrix_ofTensor _) rfl
    (show 2 ≠ 1 by decide) hname fun _ _ hB =>
      ⟨(cols_shapeDerivative he.isLagrange he.dofsPerNode_eq hB).2,
        (Element.rows_shapeDerivative he.isLagrange he.dofsPerNode_eq hB).trans he.cols_eq⟩
  cols_eq := fun _ _ hB => (cols_shapeDerivative he.isLagrange he.dofsPerNode_eq hB).1
  hasRule := isSome_rule he.isLagrange

end Weights

namespace Simulation

open Grid SteadyProblem

/-- The problem without a force whose flux is `D` times the gradient, and an affine field on a tag. -/
noncomputable def patchProblem (D : Matrix (Fin 2) (Fin 2) ℝ) (c : ℝ) (slopes : Fin 2 → ℝ)
    (tag : TagId) : SteadyProblem where
  constants := [("D", .ofMatrix D)]
  stiffness := "B'*D*B"
  force := none
  conditions := [onTag tag (.affine c [slopes 0, slopes 1])]

section Patches

variable {f : Family} {xlo xhi ylo yhi c : ℝ} {nx ny : ℕ} {D : Matrix (Fin 2) (Fin 2) ℝ}
  {slopes : Fin 2 → ℝ} {tag : TagId} {m : Mesh ℝ}

section Equations

variable (hf : IsPlanar f) (hx : xlo < xhi) (hy : ylo < yhi)
  (h : m.IsOver (rectangleNodes xlo xhi ylo yhi nx ny) (rectangleCells f nx ny) 1)
include hf hx hy h

/-- The kernel of the problem and its matrix. -/
theorem exists_patchEquations (D : Matrix (Fin 2) (Fin 2) ℝ) (c : ℝ) (slopes : Fin 2 → ℝ) (tag : TagId) :
    ∃ values k A, AreConstants (patchProblem D c slopes tag).constants values ∧
      Kernel.compile "K" "B'*D*B" (definitions values) = .ok k ∧
      Assembly.matrix m k none .triplet = .ok A ∧
      ∀ e : Element ℝ, e.IsPlane → k.IsStiffness e (DenseMatrix.ofMatrix D).entry := by
  have hconstants : AreConstants (patchProblem D c slopes tag).constants
      [("D", .ofTensor (.ofMatrix (.ofMatrix D)))] :=
    { values_eq := .cons ⟨rfl, fun _ => nofun, valueOfData_ofMatrix D⟩ .nil
      valid := List.forall_mem_singleton.mpr (by dsimp only; decide)
      nodup := List.nodup_singleton _
      new := List.forall_mem_singleton.mpr (by dsimp only; decide) }
  obtain ⟨k, hk⟩ := Kernel.exists_compile Kernel.parse_diffusion (hconstants.areNamed .ones).1
    (by simp only [Kernel.sandwich, definitions, List.map_cons, List.map_nil]; decide) "K"
  have hstiffness (e : Element ℝ) (he : e.IsPlane) :
      k.IsStiffness e (DenseMatrix.ofMatrix D).entry :=
    Kernel.isStiffness_matrix hk Kernel.parse_diffusion (by decide) rfl he
  obtain ⟨A, hA⟩ := Assembly.exists_matrix (forall_planes hf hx hy h fun e he =>
    (hstiffness e he).exists_localMatrix he.isDifferentiable)
  exact ⟨_, k, A, hconstants, hk, hA, hstiffness⟩

/-- The problem is solved on every mesh of the rectangle whose exterior alone is tagged. -/
theorem isSolvedBy_patchProblem (hnx : 0 < nx) (hny : 0 < ny) (hD : D.PosDef) (c : ℝ)
    (slopes : Fin 2 → ℝ) {r : Region} (htag : tag.IsPlain) (hregions : m.regions = [(tag.key, r)])
    (hexterior : ∀ k, k ∈ m.regionNodeIds r ↔ ∃ i s ids,
      Mesh.IsExterior (rectangleCells f nx ny) i s ids ∧ k ∈ ids) :
    (patchProblem D c slopes tag).IsSolvedBy m
      (m.nodes.map fun x => c + slopes 0 * x.getD 0 0 + slopes 1 * x.getD 1 0).toArray := by
  have hdofs : m.dofs = (ny + 1) * (nx + 1) := by rw [h.dofs_eq, length_rectangleNodes, mul_one]
  have hcols : (Mesh.coordinateMatrix (rectangleNodes xlo xhi ylo yhi nx ny)).cols = 2 :=
    nodeDim_rectangleNodes
  obtain ⟨values, k, A, hconstants, hk, hA, hstiffness⟩ :=
    exists_patchEquations hf hx hy h D c slopes tag
  have hover := Assembly.isMatrixOver_cells (Assembly.inRange h.reachable h.frozen) hA
  obtain ⟨happlicable, hvalues⟩ := isEssential_onTag c [slopes 0, slopes 1] h.frozen
    htag hregions h.coords_eq h.dofsPerNode_eq (hcols ▸ Nat.two_pos) hcols.ge
  -- the numbers of the nodes on the rim are essential
  have hrim (row col : ℕ) (hrow : row ≤ ny) (hcol : col ≤ nx)
      (hends : row = 0 ∨ row = ny ∨ col = 0 ∨ col = nx) :
      ∃ d, ∃ hd : d < m.dofs, nodeId (nx + 1) row col = (d : ℤ) + 1 ∧
        IsEssential m [onTag tag (.affine c [slopes 0, slopes 1])] d := by
    obtain ⟨hone, hle⟩ := nodeId_bounds hrow hcol
    have hid : nodeId (nx + 1) row col = ((nodeId (nx + 1) row col - 1).toNat : ℤ) + 1 := by omega
    refine ⟨(nodeId (nx + 1) row col - 1).toNat, by omega, hid, ?_⟩
    rw [(hvalues _).1, ← hid, hexterior]
    exact exists_isExterior hf hnx hny hrow hcol hends
  have hregular : IsRegular (A.matrix m.dofs) fun d =>
      IsEssential m [onTag tag (.affine c [slopes 0, slopes 1])] d := by
    obtain ⟨d, hd, -, hessential⟩ := hrim 0 0 (Nat.zero_le _) (Nat.zero_le _) (.inl rfl)
    have hpositive (e : Element ℝ) (he : e.IsPlane) : ∀ q ∈ e.points,
        DenseMatrix.IsPositive (DenseMatrix.ofMatrix D).entry (e.derivativeAt q).rows :=
      fun q hq => he.rows_derivativeAt hq ▸ DenseMatrix.isPositive_ofMatrix hD
    exact isRegular_of_posDef (Kernel.posDef_of_isConnected h.reachable h.frozen h.dofsPerNode_eq
      (forall_planes hf hx hy h fun e he => he.isLagrange) (isConnected_rectangle hf hnx hny h) hA
      (forall_planes hf hx hy h hstiffness) (forall_planes hf hx hy h hpositive) ⟨⟨d, hd⟩, hessential⟩)
  -- the value of the field at a node
  have hfield {d : ℕ} {x : List ℝ} (hd : (rectangleNodes xlo xhi ylo yhi nx ny)[d]? = some x) :
      Field.affineAt c [slopes 0, slopes 1]
          ((Mesh.coordinateMatrix (rectangleNodes xlo xhi ylo yhi nx ny)).entry d) =
        c + slopes 0 * x.getD 0 0 + slopes 1 * x.getD 1 0 := by
    simp [Field.affineAt, Finset.sum_range_succ, Mesh.entry_coordinateMatrix hd, add_assoc]
  obtain ⟨u, hu⟩ : ∃ u : Fin m.dofs → ℝ, u = fun d : Fin m.dofs =>
    c + slopes 0 * ((rectangleNodes xlo xhi ylo yhi nx ny).getD d []).getD 0 0 +
      slopes 1 * ((rectangleNodes xlo xhi ylo yhi nx ny).getD d []).getD 1 0 := ⟨_, rfl⟩
  have hvalue {d : Fin m.dofs} {x : List ℝ}
      (hd : (rectangleNodes xlo xhi ylo yhi nx ny)[(d : ℕ)]? = some x) :
      u d = c + slopes 0 * x.getD 0 0 + slopes 1 * x.getD 1 0 := by
    have hx : (rectangleNodes xlo xhi ylo yhi nx ny).getD d [] = x := by
      rw [List.getD_eq_getElem?_getD, hd, Option.getD_some]
    rw [hu, ← hx]
  rw [h.toArray_nodes rfl, ← hu]
  refine isSolvedBy h.reachable h.frozen hconstants hk hA rfl (List.forall_mem_singleton.mpr happlicable)
    hregular (.of_weak (fun d hd => ?_) fun w hw => ?_)
  · have hlt : (d : ℕ) < (rectangleNodes xlo xhi ylo yhi nx ny).length :=
      d.isLt.trans_eq (hdofs.trans length_rectangleNodes.symm)
    have hnode := List.getElem?_eq_getElem hlt
    exact (hvalue hnode).trans ((hfield hnode).symm.trans ((hvalues d).2 hd).symm)
  · rw [dotProduct_zero]
    refine dotProduct_mulVec_rectangle hf hx hy h hover hstiffness c
      (fun k => if k = 0 then slopes 0 else slopes 1) (fun row hrow col hcol => ?_)
      fun row hrow col hcol hends => ?_
    · obtain ⟨hone, hle⟩ := nodeId_bounds hrow hcol
      have hlt : (nodeId (nx + 1) row col - 1).toNat < m.dofs := by omega
      have hnode := getElem?_rectangleNodes xlo xhi ylo yhi hrow hcol
      rw [Element.nodal, dif_pos hlt, hvalue hnode]
      simp [add_assoc, mul_comm]
    · obtain ⟨d, hd, hid, hessential⟩ := hrim row col hrow hcol hends
      rw [hid, Element.nodal_natCast w hd]
      exact hw _ hessential

end Equations

/-- Over every grid of a rectangle with quadrilaterals or triangles a field that is affine in the
coordinates and prescribed on the whole exterior is what the solver returns at all nodes, for every
constant matrix that is symmetric and positive definite. The reduced matrix is nonsingular. -/
theorem patch_test (hf : IsPlanar f) {space : Datum ℝ} (hspace : Space.dofsPerNode space 2 = .ok 1)
    (hx : xlo < xhi) (hy : ylo < yhi) (hnx : 0 < nx) (hny : 0 < ny) (hD : D.PosDef) (c : ℝ)
    (slopes : Fin 2 → ℝ) (htag : tag.IsPlain) (essential : Bool) :
    ∃ grid r m, rectangleOfData space (.real xlo) (.real xhi) (.real ylo) (.real yhi) (.integer nx)
        (.integer ny) f.name = .ok grid ∧
      grid.freeze.1 = .ok () ∧ grid.freeze.2.addBoundary tag [] essential = (.ok r, m) ∧
      (patchProblem D c slopes tag).IsSolvedBy m
        (m.nodes.map fun x => c + slopes 0 * x.getD 0 0 + slopes 1 * x.getD 1 0).toArray := by
  obtain ⟨hfreeze, hfrozen, hregions⟩ := isOver_rectangle hf hspace hnx hny
  obtain ⟨r, m, hadd, hm, hregions, -, hexterior⟩ := hfrozen.exists_tagExterior hregions htag essential
  exact ⟨_, r, m, rectangleOfData_eq_ok hf space hx hy hnx hny, hfreeze, hadd,
    isSolvedBy_patchProblem hf hx hy hm hnx hny hD c slopes htag hregions hexterior⟩

theorem posDef_skewed : (!![2, 1; 1, 3] : Matrix (Fin 2) (Fin 2) ℝ).PosDef := by
  refine .of_dotProduct_mulVec_pos (by ext i j; fin_cases i <;> fin_cases j <;> simp) fun x hx => ?_
  have hsum : star x ⬝ᵥ !![2, 1; 1, 3] *ᵥ x = x 0 ^ 2 + (x 0 + x 1) ^ 2 + 2 * x 1 ^ 2 := by
    simp only [star_trivial, dotProduct, mulVec, Fin.sum_univ_two, Matrix.of_apply, Matrix.cons_val_zero,
      Matrix.cons_val_one]
    ring
  rw [hsum]
  by_contra hle
  have hfirst : x 0 = 0 := by nlinarith [sq_nonneg (x 0), sq_nonneg (x 0 + x 1), sq_nonneg (x 1)]
  have hsecond : x 1 = 0 := by nlinarith [sq_nonneg (x 0), sq_nonneg (x 0 + x 1), sq_nonneg (x 1)]
  exact hx (by ext i; fin_cases i <;> assumption)

theorem patch_test_of_triangles : ∃ grid r m,
    rectangleOfData (.integer 1) (.real (-1)) (.real 2) (.real 0) (.real 1) (.integer (3 : ℕ))
        (.integer (2 : ℕ)) "Tri3" = .ok grid ∧
      grid.freeze.1 = .ok () ∧ grid.freeze.2.addBoundary (.name "rim") [] false = (.ok r, m) ∧
      (patchProblem !![2, 1; 1, 3] 5 ![1, -4] (.name "rim")).IsSolvedBy m
        (m.nodes.map fun x => 5 + ![1, -4] 0 * x.getD 0 0 + ![1, -4] 1 * x.getD 1 0).toArray :=
  patch_test (.inr rfl) rfl (by norm_num) one_pos (by norm_num) two_pos posDef_skewed 5 ![1, -4]
    (TagId.isPlain_name "rim") false

end Patches

end Simulation

end WeakForm
