import WeakForm.Proofs.RealScalar
import WeakForm.Proofs.Assembly.Diffusion
import WeakForm.Proofs.Element.LocalProducts
import WeakForm.Proofs.Mesh.Intervals
import WeakForm.Proofs.Solver.AffineFields
import WeakForm.Proofs.Solver.Problems
import WeakForm.Proofs.Solver.WellPosed

/-!
# Exact values at the nodes of an interval

On the grid of an interval the equations of the linear segments are the exact balance of the fluxes
and the loads between neighbouring nodes. The flux of the solution of `-D u'' = c` satisfies it, so the
solver returns the exact values at all nodes, however few there are.
-/

namespace WeakForm

open Matrix Condition WeakForm.Partition

namespace Grid

section Products

variable {lo hi : ℝ} {n : ℕ} {m : Mesh ℝ} {k : Kernel ℝ}

/-- All cells of the grid of an interval are equally long. -/
theorem isStraight_of_isMade (hlt : lo < hi) {i : ℕ} (hi' : i < n) {e : Element ℝ}
    (he : e.IsMade .line2 (Mesh.nodesOf (Mesh.coordinateMatrix (intervalNodes lo hi n))
      [(i : ℤ) + 1, (i : ℤ) + 2]) [(i : ℤ) + 1, (i : ℤ) + 2] 1) :
    e.IsStraight (spacing lo hi n) := by
  refine ⟨he.family_eq, ?_, he.dofsPerNode_eq, ?_, spacing_pos hlt (Nat.zero_lt_of_lt hi')⟩
  · rw [he.nodes_eq]
    exact nodeDim_intervalNodes
  · rw [he.nodes_eq, entry_nodesOf_interval (i := i + 1) (p := 1) (by simp [add_assoc]) hi',
      entry_nodesOf_interval (i := i) (p := 0) rfl (Nat.le_of_lt hi')]
    push_cast
    ring

variable (h : m.IsOver (intervalNodes lo hi n) (segments .line2 n) 1)
include h

theorem dofs_interval : m.dofs = n + 1 := by rw [h.dofs_eq, length_intervalNodes, mul_one]

/-- The values that a cell takes from a vector are those at its two nodes. -/
theorem valuesOf_interval (w : Fin m.dofs → ℝ) {i : ℕ} (hi' : i < n) {e : Element ℝ}
    (he : e.IsMade .line2 (Mesh.nodesOf (Mesh.coordinateMatrix (intervalNodes lo hi n))
      [(i : ℤ) + 1, (i : ℤ) + 2]) [(i : ℤ) + 1, (i : ℤ) + 2] 1) :
    e.valuesOf w 0 = Element.nodal w ((i : ℤ) + 1) ∧
      e.valuesOf w 1 = Element.nodal w (((i + 1 : ℕ) : ℤ) + 1) := by
  have hdofs := dofs_interval h
  constructor
  · exact Element.valuesOf_nodal he.dofsPerNode_eq w (by rw [he.nodeIds_eq]; rfl) (by omega)
      (by omega)
  · refine Element.valuesOf_nodal he.dofsPerNode_eq w (p := 1) ?_ (by omega) (by omega)
    rw [he.nodeIds_eq]
    simp [add_assoc]

theorem forall_segments {P : Element ℝ → Prop} (hlt : lo < hi)
    (hP : ∀ e : Element ℝ, e.IsStraight (spacing lo hi n) → P e) : ∀ c ∈ m.cells, P c.element := by
  refine h.of_mem_cells fun c hc e he => ?_
  obtain ⟨i, hi', rfl⟩ := List.mem_map.mp hc
  exact hP e (isStraight_of_isMade hlt (List.mem_range.mp hi') he)

/-- The product of a stiffness matrix with two vectors is the sum of the products of their
differences. -/
theorem dotProduct_mulVec_interval (hlt : lo < hi) {A : SparseMatrix ℝ}
    (hA : k.IsMatrixOver (m.cells.map Cell.element) m.dofs A) {W : ℕ → ℕ → ℝ}
    (hk : ∀ e : Element ℝ, e.IsStraight (spacing lo hi n) → k.IsStiffness e W)
    (w u : Fin m.dofs → ℝ) :
    w ⬝ᵥ A.matrix m.dofs *ᵥ u = ∑ i ∈ Finset.range n,
      (Element.nodal w (((i + 1 : ℕ) : ℤ) + 1) - Element.nodal w ((i : ℤ) + 1)) * W 0 0 *
        ((Element.nodal u (((i + 1 : ℕ) : ℤ) + 1) - Element.nodal u ((i : ℤ) + 1)) /
          spacing lo hi n) := by
  rw [hA.dotProduct_mulVec]
  refine h.sum_cells rfl fun i hi' e he => ?_
  have hi' := List.mem_range.mp hi'
  have hstraight := isStraight_of_isMade hlt hi' he
  obtain ⟨hw0, hw1⟩ := valuesOf_interval h w hi' he
  obtain ⟨hu0, hu1⟩ := valuesOf_interval h u hi' he
  rw [hstraight.sum_matrixOf (hk e hstraight), hw0, hw1, hu0, hu1]

/-- A constant load is shared by the nodes of every cell. -/
theorem dotProduct_load_interval (hlt : lo < hi) {v : Array ℝ}
    (hv : k.IsVectorOver (m.cells.map Cell.element) m.dofs v) {c : ℝ}
    (hk : ∀ e : Element ℝ, e.IsStraight (spacing lo hi n) → k.IsColumn e fun N i => c * N.entry 0 i)
    (w : Fin m.dofs → ℝ) :
    (w ⬝ᵥ fun i : Fin m.dofs => v.getD i 0) = ∑ i ∈ Finset.range n,
      (Element.nodal w ((i : ℤ) + 1) + Element.nodal w (((i + 1 : ℕ) : ℤ) + 1)) *
        (c * spacing lo hi n / 2) := by
  rw [hv.dotProduct]
  refine h.sum_cells rfl fun i hi' e he => ?_
  have hi' := List.mem_range.mp hi'
  have hstraight := isStraight_of_isMade hlt hi' he
  obtain ⟨hw0, hw1⟩ := valuesOf_interval h w hi' he
  obtain ⟨f, hf, hvalue⟩ := hstraight.exists_localVector (hk e hstraight)
  rw [hstraight.dofs_eq, Finset.sum_range_succ, Finset.sum_range_one, Kernel.vectorOf_eq hf,
    hvalue 0 Nat.two_pos, hvalue 1 Nat.one_lt_two, hw0, hw1, ← add_mul]

end Products

end Grid

/-- The affine field with the given values at two points of the line. -/
noncomputable def Field.through (a b alpha beta : ℝ) : Field ℝ :=
  .affine (alpha - (beta - alpha) / (b - a) * a) [(beta - alpha) / (b - a)]

/-- The solution of `-D u'' = c` with the given values at two points. -/
noncomputable def parabola (D c a b alpha beta x : ℝ) : ℝ :=
  alpha + (beta - alpha) * (x - a) / (b - a) + c * (x - a) * (b - x) / (2 * D)

namespace Simulation

open Grid SteadyProblem

section Exactness

variable {a b D c alpha beta : ℝ} {n : ℕ}

theorem parabola_ends (D c alpha beta : ℝ) (hab : a < b) :
    parabola D c a b alpha beta a = alpha ∧ parabola D c a b alpha beta b = beta := by
  have hne : b - a ≠ 0 := (sub_pos.mpr hab).ne'
  constructor
  · simp [parabola]
  · rw [parabola, sub_self, mul_zero, zero_div, add_zero, mul_div_cancel_right₀ _ hne]
    ring

theorem parabola_balance (hD : 0 < D) (x : ℝ) :
    -D * deriv (deriv (parabola D c a b alpha beta)) x = c := by
  have hfirst : deriv (parabola D c a b alpha beta) =
      fun x => (beta - alpha) / (b - a) + c * (a + b - 2 * x) / (2 * D) := by
    funext x
    have hline : HasDerivAt (fun x => alpha + (beta - alpha) * (x - a) / (b - a))
        ((beta - alpha) * 1 / (b - a)) x :=
      ((((hasDerivAt_id x).sub_const a).const_mul _).div_const _).const_add _
    have hbow : HasDerivAt (fun x => c * (x - a) * (b - x) / (2 * D))
        ((c * 1 * (b - x) + c * (x - a) * (-1)) / (2 * D)) x :=
      ((((hasDerivAt_id x).sub_const a).const_mul c).mul ((hasDerivAt_id x).const_sub b)).div_const _
    have hsum : HasDerivAt (parabola D c a b alpha beta) _ x := hline.add hbow
    rw [hsum.deriv]
    ring
  have hsecond : HasDerivAt (fun x => (beta - alpha) / (b - a) + c * (a + b - 2 * x) / (2 * D))
      (c * (-(2 * 1)) / (2 * D)) x :=
    ((((hasDerivAt_id x).const_mul 2).const_sub _).const_mul c).div_const _ |>.const_add _
  rw [hfirst, hsecond.deriv]
  field_simp

/-- The flux at the nodes, so that a cell changes it by half of its load at both nodes. -/
theorem parabola_step (hD : 0 < D) {x h : ℝ} (hh : 0 < h) (w w' : ℝ) :
    (w' - w) * D * ((parabola D c a b alpha beta (x + h) - parabola D c a b alpha beta x) / h) -
        (w + w') * (c * h / 2) =
      w' * (D * (beta - alpha) / (b - a) + c / 2 * (a + b - 2 * (x + h))) -
        w * (D * (beta - alpha) / (b - a) + c / 2 * (a + b - 2 * x)) := by
  have hslope : D * ((parabola D c a b alpha beta (x + h) - parabola D c a b alpha beta x) / h) =
      D * (beta - alpha) / (b - a) + c / 2 * (a + b - 2 * x - h) := by
    unfold parabola
    field_simp
    ring
  rw [mul_assoc (w' - w), hslope]
  ring

/-- Against vectors that vanish at both ends the exact values balance the loads: from node to node the
difference of both sides is that of the flux. -/
theorem sum_parabola (hab : a < b) (hn : 0 < n) (hD : 0 < D) {w u : ℕ → ℝ}
    (hu : ∀ i ≤ n, u i = parabola D c a b alpha beta (a + i * spacing a b n))
    (hfirst : w 0 = 0) (hlast : w n = 0) :
    ∑ i ∈ Finset.range n, (w (i + 1) - w i) * D * ((u (i + 1) - u i) / spacing a b n) =
      ∑ i ∈ Finset.range n, (w i + w (i + 1)) * (c * spacing a b n / 2) := by
  let flux (i : ℕ) : ℝ :=
    w i * (D * (beta - alpha) / (b - a) + c / 2 * (a + b - 2 * (a + i * spacing a b n)))
  have hstep : ∀ i ∈ Finset.range n, (w (i + 1) - w i) * D * ((u (i + 1) - u i) / spacing a b n) -
      (w i + w (i + 1)) * (c * spacing a b n / 2) = flux (i + 1) - flux i := by
    intro i hi
    have hi := Finset.mem_range.mp hi
    have hnext : a + ((i + 1 : ℕ) : ℝ) * spacing a b n = a + i * spacing a b n + spacing a b n := by
      push_cast
      ring
    rw [hu i hi.le, hu (i + 1) hi, hnext, parabola_step hD (spacing_pos hab hn)]
    simp only [flux, hnext]
  rw [← sub_eq_zero, ← Finset.sum_sub_distrib, Finset.sum_congr rfl hstep, Finset.sum_range_sub]
  simp [flux, hfirst, hlast]

/-- The problem `-D u'' = c` with the given values at two points of the line. -/
noncomputable def lineProblem (D c a b alpha beta : ℝ) (tag : TagId) : SteadyProblem where
  constants := [("D", .real D), ("c", .real c)]
  stiffness := "B'*D*B"
  force := some ("c*N'", none)
  conditions := [onTag tag (.through a b alpha beta)]

variable {m : Mesh ℝ} {tag : TagId}

section Equations

variable (hab : a < b) (hn : 0 < n) (hD : 0 < D)
  (h : m.IsOver (intervalNodes a b n) (segments .line2 n) 1)
include hab h

/-- The equations of the problem: the flux from node to node on one side, the loads of the cells on
the other. -/
theorem exists_lineEquations (D c alpha beta : ℝ) (tag : TagId) : ∃ values k A f,
    AreConstants (lineProblem D c a b alpha beta tag).constants values ∧
    Kernel.compile "K" "B'*D*B" (definitions values) = .ok k ∧
    Assembly.matrix m k none .triplet = .ok A ∧
    (lineProblem D c a b alpha beta tag).IsForce m (definitions values ++ [("K", .kernel k)]) f ∧
    (∀ x ∈ m.cells, k.IsStiffness x.element (DenseMatrix.scalarWeight D)) ∧
    (∀ w u : Fin m.dofs → ℝ, w ⬝ᵥ A.matrix m.dofs *ᵥ u = ∑ i ∈ Finset.range n,
      (Element.nodal w (((i + 1 : ℕ) : ℤ) + 1) - Element.nodal w ((i : ℤ) + 1)) * D *
        ((Element.nodal u (((i + 1 : ℕ) : ℤ) + 1) - Element.nodal u ((i : ℤ) + 1)) / spacing a b n)) ∧
    ∀ w : Fin m.dofs → ℝ, w ⬝ᵥ f = ∑ i ∈ Finset.range n,
      (Element.nodal w ((i : ℤ) + 1) + Element.nodal w (((i + 1 : ℕ) : ℤ) + 1)) *
        (c * spacing a b n / 2) := by
  have hrange := Assembly.inRange h.reachable h.frozen
  have hconstants := areConstants_reals [("D", D), ("c", c)]
    (by simp only [List.map_cons, List.map_nil]; decide)
    (by simp only [List.map_cons, List.map_nil]; decide)
    (by simp only [List.map_cons, List.map_nil]; decide)
  obtain ⟨k, hk⟩ := Kernel.exists_compile Kernel.parse_diffusion (hconstants.areNamed .ones).1
    (by simp only [Kernel.sandwich, definitions, List.map_cons, List.map_nil]; decide) "K"
  obtain ⟨l, hl⟩ := Kernel.exists_compile Kernel.parse_loaded (hconstants.areNamed k).2
    (by simp only [Kernel.loaded, definitions, List.map_cons, List.map_nil, List.cons_append,
      List.nil_append]; decide) "f"
  have hstiffness (e : Element ℝ) (he : e.IsStraight (spacing a b n)) :
      k.IsStiffness e (DenseMatrix.scalarWeight D) :=
    Kernel.isStiffness_scalar hk Kernel.parse_diffusion (by decide) rfl he.isLagrange he.dofsPerNode_eq
  have hload (e : Element ℝ) (he : e.IsStraight (spacing a b n)) :
      l.IsColumn e fun N i => c * N.entry 0 i :=
    Kernel.isColumn_loaded hl (x := .real c) trivial rfl fun _ _ => Element.rows_shape he.dofsPerNode_eq
  obtain ⟨A, hA⟩ := Assembly.exists_matrix (forall_segments h hab fun e he =>
    (hstiffness e he).exists_localMatrix he.isDifferentiable)
  obtain ⟨v, hv⟩ := Assembly.exists_vector (forall_segments h hab fun e he =>
    (he.exists_localVector (hload e he)).imp fun _ hf => hf.1)
  have hmatrix := Assembly.isMatrixOver_cells hrange hA
  have hvector := Assembly.isVectorOver_cells hrange hv
  refine ⟨_, k, A, fun i => v.getD i 0, hconstants, hk, hA,
    ⟨l, hl, fun _ h => absurd h (Option.some_ne_none _).symm, by rw [ofFn_getD hvector.size, hv]⟩,
    forall_segments h hab hstiffness,
    fun w u => ?_, dotProduct_load_interval h hab hvector hload⟩
  rw [dotProduct_mulVec_interval h hab hmatrix hstiffness, DenseMatrix.scalarWeight, if_pos rfl]

include hn

/-- The affine field prescribes the given values at both ends. -/
theorem prescribes_through {r : Region} (htag : tag.IsPlain) (hregions : m.regions = [(tag.key, r)])
    (hends : ∀ k, k ∈ m.regionNodeIds r ↔ k = 1 ∨ k = (n : ℤ) + 1) :
    (onTag tag (.through a b alpha beta)).Applicable m none ∧
    (∀ d : ℕ, IsEssential m [onTag tag (.through a b alpha beta)] d ↔ d = 0 ∨ d = n) ∧
    prescribedValue m none [onTag tag (.through a b alpha beta)] 0 = alpha ∧
    prescribedValue m none [onTag tag (.through a b alpha beta)] n = beta := by
  have hcols : (Mesh.coordinateMatrix (intervalNodes a b n)).cols = 1 := nodeDim_intervalNodes
  obtain ⟨happlicable, hvalues⟩ := isEssential_onTag (alpha - (beta - alpha) / (b - a) * a)
    [(beta - alpha) / (b - a)] h.frozen htag hregions h.coords_eq h.dofsPerNode_eq
    (hcols ▸ Nat.one_pos) hcols.ge
  have hessential (d : ℕ) : IsEssential m [onTag tag (.through a b alpha beta)] d ↔ d = 0 ∨ d = n := by
    rw [Field.through, (hvalues d).1, hends]
    omega
  have hvalue (d : ℕ) (hd : d = 0 ∨ d = n) :
      prescribedValue m none [onTag tag (.through a b alpha beta)] d =
        alpha + (beta - alpha) / (b - a) * (d * spacing a b n) := by
    have hx : (Mesh.coordinateMatrix (intervalNodes a b n)).entry d 0 = a + d * spacing a b n :=
      Mesh.entry_coordinateMatrix (getElem?_intervalNodes (by omega)) 0
    refine ((hvalues d).2 ((hessential d).mpr hd)).trans ?_
    simp only [Field.affineAt, List.length_singleton, Finset.sum_range_one, List.getD_cons_zero, hx]
    ring
  refine ⟨happlicable, hessential, ?_, ?_⟩
  · simpa using hvalue 0 (.inl rfl)
  · rw [hvalue n (.inr rfl), mul_spacing hn, div_mul_cancel₀ _ (sub_pos.mpr hab).ne']
    ring

include hD

/-- The problem is solved on every mesh of the interval whose ends alone are tagged. -/
theorem isSolvedBy_lineProblem (c alpha beta : ℝ) {r : Region} (htag : tag.IsPlain)
    (hregions : m.regions = [(tag.key, r)])
    (hends : ∀ k, k ∈ m.regionNodeIds r ↔ k = 1 ∨ k = (n : ℤ) + 1) :
    (lineProblem D c a b alpha beta tag).IsSolvedBy m
      (m.nodes.map fun x => parabola D c a b alpha beta (x.getD 0 0)).toArray := by
  have hdofs := dofs_interval h
  obtain ⟨values, k, A, f, hconstants, hk, hA, hf, hstiffness, hmatrix, hload⟩ :=
    exists_lineEquations hab h D c alpha beta tag
  obtain ⟨happlicable, hessential, hstart, hend⟩ := prescribes_through
    hab hn h htag hregions hends
  have hregular : IsRegular (A.matrix m.dofs) fun d =>
      IsEssential m [onTag tag (.through a b alpha beta)] d :=
    isRegular_of_posDef (Kernel.posDef_of_isConnected h.reachable h.frozen h.dofsPerNode_eq
      (forall_segments h hab fun e he => he.isLagrange) (isConnected_segments length_intervalNodes h) hA
      hstiffness (fun _ _ _ _ => DenseMatrix.isPositive_scalarWeight hD _)
      ⟨⟨0, by omega⟩, (hessential 0).mpr (.inl rfl)⟩)
  obtain ⟨u, hu⟩ : ∃ u : Fin m.dofs → ℝ, u = fun d : Fin m.dofs =>
    parabola D c a b alpha beta (((intervalNodes a b n).getD d []).getD 0 0) := ⟨_, rfl⟩
  have hnode (i : ℕ) (hi : i ≤ n) (hi' : i < m.dofs) :
      u ⟨i, hi'⟩ = parabola D c a b alpha beta (a + i * spacing a b n) := by
    have hx : (intervalNodes a b n).getD i [] = [a + i * spacing a b n] := by
      rw [List.getD_eq_getElem?_getD, getElem?_intervalNodes hi, Option.getD_some]
    rw [hu]
    exact congrArg (fun x : List ℝ => parabola D c a b alpha beta (x.getD 0 0)) hx
  rw [h.toArray_nodes rfl, ← hu]
  refine isSolvedBy h.reachable h.frozen hconstants hk hA hf (List.forall_mem_singleton.mpr happlicable)
    hregular (.of_weak (fun d hd => ?_) fun w hw => ?_)
  · obtain ⟨d, hlt⟩ := d
    obtain ⟨hfirst, hlast⟩ := parabola_ends D c alpha beta hab
    rcases (hessential d).mp hd with rfl | rfl
    · rw [hnode 0 (Nat.zero_le n) hlt, Nat.cast_zero, zero_mul, add_zero, hfirst]
      exact hstart.symm
    · rw [hnode d le_rfl hlt, mul_spacing hn, add_sub_cancel, hlast]
      exact hend.symm
  · have hzero (i : ℕ) (hi : i < m.dofs) (hends : i = 0 ∨ i = n) : Element.nodal w ((i : ℤ) + 1) = 0 :=
      (Element.nodal_natCast w hi).trans (hw _ ((hessential i).mpr hends))
    rw [hmatrix, hload]
    exact sum_parabola (w := fun i => Element.nodal w ((i : ℤ) + 1))
      (u := fun i => Element.nodal u ((i : ℤ) + 1)) hab hn hD
      (fun i hi => (Element.nodal_natCast u (by omega)).trans (hnode i hi (by omega)))
      (hzero 0 (by omega) (.inl rfl)) (hzero n (by omega) (.inr rfl))

end Equations

/-- Over the grid of an interval with two-node segments, however few there are, the solver returns
the exact solution of `-D u'' = c` at all nodes. The values at both ends are prescribed by an affine
field on the whole exterior, whether its tag is essential or natural. -/
theorem nodal_exactness {space : Datum ℝ} (hspace : space = .null ∨ Space.dofsPerNode space 1 = .ok 1)
    (hab : a < b) (hn : 0 < n) (hD : 0 < D) (c alpha beta : ℝ) (htag : tag.IsPlain)
    (essential : Bool) :
    (parabola D c a b alpha beta a = alpha ∧ parabola D c a b alpha beta b = beta ∧
      ∀ x, -D * deriv (deriv (parabola D c a b alpha beta)) x = c) ∧
    ∃ grid r m, intervalOfData space (.real a) (.real b) (.integer n) "Line2" = .ok grid ∧
      grid.freeze.1 = .ok () ∧ grid.freeze.2.addBoundary tag [] essential = (.ok r, m) ∧
      (lineProblem D c a b alpha beta tag).IsSolvedBy m
        (m.nodes.map fun x => parabola D c a b alpha beta (x.getD 0 0)).toArray := by
  obtain ⟨hstart, hend⟩ := parabola_ends D c alpha beta hab
  refine ⟨⟨hstart, hend, parabola_balance hD⟩, ?_⟩
  have hsegment : IsSegment .line2 := .inl rfl
  obtain ⟨space', hgrid, hdofs⟩ := exists_intervalOfData (d := 1) hsegment
    (hspace.imp_left fun h => ⟨h, rfl⟩) hab hn
  obtain ⟨hfreeze, hfrozen, hregions⟩ := isOver_interval hsegment hdofs
    (fun _ h => nomatch h) hn
  obtain ⟨r, m, hadd, hm, hregions, -, hexterior⟩ := hfrozen.exists_tagExterior hregions htag essential
  refine ⟨_, r, m, hgrid, hfreeze, hadd, ?_⟩
  exact isSolvedBy_lineProblem hab hn hD hm c alpha beta htag hregions fun k =>
    (hexterior k).trans (mem_exterior_segments hsegment hn)

theorem nodal_exactness_of_three_segments :
    ∃ grid r m, intervalOfData .null (.real (-1)) (.real 2) (.integer (3 : ℕ)) "Line2" = .ok grid ∧
      grid.freeze.1 = .ok () ∧ grid.freeze.2.addBoundary (.name "ends") [] false = (.ok r, m) ∧
      (lineProblem 2 5 (-1) 2 1 (-4) (.name "ends")).IsSolvedBy m
        (m.nodes.map fun x => parabola 2 5 (-1) 2 1 (-4) (x.getD 0 0)).toArray :=
  (nodal_exactness (.inl rfl) (by norm_num) (by norm_num) two_pos 5 1 (-4) (TagId.isPlain_name "ends")
    false).2

end Exactness

end Simulation
end WeakForm
