import WeakForm.Proofs.RealScalar
import WeakForm.Proofs.Assembly.OverSides
import WeakForm.Proofs.Element.Beams
import WeakForm.Proofs.Mesh.Intervals
import WeakForm.Proofs.Solver.Problems

/-!
# Cantilevers

A cantilever is clamped at one end and carries a force and a moment at the other. Its bending moment
is linear, so the work of a beam with any other field is the difference of what the moment and the
force do at its two ends. Added up along the chain only the end with the load is left: the exact
deflections and rotations satisfy the equations, however few beams there are.
-/

namespace WeakForm

open Matrix Condition WeakForm.Partition

section Fields

/-- The exact deflection of a cantilever with the length `L`, the stiffness `EI`, the force `P` and the
moment `Q`. -/
noncomputable def deflection (EI P Q L x : ℝ) : ℝ :=
  P * x ^ 2 * (3 * L - x) / (6 * EI) + Q * x ^ 2 / (2 * EI)

/-- The exact rotation of the cantilever. -/
noncomputable def rotation (EI P Q L x : ℝ) : ℝ :=
  P * x * (2 * L - x) / (2 * EI) + Q * x / EI

/-- The bending moment. -/
def bendingMoment (P Q L x : ℝ) : ℝ := P * (L - x) + Q

open Element

variable {EI P Q L h x : ℝ} {u w : ℕ → ℝ}

/-- A beam that takes the exact values at its ends has the exact curvature all along. -/
theorem curvature_deflection (hEI : 0 < EI) (hh : 0 < h)
    (hstart : u 0 = deflection EI P Q L x ∧ u 1 = rotation EI P Q L x)
    (hend : u 2 = deflection EI P Q L (x + h) ∧ u 3 = rotation EI P Q L (x + h)) (t : ℝ) :
    curvature h u t = bendingMoment P Q L (x + h * (1 + t) / 2) / EI := by
  rw [curvature, hstart.1, hstart.2, hend.1, hend.2, deflection, deflection, rotation, rotation,
    bendingMoment]
  field_simp
  ring

/-- The work of a linear bending moment on a beam is done at its ends. -/
theorem work_eq (hEI : 0 < EI) (hh : 0 < h)
    (hstart : u 0 = deflection EI P Q L x ∧ u 1 = rotation EI P Q L x)
    (hend : u 2 = deflection EI P Q L (x + h) ∧ u 3 = rotation EI P Q L (x + h)) :
    h / 2 * EI * (curvature h w (-gaussPoint) * curvature h u (-gaussPoint) +
        curvature h w gaussPoint * curvature h u gaussPoint) =
      (w 3 * bendingMoment P Q L (x + h) + P * w 2) - (w 1 * bendingMoment P Q L x + P * w 0) := by
  have hsq := gaussPoint_sq
  rw [curvature_deflection hEI hh hstart hend, curvature_deflection hEI hh hstart hend]
  have hcancel (c M : ℝ) : h / 2 * EI * (c * (M / EI)) = c * (h / 2 * M) := by field_simp
  calc h / 2 * EI * (curvature h w (-gaussPoint) *
          (bendingMoment P Q L (x + h * (1 + -gaussPoint) / 2) / EI) +
        curvature h w gaussPoint * (bendingMoment P Q L (x + h * (1 + gaussPoint) / 2) / EI))
      = curvature h w (-gaussPoint) * (h / 2 * bendingMoment P Q L (x + h * (1 + -gaussPoint) / 2)) +
          curvature h w gaussPoint * (h / 2 * bendingMoment P Q L (x + h * (1 + gaussPoint) / 2)) := by
        rw [mul_add, hcancel, hcancel]
    _ = (w 3 - w 1) * bendingMoment P Q L (x + h / 2) -
          P * h / 2 * (6 * (w 0 - w 2) / h + 3 * (w 1 + w 3)) * gaussPoint ^ 2 := by
        unfold curvature bendingMoment
        field_simp
        ring
    _ = _ := by
        rw [hsq]
        unfold bendingMoment
        field_simp
        ring

end Fields

namespace Grid

section Beams

variable {lo hi : ℝ} {n : ℕ} {m : Mesh ℝ} {k : Kernel ℝ}

/-- All cells of the grid of an interval are equally long beams. -/
theorem isBeam_of_isMade (hlt : lo < hi) {i : ℕ} (hi' : i < n) {e : Element ℝ}
    (he : e.IsMade .beam2 (Mesh.nodesOf (Mesh.coordinateMatrix (intervalNodes lo hi n))
      [(i : ℤ) + 1, (i : ℤ) + 2]) [(i : ℤ) + 1, (i : ℤ) + 2] 2) :
    e.IsBeam (spacing lo hi n) := by
  refine ⟨he.family_eq, ?_, he.dofsPerNode_eq, ?_, spacing_pos hlt (Nat.zero_lt_of_lt hi')⟩
  · rw [he.nodes_eq]
    exact nodeDim_intervalNodes
  · rw [he.nodes_eq, entry_nodesOf_interval (i := i + 1) (p := 1) (by simp [add_assoc]) hi',
      entry_nodesOf_interval (i := i) (p := 0) rfl (Nat.le_of_lt hi')]
    push_cast
    ring

variable (h : m.IsOver (intervalNodes lo hi n) (segments .beam2 n) 2)
include h

theorem dofs_beams : m.dofs = (n + 1) * 2 := by rw [h.dofs_eq, length_intervalNodes]

/-- A beam takes four consecutive entries of a vector. -/
theorem valuesOf_beams (w : Fin m.dofs → ℝ) {i : ℕ} (hi' : i < n) {e : Element ℝ}
    (he : e.IsMade .beam2 (Mesh.nodesOf (Mesh.coordinateMatrix (intervalNodes lo hi n))
      [(i : ℤ) + 1, (i : ℤ) + 2]) [(i : ℤ) + 1, (i : ℤ) + 2] 2) :
    ∀ p < 4, e.valuesOf w p = padded w (i * 2 + p) := by
  have hdofs := dofs_beams h
  have hnode (q j : ℕ) (hq : q < 2) (hj : j < 2) :
      e.valuesOf w (q * 2 + j) = padded w (i * 2 + (q * 2 + j)) := by
    have hid : e.nodeIds[q]? = some (((i + q : ℕ) : ℤ) + 1) := by
      rw [he.nodeIds_eq]
      interval_cases q
      · rfl
      · simp [add_assoc]
    have hvalue := Element.valuesOf_padded w hid (i := j) (by rw [he.dofsPerNode_eq]; exact hj)
      (by rw [he.dofsPerNode_eq]; omega)
    rw [he.dofsPerNode_eq] at hvalue
    rw [hvalue]
    congr 1
    ring
  intro p hp
  have hsplit : p = p / 2 * 2 + p % 2 := by omega
  rw [hsplit]
  exact hnode _ _ (by omega) (by omega)

theorem curvature_valuesOf (w : Fin m.dofs → ℝ) {i : ℕ} (hi' : i < n) {e : Element ℝ}
    (he : e.IsMade .beam2 (Mesh.nodesOf (Mesh.coordinateMatrix (intervalNodes lo hi n))
      [(i : ℤ) + 1, (i : ℤ) + 2]) [(i : ℤ) + 1, (i : ℤ) + 2] 2) (x : ℝ) :
    Element.curvature (spacing lo hi n) (e.valuesOf w) x =
      Element.curvature (spacing lo hi n) (fun p => padded w (i * 2 + p)) x := by
  have hvalues := valuesOf_beams h w hi' he
  simp only [Element.curvature, hvalues 0 (by omega), hvalues 1 (by omega), hvalues 2 (by omega),
    hvalues 3 (by omega)]

theorem forall_beams {R : Element ℝ → Prop} (hlt : lo < hi)
    (hR : ∀ e : Element ℝ, e.IsBeam (spacing lo hi n) → R e) : ∀ c ∈ m.cells, R c.element := by
  refine h.of_mem_cells fun c hc e he => ?_
  obtain ⟨i, hi', rfl⟩ := List.mem_map.mp hc
  exact hR e (isBeam_of_isMade hlt (List.mem_range.mp hi') he)

/-- The product of a stiffness matrix with two vectors is the sum of the products of their
curvatures. -/
theorem dotProduct_mulVec_beams (hlt : lo < hi) {A : SparseMatrix ℝ}
    (hA : k.IsMatrixOver (m.cells.map Cell.element) m.dofs A) {EI : ℝ}
    (hk : ∀ e : Element ℝ, e.IsBeam (spacing lo hi n) →
      k.IsStiffness e (DenseMatrix.scalarWeight EI)) (w u : Fin m.dofs → ℝ) :
    w ⬝ᵥ A.matrix m.dofs *ᵥ u = ∑ i ∈ Finset.range n, spacing lo hi n / 2 * EI *
      (Element.curvature (spacing lo hi n) (fun p => padded w (i * 2 + p)) (-Element.gaussPoint) *
          Element.curvature (spacing lo hi n) (fun p => padded u (i * 2 + p)) (-Element.gaussPoint) +
        Element.curvature (spacing lo hi n) (fun p => padded w (i * 2 + p)) Element.gaussPoint *
          Element.curvature (spacing lo hi n) (fun p => padded u (i * 2 + p)) Element.gaussPoint) := by
  rw [hA.dotProduct_mulVec]
  refine h.sum_cells rfl fun i hi' e he => ?_
  have hi' := List.mem_range.mp hi'
  have hbeam := isBeam_of_isMade hlt hi' he
  rw [hbeam.hasSpan.sum_matrixOf (hk e hbeam)]
  simp only [curvature_valuesOf h _ hi' he]

/-- A vector without curvature in any beam that vanishes at the first node is zero. -/
theorem eq_zero_of_curvature (hlt : lo < hi) {w : Fin m.dofs → ℝ} (hstart : padded w 0 = 0)
    (hslope : padded w 1 = 0) (hzero : ∀ e ∈ m.cells.map Cell.element, ∀ q ∈ e.points,
      ∀ i < (e.derivativeAt q).rows, (e.derivativeAt q).times (e.valuesOf w) i = 0) : w = 0 := by
  have hdofs := dofs_beams h
  have hcells := h.forall₂_cells
  have hflat (i : ℕ) (hi' : i < n) (x : ℝ) (hx : ⟨[x], 1 * 1⟩ ∈
      [(⟨[-Element.gaussPoint], 1 * 1⟩ : QuadraturePoint ℝ), ⟨[Element.gaussPoint], 1 * 1⟩]) :
      Element.curvature (spacing lo hi n) (fun p => padded w (i * 2 + p)) x = 0 := by
    have hlt' : i < (segments .beam2 n).length := by simpa [segments] using hi'
    have hcell : i < m.cells.length := hcells.length_eq ▸ hlt'
    obtain ⟨hmade, -⟩ := hcells.get hlt' hcell
    simp only [segments, List.get_eq_getElem, List.getElem_map, List.getElem_range] at hmade
    have hbeam := isBeam_of_isMade hlt hi' hmade
    rw [← hbeam.hasSpan.points_eq] at hx
    have hrow := hzero _ (List.mem_map_of_mem (List.getElem_mem hcell)) _ hx 0
    rw [hbeam.hasSpan.derivativeAt_eq, Element.IsBeam.times_curvature, curvature_valuesOf h w hi' hmade] at hrow
    exact hrow Nat.one_pos
  have hchain (i : ℕ) (hi' : i ≤ n) : padded w (i * 2) = 0 ∧ padded w (i * 2 + 1) = 0 := by
    induction i with
    | zero => exact ⟨hstart, hslope⟩
    | succ i ih =>
      obtain ⟨hdeflection, hrotation⟩ := ih (Nat.le_of_succ_le hi')
      obtain ⟨hturn, hmove⟩ := Element.rigid_of_curvature (spacing_pos hlt (Nat.zero_lt_of_lt hi'))
        (hflat i hi' _ (by simp)) (hflat i hi' _ (by simp))
      constructor
      · rw [show (i + 1) * 2 = i * 2 + 2 by ring, hmove, add_zero, hdeflection, hrotation]
        ring
      · rw [show (i + 1) * 2 + 1 = i * 2 + 3 by ring, hturn, hrotation]
  funext d
  have hd := d.isLt
  obtain ⟨hdeflection, hrotation⟩ := hchain ((d : ℕ) / 2) (by omega)
  rw [← padded_coe w, Pi.zero_apply]
  rcases Nat.mod_two_eq_zero_or_one d with heven | hodd
  · rw [show ((d : ℕ)) = (d : ℕ) / 2 * 2 by omega, hdeflection]
  · rw [show ((d : ℕ)) = (d : ℕ) / 2 * 2 + 1 by omega, hrotation]

/-- A boundary whose only node is the last one has one side: the second one of the last beam. -/
theorem sides_of_tip {tip : TagId} {r : Region} (hr : m.boundary tip = .ok r)
    (hnodes : ∀ j, j ∈ m.regionNodeIds r ↔ j = (n : ℤ) + 1) : r.sides = [(n, 1)] := by
  have hin := Assembly.sidesIn_boundary h.reachable hr
  have hkind := (Assembly.lookup_of_boundary hr).2
  have hplace {i s : ℕ} {c : Cell ℝ} {side : CellSide} (hc : m.cells[i]? = some c)
      (hs : c.sides[s]? = some side) : i < n ∧ s < 2 ∧ c.sideNodeIds side = [(i : ℤ) + s + 1] := by
    rw [← sideOf_segments (f := .beam2) (.inr rfl), ← h.connectivity_eq]
    exact (Mesh.sideOf_eq_some h.reachable.wellFormed h.frozen).mpr ⟨c, side, hc, hs, rfl⟩
  have hsides : ∀ x ∈ r.sides, x = (n, 1) := by
    rintro ⟨id, s⟩ hx
    obtain ⟨hid, c, hc, hs⟩ := hin.exists_cell _ hx
    dsimp only at hid hc hs
    obtain ⟨side, hside⟩ : ∃ side, c.sides[s]? = some side := ⟨_, List.getElem?_eq_getElem hs⟩
    obtain ⟨hi', hs', hids⟩ := hplace hc hside
    have hnode := (hnodes (((id - 1 : ℕ) : ℤ) + s + 1)).mp
      ((Mesh.mem_regionNodeIds hkind).mpr ⟨_, hx, c, side, hc, hside, by rw [hids]; simp⟩)
    rw [Prod.mk.injEq]
    omega
  obtain ⟨x, hx, -⟩ := (Mesh.mem_regionNodeIds hkind).mp ((hnodes _).mpr rfl)
  have hmem : (n, 1) ∈ r.sides := hsides x hx ▸ hx
  exact List.perm_singleton.mp ((List.perm_ext_iff_of_nodup hin.nodup (List.nodup_singleton _)).mpr
    fun x => ⟨fun hx => List.mem_singleton.mpr (hsides x hx),
      fun hx => List.mem_singleton.mp hx ▸ hmem⟩)

/-- The loaded side of the last beam is a point at the last node. -/
theorem exists_tip (hn : 0 < n) {tip : TagId} {r : Region} (hr : m.boundary tip = .ok r)
    (hnodes : ∀ j, j ∈ m.regionNodeIds r ↔ j = (n : ℤ) + 1) :
    ∃ side : Element ℝ, r.sides.mapM m.sideElement = .ok [side] ∧ side.family = .point ∧
      side.dofsPerNode = 2 ∧ side.nodeIds = [(n : ℤ) + 1] := by
  have hcells := h.forall₂_cells
  have hlast : n - 1 < (segments .beam2 n).length := by
    rw [segments, List.length_map, List.length_range]
    omega
  have hcell : n - 1 < m.cells.length := hcells.length_eq ▸ hlast
  obtain ⟨hmade, -⟩ := hcells.get hlast hcell
  simp only [segments, List.get_eq_getElem, List.getElem_map, List.getElem_range] at hmade
  obtain ⟨hcast, hnext⟩ : ((n - 1 : ℕ) : ℤ) + 2 = (n : ℤ) + 1 ∧ n - 1 + 1 = n := by omega
  have hc : m.cell (n : ℤ) = .ok m.cells[n - 1] := by
    have hget := Assembly.cell_eq_ok (List.getElem?_eq_getElem hcell)
    rwa [hnext] at hget
  have hsides : m.cells[n - 1].element.sideNodes ((1 : ℕ) : ℤ) = .ok [1] := by
    rw [Element.sideNodes, hmade.family_eq]
    rfl
  have hfamily : m.cells[n - 1].element.family.sideFamily = some .point := by
    rw [hmade.family_eq]
    rfl
  obtain ⟨side, hside⟩ := Element.exists_buildSide hfamily hsides
  obtain ⟨nodes, hplaces, hdofs, hids⟩ := Element.buildSide_eq_ok hside
  obtain rfl := Except.ok.inj (hsides.symm.trans hplaces)
  refine ⟨side, ?_, ?_, hdofs.trans hmade.dofsPerNode_eq, ?_⟩
  · have helement : m.sideElement (n, 1) = .ok side := by
      rw [Mesh.sideElement, hc, ok_bind]
      exact hside
    rw [sides_of_tip h hr hnodes, List.mapM_cons, List.mapM_nil, helement]
    rfl
  · exact (Option.some.inj ((Element.sideFamily_of_buildSide hside).symm.trans hfamily))
  · rw [hids, hmade.nodeIds_eq, ← hcast]
    rfl

end Beams

end Grid

namespace Simulation

open Grid SteadyProblem

/-- The problem of a cantilever with the force `P` and the moment `Q` at its tip. -/
noncomputable def cantileverProblem (EI P Q : ℝ) (tip : TagId) : SteadyProblem where
  constants := [("EI", .real EI), ("P", .real P), ("Q", .real Q)]
  stiffness := "B'*EI*B"
  force := some ("N'*[P; Q]", some tip)
  conditions := []

variable {EI P Q L : ℝ} {n : ℕ} {m : Mesh ℝ} {tip : TagId}

/-- Added up along the chain, the work of the bending moment is that of the load. -/
theorem sum_work (hL : 0 < L) (hn : 0 < n) (hEI : 0 < EI) {w u : ℕ → ℝ}
    (hu : ∀ i ≤ n, u (i * 2) = deflection EI P Q L (i * spacing 0 L n) ∧
      u (i * 2 + 1) = rotation EI P Q L (i * spacing 0 L n))
    (hstart : w 0 = 0) (hslope : w 1 = 0) :
    ∑ i ∈ Finset.range n, spacing 0 L n / 2 * EI *
      (Element.curvature (spacing 0 L n) (fun p => w (i * 2 + p)) (-Element.gaussPoint) *
          Element.curvature (spacing 0 L n) (fun p => u (i * 2 + p)) (-Element.gaussPoint) +
        Element.curvature (spacing 0 L n) (fun p => w (i * 2 + p)) Element.gaussPoint *
          Element.curvature (spacing 0 L n) (fun p => u (i * 2 + p)) Element.gaussPoint) =
      w (n * 2) * P + w (n * 2 + 1) * Q := by
  let share (i : ℕ) : ℝ :=
    w (i * 2 + 1) * bendingMoment P Q L (i * spacing 0 L n) + P * w (i * 2)
  have hstep : ∀ i ∈ Finset.range n, spacing 0 L n / 2 * EI *
      (Element.curvature (spacing 0 L n) (fun p => w (i * 2 + p)) (-Element.gaussPoint) *
          Element.curvature (spacing 0 L n) (fun p => u (i * 2 + p)) (-Element.gaussPoint) +
        Element.curvature (spacing 0 L n) (fun p => w (i * 2 + p)) Element.gaussPoint *
          Element.curvature (spacing 0 L n) (fun p => u (i * 2 + p)) Element.gaussPoint) =
      share (i + 1) - share i := by
    intro i hi
    have hi := Finset.mem_range.mp hi
    have hnext : ((i + 1 : ℕ) : ℝ) * spacing 0 L n = i * spacing 0 L n + spacing 0 L n := by
      push_cast
      ring
    have hend := hu (i + 1) hi
    rw [hnext, show (i + 1) * 2 = i * 2 + 2 by ring, show i * 2 + 2 + 1 = i * 2 + 3 by ring] at hend
    rw [work_eq hEI (spacing_pos hL hn) (x := i * spacing 0 L n) (hu i hi.le) hend]
    simp only [share, hnext, add_zero, show (i + 1) * 2 = i * 2 + 2 by ring,
      show i * 2 + 2 + 1 = i * 2 + 3 by ring]
  have hlast : bendingMoment P Q L (n * spacing 0 L n) = Q := by
    rw [mul_spacing hn, bendingMoment]
    ring
  rw [Finset.sum_congr rfl hstep, Finset.sum_range_sub share]
  simp only [share, hlast, zero_mul, zero_add, hstart, hslope]
  ring

section Equations

variable (hL : 0 < L) (hn : 0 < n) (h : m.IsOver (intervalNodes 0 L n) (segments .beam2 n) 2)
  {r : Region} (hr : m.boundary tip = .ok r)
  (htip : ∀ j, j ∈ m.regionNodeIds r ↔ j = (n : ℤ) + 1)
include hL hn h hr htip

/-- The equations of a cantilever: the work of the beams on one side, that of the load at the tip on
the other. -/
theorem exists_cantileverEquations (EI P Q : ℝ) : ∃ values k A f,
    AreConstants (cantileverProblem EI P Q tip).constants values ∧
    Kernel.compile "K" "B'*EI*B" (definitions values) = .ok k ∧
    Assembly.matrix m k none .triplet = .ok A ∧
    (cantileverProblem EI P Q tip).IsForce m (definitions values ++ [("K", .kernel k)]) f ∧
    (∀ e : Element ℝ, e.IsBeam (spacing 0 L n) → k.IsStiffness e (DenseMatrix.scalarWeight EI)) ∧
    ∀ w : Fin m.dofs → ℝ, w ⬝ᵥ f = padded w (n * 2) * P + padded w (n * 2 + 1) * Q := by
  have hdofs := dofs_beams h
  have hconstants := areConstants_reals [("EI", EI), ("P", P), ("Q", Q)]
    (by simp only [List.map_cons, List.map_nil]; decide)
    (by simp only [List.map_cons, List.map_nil]; decide)
    (by simp only [List.map_cons, List.map_nil]; decide)
  obtain ⟨k, hk⟩ := Kernel.exists_compile Kernel.parse_bending (hconstants.areNamed .ones).1
    (by simp only [Kernel.sandwich, definitions, List.map_cons, List.map_nil]; decide) "K"
  obtain ⟨l, hl⟩ := Kernel.exists_compile Kernel.parse_pairLoaded (hconstants.areNamed k).2
    (by simp only [Kernel.pairLoaded, definitions, List.map_cons, List.map_nil, List.cons_append,
      List.nil_append]; decide) "f"
  have hstiffness (e : Element ℝ) (he : e.IsBeam (spacing 0 L n)) :
      k.IsStiffness e (DenseMatrix.scalarWeight EI) :=
    he.hasSpan.isStiffness hk Kernel.parse_bending (by decide)
      (Value.isScalar_plain (x := .real EI) trivial) rfl
  obtain ⟨side, hside, hpoint, htwo, hids⟩ := exists_tip h hn hr htip
  have hload : l.IsColumn side fun N i => N.entry 0 i * P + N.entry 1 i * Q :=
    Kernel.isColumn_pairLoaded hl Kernel.parse_pairLoaded (by decide) (by decide) rfl rfl
      fun ξ N hN => by
        rw [Element.shape_end hpoint htwo] at hN
        cases hN
        rfl
  obtain ⟨f, hf, hforce, hmoment⟩ := Element.exists_localVector_end hpoint htwo hload
  obtain ⟨A, hA⟩ := Assembly.exists_matrix (forall_beams h hL fun e he =>
    (hstiffness e he).exists_localMatrix he.hasSpan.isDifferentiable)
  obtain ⟨v, hv⟩ := Assembly.exists_vector_sides hr hside
    fun e he => ⟨f, List.mem_singleton.mp he ▸ hf⟩
  have hvector : l.IsVectorOver [side] m.dofs v := by
    obtain ⟨sides, ⟨r', hr', -, hsides⟩, hover⟩ :=
      Assembly.isVectorOver_tagged h.reachable h.frozen hv
    obtain rfl := Except.ok.inj (hr.symm.trans hr')
    obtain rfl := Except.ok.inj (hside.symm.trans hsides)
    exact hover
  have hplace (w : Fin m.dofs → ℝ) (i : ℕ) (hi : i < 2) :
      side.valuesOf w i = padded w (n * 2 + i) := by
    have hvalue := Element.valuesOf_padded w (e := side) (p := 0) (k := n) (i := i) (by rw [hids]; rfl)
      (by omega) (by rw [htwo]; omega)
    rwa [htwo, zero_mul, zero_add] at hvalue
  refine ⟨_, k, A, fun i => v.getD i 0, hconstants, hk, hA, ⟨l, hl, ?_, ?_⟩, hstiffness, fun w => ?_⟩
  · rintro tag ⟨⟩
    exact ⟨r, hr⟩
  · rw [ofFn_getD hvector.size, hv]
  · have hcount : side.dofs = 2 := by rw [Element.dofs, hpoint, htwo]; rfl
    rw [hvector.dotProduct, List.map_singleton, List.sum_singleton, hcount, Finset.sum_range_succ,
      Finset.sum_range_one, Kernel.vectorOf_eq hf, hforce, hmoment, hplace w 0 Nat.two_pos,
      hplace w 1 Nat.one_lt_two, add_zero]

/-- The problem is solved on every mesh of the interval that is clamped at the start and loaded at the
end. -/
theorem isSolvedBy_cantilever (hEI : 0 < EI) (P Q : ℝ)
    (hclamp : ∀ j, (∃ ids ∈ m.essentialNodes, j ∈ ids) ↔ j = 1) :
    (cantileverProblem EI P Q tip).IsSolvedBy m
      (m.nodes.flatMap fun x =>
        [deflection EI P Q L (x.getD 0 0), rotation EI P Q L (x.getD 0 0)]).toArray := by
  have hdofs := dofs_beams h
  obtain ⟨values, k, A, f, hconstants, hk, hA, hf, hstiffness, hload⟩ :=
    exists_cantileverEquations hL hn h hr htip EI P Q
  have hmatrix := Assembly.isMatrixOver_cells (Assembly.inRange h.reachable h.frozen) hA
  have hessential (d : ℕ) : IsEssential m [] d ↔ d = 0 ∨ d = 1 := by
    have hnode : (d : ℤ) ∈ m.essentialDofs ↔ (d : ℤ) ∈ m.allDofs [1] := by
      simp only [Mesh.essentialDofs, Mesh.allDofs, List.mem_flatMap, List.mem_singleton]
      constructor
      · rintro ⟨ids, hids, j, hj, hd⟩
        exact ⟨1, rfl, (hclamp j).mp ⟨ids, hids, hj⟩ ▸ hd⟩
      · rintro ⟨j, rfl, hd⟩
        obtain ⟨ids, hids, hj⟩ := (hclamp 1).mpr rfl
        exact ⟨ids, hids, 1, hj, hd⟩
    simp only [IsEssential, List.not_mem_nil, false_and, exists_false, false_or, hnode, Mesh.allDofs,
      h.dofsPerNode_eq, List.flatMap_singleton, sub_self, zero_mul, zero_add, List.mem_map,
      List.mem_range, Nat.cast_inj, exists_eq_right]
    omega
  have hflat (w : Fin m.dofs → ℝ) (hw : ∀ d : Fin m.dofs, IsEssential m [] d → w d = 0) :
      padded w 0 = 0 ∧ padded w 1 = 0 := by
    have hzero (d : ℕ) (hd : d < m.dofs) (hfirst : d = 0 ∨ d = 1) : padded w d = 0 :=
      (padded_coe w ⟨d, hd⟩).trans (hw ⟨d, hd⟩ ((hessential d).mpr hfirst))
    exact ⟨hzero 0 (by omega) (.inl rfl), hzero 1 (by omega) (.inr rfl)⟩
  have hregular : IsRegular (A.matrix m.dofs) fun d => IsEssential m [] d := by
    refine isRegular_of_posDef (hmatrix.posDef_toBlock (W := DenseMatrix.scalarWeight EI)
      (fun e he => ?_) (fun _ _ _ _ => DenseMatrix.isPositive_scalarWeight hEI _) fun w hw hzero => ?_)
    · obtain ⟨c, hc, rfl⟩ := List.mem_map.mp he
      exact forall_beams h hL hstiffness c hc
    · exact eq_zero_of_curvature h hL (hflat w hw).1 (hflat w hw).2 hzero
  obtain ⟨u, hu⟩ : ∃ u : Fin m.dofs → ℝ, u = fun d : Fin m.dofs =>
      [deflection EI P Q L (((intervalNodes 0 L n).getD ((d : ℕ) / 2) []).getD 0 0),
        rotation EI P Q L (((intervalNodes 0 L n).getD ((d : ℕ) / 2) []).getD 0 0)].getD ((d : ℕ) % 2) 0 :=
    ⟨_, rfl⟩
  have hnode (i : ℕ) (hi : i ≤ n) :
      padded u (i * 2) = deflection EI P Q L (i * spacing 0 L n) ∧
        padded u (i * 2 + 1) = rotation EI P Q L (i * spacing 0 L n) := by
    have hx : ((intervalNodes 0 L n).getD i []).getD 0 0 = i * spacing 0 L n := by
      rw [List.getD_eq_getElem?_getD (l := intervalNodes 0 L n), getElem?_intervalNodes hi]
      simp
    have hfirst := padded_coe u ⟨i * 2, by omega⟩
    have hsecond := padded_coe u ⟨i * 2 + 1, by omega⟩
    simp only [hu, show i * 2 / 2 = i by omega, show i * 2 % 2 = 0 by omega,
      show (i * 2 + 1) / 2 = i by omega, show (i * 2 + 1) % 2 = 1 by omega, hx, List.getD_cons_zero,
      List.getD_cons_succ] at hfirst hsecond
    rw [hu]
    exact ⟨hfirst, hsecond⟩
  rw [h.toArray_components (by simp), ← hu]
  refine isSolvedBy h.reachable h.frozen hconstants hk hA hf (List.forall_mem_nil _) hregular
    (.of_weak (fun d hd => ?_) fun w hw => ?_)
  · obtain ⟨hdeflection, hrotation⟩ := hnode 0 (Nat.zero_le n)
    simp only [Nat.cast_zero, zero_mul, zero_add, deflection, rotation] at hdeflection hrotation
    have hprescribed : prescribedValue m none [] (d : ℕ) = (0 : ℝ) := rfl
    refine (padded_coe u d).symm.trans (Eq.trans ?_ hprescribed.symm)
    rcases (hessential d).mp hd with hfirst | hsecond
    · rw [hfirst, hdeflection]
      ring
    · rw [hsecond, hrotation]
      ring
  · rw [dotProduct_mulVec_beams h hL hmatrix hstiffness, hload]
    exact sum_work hL hn hEI hnode (hflat w hw).1 (hflat w hw).2

end Equations

/-- A cantilever of any number of beams, clamped at one end and loaded with a force and a moment at the
other, has the exact deflections and rotations at all nodes. The ends are tagged by any calls after
which the essential nodes are those of the first end and the tag of the load has the other one. -/
theorem cantilever_exactness {space : Datum ℝ}
    (hspace : space = .null ∨ Space.dofsPerNode space 1 = .ok 2) (hL : 0 < L) (hn : 0 < n)
    (hEI : 0 < EI) (P Q : ℝ) :
    ∃ grid, intervalOfData space (.real 0) (.real L) (.integer n) "Beam2" = .ok grid ∧
      grid.freeze.1 = .ok () ∧ ∀ m tip r, Relation.ReflTransGen Mesh.Step grid.freeze.2 m →
        (∀ j, (∃ ids ∈ m.essentialNodes, j ∈ ids) ↔ j = 1) → m.boundary tip = .ok r →
        (∀ j, j ∈ m.regionNodeIds r ↔ j = (n : ℤ) + 1) →
        (cantileverProblem EI P Q tip).IsSolvedBy m
          (m.nodes.flatMap fun x =>
            [deflection EI P Q L (x.getD 0 0), rotation EI P Q L (x.getD 0 0)]).toArray := by
  have hsegment : IsSegment .beam2 := .inr rfl
  obtain ⟨space', hgrid, hdofs⟩ := exists_intervalOfData (d := 2) hsegment
    (hspace.imp_left fun h => ⟨h, rfl⟩) hL hn
  obtain ⟨hfreeze, hfrozen, -⟩ := isOver_interval hsegment hdofs
    (fun fixed h => Option.some.inj h) hn
  refine ⟨_, hgrid, hfreeze, fun m tip r hsteps hclamp hr htip => ?_⟩
  exact isSolvedBy_cantilever hL hn (hfrozen.of_steps hsteps) hr htip hEI P Q hclamp

theorem cantilever_of_two_beams :
    ∃ grid r r' m, intervalOfData .null (.real 0) (.real 3) (.integer (2 : ℕ)) "Beam2" = .ok grid ∧
      (grid.freeze.2.addBoundary (.name "root") [.predicate (.isAt 0)] true).1 = .ok r ∧
      (grid.freeze.2.addBoundary (.name "root") [.predicate (.isAt 0)] true).2.addBoundary
        (.name "tip") [.predicate (.isAt 3)] false = (.ok r', m) ∧
      (cantileverProblem 2 5 (-1) (.name "tip")).IsSolvedBy m
        (m.nodes.flatMap fun x =>
          [deflection 2 5 (-1) 3 (x.getD 0 0), rotation 2 5 (-1) 3 (x.getD 0 0)]).toArray := by
  have hsegment : IsSegment .beam2 := .inr rfl
  have hL : (0 : ℝ) < 3 := by norm_num
  obtain ⟨grid, hgrid, -, hall⟩ := cantilever_exactness (.inl rfl) hL Nat.two_pos
    two_pos 5 (-1)
  obtain ⟨space', hlists, hdofs⟩ := exists_intervalOfData (d := 2) hsegment
    (.inl ⟨rfl, rfl⟩) hL Nat.two_pos
  obtain rfl := Except.ok.inj (hgrid.symm.trans hlists)
  obtain ⟨-, hfrozen, hregions⟩ := isOver_interval hsegment hdofs
    (fun fixed h => Option.some.inj h) Nat.two_pos
  obtain ⟨r, m, hroot, hm, hfirst, hkind, hessential, hends⟩ := exists_tagEnd hsegment hfrozen hL
    Nat.two_pos (.inl rfl) (TagId.isPlain_name "root") (by rw [hregions]; rfl) true
  obtain ⟨r', m', htip, hm', hsecond, hkind', hessential', hends'⟩ := exists_tagEnd hsegment hm hL
    Nat.two_pos (.inr rfl) (TagId.isPlain_name "tip")
    (by rw [hfirst, hregions]; rfl) false
  rw [hfirst, hregions, List.nil_append, List.singleton_append] at hsecond
  have hends : ∀ k, k ∈ m'.regionNodeIds r ↔ k = 1 := fun k => by
    rw [Mesh.mem_regionNodeIds_iff hm'.reachable.wellFormed hm'.frozen hkind, hm'.connectivity_eq, hends]
    simp
  have hends' : ∀ k, k ∈ m'.regionNodeIds r' ↔ k = ((2 : ℕ) : ℤ) + 1 := fun k => by
    rw [Mesh.mem_regionNodeIds_iff hm'.reachable.wellFormed hm'.frozen hkind', hm'.connectivity_eq,
      hends']
  have hclamp : ∀ k, (∃ ids ∈ m'.essentialNodes, k ∈ ids) ↔ k = 1 := by
    have hnodes : m'.essentialNodes = [m'.regionNodeIds r] := by
      have hpresent : (TagId.name "root").key ≠ .absent := by decide
      simp [Mesh.essentialNodes, hsecond, hessential, hessential', hpresent]
    simp [hnodes, hends]
  have hboundary : m'.boundary (.name "tip") = .ok r' := by
    have hlookup : m'.regions.lookup (TagId.name "tip").key = some r' := by rw [hsecond]; rfl
    rw [Mesh.boundary, if_neg (TagId.isPlain_name "tip").usable, hlookup]
    simp [Option.filter, hkind']
  have hstart : (0 : ℝ) + (0 : ℕ) * spacing 0 3 2 = 0 := by simp
  have hend : (0 : ℝ) + (2 : ℕ) * spacing 0 3 2 = 3 := by
    rw [mul_spacing Nat.two_pos]
    norm_num
  rw [hstart] at hroot
  rw [hend] at htip
  have hsteps : Relation.ReflTransGen Mesh.Step
      (Mesh.ofLists space' (intervalNodes 0 3 2) (segments .beam2 2)).freeze.2 m' := by
    have hfirstStep := Mesh.Step.addBoundary
      (Mesh.ofLists space' (intervalNodes 0 3 2) (segments .beam2 2)).freeze.2 (.name "root")
      [.predicate (.isAt 0)] true
    have hsecondStep := Mesh.Step.addBoundary m (.name "tip") [.predicate (.isAt 3)] false
    rw [hroot] at hfirstStep
    rw [htip] at hsecondStep
    exact .tail (.single hfirstStep) hsecondStep
  refine ⟨_, r, r', m', hgrid, by rw [hroot], by rw [hroot, htip], ?_⟩
  exact hall m' _ r' hsteps hclamp hboundary hends'

end Simulation
end WeakForm
