import WeakForm.Proofs.RealScalar
import WeakForm.Proofs.Assembly.Diffusion
import WeakForm.Proofs.Assembly.Strategies
import WeakForm.Proofs.Element.Measures
import WeakForm.Proofs.Mesh.Grids

/-!
# Conservation of lengths and areas

With one degree of freedom per node the basis functions of all elements at a point add up to one. So the
entries of the assembled matrix of `N'*N`, and those of the assembled vector of `N'`, add up to the sum
of the weights in space of all points, which is the length or the area of the mesh. Over a tagged
boundary of a plane mesh it is the length of the tagged sides.
-/

namespace WeakForm

open Finset Matrix

namespace Mesh

/-- A mesh of quadrilaterals and triangles in the plane. -/
structure IsPlane (m : Mesh ℝ) : Prop where
  nodeDim_eq : nodeDim m.nodes = 2
  family_cases : ∀ c ∈ m.cells, c.element.family = .quad4 ∨ c.element.family = .tri3

/-- A mesh of segments on a line, perhaps with middle nodes. -/
structure IsLine (m : Mesh ℝ) : Prop where
  nodeDim_eq : nodeDim m.nodes = 1
  family_cases : ∀ c ∈ m.cells, c.element.family = .line2 ∨ c.element.family = .line3

/-- The lengths or the areas of all cells together. -/
noncomputable def totalExtent (m : Mesh ℝ) : ℝ := (m.cells.map fun c => c.element.extent).sum

/-- The length of a side, given by its cell and its number there. -/
noncomputable def sideLength (m : Mesh ℝ) (x : ℕ × ℕ) : ℝ :=
  (m.cell x.1).toOption.elim 0 fun c => c.element.sideLength x.2

/-- The lengths of all sides with a tag together. -/
noncomputable def taggedLength (m : Mesh ℝ) (tag : TagId) : ℝ :=
  (m.boundary tag).toOption.elim 0 fun r => (r.sides.map m.sideLength).sum

/-- The length or the area of what is integrated over: the mesh or the sides with a tag. -/
noncomputable def extentOver (m : Mesh ℝ) : Option TagId → ℝ
  | none => m.totalExtent
  | some tag => m.taggedLength tag

end Mesh

/-- An element of a Lagrange family with one degree of freedom per node. -/
structure Element.IsScalarLagrange (e : Element ℝ) : Prop where
  isPlaced : e.IsPlaced
  isLagrange : e.family.IsLagrange
  dofsPerNode_eq : e.dofsPerNode = 1

namespace Assembly

section Totals

variable {k : Kernel ℝ} {defs : Definitions ℝ} {label : String} {es : List (Element ℝ)} {n : ℕ}

/-- The entries of the mass matrix over some elements add up to the sum of all weights. -/
theorem sum_matrix (hes : ∀ e ∈ es, e.IsScalarLagrange) (hk : Kernel.compile label "N'*N" defs = .ok k)
    {A : SparseMatrix ℝ} (hA : k.IsMatrixOver es n A) :
    ∑ i, ∑ j, A.matrix n i j = (es.map Element.totalWeight).sum := by
  have hones : ∑ i, ∑ j, A.matrix n i j = 1 ⬝ᵥ A.matrix n *ᵥ 1 := by
    simp only [dotProduct, mulVec, Pi.one_apply, one_mul, mul_one]
  rw [hones, hA.dotProduct_mulVec]
  refine congrArg List.sum (List.map_congr_left fun e he => ?_)
  obtain ⟨hplaced, hlagrange, hscalar⟩ := hes e he
  obtain ⟨K, hK, -⟩ := hA.exists_matrix e he
  have hregular := Kernel.isRegular_of_localMatrix k hK
  rw [← Kernel.sum_mass_one hlagrange hplaced hregular hscalar hk]
  refine sum_congr rfl fun p hp => sum_congr rfl fun q hq => ?_
  rw [valuesOf_one (hA.in_range e he) (mem_range.mp hp),
    valuesOf_one (hA.in_range e he) (mem_range.mp hq), one_mul, mul_one]

/-- So do those of the load vector. -/
theorem sum_vector (hes : ∀ e ∈ es, e.IsScalarLagrange) (hk : Kernel.compile label "N'" defs = .ok k)
    {v : Array ℝ} (hv : k.IsVectorOver es n v) :
    ∑ i : Fin n, v.getD i 0 = (es.map Element.totalWeight).sum := by
  have hones : ∑ i : Fin n, v.getD i 0 = 1 ⬝ᵥ fun i : Fin n => v.getD i 0 := by
    simp only [dotProduct, Pi.one_apply, one_mul]
  rw [hones, hv.dotProduct]
  refine congrArg List.sum (List.map_congr_left fun e he => ?_)
  obtain ⟨hplaced, hlagrange, hscalar⟩ := hes e he
  obtain ⟨f, hf, -⟩ := hv.exists_vector e he
  have hregular := Kernel.isRegular_of_localVector k hf
  rw [← Kernel.sum_load_one hlagrange hplaced hregular hscalar hk]
  refine sum_congr rfl fun p hp => ?_
  rw [valuesOf_one (hv.in_range e he) (mem_range.mp hp), one_mul]

end Totals

section Methods

variable {m : Mesh ℝ} {k : Kernel ℝ} {boundary : Option TagId}

/-- The method adds up all entries: the direct one must not overwrite any. -/
def Accumulates (m : Mesh ℝ) (boundary : Option TagId) : AssemblyMethod → Prop
  | .triplet => True
  | .direct => Separates m boundary

theorem isMatrixOver_of_accumulates (hm : m.Reachable) (hf : m.frozen = true) {method : AssemblyMethod}
    (hmethod : Accumulates m boundary method) {A : SparseMatrix ℝ}
    (hA : matrix m k boundary method = .ok A) :
    ∃ es, IsDomain m boundary es ∧ k.IsMatrixOver es m.dofs A := by
  cases method with
  | triplet => exact isMatrixOver_domain hm hf hA
  | direct =>
    have hagree : Agree m k boundary := by
      rw [agree_iff_lost]
      intro blocks hblocks i j _ _
      cases boundary with
      | none => exact lost_cells (inRange hm hf) hmethod hblocks i j
      | some tag => exact lost_sides (inRange hm hf) hmethod hblocks i j
    rw [Agree, hA] at hagree
    obtain ⟨B, hB, hdense⟩ := map_eq_ok.mp hagree.symm
    obtain ⟨es, hes, hover⟩ := isMatrixOver_domain hm hf hB
    obtain ⟨hrows, hcols⟩ := size_of_matrix hA
    exact ⟨es, hes, hover.of_toDense hrows hcols hdense.symm⟩

end Methods

section Domains

variable {m : Mesh ℝ} {boundary : Option TagId} {es : List (Element ℝ)} {tag : TagId}

variable (hm : m.Reachable) (hf : m.frozen = true) (hscalar : m.dofsPerNode = 1)
include hm hf hscalar

theorem isScalarLagrange_cells (hplace : m.IsPlane ∨ m.IsLine) {c : Cell ℝ} (hc : c ∈ m.cells) :
    c.element.IsScalarLagrange := by
  refine ⟨hm.wellFormed.isPlaced hf hc, ?_,
    ((hm.wellFormed.built hf).isMade_of_mem hc).1.dofsPerNode_eq.trans hscalar⟩
  rcases hplace with hplane | hline
  · rcases hplane.family_cases c hc with h | h <;> rw [h] <;> decide
  · rcases hline.family_cases c hc with h | h <;> rw [h] <;> decide

/-- The sides of a plane mesh are segments. -/
theorem isScalarLagrange_side (hplane : m.IsPlane) {x : ℕ × ℕ} {side : Element ℝ}
    (h : m.sideElement x = .ok side) : side.IsScalarLagrange := by
  obtain ⟨c, hcell, hside⟩ := sideElement_eq_ok h
  have hc := mem_cells_of_cell hcell
  obtain ⟨hplaced, -, hone⟩ := isScalarLagrange_cells hm hf hscalar (.inl hplane) hc
  obtain ⟨nodes, -, hdofs, -⟩ := Element.buildSide_eq_ok hside
  refine ⟨hplaced.of_buildSide hside, ?_, hdofs.trans hone⟩
  have hfamily := Element.sideFamily_of_buildSide hside
  rcases hplane.family_cases c hc with hc | hc <;> rw [hc] at hfamily <;>
    rw [← Option.some.inj hfamily] <;> decide

omit hscalar in
theorem cols_nodes {c : Cell ℝ} (hc : c ∈ m.cells) : c.element.nodes.cols = Mesh.nodeDim m.nodes := by
  rw [((hm.wellFormed.built hf).isMade_of_mem hc).1.nodes_eq]
  rfl

omit hscalar in
/-- The weights of the cells add up to their lengths or areas. -/
theorem sum_totalWeight_cells (hplace : m.IsPlane ∨ m.IsLine)
    (hregular : ∀ e ∈ m.cells.map Cell.element, e.IsRegular) :
    ((m.cells.map Cell.element).map Element.totalWeight).sum = m.totalExtent := by
  rw [List.map_map, Mesh.totalExtent]
  refine congrArg List.sum (List.map_congr_left fun c hc => ?_)
  refine Element.totalWeight_eq_extent (hregular _ (List.mem_map_of_mem hc)) ?_
  rw [cols_nodes hm hf hc]
  exact hplace.imp (fun h => ⟨h.family_cases c hc, h.nodeDim_eq⟩)
    fun h => ⟨h.family_cases c hc, h.nodeDim_eq⟩

omit hscalar in
/-- The weights of the tagged sides add up to their lengths. -/
theorem sum_totalWeight_sides (hplane : m.IsPlane) (hes : IsTagged m tag es)
    (hregular : ∀ e ∈ es, e.IsRegular) :
    (es.map Element.totalWeight).sum = m.taggedLength tag := by
  obtain ⟨r, hr, -, hsides⟩ := hes
  have hlengths : es.map Element.totalWeight = r.sides.map m.sideLength := by
    refine map_eq_of_mapM_eq_ok hsides fun x hx side hside => ?_
    obtain ⟨c, hcell, hbuild⟩ := sideElement_eq_ok hside
    have hc := mem_cells_of_cell hcell
    obtain ⟨side', hmem, hside'⟩ := exists_of_mapM_eq_ok hsides hx
    obtain rfl := Except.ok.inj (hside.symm.trans hside')
    rw [Mesh.sideLength, hcell]
    exact (Element.totalWeight_side (hplane.family_cases c hc)
      ((cols_nodes hm hf hc).trans hplane.nodeDim_eq) hbuild (hregular side hmem))
  rw [hlengths, Mesh.taggedLength, hr]
  rfl

theorem isScalarLagrange_domain (hplace : m.IsPlane ∨ m.IsLine ∧ boundary = none)
    (hes : IsDomain m boundary es) : ∀ e ∈ es, e.IsScalarLagrange := by
  intro e he
  cases boundary with
  | none =>
    rw [show es = m.cells.map Cell.element from hes] at he
    obtain ⟨c, hc, rfl⟩ := List.mem_map.mp he
    exact isScalarLagrange_cells hm hf hscalar (hplace.imp_right And.left) hc
  | some tag =>
    obtain ⟨r, -, -, hsides⟩ := hes
    obtain ⟨x, -, hx⟩ := exists_of_mem_mapM hsides he
    exact isScalarLagrange_side hm hf hscalar (hplace.resolve_right fun h => nomatch h.2) hx

/-- Where all elements are regular both assemblies succeed. -/
theorem exists_assemblies (hplace : m.IsPlane ∨ m.IsLine ∧ boundary = none)
    (hes : IsDomain m boundary es) (hregular : ∀ e ∈ es, e.IsRegular) {k l : Kernel ℝ}
    {defs defs' : Definitions ℝ} {label label' : String}
    (hk : Kernel.compile label "N'*N" defs = .ok k) (hl : Kernel.compile label' "N'" defs' = .ok l) :
    (∃ A, matrix m k boundary .triplet = .ok A) ∧ ∃ v, vector m l boundary = .ok v := by
  have helements := isScalarLagrange_domain hm hf hscalar hplace hes
  refine ⟨exists_matrix_domain hes fun e he => ?_, exists_vector_domain hes fun e he => ?_⟩
  · obtain ⟨hplaced, hlagrange, -⟩ := helements e he
    exact Kernel.exists_localMatrix_mass hlagrange hplaced (hregular e he) hk
  · obtain ⟨hplaced, hlagrange, hone⟩ := helements e he
    obtain ⟨v, hv, -⟩ := Kernel.exists_load hlagrange hplaced (hregular e he) hone hl
    exact ⟨v, hv⟩

omit hscalar in
theorem sum_totalWeight (hplace : m.IsPlane ∨ m.IsLine ∧ boundary = none)
    (hes : IsDomain m boundary es) (hregular : ∀ e ∈ es, e.IsRegular) :
    (es.map Element.totalWeight).sum = m.extentOver boundary := by
  cases boundary with
  | none =>
    obtain rfl : es = m.cells.map Cell.element := hes
    exact sum_totalWeight_cells hm hf (hplace.imp_right And.left) hregular
  | some tag =>
    exact sum_totalWeight_sides hm hf (hplace.resolve_right fun h => nomatch h.2) hes hregular

end Domains

/-- With one degree of freedom per node, the entries of the assembled matrix of `N'*N` and those of the
assembled vector of `N'` add up to the area of a plane mesh of quadrilaterals and triangles, to the
length of a mesh of lines, and over a tagged boundary of a plane mesh to the length of its sides. -/
theorem sum_eq_extent {m : Mesh ℝ} (boundary : Option TagId) {k l : Kernel ℝ}
    {defs defs' : Definitions ℝ} {label label' : String} (hm : m.Reachable) (hf : m.frozen = true)
    (hscalar : m.dofsPerNode = 1) (hplace : m.IsPlane ∨ m.IsLine ∧ boundary = none)
    (hk : Kernel.compile label "N'*N" defs = .ok k) (hl : Kernel.compile label' "N'" defs' = .ok l) :
    (∀ method A, Accumulates m boundary method → matrix m k boundary method = .ok A →
      ∑ i, ∑ j, A.matrix m.dofs i j = m.extentOver boundary) ∧
    ∀ v, vector m l boundary = .ok v → ∑ i : Fin m.dofs, v.getD i 0 = m.extentOver boundary := by
  constructor
  · intro method A hmethod hA
    obtain ⟨es, hes, hover⟩ := isMatrixOver_of_accumulates hm hf hmethod hA
    rw [sum_matrix (isScalarLagrange_domain hm hf hscalar hplace hes) hk hover]
    refine sum_totalWeight hm hf hplace hes fun e he => ?_
    obtain ⟨K, hK, -⟩ := hover.exists_matrix e he
    exact Kernel.isRegular_of_localMatrix k hK
  · intro v hv
    obtain ⟨es, hes, hover⟩ := isVectorOver_domain hm hf hv
    rw [sum_vector (isScalarLagrange_domain hm hf hscalar hplace hes) hl hover]
    refine sum_totalWeight hm hf hplace hes fun e he => ?_
    obtain ⟨f, hf, -⟩ := hover.exists_vector e he
    exact Kernel.isRegular_of_localVector l hf

section Rim

/-- The corners of a quadrilateral without parallel sides. -/
noncomputable def rimNodes : List (List ℝ) := [[0, 0], [2, 0], [3, 2], [0, 1]]

/-- A quadrilateral all of whose sides have a tag. -/
noncomputable def rimmedQuad : Mesh ℝ :=
  ((Mesh.ofLists (.text "scalar") rimNodes [(.quad4, [1, 2, 3, 4])]).freeze.2.addBoundary
    (.name "rim") [] false).2

/-- All sides of a single quadrilateral are exterior. -/
theorem isExterior_quad {i s : ℕ} :
    (∃ ids, Mesh.IsExterior [(.quad4, [1, 2, 3, 4])] i s ids) ↔ i = 0 ∧ s < 4 := by
  constructor
  · rintro ⟨ids, hside, -⟩
    match i, s with
    | 0, 0 | 0, 1 | 0, 2 | 0, 3 => exact ⟨rfl, by decide⟩
    | 0, s + 4 | i + 1, _ => cases hside
  · rintro ⟨rfl, hs⟩
    interval_cases s
    all_goals
      refine ⟨_, .of_mem rfl fun j t ids hside hids => ?_⟩
      match j, t with
      | 0, 0 | 0, 1 | 0, 2 | 0, 3 =>
        cases hside
        have hnodes := And.intro (hids 1) (And.intro (hids 2) (hids 3))
        simp at hnodes ⊢
      | 0, t + 4 | j + 1, _ => cases hside

theorem exists_rim : ∃ r c, rimmedQuad.IsOver rimNodes [(.quad4, [1, 2, 3, 4])] 1 ∧
    rimmedQuad.cells = [c] ∧ rimmedQuad.boundary (.name "rim") = .ok r ∧
      r.sides.Perm [(1, 0), (1, 1), (1, 2), (1, 3)] := by
  have hnodes : ∀ x ∈ rimNodes, 1 ≤ x.length ∧ x.length ≤ 3 := by simp [rimNodes]
  have hspace : Space.dofsPerNode (.text "scalar" : Datum ℝ) (Mesh.nodeDim rimNodes) = .ok 1 := rfl
  have hcells : ∀ c ∈ [(Family.quad4, [(1 : ℤ), 2, 3, 4])], c.2.length = c.1.nodeCount ∧
      (∀ fixed, c.1.fixedDofs = some fixed → 1 = fixed) ∧
        ∀ k ∈ c.2, 1 ≤ k ∧ k ≤ (rimNodes.length : ℤ) := by
    simp [rimNodes, Family.nodeCount, Family.fixedDofs]
  obtain ⟨-, hfrozen, hregions⟩ :=
    Mesh.isOver_freeze hnodes ⟨by simp [rimNodes], by simp⟩ hspace hcells
  obtain ⟨r, m, hadd, hover, hboundary, hmem⟩ :=
    hfrozen.exists_exteriorRegion hregions (TagId.isPlain_name "rim") false
  obtain rfl : rimmedQuad = m := congrArg Prod.snd hadd
  obtain ⟨c, hcell⟩ := List.length_eq_one_iff.mp hover.forall₂_cells.length_eq.symm
  refine ⟨r, c, hover, hcell, hboundary, ?_⟩
  rw [List.perm_ext_iff_of_nodup (nodup_boundary hover.reachable hboundary) (by decide)]
  rintro ⟨id, s⟩
  rw [hmem, isExterior_quad]
  simp only [List.mem_cons, Prod.mk.injEq, List.not_mem_nil, or_false]
  omega

/-- The coordinates of the quadrilateral. -/
theorem of_mem_cells_rim {c : Cell ℝ} (hc : c ∈ rimmedQuad.cells) : c.element.family = .quad4 ∧
    c.element.nodes = .ofRows 2 rimNodes := by
  obtain ⟨-, -, hover, -⟩ := exists_rim
  refine hover.of_mem_cells (P := fun e => e.family = .quad4 ∧ e.nodes = .ofRows 2 rimNodes) ?_ c hc
  intro x hx e he
  obtain rfl := List.mem_singleton.mp hx
  exact ⟨he.family_eq, he.nodes_eq.trans rfl⟩

theorem sideLength_rim {c : Cell ℝ} (hc : c ∈ rimmedQuad.cells) : c.element.sideLength 0 = 2 ∧
    c.element.sideLength 1 = √5 ∧ c.element.sideLength 2 = √10 ∧ c.element.sideLength 3 = 1 := by
  obtain ⟨hfamily, hnodes⟩ := of_mem_cells_rim hc
  have hroot : √(2 ^ 2 : ℝ) = 2 := Real.sqrt_sq (by norm_num)
  norm_num at hroot
  norm_num [Element.sideLength, hfamily, hnodes, Family.sides, DenseMatrix.entry_ofFn_eq,
    DenseMatrix.ofRows, rimNodes, hroot]

theorem isRegular_rim {c : Cell ℝ} (hc : c ∈ rimmedQuad.cells) : c.element.IsRegular := by
  obtain ⟨hfamily, hnodes⟩ := of_mem_cells_rim hc
  have hroot := Real.sqrt_nonneg 3
  refine (Element.isRegular_quad4_iff hfamily (by rw [hnodes]; rfl)).mpr fun i hi => ?_
  interval_cases i
  all_goals
    norm_num [Element.cornerMeasure, Element.cornerArea, Element.cross, hnodes,
      DenseMatrix.entry_ofFn_eq, DenseMatrix.ofRows, rimNodes]
    linarith

/-- The tagged sides are segments that are not degenerate. -/
theorem exists_sides_rim : ∃ es, IsTagged rimmedQuad (.name "rim") es ∧ ∀ e ∈ es, e.IsRegular := by
  obtain ⟨r, c, hover, hcells, hboundary, hperm⟩ := exists_rim
  have hc : c ∈ rimmedQuad.cells := hcells ▸ List.mem_singleton_self c
  obtain ⟨hfamily, hnodes⟩ := of_mem_cells_rim hc
  obtain ⟨hbottom, hright, htop, hleft⟩ := sideLength_rim hc
  have hone (s : ℕ) (hs : s < 4) (hpos : 0 < c.element.sideLength s) :
      ∃ side, rimmedQuad.sideElement (1, s) = .ok side ∧ side.IsRegular := by
    obtain ⟨places, hplaces⟩ : ∃ places, c.element.sideNodes (s : ℤ) = .ok places := by
      rw [Element.sideNodes, hfamily]
      interval_cases s <;> exact ⟨_, rfl⟩
    have hline : c.element.family.sideFamily = some .line2 := by rw [hfamily]; rfl
    obtain ⟨side, hbuild⟩ := Element.exists_buildSide hline hplaces
    refine ⟨side, ?_, Element.isRegular_side (.inl hfamily) (by rw [hnodes]; rfl) hbuild hpos⟩
    rw [Mesh.sideElement, Mesh.cell, hcells]
    exact hbuild
  have hside : ∀ x ∈ r.sides, ∃ side, rimmedQuad.sideElement x = .ok side ∧ side.IsRegular := by
    intro x hx
    have hx := hperm.subset hx
    simp only [List.mem_cons, List.not_mem_nil, or_false] at hx
    rcases hx with rfl | rfl | rfl | rfl
    · exact hone 0 (by decide) (by rw [hbottom]; norm_num)
    · exact hone 1 (by decide) (by rw [hright]; norm_num)
    · exact hone 2 (by decide) (by rw [htop]; norm_num)
    · exact hone 3 (by decide) (by rw [hleft]; norm_num)
  obtain ⟨es, hes⟩ := exists_mapM_eq_ok fun x hx => (hside x hx).imp fun _ h => h.1
  refine ⟨es, ⟨r, hboundary, nodup_boundary hover.reachable hboundary, hes⟩, fun e he => ?_⟩
  obtain ⟨x, hx, hxe⟩ := exists_of_mem_mapM hes he
  obtain ⟨side, hok, hregular⟩ := hside x hx
  exact Except.ok.inj (hok.symm.trans hxe) ▸ hregular

theorem extent_rim : rimmedQuad.totalExtent = 7 / 2 ∧
    rimmedQuad.taggedLength (.name "rim") = 3 + √5 + √10 := by
  obtain ⟨r, c, hover, hcells, hboundary, hperm⟩ := exists_rim
  have hc : c ∈ rimmedQuad.cells := hcells ▸ List.mem_singleton_self c
  obtain ⟨hfamily, hnodes⟩ := of_mem_cells_rim hc
  obtain ⟨hbottom, hright, htop, hleft⟩ := sideLength_rim hc
  have hside (s : ℕ) : rimmedQuad.sideLength (1, s) = c.element.sideLength s := by
    rw [Mesh.sideLength, Mesh.cell, hcells]
    rfl
  constructor
  · rw [Mesh.totalExtent, hcells, List.map_singleton, List.sum_singleton, Element.extent,
      if_pos (by rw [hfamily]; rfl)]
    norm_num [Element.signedArea, Element.cross, hfamily, hnodes, Family.sides,
      DenseMatrix.entry_ofFn_eq, DenseMatrix.ofRows, rimNodes]
  · rw [Mesh.taggedLength, hboundary]
    change (r.sides.map rimmedQuad.sideLength).sum = _
    rw [(hperm.map _).sum_eq]
    simp only [List.map_cons, List.map_nil, List.sum_cons, List.sum_nil, hside, hbottom, hright, htop,
      hleft]
    ring

theorem sum_eq_extent_rim : ∃ (k l : Kernel ℝ) (A B : SparseMatrix ℝ) (v w : Array ℝ),
    Kernel.compile "M" "N'*N" [] = .ok k ∧ Kernel.compile "f" "N'" [] = .ok l ∧
      matrix rimmedQuad k none .triplet = .ok A ∧ vector rimmedQuad l none = .ok v ∧
      matrix rimmedQuad k (some (.name "rim")) .triplet = .ok B ∧
      vector rimmedQuad l (some (.name "rim")) = .ok w ∧
      ∑ i, ∑ j, A.matrix rimmedQuad.dofs i j = 7 / 2 ∧
      ∑ i : Fin rimmedQuad.dofs, v.getD i 0 = 7 / 2 ∧
      ∑ i, ∑ j, B.matrix rimmedQuad.dofs i j = 3 + √5 + √10 ∧
      ∑ i : Fin rimmedQuad.dofs, w.getD i 0 = 3 + √5 + √10 := by
  obtain ⟨-, -, hover, -⟩ := exists_rim
  obtain ⟨harea, hlength⟩ := extent_rim
  have hplane : rimmedQuad.IsPlane :=
    ⟨hover.nodes_eq.symm ▸ rfl, fun c hc => .inl (of_mem_cells_rim hc).1⟩
  have hnamed : Definitions.AreNamed ([] : Definitions ℝ) := nofun
  obtain ⟨k, hk⟩ := Kernel.exists_compile Kernel.parse_square hnamed (by decide) "M"
  obtain ⟨l, hl⟩ := Kernel.exists_compile Kernel.parse_transpose hnamed (by decide) "f"
  have hcells : ∀ e ∈ rimmedQuad.cells.map Cell.element, e.IsRegular :=
    List.forall_mem_map.mpr fun c hc => isRegular_rim hc
  obtain ⟨es, hes, hsides⟩ := exists_sides_rim
  have htagged : IsDomain rimmedQuad (some (.name "rim")) es := hes
  have hall : IsDomain rimmedQuad none (rimmedQuad.cells.map Cell.element) := rfl
  obtain ⟨⟨A, hA⟩, v, hv⟩ := exists_assemblies hover.reachable hover.frozen hover.dofsPerNode_eq
    (.inl hplane) hall hcells hk hl
  obtain ⟨⟨B, hB⟩, w, hw⟩ := exists_assemblies hover.reachable hover.frozen hover.dofsPerNode_eq
    (.inl hplane) htagged hsides hk hl
  obtain ⟨hmatrix, hvector⟩ := sum_eq_extent none hover.reachable hover.frozen
    hover.dofsPerNode_eq (.inl hplane) hk hl
  obtain ⟨hmatrix', hvector'⟩ := sum_eq_extent (some (.name "rim")) hover.reachable
    hover.frozen hover.dofsPerNode_eq (.inl hplane) hk hl
  exact ⟨k, l, A, B, v, w, hk, hl, hA, hv, hB, hw, (hmatrix .triplet A trivial hA).trans harea,
    (hvector v hv).trans harea, (hmatrix' .triplet B trivial hB).trans hlength,
    (hvector' w hw).trans hlength⟩

end Rim

end Assembly
end WeakForm
