import WeakForm.Proofs.RealScalar
import WeakForm.Proofs.Assembly.OverCells
import WeakForm.Proofs.Element.Areas
import WeakForm.Proofs.Element.Placements
import WeakForm.Proofs.Mesh.Grids

/-!
# Degenerate elements

The Jacobian is looked at where the rule of an element has its points, and nowhere else. A mesh with an
element that is degenerate at one of them is never assembled, whatever the kernel; if the kernel has
values of the right shape everywhere, then the error tells of a degenerate element, and a mesh without
such an element is assembled. For quadrilaterals this is decided by the areas at the corners.
-/

namespace WeakForm

open DenseMatrix

namespace Element

variable {e : Element ℝ} {q : QuadraturePoint ℝ}

/-- At the points of the rule there is a Jacobian. -/
theorem exists_jacobian (hq : q ∈ e.points) : ∃ J, e.jacobian q.position = .ok J := by
  rcases Family.cases_lagrange e.family with hf | hf | hf
  · simp [points, Kernel.rule, Kernel.familyRule, hf, Family.rule] at hq
  · have hrows : ¬ e.nodes.rows < 2 := by rw [e.rows_nodes, hf]; decide
    unfold jacobian Family.jacobian
    rw [hf]
    simp only [Family.beamLength, hrows, if_false]
    exact ⟨_, rfl⟩
  · obtain ⟨rows, hrows⟩ := hf.exists_gradientRows _ (List.mem_map_of_mem hq)
    exact ⟨_, hf.jacobian_eq (Family.localGradient_eq hrows) e.rows_nodes⟩

/-- The determinant is not positive at some point of the rule. -/
def IsDegenerate (e : Element ℝ) : Prop :=
  ∃ q ∈ e.points, ∃ J, e.jacobian q.position = .ok J ∧ measure J ≤ 0

theorem not_isDegenerate_iff : ¬ e.IsDegenerate ↔ e.IsRegular := by
  constructor
  · intro h points hrule q hq
    have hmem : q ∈ e.points := by
      rw [Element.points, hrule]
      exact hq
    obtain ⟨J, hJ⟩ := exists_jacobian hmem
    have hpos : 0 < measure J := not_le.mp fun hle => h ⟨q, hmem, J, hJ, hle⟩
    exact ⟨_, (detJ_eq_ok hJ).mpr ⟨hpos, rfl⟩⟩
  · rintro hregular ⟨q, hq, J, hJ, hle⟩
    obtain ⟨d, hd⟩ := hregular.exists_detJ hq
    exact hle.not_gt ((detJ_eq_ok hJ).mp hd).1

/-- The error that tells that an element is degenerate at a point of its rule. -/
def IsRefusal (e : Element ℝ) (err : Error ℝ) : Prop :=
  ¬ e.IsRegular ∧ ∃ d ≤ 0, err = .degenerate e.id d

/-- At a point of the rule there is a determinant, or the element is refused. -/
theorem detJ_cases (hq : q ∈ e.points) : (∃ d, e.detJ q.position = .ok d) ∨
    ∃ err, e.detJ q.position = .error err ∧ e.IsRefusal err := by
  obtain ⟨J, hJ⟩ := exists_jacobian hq
  rw [detJ_of_jacobian hJ]
  split_ifs with hpos
  · exact .inl ⟨_, rfl⟩
  · refine .inr ⟨_, rfl, fun hregular => ?_, _, not_lt.mp hpos, rfl⟩
    obtain ⟨d, hd⟩ := hregular.exists_detJ hq
    exact hpos ((detJ_eq_ok hJ).mp hd).1

end Element

namespace Kernel

variable {k : Kernel ℝ} {e : Element ℝ} {shape : List ℕ}

/-- The places where a kernel is evaluated in an integral. -/
noncomputable def sites (e : Element ℝ) : List (Option (List ℝ)) :=
  match rule e with
  | none => [none]
  | some points => points.map fun q => some q.position

/-- The kernel has values of the given shape all over an element. -/
def HasShape (k : Kernel ℝ) (e : Element ℝ) (shape : List ℕ) : Prop :=
  ∀ ξ ∈ sites e, ∃ v, k.integrand (.regular e ξ) = .ok v ∧ v.shape = shape

theorem term_cases {q : QuadraturePoint ℝ} (hq : q ∈ e.points)
    (hv : ∃ v, k.integrand (.regular e (some q.position)) = .ok v ∧ v.shape = shape) :
    (∃ t, k.term e q = .ok t ∧ t.shape = shape) ∨
      ∃ err, k.term e q = .error err ∧ e.IsRefusal err := by
  obtain ⟨v, hv, hshape⟩ := hv
  rcases Element.detJ_cases hq with ⟨d, hd⟩ | ⟨err, herr, hrefusal⟩
  · left
    exact ⟨v.map (q.weight * d * ·), by rw [term, hd, ok_bind, hv]; rfl, hshape⟩
  · right
    exact ⟨err, by rw [term, herr]; rfl, hrefusal⟩

theorem sumTerms_cases {points : List (QuadraturePoint ℝ)} (hpoints : ∀ q ∈ points, q ∈ e.points)
    (hv : ∀ q ∈ points, ∃ v, k.integrand (.regular e (some q.position)) = .ok v ∧ v.shape = shape)
    {total : Tensor ℝ} (htotal : total.shape = shape) :
    (∃ t, sumTerms (k.term e) total points = .ok t ∧ t.shape = shape) ∨
      ∃ err, sumTerms (k.term e) total points = .error err ∧ e.IsRefusal err := by
  induction points generalizing total with
  | nil => exact .inl ⟨total, rfl, htotal⟩
  | cons q points ih =>
    obtain ⟨hq, hpoints⟩ := List.forall_mem_cons.mp hpoints
    obtain ⟨hvq, hv⟩ := List.forall_mem_cons.mp hv
    rw [sumTerms]
    rcases term_cases hq hvq with ⟨t, ht, hshape⟩ | ⟨err, herr, hrefusal⟩
    · have hsame : total.shape = t.shape := htotal.trans hshape.symm
      rw [ht, ok_bind, Tensor.zipWith, dif_pos hsame]
      exact ih hpoints hv htotal
    · right
      exact ⟨err, by rw [herr]; rfl, hrefusal⟩

/-- A kernel with values of one shape has an integral of this shape, unless the element is refused. -/
theorem HasShape.integrate_cases (hk : k.HasShape e shape) :
    (∃ t, k.integrate e = .ok t ∧ t.shape = shape) ∨
      ∃ err, k.integrate e = .error err ∧ e.IsRefusal err := by
  unfold HasShape sites at hk
  rw [integrate]
  cases hrule : rule e with
  | none =>
    rw [hrule] at hk
    exact .inl (hk none (by simp))
  | some points =>
    have hpoints : ∀ q ∈ points, q ∈ e.points := by
      intro q hq
      rw [Element.points, hrule]
      exact hq
    have hv : ∀ q ∈ points,
        ∃ v, k.integrand (.regular e (some q.position)) = .ok v ∧ v.shape = shape := by
      rw [hrule] at hk
      exact fun q hq => hk _ (List.mem_map_of_mem hq)
    cases points with
    | nil => exact absurd rfl (familyRule_pos hrule).1
    | cons q points =>
      obtain ⟨hq, hpoints⟩ := List.forall_mem_cons.mp hpoints
      obtain ⟨hvq, hv⟩ := List.forall_mem_cons.mp hv
      rw [sumOverRule]
      rcases term_cases hq hvq with ⟨t, ht, hshape⟩ | ⟨err, herr, hrefusal⟩
      · rw [ht, ok_bind]
        exact sumTerms_cases hpoints hv hshape
      · right
        exact ⟨err, by rw [herr]; rfl, hrefusal⟩

theorem HasShape.localMatrix_cases (hk : k.HasShape e [e.dofs, e.dofs]) :
    (∃ K, k.localMatrix e = .ok K) ∨ ∃ err, k.localMatrix e = .error err ∧ e.IsRefusal err := by
  rcases hk.integrate_cases with ⟨t, ht, hshape⟩ | ⟨err, herr, hrefusal⟩
  · left
    obtain ⟨shape, data, hsize⟩ := t
    cases hshape
    refine ⟨⟨e.dofs, e.dofs, data, by rw [hsize]; simp [volume]⟩, ?_⟩
    rw [localMatrix, ht, ok_bind]
    exact if_pos ⟨rfl, rfl⟩
  · right
    exact ⟨err, by rw [localMatrix, herr]; rfl, hrefusal⟩

theorem HasShape.localVector_cases (hk : k.HasShape e shape) (hsize : volume shape = e.dofs) :
    (∃ v, k.localVector e = .ok v) ∨ ∃ err, k.localVector e = .error err ∧ e.IsRefusal err := by
  rcases hk.integrate_cases with ⟨t, ht, hshape⟩ | ⟨err, herr, hrefusal⟩
  · left
    refine ⟨t.data, ?_⟩
    rw [localVector, ht, ok_bind]
    exact if_pos (by rw [t.size_data, hshape, hsize])
  · right
    exact ⟨err, by rw [localVector, herr]; rfl, hrefusal⟩

/-- A matrix of another size is no matrix of an element. -/
theorem HasShape.localMatrix_mismatch {r c : ℕ} (hk : k.HasShape e [r, c]) (he : e.IsRegular)
    (hsize : ¬ (r = e.dofs ∧ c = e.dofs)) : k.localMatrix e =
      .error (.dimension .elementMatrix (e.dofs * e.dofs : ℕ) (r * c)) := by
  rcases hk.integrate_cases with ⟨t, ht, hshape⟩ | ⟨err, -, hrefusal, -⟩
  · obtain ⟨shape, data, hdata⟩ := t
    cases hshape
    have hvolume : data.size = r * c := by rw [hdata]; simp [volume]
    rw [localMatrix, ht, ok_bind, ← hvolume]
    exact if_neg hsize
  · exact absurd he hrefusal

end Kernel

namespace Assembly

variable {m : Mesh ℝ} {k : Kernel ℝ} {c : Cell ℝ}

/-- An error that tells of a degenerate element of a mesh. -/
def IsRefusal (m : Mesh ℝ) (err : Error ℝ) : Prop := ∃ c ∈ m.cells, c.element.IsRefusal err

/-- If elements are refused for no other reason than degeneracy and there is such an element, there are
no blocks for that reason. -/
theorem exists_blocks_eq_error {β : Type} {entries : Element ℝ → Except (Error ℝ) β}
    (hentries : ∀ c ∈ m.cells, (∃ K, entries c.element = .ok K) ∨
      ∃ err, entries c.element = .error err ∧ c.element.IsRefusal err)
    (hc : c ∈ m.cells) (hfail : ∀ K, entries c.element ≠ .ok K) :
    ∃ err, m.cells.mapM (fun c => blockOf entries c.element) = .error err ∧ IsRefusal m err := by
  refine exists_mapM_eq_error (fun c hc => ?_) hc fun b hb => ?_
  · rcases hentries c hc with ⟨K, hK⟩ | ⟨err, herr, hrefusal⟩
    · exact .inl ⟨_, by rw [blockOf, checkCapacity_real, ok_bind, hK]; rfl⟩
    · exact .inr ⟨err, by rw [blockOf, checkCapacity_real, ok_bind, herr]; rfl, c, hc, hrefusal⟩
  · obtain ⟨K, hK, -⟩ := blockOf_eq_ok.mp hb
    exact hfail K hK

section Refusal

variable (hc : c ∈ m.cells) (hregular : ¬ c.element.IsRegular)
include hc hregular

/-- A mesh with an element that is degenerate at a point of its rule has no matrix of any kernel. -/
theorem matrix_ne_ok (k : Kernel ℝ) (method : AssemblyMethod) (A : SparseMatrix ℝ) :
    matrix m k none method ≠ .ok A := by
  have hblocks (blocks : List (Block (DenseMatrix ℝ))) : matrixBlocks m k none ≠ .ok blocks := by
    intro h
    obtain ⟨K, hK⟩ := (matrixBlocks_none.mp h).1 c hc
    exact hregular (Kernel.isRegular_of_localMatrix k hK)
  intro h
  cases method with
  | direct =>
    rw [matrix_direct] at h
    obtain ⟨blocks, h, -⟩ := map_eq_ok.mp h
    exact hblocks blocks h
  | triplet =>
    rw [matrix_triplet] at h
    obtain ⟨blocks, h, -⟩ := map_eq_ok.mp h
    exact hblocks blocks h

/-- A mesh with an element that is degenerate at a point of its rule has no vector of any kernel. -/
theorem vector_ne_ok (k : Kernel ℝ) (v : Array ℝ) : vector m k none ≠ .ok v := by
  intro h
  rw [vector_eq] at h
  obtain ⟨blocks, h, -⟩ := map_eq_ok.mp h
  obtain ⟨f, hf⟩ := (vectorBlocks_none.mp h).1 c hc
  obtain ⟨t, ht, -⟩ := bind_eq_ok.mp hf
  exact hregular (Kernel.isRegular_of_integrate k ht)

theorem matrix_eq_error
    (hk : ∀ c ∈ m.cells, k.HasShape c.element [c.element.dofs, c.element.dofs])
    (method : AssemblyMethod) :
    ∃ err, matrix m k none method = .error err ∧ IsRefusal m err := by
  obtain ⟨err, herr, hrefusal⟩ := exists_blocks_eq_error
    (fun c hc => (hk c hc).localMatrix_cases) hc fun K hK =>
      hregular (Kernel.isRegular_of_localMatrix k hK)
  have hblocks : matrixBlocks m k none = .error err := herr
  refine ⟨err, ?_, hrefusal⟩
  cases method with
  | direct =>
    rw [matrix_direct, hblocks]
    rfl
  | triplet =>
    rw [matrix_triplet, hblocks]
    rfl

theorem vector_eq_error
    (hk : ∀ c ∈ m.cells, ∃ shape, volume shape = c.element.dofs ∧ k.HasShape c.element shape) :
    ∃ err, vector m k none = .error err ∧ IsRefusal m err := by
  have hentries : ∀ c ∈ m.cells, (∃ v, k.localVector c.element = .ok v) ∨
      ∃ err, k.localVector c.element = .error err ∧ c.element.IsRefusal err := by
    intro c hc
    obtain ⟨shape, hsize, hshape⟩ := hk c hc
    exact hshape.localVector_cases hsize
  obtain ⟨err, herr, hrefusal⟩ := exists_blocks_eq_error hentries hc fun v hv => by
    obtain ⟨t, ht, -⟩ := bind_eq_ok.mp hv
    exact hregular (Kernel.isRegular_of_integrate k ht)
  have hblocks : vectorBlocks m k none = .error err := herr
  exact ⟨err, by rw [vector_eq, hblocks]; rfl, hrefusal⟩

end Refusal

section Regular

variable (hregular : ∀ c ∈ m.cells, c.element.IsRegular)
include hregular

/-- Where no element is degenerate, a kernel with values of the right shape has a matrix. -/
theorem exists_matrix_of_hasShape
    (hk : ∀ c ∈ m.cells, k.HasShape c.element [c.element.dofs, c.element.dofs])
    (method : AssemblyMethod) : ∃ A, matrix m k none method = .ok A := by
  have hlocal : ∀ c ∈ m.cells, ∃ K, k.localMatrix c.element = .ok K := by
    intro c hc
    rcases (hk c hc).localMatrix_cases with hK | ⟨err, -, hrefusal, -⟩
    · exact hK
    · exact absurd (hregular c hc) hrefusal
  have hblocks := matrixBlocks_none.mpr ⟨hlocal, rfl⟩
  cases method with
  | direct => exact ⟨_, by rw [matrix_direct, hblocks]; rfl⟩
  | triplet => exact ⟨_, by rw [matrix_triplet, hblocks]; rfl⟩

theorem exists_vector_of_hasShape
    (hk : ∀ c ∈ m.cells, ∃ shape, volume shape = c.element.dofs ∧ k.HasShape c.element shape) :
    ∃ v, vector m k none = .ok v := by
  refine exists_vector fun c hc => ?_
  obtain ⟨shape, hsize, hshape⟩ := hk c hc
  rcases hshape.localVector_cases hsize with hf | ⟨err, -, hrefusal, -⟩
  · exact hf
  · exact absurd (hregular c hc) hrefusal

end Regular

/-- A quadrilateral of a plane mesh is degenerate at a point of its rule exactly if it does not run
counter clockwise around a positive area, or if the area at some corner outweighs that at the opposite
one. A mesh with such an element is refused, and one in which no element is degenerate at a point of its
rule is assembled, whether sides cross or not. -/
theorem quadrilateral_refused (hm : m.Reachable) (hfrozen : m.frozen = true)
    (hdim : Mesh.nodeDim m.nodes = 2) :
    (∀ c ∈ m.cells, c.element.family = .quad4 →
      (c.element.IsDegenerate ↔
        c.element.signedArea ≤ 0 ∨ ∃ i < 4, c.element.cornerMeasure i ≤ 0)) ∧
    (∀ c ∈ m.cells, c.element.family = .quad4 →
      (c.element.signedArea ≤ 0 ∨ ∃ i < 4, c.element.cornerMeasure i ≤ 0) →
      (∀ k method A, matrix m k none method ≠ .ok A) ∧ (∀ k v, vector m k none ≠ .ok v) ∧
      (∀ k, (∀ c ∈ m.cells, k.HasShape c.element [c.element.dofs, c.element.dofs]) →
        ∀ method, ∃ err, matrix m k none method = .error err ∧ IsRefusal m err) ∧
      ∀ k, (∀ c ∈ m.cells, ∃ shape, volume shape = c.element.dofs ∧ k.HasShape c.element shape) →
        ∃ err, vector m k none = .error err ∧ IsRefusal m err) ∧
    ((∀ c ∈ m.cells, ¬ c.element.IsDegenerate) →
      (∀ k, (∀ c ∈ m.cells, k.HasShape c.element [c.element.dofs, c.element.dofs]) →
        ∀ method, ∃ A, matrix m k none method = .ok A) ∧
      ∀ k, (∀ c ∈ m.cells, ∃ shape, volume shape = c.element.dofs ∧ k.HasShape c.element shape) →
        ∃ v, vector m k none = .ok v) := by
  have hiff : ∀ c ∈ m.cells, c.element.family = .quad4 → (c.element.IsDegenerate ↔
      c.element.signedArea ≤ 0 ∨ ∃ i < 4, c.element.cornerMeasure i ≤ 0) := by
    intro c hc hquad
    have hcols : c.element.nodes.cols = 2 := by
      rw [((hm.wellFormed.built hfrozen).isMade_of_mem hc).1.nodes_eq]
      exact hdim
    rw [← not_iff_not, Element.not_isDegenerate_iff, Element.isRegular_quad4_iff hquad hcols]
    push Not
    exact ⟨fun hpos => ⟨Element.signedArea_pos hquad hpos, hpos⟩, And.right⟩
  refine ⟨hiff, fun c hc hquad hbad => ?_, fun hnone => ?_⟩
  · have hregular : ¬ c.element.IsRegular := fun h =>
      Element.not_isDegenerate_iff.mpr h ((hiff c hc hquad).mpr hbad)
    exact ⟨matrix_ne_ok hc hregular, vector_ne_ok hc hregular, fun _ => matrix_eq_error hc hregular,
      fun _ => vector_eq_error hc hregular⟩
  · have hregular : ∀ c ∈ m.cells, c.element.IsRegular := fun c hc =>
      Element.not_isDegenerate_iff.mp (hnone c hc)
    exact ⟨fun _ => exists_matrix_of_hasShape hregular, fun _ => exists_vector_of_hasShape hregular⟩

/-- A mesh of quadrilaterals over given points, named by their places. -/
noncomputable def quadrilaterals (points : List (List ℝ)) (corners : List (List ℕ)) : Mesh ℝ :=
  (Mesh.ofLists (.integer 1) points
    (corners.map fun places => (.quad4, places.map fun p : ℕ => (p : ℤ) + 1))).freeze.2

/-- A quadrilateral in the plane with the points at the given places as its nodes. -/
structure IsQuadrilateral (points : List (List ℝ)) (places : List ℕ) (c : Cell ℝ) : Prop where
  family_eq : c.element.family = .quad4
  dofsPerNode_eq : c.element.dofsPerNode = 1
  cols_eq : c.element.nodes.cols = 2
  entry_eq : ∀ p < 4, ∀ k, c.element.nodes.entry p k = (points.getD (places.getD p 0) []).getD k 0

theorem quadrilaterals_cells (points : List (List ℝ)) (corners : List (List ℕ))
    (hempty : points ≠ [] ∧ corners ≠ []) (hpoints : ∀ x ∈ points, x.length = 2)
    (hcorners : ∀ places ∈ corners, places.length = 4 ∧ ∀ p ∈ places, p < points.length) :
    (quadrilaterals points corners).Reachable ∧ (quadrilaterals points corners).frozen = true ∧
      Mesh.nodeDim (quadrilaterals points corners).nodes = 2 ∧
      List.Forall₂ (IsQuadrilateral points) corners (quadrilaterals points corners).cells := by
  have hdim : Mesh.nodeDim points = 2 := Mesh.nodeDim_eq hempty.1 hpoints
  have hover : (quadrilaterals points corners).IsOver points
      (corners.map fun places => (.quad4, places.map fun p : ℕ => (p : ℤ) + 1)) 1 := by
    refine (Mesh.isOver_freeze (fun x hx => by rw [hpoints x hx]; decide)
      ⟨hempty.1, by simpa using hempty.2⟩ rfl ?_).2.1
    rw [List.forall_mem_map]
    intro places hplaces
    refine ⟨(List.length_map _).trans (hcorners places hplaces).1, nofun, ?_⟩
    rw [List.forall_mem_map]
    intro p hp
    have hlt := (hcorners places hplaces).2 p hp
    omega
  refine ⟨hover.reachable, hover.frozen, by rw [hover.nodes_eq, hdim], ?_⟩
  have hmade := hover.forall₂_cells
  rw [List.forall₂_map_left_iff] at hmade
  refine List.forall₂_iff_get.mpr ⟨hmade.length_eq, fun i hi hi' => ?_⟩
  obtain ⟨hcell, -⟩ := hmade.get hi hi'
  obtain ⟨hlength, hlt⟩ := hcorners _ (List.getElem_mem hi)
  refine ⟨hcell.family_eq, hcell.dofsPerNode_eq, by rw [hcell.nodes_eq]; exact hdim, fun p hp k => ?_⟩
  simp only [List.get_eq_getElem] at hcell ⊢
  have hp' : p < corners[i].length := hlength.symm ▸ hp
  have hplace := hlt _ (List.getElem_mem hp')
  rw [hcell.nodes_eq,
    Mesh.entry_nodesOf (k := (corners[i][p] : ℤ) + 1) (x := points[corners[i][p]])]
  · simp [hp', hplace]
  · simp [hp']
  · simp [hplace]

theorem hasShape_ones (e : Element ℝ) : Kernel.ones.HasShape e [e.dofs, e.dofs] :=
  fun _ _ => ⟨_, rfl, rfl⟩

/-- The corners of a square, taken clockwise. -/
noncomputable def clockwiseSquare : Mesh ℝ :=
  quadrilaterals [[0, 0], [0, 1], [1, 1], [1, 0]] [[0, 1, 2, 3]]

theorem clockwiseSquare_refused :
    (∃ c ∈ clockwiseSquare.cells, c.element.IsDegenerate ∧ c.element.signedArea ≤ 0) ∧
    (∀ k method A, matrix clockwiseSquare k none method ≠ .ok A) ∧
    (∀ k v, vector clockwiseSquare k none ≠ .ok v) ∧
    ∀ method, ∃ err, matrix clockwiseSquare .ones none method = .error err ∧
      IsRefusal clockwiseSquare err := by
  obtain ⟨hm, hfrozen, hdim, hcells⟩ := quadrilaterals_cells
    [[0, 0], [0, 1], [1, 1], [1, 0]] [[0, 1, 2, 3]] (by simp) (by simp) (by simp)
  obtain ⟨c, rest, hquad, -, hcells⟩ := List.forall₂_cons_left_iff.mp hcells
  have hc : c ∈ clockwiseSquare.cells := by
    rw [clockwiseSquare, hcells]
    exact List.mem_cons_self
  have harea : c.element.signedArea ≤ 0 := by
    norm_num [Element.signedArea, Element.cross, hquad.family_eq, hquad.entry_eq, Family.sides]
  obtain ⟨hiff, hrefused, -⟩ := quadrilateral_refused hm hfrozen hdim
  obtain ⟨hmatrix, hvector, hones, -⟩ := hrefused c hc hquad.family_eq (.inl harea)
  exact ⟨⟨c, hc, (hiff c hc hquad.family_eq).mpr (.inl harea), harea⟩, hmatrix, hvector,
    hones .ones fun c _ => hasShape_ones c.element⟩

/-- The sides from node `p` to `q` and from node `r` to `t` cross. -/
def SidesCross (e : Element ℝ) (p q r t : ℕ) : Prop :=
  ∃ a b : ℝ, 0 < a ∧ a < 1 ∧ 0 < b ∧ b < 1 ∧ ∀ k < 2,
    (1 - a) * e.nodes.entry p k + a * e.nodes.entry q k =
      (1 - b) * e.nodes.entry r k + b * e.nodes.entry t k

/-- A quadrilateral two of whose sides cross near their ends. -/
noncomputable def crossedQuad : Mesh ℝ :=
  quadrilaterals [[0, 0], [1, 1], [1, 0], [0, 4]] [[0, 1, 2, 3]]

/-- A square twice, first counter clockwise and then clockwise. -/
noncomputable def doubledSquare : Mesh ℝ :=
  quadrilaterals [[0, 0], [1, 0], [1, 1], [0, 1]] [[0, 1, 2, 3], [0, 3, 2, 1]]

theorem exists_matrix_crossedQuad :
    (∃ c ∈ crossedQuad.cells, c.element.family = .quad4 ∧ SidesCross c.element 0 1 2 3) ∧
      ∀ method, ∃ A, matrix crossedQuad .ones none method = .ok A := by
  obtain ⟨-, -, -, hcells⟩ := quadrilaterals_cells [[0, 0], [1, 1], [1, 0], [0, 4]] [[0, 1, 2, 3]]
    (by simp) (by simp) (by simp)
  obtain ⟨c, rest, hquad, hrest, hcells⟩ := List.forall₂_cons_left_iff.mp hcells
  rw [List.forall₂_nil_left_iff] at hrest
  have hone : crossedQuad.cells = [c] := by rw [crossedQuad, hcells, hrest]
  have hcross : SidesCross c.element 0 1 2 3 := by
    refine ⟨4 / 5, 1 / 5, by norm_num, by norm_num, by norm_num, by norm_num, fun k hk => ?_⟩
    interval_cases k <;> norm_num [hquad.entry_eq]
  have hregular : c.element.IsRegular := by
    rw [Element.isRegular_quad4_iff hquad.family_eq hquad.cols_eq]
    have hnonneg : 0 ≤ √3 := Real.sqrt_nonneg 3
    have hless : √3 < 2 := by
      rw [Real.sqrt_lt' (by norm_num)]
      norm_num
    intro i hi
    interval_cases i <;>
      norm_num [Element.cornerMeasure, Element.cornerArea, Element.cross, hquad.entry_eq] <;> linarith
  have hall : ∀ d ∈ crossedQuad.cells, d.element.IsRegular := by
    intro d hd
    rw [hone, List.mem_singleton] at hd
    exact hd ▸ hregular
  exact ⟨⟨c, by simp [hone], hquad.family_eq, hcross⟩,
    exists_matrix_of_hasShape hall fun d _ => hasShape_ones d.element⟩

/-- The kernel whose value is a single one. -/
noncomputable def singleOne : Kernel ℝ := .uniform "one" (.list [.list [.real 1]])

theorem hasShape_singleOne (e : Element ℝ) : singleOne.HasShape e [1, 1] :=
  fun _ _ => ⟨_, rfl, rfl⟩

theorem matrix_doubledSquare :
    (∃ c ∈ doubledSquare.cells, c.element.family = .quad4 ∧ c.element.signedArea < 0) ∧
      ∀ method, matrix doubledSquare singleOne none method =
        .error (.dimension .elementMatrix (16 : ℕ) 1) := by
  obtain ⟨-, -, -, hcells⟩ := quadrilaterals_cells [[0, 0], [1, 0], [1, 1], [0, 1]]
    [[0, 1, 2, 3], [0, 3, 2, 1]] (by simp) (by simp) (by simp)
  obtain ⟨c, rest, hquad, hrest, hcells⟩ := List.forall₂_cons_left_iff.mp hcells
  obtain ⟨d, last, hturned, -, rfl⟩ := List.forall₂_cons_left_iff.mp hrest
  have htwo : doubledSquare.cells = c :: d :: last := hcells
  have harea : d.element.signedArea < 0 := by
    norm_num [Element.signedArea, Element.cross, hturned.family_eq, hturned.entry_eq, Family.sides]
  have hregular : c.element.IsRegular := by
    rw [Element.isRegular_quad4_iff hquad.family_eq hquad.cols_eq]
    have hnonneg : 0 ≤ √3 := Real.sqrt_nonneg 3
    intro i hi
    interval_cases i <;>
      norm_num [Element.cornerMeasure, Element.cornerArea, Element.cross, hquad.entry_eq] <;> linarith
  have hdofs : c.element.dofs = 4 := by
    rw [Element.dofs, hquad.family_eq, hquad.dofsPerNode_eq]
    rfl
  have hlocal := (hasShape_singleOne c.element).localMatrix_mismatch hregular (by rw [hdofs]; decide)
  rw [hdofs] at hlocal
  have hblocks : matrixBlocks doubledSquare singleOne none =
      .error (.dimension .elementMatrix (16 : ℕ) 1) := by
    rw [matrixBlocks, htwo, List.mapM_cons, blockOf, checkCapacity_real, ok_bind, hlocal]
    rfl
  refine ⟨⟨d, by simp [htwo], hturned.family_eq, harea⟩, fun method => ?_⟩
  cases method with
  | direct => rw [matrix_direct, hblocks]; rfl
  | triplet => rw [matrix_triplet, hblocks]; rfl

/-- Crossing sides may go unnoticed, and a value of the wrong size may be noticed earlier than an element
that is turned around. -/
theorem crossedQuad_assembled :
    (crossedQuad.Reachable ∧ crossedQuad.frozen = true ∧ Mesh.nodeDim crossedQuad.nodes = 2 ∧
      (∃ c ∈ crossedQuad.cells, c.element.family = .quad4 ∧ SidesCross c.element 0 1 2 3) ∧
      ∀ method, ∃ A, matrix crossedQuad .ones none method = .ok A) ∧
    doubledSquare.Reachable ∧ doubledSquare.frozen = true ∧ Mesh.nodeDim doubledSquare.nodes = 2 ∧
      (∃ c ∈ doubledSquare.cells, c.element.family = .quad4 ∧ c.element.signedArea < 0) ∧
      ∀ method, matrix doubledSquare singleOne none method =
        .error (.dimension .elementMatrix (16 : ℕ) 1) := by
  obtain ⟨hm, hfrozen, hdim, -⟩ := quadrilaterals_cells [[0, 0], [1, 1], [1, 0], [0, 4]]
    [[0, 1, 2, 3]] (by simp) (by simp) (by simp)
  obtain ⟨hm', hfrozen', hdim', -⟩ := quadrilaterals_cells [[0, 0], [1, 0], [1, 1], [0, 1]]
    [[0, 1, 2, 3], [0, 3, 2, 1]] (by simp) (by simp) (by simp)
  exact ⟨⟨hm, hfrozen, hdim, exists_matrix_crossedQuad⟩, hm', hfrozen', hdim', matrix_doubledSquare⟩

end Assembly
end WeakForm
