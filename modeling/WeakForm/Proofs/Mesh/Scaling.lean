import WeakForm.Proofs.Mesh.Conforming
import WeakForm.Proofs.Mesh.Lifecycle

/-!
# Places in other units

In other units a mesh has the same sides, the same of them are exterior, and they lie at the same shares of its
extent. The tolerance is a share of the extent too, but never less than that share of one unit: a mesh shorter
than a unit is seen as if it was measured less closely. The shorter it gets, the more of its sides are known as
sides on the left, and in the end all of them.
-/

namespace WeakForm

section Lists

variable {f : ℝ → ℝ} (hf : Monotone f)
include hf

theorem max?_map_of_monotone (xs : List ℝ) : (xs.map f).max? = xs.max?.map f := by
  cases xs with
  | nil => rfl
  | cons x xs =>
    rw [List.map_cons, List.max?_cons', List.max?_cons', List.foldl_map, Option.map_some]
    exact congrArg some (List.foldl_hom f fun _ _ => hf.map_max.symm)

theorem min?_map_of_monotone (xs : List ℝ) : (xs.map f).min? = xs.min?.map f := by
  cases xs with
  | nil => rfl
  | cons x xs =>
    rw [List.map_cons, List.min?_cons', List.min?_cons', List.foldl_map, Option.map_some]
    exact congrArg some (List.foldl_hom f fun _ _ => hf.map_min.symm)

end Lists

namespace Mesh

variable {m m' : Mesh ℝ} {c t : ℝ} {ref : SideRef} {l : Location} {k : ℤ}

section Extent

/-- The width of the bounding box along an axis. -/
noncomputable def boxWidth (coords : DenseMatrix ℝ) (j : ℕ) : ℝ :=
  (columnRange coords j).2 - (columnRange coords j).1

/-- The greatest width of the bounding box. -/
noncomputable def extent (m : Mesh ℝ) : ℝ :=
  ((List.range (nodeDim m.nodes)).map (boxWidth (coordinateMatrix m.nodes))).max?.getD 0

/-- The tolerance is a share of the extent, but of one unit if the extent is less. -/
theorem tolerance_eq (m : Mesh ℝ) : m.tolerance = 1e-10 * max 1 m.extent := by
  have hif (x : ℝ) : (if 1 < x then x else 1) = max 1 x := by
    rw [max_def]
    split_ifs <;> order
  have hextent (widths : List ℝ) : (widths.drop 1).foldl max (widths.headD 0) = widths.max?.getD 0 := by
    cases widths with
    | nil => rfl
    | cons x xs =>
      rw [List.max?_cons']
      rfl
  simp only [tolerance, boxTolerance, less_real, decide_eq_true_eq, max_real, hif, hextent]
  rfl

theorem tolerance_pos (m : Mesh ℝ) : 0 < m.tolerance := by
  rw [tolerance_eq]
  have := le_max_left 1 m.extent
  positivity

/-- No node is farther from the left than the extent. -/
theorem nodeOn_left (hk : 1 ≤ k ∧ k ≤ m.nodes.length) (hdim : 0 < nodeDim m.nodes) (ht : m.extent ≤ t) :
    m.NodeOn t .left k := by
  have hrows : (k - 1).toNat < (coordinateMatrix m.nodes).rows := by
    change (k - 1).toNat < m.nodes.length
    omega
  obtain ⟨⟨-, hleast⟩, -, hgreatest⟩ := columnRange_spec (coordinateMatrix m.nodes) (by omega) 0
  have hlo := hleast ⟨_, hrows, rfl⟩
  have hhi := hgreatest ⟨_, hrows, rfl⟩
  have hwidth : boxWidth (coordinateMatrix m.nodes) 0 ≤ m.extent := by
    have hmem : boxWidth (coordinateMatrix m.nodes) 0 ∈
        (List.range (nodeDim m.nodes)).map (boxWidth (coordinateMatrix m.nodes)) :=
      List.mem_map_of_mem (List.mem_range.mpr hdim)
    obtain ⟨w, hw⟩ := Option.ne_none_iff_exists'.mp
      (mt List.max?_eq_none_iff.mp (List.ne_nil_of_mem hmem))
    rw [extent, hw]
    exact (List.max?_eq_some_iff.mp hw).2 _ hmem
  rw [boxWidth] at hwidth
  rw [nodeOn_iff, Location.axis, boxSide, abs_of_nonneg (sub_nonneg.mpr hlo)]
  linarith

theorem sideOn_mono {t' : ℝ} (ht : t ≤ t') (h : m.SideOn t l ref) : m.SideOn t' l ref :=
  fun k hk => nodeOn_iff.mpr ((nodeOn_iff.mp (h k hk)).trans ht)

variable (hm : m.Reachable) (hfrozen : m.frozen = true)
include hm hfrozen

/-- The left is tried first. -/
theorem hasFace_iff_of_left (hon : m.SideOn t .left ref) :
    m.HasFace t ref l ↔ m.IsExteriorSide ref ∧ l = .left := by
  constructor
  · intro h
    refine ⟨h.exterior, ?_⟩
    cases l with
    | left => rfl
    | _ => exact absurd hon (h.first .left (by decide))
  · rintro ⟨⟨side, hside, hboundary⟩, rfl⟩
    obtain ⟨i, c, s, rfl, hc, -⟩ := side?_eq_some.mp hside
    refine ⟨⟨side, hside, hboundary⟩, hon, ?_, fun l' hl' => absurd hl' (Nat.not_lt_zero _)⟩
    rw [(hm.placed hfrozen).dim_eq]
    have hcols := hm.wellFormed.cols_nodes_pos hfrozen (List.mem_of_getElem? hc)
    rwa [((hm.wellFormed.built hfrozen).isMade_of_mem (List.mem_of_getElem? hc)).1.nodes_eq] at hcols

/-- For a tolerance as large as the extent everything lies on the left. -/
theorem sideOn_left_of_extent_le (ht : m.extent ≤ t) : m.SideOn t .left ref := by
  intro k hk
  have hrange := hm.wellFormed.range_of_mem_sideNodeIds (hm.wellFormed.built hfrozen) hk
  exact nodeOn_left hrange (hm.wellFormed.nodeDim_pos (by omega)) ht

end Extent

/-- The nodes of the second mesh are those of the first one in other units. -/
structure Scales (c : ℝ) (m m' : Mesh ℝ) : Prop where
  nodes_eq : m'.nodes = m.nodes.map (List.map (c * ·))
  connectivity_eq : m'.connectivity = m.connectivity

namespace Scales

section Boxes

variable (h : Scales c m m')
include h

theorem nodeDim_eq : nodeDim m'.nodes = nodeDim m.nodes := by
  rw [nodeDim, nodeDim, h.nodes_eq, List.map_map]
  congr 1
  exact List.map_congr_left fun x _ => List.length_map _

theorem entry_eq (i j : ℕ) : (coordinateMatrix m'.nodes).entry i j = c * (coordinateMatrix m.nodes).entry i j := by
  have hnodes := congrArg (fun nodes : List (List ℝ) => nodes[i]?) h.nodes_eq
  simp only [List.getElem?_map] at hnodes
  cases hx : m.nodes[i]? with
  | none =>
    have hrows {n : Mesh ℝ} (hn : n.nodes[i]? = none) : (coordinateMatrix n.nodes).entry i j = 0 :=
      DenseMatrix.entry_of_rows_le _ (List.getElem?_eq_none_iff.mp hn)
    rw [hx, Option.map_none] at hnodes
    rw [hrows hnodes, hrows hx, mul_zero]
  | some x =>
    rw [hx, Option.map_some] at hnodes
    rw [entry_coordinateMatrix hnodes, entry_coordinateMatrix hx, List.getD_eq_getElem?_getD,
      List.getElem?_map, List.getD_eq_getElem?_getD]
    cases x[j]? <;> simp

theorem column_eq (j : ℕ) :
    (coordinateMatrix m'.nodes).column j = ((coordinateMatrix m.nodes).column j).map (c * ·) := by
  have hrows : (coordinateMatrix m'.nodes).rows = (coordinateMatrix m.nodes).rows := by
    change m'.nodes.length = m.nodes.length
    rw [h.nodes_eq, List.length_map]
  rw [DenseMatrix.column, DenseMatrix.column, hrows, List.map_map]
  exact List.map_congr_left fun i _ => h.entry_eq i j

variable (hc : 0 < c)
include hc

theorem columnRange_eq (j : ℕ) : columnRange (coordinateMatrix m'.nodes) j =
    (c * (columnRange (coordinateMatrix m.nodes) j).1, c * (columnRange (coordinateMatrix m.nodes) j).2) := by
  have hmono : Monotone (c * ·) := fun _ _ hle => mul_le_mul_of_nonneg_left hle hc.le
  have hgetD (x : Option ℝ) : (x.map (c * ·)).getD 0 = c * x.getD 0 := by cases x <;> simp
  rw [Mesh.columnRange_eq, Mesh.columnRange_eq, h.column_eq, min?_map_of_monotone hmono,
    max?_map_of_monotone hmono, hgetD, hgetD]

theorem boxSide_eq (l : Location) :
    boxSide (coordinateMatrix m'.nodes) l = c * boxSide (coordinateMatrix m.nodes) l := by
  cases l <;> simp only [boxSide, h.columnRange_eq hc]

theorem extent_eq : m'.extent = c * m.extent := by
  have hmono : Monotone (c * ·) := fun _ _ hle => mul_le_mul_of_nonneg_left hle hc.le
  have hwidth : boxWidth (coordinateMatrix m'.nodes) =
      (c * ·) ∘ boxWidth (coordinateMatrix m.nodes) := by
    funext j
    simp only [boxWidth, h.columnRange_eq hc, Function.comp_apply, mul_sub]
  rw [extent, extent, h.nodeDim_eq, hwidth, ← List.map_map, max?_map_of_monotone hmono]
  cases ((List.range (nodeDim m.nodes)).map (boxWidth (coordinateMatrix m.nodes))).max? <;> simp

/-- In the old units the tolerance is a share of the extent or of the new unit. -/
theorem tolerance_eq : m'.tolerance = c * (1e-10 * max c⁻¹ m.extent) := by
  rw [Mesh.tolerance_eq, h.extent_eq hc, mul_left_comm, mul_max_of_nonneg _ _ hc.le,
    mul_inv_cancel₀ hc.ne']

theorem nodeOn_iff : m'.NodeOn (c * t) l k ↔ m.NodeOn t l k := by
  rw [Mesh.nodeOn_iff, Mesh.nodeOn_iff, h.entry_eq, h.boxSide_eq hc, ← mul_sub, abs_mul, abs_of_pos hc,
    mul_le_mul_iff_right₀ hc]

end Boxes

section Sides

variable (h : Scales c m m') (hm : m.Reachable) (hfrozen : m.frozen = true) (hm' : m'.Reachable)
  (hfrozen' : m'.frozen = true)
include h hm hfrozen hm' hfrozen'

theorem isExteriorSide_iff : m'.IsExteriorSide ref ↔ m.IsExteriorSide ref := by
  rw [show m'.IsExteriorSide ref ↔ _ from mem_exteriorSides hm' hfrozen',
    show m.IsExteriorSide ref ↔ _ from mem_exteriorSides hm hfrozen, h.connectivity_eq]

/-- The faces on which a side lies are the same for the same share of the extent. -/
theorem hasFace_iff (hc : 0 < c) : m'.HasFace (c * t) ref l ↔ m.HasFace t ref l := by
  by_cases hexterior : m.IsExteriorSide ref
  · obtain ⟨n, s, ids, rfl, hids⟩ := (mem_exteriorSides hm hfrozen).mp hexterior
    have hexterior' := (h.isExteriorSide_iff hm hfrozen hm' hfrozen').mpr hexterior
    have hside := sideNodeIds_of_sideOf hm.wellFormed hfrozen hids.sideOf_eq
    have hside' := sideNodeIds_of_sideOf hm'.wellFormed hfrozen' (h.connectivity_eq ▸ hids.sideOf_eq)
    have hon (l : Location) : m'.SideOn (c * t) l (n + 1, s) ↔ m.SideOn t l (n + 1, s) := by
      simp only [SideOn, hside, hside', h.nodeOn_iff hc]
    have hdim : m'.dim = m.dim := by
      rw [(hm.placed hfrozen).dim_eq, (hm'.placed hfrozen').dim_eq, h.nodeDim_eq]
    constructor
    · rintro ⟨-, hl, haxis, hfirst⟩
      exact ⟨hexterior, (hon l).mp hl, hdim ▸ haxis, fun l' hl' => mt (hon l').mpr (hfirst l' hl')⟩
    · rintro ⟨-, hl, haxis, hfirst⟩
      exact ⟨hexterior', (hon l).mpr hl, hdim ▸ haxis, fun l' hl' => mt (hon l').mp (hfirst l' hl')⟩
  · exact iff_of_false (fun h' => hexterior ((h.isExteriorSide_iff hm hfrozen hm' hfrozen').mp h'.exterior))
      fun h' => hexterior h'.exterior

/-- The places in other units are those for another tolerance. -/
theorem location?_eq_some (hdim : m.dim ≤ 2) (hc : 0 < c) :
    m'.location? ref = some l ↔ m.HasFace (1e-10 * max c⁻¹ m.extent) ref l := by
  have hdim' : m'.dim ≤ 2 := by
    rwa [(hm'.placed hfrozen').dim_eq, h.nodeDim_eq, ← (hm.placed hfrozen).dim_eq]
  rw [hm'.location?_eq_some hfrozen' hdim', h.tolerance_eq hc, h.hasFace_iff hm hfrozen hm' hfrozen' hc]

end Sides

end Scales

section Freezing

/-- The mesh in other units, not yet frozen. -/
noncomputable def scaled (m : Mesh ℝ) (c : ℝ) : Mesh ℝ :=
  .ofLists m.space (m.nodes.map (List.map (c * ·))) m.connectivity

/-- A mesh that can be frozen can also be frozen in other units. -/
theorem freeze_scaled (hm : m.Reachable) (hok : m.freeze.1 = .ok ()) (c : ℝ) :
    (m.scaled c).freeze.1 = .ok () ∧ (m.scaled c).freeze.2.Reachable ∧
      (m.scaled c).freeze.2.frozen = true ∧ Scales c m.freeze.2 (m.scaled c).freeze.2 := by
  obtain ⟨hopen, hnodes, hconnectivity, n, hn, hcells, -⟩ := exists_of_freeze hok
  obtain ⟨-, -, -, hkept, hkept', -⟩ := freeze_eq_ok hm hopen hnodes hconnectivity hn hcells
  have hscales : Scales c m (m.scaled c) := ⟨rfl, rfl⟩
  have hreachable : (m.scaled c).Reachable := by
    refine reachable_ofLists m.space (fun x hx => ?_) hm.wellFormed.connectivity
    obtain ⟨y, hy, rfl⟩ := List.mem_map.mp hx
    rw [List.length_map]
    exact hm.wellFormed.nodes y hy
  obtain ⟨hok', hfrozen', -, hnodes', hconnectivity', -⟩ := freeze_eq_ok hreachable rfl
    (by simpa [scaled, ofLists] using hnodes) hconnectivity (hscales.nodeDim_eq ▸ hn)
    fun x hx => by simpa [scaled, ofLists] using hcells x hx
  exact ⟨hok', .step hreachable (.freeze _), hfrozen', by rw [hnodes', hkept]; rfl,
    by rw [hconnectivity', hkept']; rfl⟩

variable (hm : m.Reachable) (hok : m.freeze.1 = .ok ()) (hdim : m.freeze.2.dim ≤ 2)
include hm hok hdim

theorem location?_scaled (hc : 0 < c) : (m.scaled c).freeze.2.location? ref = some l ↔
    m.freeze.2.HasFace (1e-10 * max c⁻¹ m.freeze.2.extent) ref l := by
  obtain ⟨-, hreachable', hfrozen', hscales⟩ := freeze_scaled hm hok c
  exact hscales.location?_eq_some (.step hm (.freeze m)) (frozen_of_freeze (Prod.ext hok rfl)) hreachable'
    hfrozen' hdim hc

/-- As long as the extent is one unit at least, the places do not depend on the unit. -/
theorem location?_scaled_eq (hc : 0 < c) (hlong : 1 ≤ m.freeze.2.extent) (hlong' : 1 ≤ c * m.freeze.2.extent) :
    (m.scaled c).freeze.2.location? ref = m.freeze.2.location? ref := by
  have hinv : c⁻¹ ≤ m.freeze.2.extent := (inv_le_iff_one_le_mul₀' hc).mpr hlong'
  refine Option.ext fun l => ?_
  rw [location?_scaled hm hok hdim hc, max_eq_right hinv,
    (hm.step (.freeze m)).location?_eq_some (frozen_of_freeze (Prod.ext hok rfl)) hdim, tolerance_eq,
    max_eq_right hlong]

/-- The places never depend on the unit only if all exterior sides are on the left in every unit. -/
theorem location?_scaled_iff : (∀ c, 0 < c → ∀ ref,
      (m.scaled c).freeze.2.location? ref = m.freeze.2.location? ref) ↔
    ∀ ref, m.freeze.2.IsExteriorSide ref → m.freeze.2.SideOn (1e-10 * m.freeze.2.extent) .left ref := by
  have hreachable := hm.step (.freeze m)
  have hfrozen : m.freeze.2.frozen = true := frozen_of_freeze (Prod.ext hok rfl)
  constructor
  · intro hsame ref hexterior
    -- in units that are long enough the side is on the left, and so it is in units as long as the mesh
    obtain ⟨c, hc, hlong⟩ : ∃ c : ℝ, 0 < c ∧ m.freeze.2.extent ≤ 1e-10 * max c⁻¹ m.freeze.2.extent := by
      refine ⟨(1e10 * |m.freeze.2.extent| + 1)⁻¹, by positivity, ?_⟩
      have hle := le_abs_self m.freeze.2.extent
      have hmax := le_max_left (1e10 * |m.freeze.2.extent| + 1) m.freeze.2.extent
      rw [inv_inv]
      linarith
    have hleft : m.freeze.2.location? ref = some .left := by
      rw [← hsame c hc ref, location?_scaled hm hok hdim hc]
      exact (hasFace_iff_of_left hreachable hfrozen
        (sideOn_left_of_extent_le hreachable hfrozen hlong)).mpr ⟨hexterior, rfl⟩
    by_cases hpos : 0 < m.freeze.2.extent
    · have hface := hsame _ (inv_pos.mpr hpos) ref
      rw [hleft, location?_scaled hm hok hdim (inv_pos.mpr hpos), inv_inv, max_self] at hface
      exact hface.on
    · exact sideOn_left_of_extent_le hreachable hfrozen (by linarith)
  · intro hleft c hc ref
    have hface {t : ℝ} (ht : m.freeze.2.extent ≤ t) (l : Location) :
        m.freeze.2.HasFace (1e-10 * t) ref l ↔ m.freeze.2.IsExteriorSide ref ∧ l = .left := by
      by_cases hexterior : m.freeze.2.IsExteriorSide ref
      · exact hasFace_iff_of_left hreachable hfrozen
          (sideOn_mono (mul_le_mul_of_nonneg_left ht (by norm_num)) (hleft ref hexterior))
      · exact iff_of_false (fun h => hexterior h.exterior) fun h => hexterior h.1
    refine Option.ext fun l => ?_
    rw [location?_scaled hm hok hdim hc, hreachable.location?_eq_some hfrozen hdim, tolerance_eq,
      hface (le_max_right _ _), hface (le_max_right _ _)]

end Freezing

end Mesh
end WeakForm
