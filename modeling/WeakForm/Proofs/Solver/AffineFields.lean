import WeakForm.Proofs.RealScalar
import WeakForm.Proofs.Mesh.Boundaries
import WeakForm.Proofs.Solver.Solutions
import WeakForm.Proofs.Tensor.Broadcasting

/-!
# Affine boundary values

A field that is affine in the coordinates is evaluated at all points of a sample at once. Prescribed on
the nodes of a tag of a mesh with one degree of freedom per node, it fixes them at its values there.
-/

namespace WeakForm

namespace Tensor

variable {n : ℕ} {x y : ℕ → ℝ}

/-- The tensor with one axis and the given entries. -/
def tabulate (n : ℕ) (x : ℕ → ℝ) : Tensor ℝ := ofArray ((List.range n).map x).toArray

theorem map_tabulate (n : ℕ) (x : ℕ → ℝ) (f : ℝ → ℝ) :
    (tabulate n x).map f = tabulate n fun i => f (x i) := by
  rw [tabulate, map_ofArray, List.map_toArray, List.map_map]
  rfl

theorem zipWith_tabulate (n : ℕ) (x y : ℕ → ℝ) (f : ℝ → ℝ → ℝ) :
    zipWith f (tabulate n x) (tabulate n y) = some (tabulate n fun i => f (x i) (y i)) := by
  have hshape : (tabulate n x).shape = (tabulate n y).shape := by simp [tabulate, ofArray]
  rw [zipWith, dif_pos hshape]
  refine congrArg some (ext ?_ ?_)
  · simp [tabulate, ofArray]
  · simp [tabulate, ofArray, List.zipWith_map, List.zipWith_self]

theorem shape_tabulate (n : ℕ) (x : ℕ → ℝ) : (tabulate n x).shape = [n] := by
  simp [tabulate, ofArray]

end Tensor

namespace Product

variable {s t : Tensor ℝ} {single : Bool}

theorem mul_coordinate (single : Bool) (t : Tensor ℝ) (c : ℝ) :
    Product.mul single (.data (.real c)) (.coordinate t) = .ok (.values (t.map (c * ·))) := by
  have hcombine : combine (fun y c => c * y) t (.real c) = .ok (t.map (c * ·)) := by
    change orShapeMismatch (Tensor.zipWith (fun y c => c * y) t (.scalar c)) = _
    rw [Tensor.zipWith_scalar]
    rfl
  change (combine (fun y c => c * y) t (.real c)).map values = _
  rw [hcombine]
  rfl

/-- The product of a coefficient with one of the coordinates. -/
theorem mulPowers_unit {arguments : List (Argument ℝ)} {j : ℕ}
    (h : arguments[j]? = some (.coordinate t)) (c : ℝ) :
    mulPowers single arguments (List.replicate j (.integer 0) ++ [.integer 1]) (.data (.real c)) =
      .ok (.values (t.map (c * ·))) := by
  induction j generalizing arguments with
  | zero =>
    cases arguments with
    | nil => cases h
    | cons argument rest =>
      obtain rfl := Option.some.inj h
      change ((Product.mul single (.data (.real c)) (.coordinate t)).bind fun q =>
        mulPower single (.coordinate t) 0 q) >>= (mulPowers single rest []) = _
      rw [mul_coordinate]
      cases rest <;> rfl
  | succ j ih =>
    cases arguments with
    | nil => cases h
    | cons argument rest => exact ih h

theorem addTo_real (t : Tensor ℝ) (c : ℝ) : addTo t (.data (.real c)) = .ok (t.map (· + c)) := by
  change orShapeMismatch (Tensor.zipWith _ t (.scalar c)) = _
  rw [Tensor.zipWith_scalar]
  rfl

end Product

namespace Field

open Tensor (tabulate)

/-- The field that is `c` at the origin and has the given slopes along the coordinates. -/
def affine (c : ℝ) (slopes : List ℝ) : Field ℝ :=
  .polynomial (⟨.real c, []⟩ :: slopes.zipIdx.map fun a =>
    ⟨.real a.1, List.replicate a.2 (.integer 0) ++ [.integer 1]⟩)

/-- The value of an affine field. -/
def affineAt (c : ℝ) (slopes : List ℝ) (x : ℕ → ℝ) : ℝ :=
  c + ∑ j ∈ Finset.range slopes.length, slopes.getD j 0 * x j

/-- The coordinates of the points of a sample, `x i j` being coordinate `j` of point `i`, are arrays
that all are stored in the same way. -/
structure IsStored (s : Sample ℝ) (dim : ℕ) (store : (ℕ → ℝ) → Tensor ℝ) (x : ℕ → ℕ → ℝ) : Prop where
  map_store : ∀ (f : ℝ → ℝ) y, (store y).map f = store fun i => f (y i)
  zipWith_store : ∀ (f : ℝ → ℝ → ℝ) y z,
    Tensor.zipWith f (store y) (store z) = some (store fun i => f (y i) (z i))
  first : ∃ rest, s.coordinates = store (fun i => x i 0) :: rest
  argument : ∀ j < dim, s.arguments[j]? = some (.coordinate (store fun i => x i j))

theorem toReals_ofReals {α : Type} [Scalar α] (t : Tensor α) :
    (DataArray.ofReals t).toReals = .ok t := by
  have hentries : ((t.map Datum.real).map Datum.toReal).data.toList.mapM id = .ok t.data.toList := by
    rw [Tensor.data_map, Tensor.data_map, Array.toList_map, Array.toList_map, List.map_map,
      mapM_eq_ok_iff, List.forall₂_map_left_iff]
    exact List.forall₂_same.mpr fun _ _ => rfl
  change Tensor.collect ((t.map Datum.real).map Datum.toReal) = _
  rw [Tensor.collect, hentries, ok_bind]
  have hsize : (Tensor.ofArray t.data.toList.toArray).data.size =
      volume ((t.map Datum.real).map Datum.toReal).shape := t.size_data
  rw [Tensor.reshape?, dif_pos hsize]
  rfl

section Samples

variable {s : Sample ℝ} {dim : ℕ} {store : (ℕ → ℝ) → Tensor ℝ} {x : ℕ → ℕ → ℝ} {c : ℝ}
  {slopes : List ℝ} (h : IsStored s dim store x)
include h

/-- The terms of an affine field are added one coordinate after the other. -/
theorem foldlM_terms (n : ℕ) (hslopes : n + slopes.length ≤ dim) (y : ℕ → ℝ) :
    (slopes.zipIdx n).foldlM (fun sum a => Product.mulPowers s.single s.arguments
        (List.replicate a.2 (.integer 0) ++ [.integer 1]) (.data (.real a.1)) >>= Product.addTo sum)
      (store y) = .ok (store fun i =>
        y i + ∑ j ∈ Finset.range slopes.length, slopes.getD j 0 * x i (n + j)) := by
  induction slopes generalizing n y with
  | nil => simp [pure, Except.pure]
  | cons a slopes ih =>
    rw [List.length_cons] at hslopes
    have hsum : Product.addTo (store y) (.values (store fun i => a * x i n)) =
        .ok (store fun i => y i + a * x i n) := by
      change orShapeMismatch (Tensor.zipWith _ (store y) _) = _
      rw [h.zipWith_store]
      rfl
    rw [List.zipIdx_cons, List.foldlM_cons,
      Product.mulPowers_unit (h.argument n (by omega)), ok_bind, h.map_store, hsum, ok_bind,
      ih (n + 1) (by omega)]
    refine congrArg (fun x => Except.ok (store x)) (funext fun i => ?_)
    rw [List.length_cons, Finset.sum_range_succ', List.getD_cons_zero, Nat.add_zero, add_assoc,
      add_comm (a * _)]
    simp only [List.getD_cons_succ, Nat.add_right_comm n 1, Nat.add_assoc, Nat.add_zero]

theorem values_affine (hslopes : slopes.length ≤ dim) : (affine c slopes).values s =
    .ok (.ofReals (store fun i => affineAt c slopes (x i))) := by
  obtain ⟨rest, hrest⟩ := h.first
  have hfirst : Product.mulPowers s.single s.arguments [] (.data (.real c)) =
      .ok (.data (.real c)) := by
    cases s.arguments <;> rfl
  have hsum : sumTerms (⟨.real c, []⟩ :: slopes.zipIdx.map fun a =>
      ⟨.real a.1, List.replicate a.2 (.integer 0) ++ [.integer 1]⟩) s =
        .ok (store fun i => affineAt c slopes (x i)) := by
    simp only [sumTerms, hrest, h.map_store, zero_mul, List.foldlM_cons, List.foldlM_map]
    rw [hfirst, ok_bind, Product.addTo_real, h.map_store, ok_bind, foldlM_terms h 0 (by omega)]
    simp only [zero_add, affineAt]
  rw [affine, values, hsum]
  rfl

theorem eval_affine (hslopes : slopes.length ≤ dim) : (affine c slopes).eval s =
    .ok (store fun i => affineAt c slopes (x i)) := by
  change ((affine c slopes).values s).bind DataArray.toReals = _
  rw [values_affine h hslopes]
  exact toReals_ofReals _

end Samples

/-- At a list of points the values are stored in the order of the points. -/
theorem isStored_ofRows {points : DenseMatrix ℝ} (hcols : 0 < points.cols) :
    IsStored (.ofRows points none) points.cols (tabulate points.rows) points.entry where
  map_store f y := Tensor.map_tabulate _ _ _
  zipWith_store f y z := Tensor.zipWith_tabulate _ _ _ _
  first := by
    obtain ⟨d, hd⟩ : ∃ d, points.cols = d + 1 := ⟨points.cols - 1, by omega⟩
    simp only [Sample.ofRows, hd, List.range_succ_eq_map, List.map_cons]
    exact ⟨_, rfl⟩
  argument j hj := by
    simp [Sample.arguments, Sample.ofRows, hj, tabulate, DenseMatrix.column]

end Field

namespace Condition

open Tensor (tabulate)

/-- All components on the nodes of a tag have the values of a field. -/
def onTag (tag : TagId) (f : Field ℝ) : Condition ℝ := ⟨some tag, .field f, .null⟩

theorem asColumn_tabulate (n : ℕ) (x : ℕ → ℝ) : asColumn n (tabulate n x) =
    .ofMatrix (.ofFn n 1 fun i _ => x i) := by
  have hsize : (tabulate n x).data.size = volume [n, 1] := by
    simp [tabulate, Tensor.ofArray, volume]
  rw [asColumn, if_pos (Tensor.shape_tabulate n x), Tensor.reshape?, dif_pos hsize, Option.getD_some]
  refine Tensor.ext rfl (Array.ext ?_ fun i hi _ => ?_)
  · simp [tabulate, Tensor.ofArray, Tensor.ofMatrix, DenseMatrix.ofFn]
  · simp [tabulate, Tensor.ofArray, Tensor.ofMatrix, DenseMatrix.ofFn]

theorem nodeValues_affine (points : DenseMatrix ℝ) {c : ℝ} {slopes : List ℝ}
    (hcols : 0 < points.cols) (hslopes : slopes.length ≤ points.cols) :
    nodeValues (.field (.affine c slopes)) points 1 none =
      .ok (.ofMatrix (.ofFn points.rows 1 fun i _ => Field.affineAt c slopes (points.entry i))) := by
  have hraw : rawValues (.field (.affine c slopes)) points 1 none =
      .ok (.ofMatrix (.ofFn points.rows 1 fun i _ =>
        Field.affineAt c slopes (points.entry i))) := by
    rw [rawValues, Field.eval_affine (Field.isStored_ofRows hcols) hslopes]
    exact congrArg Except.ok (asColumn_tabulate _ _)
  have hspread := Tensor.broadcastTo?_ofMatrix
    (.ofFn points.rows 1 fun i _ => Field.affineAt c slopes (points.entry i))
  rw [DenseMatrix.rows_ofFn, DenseMatrix.cols_ofFn] at hspread
  rw [nodeValues, hraw, ok_bind, hspread]
  rfl

section OnTag

variable {m : Mesh ℝ} {tag : TagId} {ids : List ℤ} {coords : DenseMatrix ℝ} {c : ℝ}
  {slopes : List ℝ}

/-- With one degree of freedom per node every node of the tag has the value of the field. -/
theorem essentialValues_onTag (hids : m.getNodeIds (some tag) = .ok ids)
    (hcoords : m.coords = some coords) (hscalar : m.dofsPerNode = 1) (hcols : 0 < coords.cols)
    (hslopes : slopes.length ≤ coords.cols) :
    (onTag tag (.affine c slopes)).essentialValues m none = .ok (ids.map (· - 1),
      ids.map fun k => Field.affineAt c slopes (coords.entry (k - 1).toNat)) := by
  have hchosen : component? m (onTag tag (.affine c slopes)).component = .ok none := by
    change (checkCapacity 8 m.dofsPerNode).map _ = _
    rw [checkCapacity_real]
    rfl
  have hdofs : (ids.flatMap fun k => (components 1 none).map fun i => (k - 1) * ((1 : ℕ) : ℤ) + i) =
      ids.map (· - 1) := by
    simp only [components, List.range_one, List.map_cons, List.map_nil, Nat.cast_one, mul_one,
      Nat.cast_zero, add_zero]
    exact List.flatMap_pure_eq_map _ ids
  have hvalues : (Tensor.ofMatrix (.ofFn (Mesh.nodeCoords coords ids).rows 1 fun i _ =>
      Field.affineAt c slopes ((Mesh.nodeCoords coords ids).entry i))).data.toList =
        ids.map fun k => Field.affineAt c slopes (coords.entry (k - 1).toNat) := by
    refine List.ext_getElem (by simp [Tensor.ofMatrix, DenseMatrix.ofFn, Mesh.nodeCoords,
      DenseMatrix.selectRows]) fun i _ hi => ?_
    rw [List.length_map] at hi
    have hrow : ∀ j, j < slopes.length →
        (Mesh.nodeCoords coords ids).entry i j = coords.entry (ids[i] - 1).toNat j := by
      intro j hj
      rw [Mesh.nodeCoords, DenseMatrix.selectRows, DenseMatrix.entry_ofFn _ (by simpa using hi)
        (hj.trans_le hslopes)]
      simp [hi]
    have haffine : Field.affineAt c slopes ((Mesh.nodeCoords coords ids).entry i) =
        Field.affineAt c slopes (coords.entry (ids[i] - 1).toNat) := by
      refine congrArg (c + ·) (Finset.sum_congr rfl fun j hj => ?_)
      rw [hrow j (Finset.mem_range.mp hj)]
    simpa [Tensor.ofMatrix, DenseMatrix.ofFn] using haffine
  rw [essentialValues]
  change m.getNodeIds (some tag) >>= _ = _
  rw [hids, ok_bind, hchosen, ok_bind, hcoords]
  dsimp only
  rw [if_neg (by simp), hscalar]
  change nodeValues (.field (.affine c slopes)) _ 1 none >>= _ = _
  rw [nodeValues_affine (Mesh.nodeCoords coords ids) hcols hslopes, ok_bind, hdofs, hvalues]
  rfl

/-- The values that the field prescribes are its values at the nodes of the tag. -/
theorem prescribes_onTag (hids : m.getNodeIds (some tag) = .ok ids)
    (hcoords : m.coords = some coords) (hscalar : m.dofsPerNode = 1) (hcols : 0 < coords.cols)
    (hslopes : slopes.length ≤ coords.cols) :
    (onTag tag (.affine c slopes)).Applicable m none ∧
    ∀ d : ℕ, ((d : ℤ) ∈ (onTag tag (.affine c slopes)).dofs m ↔ ((d : ℤ) + 1) ∈ ids) ∧
      (((d : ℤ) + 1) ∈ ids → prescribedValue m none [onTag tag (.affine c slopes)] d =
        Field.affineAt c slopes (coords.entry d)) := by
  have hvalues := essentialValues_onTag (c := c) hids hcoords hscalar hcols hslopes
  have happlicable : (onTag tag (.affine c slopes)).Applicable m none :=
    ⟨⟨_, hvalues⟩, fun _ h => nomatch h⟩
  have hdofs (d : ℕ) : (d : ℤ) ∈ (onTag tag (.affine c slopes)).dofs m ↔ ((d : ℤ) + 1) ∈ ids := by
    rw [dofs_eq hvalues, List.mem_map]
    constructor
    · rintro ⟨k, hk, heq⟩
      rwa [← heq, sub_add_cancel]
    · exact fun hd => ⟨_, hd, add_sub_cancel_right _ _⟩
  refine ⟨happlicable, fun d => ⟨hdofs d, fun hd => ?_⟩⟩
  have hsome : (((onTag tag (.affine c slopes)).prescriptions m none).reverse.lookup (d : ℤ)).isSome := by
    rw [isSome_lookup_prescriptions happlicable, decide_eq_true_iff, hdofs]
    exact hd
  obtain ⟨v, hv⟩ := Option.isSome_iff_exists.mp hsome
  have hmem : ((d : ℤ), v) ∈ (onTag tag (.affine c slopes)).prescriptions m none :=
    List.mem_reverse.mp (mem_of_lookup_eq_some hv)
  rw [prescriptions, hvalues] at hmem
  dsimp only at hmem
  rw [List.zip_map', List.mem_map] at hmem
  obtain ⟨k, hk, heq⟩ := hmem
  obtain ⟨hkd, hkv⟩ := Prod.ext_iff.mp heq
  dsimp only at hkd hkv
  rw [prescribedValue, lastValue?_cons]
  simp only [lastValue?, List.reverse_nil, List.findSome?_nil, Option.none_or, hv, Option.getD_some]
  rw [← hkv, hkd, Int.toNat_natCast]

end OnTag

section OnRegion

variable {m : Mesh ℝ} {tag : TagId} {r : Region} {coords : DenseMatrix ℝ}

/-- A mesh with one region, all nodes of which have the values of a field. -/
theorem isEssential_onTag (c : ℝ) (slopes : List ℝ) (hfrozen : m.frozen = true) (htag : tag.IsPlain)
    (hregions : m.regions = [(tag.key, r)]) (hcoords : m.coords = some coords)
    (hscalar : m.dofsPerNode = 1) (hcols : 0 < coords.cols) (hslopes : slopes.length ≤ coords.cols) :
    (onTag tag (.affine c slopes)).Applicable m none ∧
    ∀ d : ℕ, (IsEssential m [onTag tag (.affine c slopes)] d ↔ ((d : ℤ) + 1) ∈ m.regionNodeIds r) ∧
      (IsEssential m [onTag tag (.affine c slopes)] d →
        prescribedValue m none [onTag tag (.affine c slopes)] d =
          Field.affineAt c slopes (coords.entry d)) := by
  have hlookup : m.regions.lookup tag.key = some r := by simp [hregions]
  have hids := Mesh.getNodeIds_eq_ok hfrozen htag hlookup
  obtain ⟨happlicable, hall⟩ := prescribes_onTag (c := c) hids hcoords hscalar hcols hslopes
  have hessential (d : ℕ) : IsEssential m [onTag tag (.affine c slopes)] d ↔
      ((d : ℤ) + 1) ∈ m.regionNodeIds r := by
    have hregion : (d : ℤ) ∈ m.essentialDofs → ((d : ℤ) + 1) ∈ m.regionNodeIds r := by
      intro hd
      cases he : r.essential with
      | false => simp [Mesh.essentialDofs, Mesh.essentialNodes, hregions, he] at hd
      | true =>
        simpa [Mesh.essentialDofs, Mesh.essentialNodes, hregions, he, htag.present, Mesh.allDofs, hscalar,
          eq_sub_iff_add_eq] using hd
    simp only [IsEssential, List.mem_singleton, exists_eq_left, (hall d).1]
    exact or_iff_left_of_imp hregion
  exact ⟨happlicable, fun d => ⟨hessential d, fun hd => (hall d).2 ((hessential d).mp hd)⟩⟩

end OnRegion

end Condition

end WeakForm
