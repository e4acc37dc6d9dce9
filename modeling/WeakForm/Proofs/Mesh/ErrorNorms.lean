import WeakForm.ErrorNorm
import WeakForm.Proofs.Assembly.OverCells
import WeakForm.Proofs.Element.Areas
import WeakForm.Proofs.Element.Fields
import WeakForm.Proofs.Kernel.Mass
import WeakForm.Proofs.Mesh.Grids
import WeakForm.Proofs.Mesh.Locations
import WeakForm.Proofs.RealScalar
import WeakForm.Proofs.Solver.AffineFields

/-!
# Error norms and mass matrices

On the elements of a Lagrange family the difference between a discrete field and an affine one is the
field of the differences at the nodes. The loop over the points of the rules adds up the integrals of
its square, which are what the mass matrices make of these differences. So the square of the norm is
the product of the assembled matrix of `N'*N` with the differences.
-/

/-!
## Nodal values of affine fields

A field gives a value to each component at a point, or one value to all of them. A vector holds the
values of a field at the nodes, those of a node one after the other. If the field is affine in the
coordinates, its value at a blend of nodes is the blend of its values at the nodes.
-/

namespace WeakForm

open Finset

namespace Field

variable {g : Field ℝ} {x : List ℝ} {dim r : ℕ} {f f' : ℕ → ℝ}

/-- At a point the field has the value `f i` for each of `r` components `i`. A single value is that
of all components. -/
def Gives (g : Field ℝ) (x : List ℝ) (r : ℕ) (f : ℕ → ℝ) : Prop :=
  ∃ t, g.eval (.ofPoint x) = .ok t ∧ Tensor.Fits t.shape [r] ∧ ∀ i < r, t.entryAt [i] = f i

/-- The field has `r` components that are affine in the coordinates of points of dimension `dim`. -/
def IsAffine (g : Field ℝ) (dim r : ℕ) : Prop :=
  ∃ (c : ℕ → ℝ) (slopes : ℕ → ℕ → ℝ), ∀ x : List ℝ, x.length = dim →
    g.Gives x r fun i => c i + ∑ k ∈ range dim, slopes i k * x.getD k 0

theorem Gives.congr (h : g.Gives x r f) (hf : ∀ i < r, f i = f' i) : g.Gives x r f' := by
  obtain ⟨t, ht, hfits, hentry⟩ := h
  exact ⟨t, ht, hfits, fun i hi => (hentry i hi).trans (hf i hi)⟩

theorem Gives.unique (h : g.Gives x r f) (h' : g.Gives x r f') : ∀ i < r, f i = f' i := by
  obtain ⟨t, ht, -, hentry⟩ := h
  obtain ⟨t', ht', -, hentry'⟩ := h'
  obtain rfl := Except.ok.inj (ht.symm.trans ht')
  exact fun i hi => (hentry i hi).symm.trans (hentry' i hi)

/-- The value at a blend of points is the blend of the values. -/
theorem IsAffine.gives_blend (hg : g.IsAffine dim r) {weights : List ℝ}
    (hone : blend weights 1 = 1) {points : DenseMatrix ℝ} (hcols : points.cols = dim)
    {y : ℕ → ℕ → ℝ} (hy : ∀ p < weights.length, g.Gives (points.row p) r (y p)) :
    g.Gives ((List.range points.cols).map fun k => blend weights fun p => points.entry p k) r
      fun i => blend weights fun p => y p i := by
  obtain ⟨c, slopes, hgives⟩ := hg
  have hrow (p : ℕ) := hgives (points.row p) (by simp [DenseMatrix.row, hcols])
  refine (hgives _ (by simp [hcols])).congr fun i hi => ?_
  have hvalue : ∀ p < weights.length,
      y p i = c i + ∑ k ∈ range dim, slopes i k * points.entry p k := by
    intro p hp
    rw [(hy p hp).unique (hrow p) i hi]
    congr 1
    refine sum_congr rfl fun k hk => ?_
    simp [DenseMatrix.row, hcols, mem_range.mp hk]
  rw [blend_congr hvalue, blend_affine hone]
  congr 1
  refine sum_congr rfl fun k hk => ?_
  simp [hcols, mem_range.mp hk]

section Affine

theorem isStored_ofPoint (hx : 0 < x.length) :
    IsStored (.ofPoint x) x.length (fun y => .scalar (y 0)) fun _ j => x.getD j 0 where
  map_store f y := Tensor.map_scalar f (y 0)
  zipWith_store f y z := by rw [Tensor.zipWith_scalar, Tensor.map_scalar]
  first := by
    obtain ⟨a, x, rfl⟩ := List.exists_cons_of_length_pos hx
    exact ⟨_, rfl⟩
  argument j hj := by simp [Sample.arguments, Sample.ofPoint, hj]

/-- The value of an affine field with as many slopes as there are coordinates. -/
theorem affineAt_eq {slopes : List ℝ} (hlength : slopes.length = dim) (c : ℝ) (x : ℕ → ℝ) :
    affineAt c slopes x = c + ∑ k ∈ range dim, slopes.getD k 0 * x k := by
  rw [affineAt, hlength]

/-- Numbers side by side are the entries of an array. -/
theorem stack_scalars {values : List ℝ} (hne : values ≠ []) :
    DataArray.stack (values.map fun v => .ofReals (.scalar v)) =
      .ok (.ofReals (.ofArray values.toArray)) := by
  obtain ⟨v, values, rfl⟩ := List.exists_cons_of_ne_nil hne
  have hitems : ((v :: values).map fun v => DataArray.ofReals (.scalar v)).map DataArray.items =
      (v :: values).map fun v => Tensor.scalar (Datum.real v) := by
    rw [List.map_map]
    exact List.map_congr_left fun v _ => Tensor.map_scalar Datum.real v
  have hstack : Tensor.stackLast? ((v :: values).map fun v => Tensor.scalar (Datum.real v)) =
      some ((Tensor.ofArray (v :: values).toArray).map Datum.real) := by
    rw [Tensor.map_ofArray]
    simp [Tensor.stackLast?, Tensor.scalar, Tensor.ofArray, Tensor.reshape?, volume]
  have hcommon : DataArray.commonalityOf
      ((v :: values).map fun v => DataArray.ofReals (.scalar v)) = .numbers := by
    simp [DataArray.commonalityOf, DataArray.ofReals]
  rw [DataArray.stack, hitems, hstack]
  simp only [hcommon]
  rfl

theorem componentValues_affine {s : Sample ℝ} {x : ℕ → ℕ → ℝ}
    (h : IsStored s dim (fun y => .scalar (y 0)) x) {components : List (ℝ × List ℝ)}
    (hlength : ∀ a ∈ components, a.2.length = dim) :
    componentValues s (components.map fun a => affine a.1 a.2) =
      .ok ((components.map fun a => affineAt a.1 a.2 (x 0)).map fun v => .ofReals (.scalar v)) := by
  induction components with
  | nil => rfl
  | cons a components ih =>
    obtain ⟨ha, hlength⟩ := List.forall_mem_cons.mp hlength
    rw [List.map_cons, componentValues, values_affine h ha.le, ok_bind, ih hlength]
    rfl

/-- Affine fields side by side. -/
theorem isAffine_vector {components : List (ℝ × List ℝ)} (hne : components ≠ []) (hpos : 0 < dim)
    (hlength : ∀ a ∈ components, a.2.length = dim) :
    (vector (components.map fun a => affine a.1 a.2)).IsAffine dim components.length := by
  refine ⟨fun i => (components.getD i (0, [])).1, fun i k => (components.getD i (0, [])).2.getD k 0,
    fun x hx => ?_⟩
  have hstored := isStored_ofPoint (x := x) (hx ▸ hpos)
  rw [hx] at hstored
  have hvalues : (vector (components.map fun a => affine a.1 a.2)).values (.ofPoint x) =
      .ok (.ofReals (.ofArray
        (components.map fun a => affineAt a.1 a.2 fun j => x.getD j 0).toArray)) := by
    rw [values, componentValues_affine hstored hlength]
    exact stack_scalars (by simpa using hne)
  refine ⟨.ofArray (components.map fun a => affineAt a.1 a.2 fun j => x.getD j 0).toArray, ?_, ?_,
    fun i hi => ?_⟩
  · change ((vector _).values (.ofPoint x)).bind DataArray.toReals = _
    rw [hvalues]
    exact toReals_ofReals _
  · simpa [Tensor.ofArray] using Tensor.Fits.refl [components.length]
  · rw [Tensor.entryAt_ofArray _ (by simpa using hi)]
    simp [hi, affineAt_eq (hlength _ (List.getElem_mem hi))]

theorem gives_zero (x : List ℝ) (r : ℕ) : (constant (.integer 0) : Field ℝ).Gives x r fun _ => 0 := by
  refine ⟨.scalar 0, ?_, .nil _, fun i _ => ?_⟩
  · change Except.ok (Tensor.scalar ((0 : ℤ) : ℝ)) = _
    rw [Int.cast_zero]
  · simp [Tensor.entryAt, Tensor.get, Tensor.scalar, Tensor.ravel, Tensor.project]

/-- Zero is affine, whatever the number of components. -/
theorem isAffine_zero (dim r : ℕ) : (constant (.integer 0) : Field ℝ).IsAffine dim r :=
  ⟨fun _ => 0, fun _ _ => 0, fun x _ => (gives_zero x r).congr fun _ _ => by simp⟩

end Affine

end Field

namespace Mesh

variable {m : Mesh ℝ} {g : Field ℝ}

/-- The vector holds the values of a field at the nodes, those of a node one after the other. -/
structure IsNodal (m : Mesh ℝ) (g : Field ℝ) (v : Array ℝ) : Prop where
  size_eq : v.size = m.dofs
  gives : ∀ k < m.nodes.length, g.Gives ((coordinateMatrix m.nodes).row k) m.dofsPerNode
    fun i => v.getD (k * m.dofsPerNode + i) 0

theorem isNodal_zero (m : Mesh ℝ) :
    m.IsNodal (.constant (.integer 0)) (Array.replicate m.dofs 0) where
  size_eq := Array.size_replicate
  gives k _ := (Field.gives_zero _ _).congr fun i _ => by
    by_cases h : k * m.dofsPerNode + i < m.dofs <;> simp [h]

/-- Every affine field has nodal values. -/
theorem exists_isNodal (hm : m.Reachable) (hfrozen : m.frozen = true)
    (hg : g.IsAffine (nodeDim m.nodes) m.dofsPerNode) : ∃ v, m.IsNodal g v := by
  obtain ⟨c, slopes, hgives⟩ := hg
  have hb := hm.wellFormed.built hfrozen
  refine ⟨Array.ofFn fun d : Fin m.dofs => c (d % m.dofsPerNode) +
    ∑ k ∈ range (nodeDim m.nodes), slopes (d % m.dofsPerNode) k *
      ((coordinateMatrix m.nodes).row (d / m.dofsPerNode)).getD k 0, by simp, fun k hk => ?_⟩
  refine (hgives _ (by simp [DenseMatrix.row, coordinateMatrix, DenseMatrix.ofRows])).congr
    fun i hi => ?_
  have hlt : k * m.dofsPerNode + i < m.dofs := hb.dofs ▸ DenseMatrix.index_lt hk hi
  obtain ⟨hdiv, hmod⟩ := DenseMatrix.index_div_mod hi k
  simp [hlt, hdiv, hmod]

end Mesh
end WeakForm

/-!
## Norms of differences
-/

namespace WeakForm

open Finset Matrix

/-- A loop that adds a number for every item ends with their sum. -/
theorem foldlM_add {β ε : Type} {items : List β} {step : ℝ → β → Except ε ℝ} {x : β → ℝ}
    (h : ∀ b ∈ items, ∀ s, step s b = .ok (s + x b)) (total : ℝ) :
    items.foldlM step total = .ok (total + (items.map x).sum) := by
  induction items generalizing total with
  | nil => simp [pure, Except.pure]
  | cons b items ih =>
    obtain ⟨hb, h⟩ := List.forall_mem_cons.mp h
    rw [List.foldlM_cons, hb, ok_bind, ih h, List.map_cons, List.sum_cons, add_assoc]

namespace Element

variable {e : Element ℝ}

/-- The integral of the square of the field with the given nodal values, over all components. -/
noncomputable def squareIntegral (e : Element ℝ) (x : ℕ → ℝ) : ℝ :=
  (e.points.map fun q => e.weightAt q * ∑ i ∈ range e.dofsPerNode,
    (blend (e.basisAt q) fun p => x (p * e.dofsPerNode + i)) *
      blend (e.basisAt q) fun p => x (p * e.dofsPerNode + i)).sum

theorem squareIntegral_nonneg (h : e.IsRegular) (x : ℕ → ℝ) : 0 ≤ e.squareIntegral x := by
  refine List.sum_nonneg fun y hy => ?_
  obtain ⟨q, hq, rfl⟩ := List.mem_map.mp hy
  exact mul_nonneg (h.weightAt_pos hq).le (sum_nonneg fun i _ => mul_self_nonneg _)

theorem valuesOf_dofIndex {n : ℕ} (hrange : ∀ d ∈ e.getDof, 0 ≤ d ∧ d < n) (f : ℕ → ℝ) {p i : ℕ}
    (hp : p < e.family.nodeCount) (hi : i < e.dofsPerNode) :
    e.valuesOf (fun d : Fin n => f d) (p * e.dofsPerNode + i) =
      f (dofIndex e.dofsPerNode (e.nodeIds.getD p 0) i).toNat := by
  have hlt : p < e.nodeIds.length := e.length_nodeIds.symm ▸ hp
  have hdof := e.getElem?_getDof p hi
  rw [List.getElem?_eq_getElem hlt, Option.map_some, ← List.getD_eq_getElem _ 0 hlt] at hdof
  obtain ⟨hnonneg, hle⟩ := hrange _ (List.mem_of_getElem? hdof)
  have hindex : (dofIndex e.dofsPerNode (e.nodeIds.getD p 0) i).toNat < n := by omega
  refine valuesOf_eq (i := ⟨_, hindex⟩) (hdof.trans (congrArg some ?_))
  exact (Int.toNat_of_nonneg hnonneg).symm

end Element

namespace ErrorNorm

theorem squaredSum_eq {t : Tensor ℝ} {r : ℕ} {f : ℕ → ℝ} (hshape : t.shape = [r])
    (hentry : ∀ i < r, t.entryAt [i] = f i) : squaredSum t.data = ∑ i ∈ range r, f i * f i := by
  have hsize : t.data.size = r := by rw [t.size_data, hshape, volume, volume, mul_one]
  have hdata : t.data.toList = (List.range r).map f := by
    refine List.ext_getElem (by simpa using hsize) fun i hi _ => ?_
    have hi : i < t.data.size := by simpa using hi
    have hunravel := t.entryAt_unravel (k := i) (t.size_data ▸ hi)
    have hindex : Tensor.unravel t.shape i = [i] := by
      rw [hshape]
      simp [Tensor.unravel, volume]
    rw [hindex, hentry i (hsize ▸ hi)] at hunravel
    simpa [hi] using hunravel.symm
  have hfold (xs : List ℝ) (s : ℝ) :
      xs.foldl (fun s x => s + x * x) s = s + (xs.map fun x => x * x).sum := by
    induction xs generalizing s with
    | nil => simp
    | cons x xs ih => rw [List.foldl_cons, ih, List.map_cons, List.sum_cons, add_assoc]
  rw [squaredSum, ← Array.foldl_toList, hdata, hfold, zero_add, List.map_map]
  rfl

section Terms

variable {e : Element ℝ} {u : Array ℝ} {g : Field ℝ} {q : QuadraturePoint ℝ} {r : ℕ}

/-- The term of a point where both fields have values. -/
theorem term_eq_ok {y f : ℕ → ℝ} {x : List ℝ}
    (hvalues : e.evaluate u q.position = .ok ((List.range r).map y))
    (hpoint : e.position q.position = .ok x) (hg : g.Gives x r f)
    (hd : ∃ d, e.detJ q.position = .ok d) :
    term e u g q = .ok (e.weightAt q * ∑ i ∈ range r, (y i - f i) * (y i - f i)) := by
  obtain ⟨t, ht, hfits, hentry⟩ := hg
  obtain ⟨d, hd⟩ := hd
  have hshape : (Tensor.ofArray ((List.range r).map y).toArray).shape = [r] := by
    simp [Tensor.ofArray]
  have hvaluesFit : Tensor.Fits (Tensor.ofArray ((List.range r).map y).toArray).shape [r] := by
    rw [hshape]
    exact .refl [r]
  obtain ⟨z, hz, hleft, -, hbelow, hzentry⟩ :=
    Tensor.exists_zipWith (fun a b : ℝ => a - b) hvaluesFit hfits
  rw [hshape] at hleft
  have hsum : squaredSum z.data = ∑ i ∈ range r, (y i - f i) * (y i - f i) := by
    refine squaredSum_eq (hbelow.antisymm hleft) fun i hi => ?_
    rw [hzentry [i] (.cons hi .nil), hentry i hi, Tensor.entryAt_ofArray _ (by simpa using hi)]
    simp [hi]
  rw [term, hvalues, ok_bind, hpoint, ok_bind, ht, ok_bind]
  change (orShapeMismatch (Tensor.zipWith (fun a b : ℝ => a - b) _ t) >>= _) = _
  rw [hz]
  change (e.detJ q.position >>= _) = _
  rw [hd, ok_bind, hsum, Element.weightAt_eq hd]
  rfl

end Terms

section Cells

variable {m : Mesh ℝ} {g : Field ℝ} {u v : Array ℝ} {c : Cell ℝ}

/-- The differences between two vectors, place by place. -/
def difference (m : Mesh ℝ) (u v : Array ℝ) (d : Fin m.dofs) : ℝ := u.getD d 0 - v.getD d 0

variable (hm : m.Reachable) (hfrozen : m.frozen = true) (hc : c ∈ m.cells)
include hm hfrozen hc

/-- At a node of an element the affine field has the values that the vector holds there. -/
theorem gives_node (hv : m.IsNodal g v) {p : ℕ} (hp : p < c.element.family.nodeCount) :
    g.Gives (c.element.nodes.row p) c.element.dofsPerNode
      fun i => Element.component v c.element.dofsPerNode (c.element.nodeIds.getD p 0) i := by
  obtain ⟨hmade, hids⟩ := (hm.wellFormed.built hfrozen).isMade_of_mem hc
  have hlt : p < c.element.nodeIds.length := by rwa [c.element.length_nodeIds]
  obtain ⟨hone, hle⟩ := hids _ (List.getElem_mem hlt)
  obtain ⟨k, hk⟩ : ∃ k : ℕ, c.element.nodeIds[p] = (k : ℤ) + 1 :=
    ⟨(c.element.nodeIds[p] - 1).toNat, by omega⟩
  have hrow : c.element.nodes.row p = (Mesh.coordinateMatrix m.nodes).row k := by
    rw [hmade.nodes_eq, Mesh.nodesOf, DenseMatrix.row_selectRows _ (by simpa using hlt)]
    simp [hlt, hk]
  rw [hrow, hmade.dofsPerNode_eq]
  refine (hv.gives k (by omega)).congr fun i _ => ?_
  have hindex : (Element.dofIndex m.dofsPerNode (k + 1) i).toNat = k * m.dofsPerNode + i := by
    rw [Element.dofIndex, add_sub_cancel_right]
    omega
  rw [List.getD_eq_getElem _ _ hlt, hk, Element.component, hindex]

variable (hf : c.element.family.IsLagrange) (hregular : c.element.IsRegular)
  (hg : g.IsAffine (Mesh.nodeDim m.nodes) m.dofsPerNode) (hv : m.IsNodal g v) (hu : u.size = m.dofs)
include hf hregular hg hv hu

theorem term_of_mem {q : QuadraturePoint ℝ} (hq : q ∈ c.element.points) :
    term c.element u g q = .ok (c.element.weightAt q * ∑ i ∈ range c.element.dofsPerNode,
      (blend (c.element.basisAt q) fun p =>
        c.element.valuesOf (difference m u v) (p * c.element.dofsPerNode + i)) *
      blend (c.element.basisAt q) fun p =>
        c.element.valuesOf (difference m u v) (p * c.element.dofsPerNode + i)) := by
  have hbuilt := hm.wellFormed.built hfrozen
  have hplaced := hm.wellFormed.isPlaced hfrozen hc
  obtain ⟨hmade, -⟩ := hbuilt.isMade_of_mem hc
  obtain ⟨hbasis, hlength, hone⟩ := Element.basisAt_spec hf hq
  have htrue : c.element.trueNodes = c.element.nodes := by
    rw [Element.trueNodes, hmade.side_eq]
  have hvalues := Element.evaluate_eq_ok hbasis hlength hplaced.dofsPerNode_pos fun d hd =>
    hu.symm ▸ hbuilt.mem_getDof hc hd
  have hposition := Element.position_eq_ok ((hf.geometryBasis_eq _ _).trans hbasis)
    (hlength.trans (htrue.symm ▸ c.element.rows_nodes.symm))
  rw [htrue] at hposition
  have haffine : g.IsAffine (Mesh.nodeDim m.nodes) c.element.dofsPerNode := hmade.dofsPerNode_eq ▸ hg
  have hcols : c.element.nodes.cols = Mesh.nodeDim m.nodes := by
    rw [hmade.nodes_eq]
    rfl
  have hgives := haffine.gives_blend hone hcols fun p hp =>
    gives_node hm hfrozen hc hv (hlength ▸ hp)
  rw [term_eq_ok hvalues hposition hgives (hregular.exists_detJ hq)]
  refine congrArg (fun s => Except.ok (c.element.weightAt q * s)) (sum_congr rfl fun i hi => ?_)
  have hdifference : (blend (c.element.basisAt q) fun p =>
      c.element.valuesOf (difference m u v) (p * c.element.dofsPerNode + i)) =
        (blend (c.element.basisAt q) fun p =>
          Element.component u c.element.dofsPerNode (c.element.nodeIds.getD p 0) i) -
        blend (c.element.basisAt q) fun p =>
          Element.component v c.element.dofsPerNode (c.element.nodeIds.getD p 0) i := by
    rw [← blend_sub]
    refine blend_congr fun p hp => ?_
    exact Element.valuesOf_dofIndex (fun d hd => hbuilt.mem_getDof hc hd)
      (fun d => u.getD d 0 - v.getD d 0) (hlength ▸ hp) (mem_range.mp hi)
  rw [hdifference]

/-- The loop over the points of an element adds the integral of the square of the difference. -/
theorem addElement_of_mem (total : ℝ) : addElement u g total c.element =
    .ok (total + c.element.squareIntegral (c.element.valuesOf (difference m u v))) := by
  obtain ⟨points, hpoints⟩ := Option.isSome_iff_exists.mp (Kernel.isSome_rule hf)
  have hrule : c.element.points = points := by
    rw [Element.points, hpoints]
    rfl
  rw [addElement, hpoints, Element.squareIntegral, hrule]
  refine foldlM_add (fun q hq s => ?_) total
  rw [term_of_mem hm hfrozen hc hf hregular hg hv hu (hrule.symm ▸ hq)]
  rfl

end Cells

section Norms

variable {m : Mesh ℝ} {k : Kernel ℝ} {defs : Definitions ℝ} {label : String} {M : SparseMatrix ℝ}
  {g : Field ℝ} {u v : Array ℝ}

variable (hm : m.Reachable) (hfrozen : m.frozen = true)
  (hf : ∀ c ∈ m.cells, c.element.family.IsLagrange)
  (hk : Kernel.compile label "N'*N" defs = .ok k)
  (hM : Assembly.matrix m k none .triplet = .ok M)
include hm hfrozen hf hk hM

/-- The product of the mass matrix with a vector is the integral of the square of its field. -/
theorem dotProduct_mass (w : Fin m.dofs → ℝ) : w ⬝ᵥ M.matrix m.dofs *ᵥ w =
    (m.cells.map fun c => c.element.squareIntegral (c.element.valuesOf w)).sum := by
  have hover := Assembly.isMatrixOver_cells (Assembly.inRange hm hfrozen) hM
  rw [hover.dotProduct_mulVec, List.map_map]
  refine congrArg List.sum (List.map_congr_left fun c hc => ?_)
  obtain ⟨K, hK, -⟩ := hover.exists_matrix _ (List.mem_map_of_mem hc)
  exact Kernel.sum_mass (hf c hc) (hm.wellFormed.isPlaced hfrozen hc)
    (Kernel.isRegular_of_localMatrix k hK) hk _ _

/-- The norm is the root of what the mass matrix makes of the differences at the nodes. -/
theorem l2_eq_ok (hg : g.IsAffine (Mesh.nodeDim m.nodes) m.dofsPerNode) (hv : m.IsNodal g v)
    (hu : u.size = m.dofs) : ∃ x, l2 m u g = .ok x ∧
      x ^ 2 = difference m u v ⬝ᵥ M.matrix m.dofs *ᵥ difference m u v := by
  have hover := Assembly.isMatrixOver_cells (Assembly.inRange hm hfrozen) hM
  have hregular : ∀ c ∈ m.cells, c.element.IsRegular := by
    intro c hc
    obtain ⟨K, hK, -⟩ := hover.exists_matrix _ (List.mem_map_of_mem hc)
    exact Kernel.isRegular_of_localMatrix k hK
  have htotal : (m.cells.map Cell.element).foldlM (addElement u g) 0 =
      .ok (difference m u v ⬝ᵥ M.matrix m.dofs *ᵥ difference m u v) := by
    rw [dotProduct_mass hm hfrozen hf hk hM, foldlM_add (x := fun e =>
      e.squareIntegral (e.valuesOf (difference m u v))) ?_ 0, zero_add, List.map_map]
    · rfl
    · intro e he total
      obtain ⟨c, hc, rfl⟩ := List.mem_map.mp he
      exact addElement_of_mem hm hfrozen hc (hf c hc) (hregular c hc) hg hv hu total
  have hnonneg : 0 ≤ difference m u v ⬝ᵥ M.matrix m.dofs *ᵥ difference m u v := by
    rw [dotProduct_mass hm hfrozen hf hk hM]
    refine List.sum_nonneg fun y hy => ?_
    obtain ⟨c, hc, rfl⟩ := List.mem_map.mp hy
    exact Element.squareIntegral_nonneg (hregular c hc) _
  refine ⟨√(difference m u v ⬝ᵥ M.matrix m.dofs *ᵥ difference m u v), ?_, Real.sq_sqrt hnonneg⟩
  rw [l2, checkLength, if_pos hu, ok_bind, htotal]
  rfl

end Norms

/-- Over Lagrange elements whose mass matrix exists, every affine field has nodal values, and the
square of the norm of the difference between a discrete field and the affine one is the product of the
mass matrix with the differences at the nodes. There is no difference to the field of the nodal values,
and without the affine field the norm is that of the mass matrix. -/
theorem l2_sq_eq_mass {m : Mesh ℝ} {k : Kernel ℝ} {defs : Definitions ℝ} {label : String}
    {M : SparseMatrix ℝ} {g : Field ℝ} (hm : m.Reachable) (hfrozen : m.frozen = true)
    (hf : ∀ c ∈ m.cells, c.element.family.IsLagrange)
    (hk : Kernel.compile label "N'*N" defs = .ok k)
    (hM : Assembly.matrix m k none .triplet = .ok M)
    (hg : g.IsAffine (Mesh.nodeDim m.nodes) m.dofsPerNode) :
    (∃ v, m.IsNodal g v) ∧ ∀ v, m.IsNodal g v →
      (∀ u : Array ℝ, u.size = m.dofs → ∃ x, l2 m u g = .ok x ∧
        x ^ 2 = difference m u v ⬝ᵥ M.matrix m.dofs *ᵥ difference m u v) ∧
      l2 m v g = .ok 0 ∧
      ∀ u : Array ℝ, u.size = m.dofs → ∃ x, l2 m u (.constant (.integer 0)) = .ok x ∧
        x ^ 2 = (fun d : Fin m.dofs => u.getD d 0) ⬝ᵥ M.matrix m.dofs *ᵥ
          fun d : Fin m.dofs => u.getD d 0 := by
  refine ⟨Mesh.exists_isNodal hm hfrozen hg, fun v hv => ⟨fun u hu =>
    l2_eq_ok hm hfrozen hf hk hM hg hv hu, ?_, fun u hu => ?_⟩⟩
  · obtain ⟨x, hx, hsq⟩ := l2_eq_ok hm hfrozen hf hk hM hg hv hv.size_eq
    have hzero : difference m v v = 0 := funext fun d => sub_self _
    rw [hzero, zero_dotProduct] at hsq
    rwa [pow_eq_zero_iff two_ne_zero |>.mp hsq] at hx
  · obtain ⟨x, hx, hsq⟩ := l2_eq_ok hm hfrozen hf hk hM (Field.isAffine_zero _ _) m.isNodal_zero hu
    have hdifference : difference m u (Array.replicate m.dofs 0) =
        fun d : Fin m.dofs => u.getD d 0 := by
      funext d
      simp [difference]
    exact ⟨x, hx, hdifference ▸ hsq⟩

/-- A distorted quadrilateral with two degrees of freedom per node. -/
noncomputable def skewQuad : Mesh ℝ :=
  (Mesh.ofLists (.integer 2) [[0, 0], [2, 0], [3, 2], [0, 1]] [(.quad4, [1, 2, 3, 4])]).freeze.2

theorem reachable_skewQuad : skewQuad.Reachable :=
  .step (Mesh.reachable_ofLists _ (by simp) (by simp [Family.nodeCount])) (.freeze _)

theorem of_mem_cells_skewQuad {c : Cell ℝ} (hc : c ∈ skewQuad.cells) :
    c.element.family = .quad4 ∧ c.element.nodes = .ofRows 2 [[0, 0], [2, 0], [3, 2], [0, 1]] := by
  obtain rfl := List.mem_singleton.mp hc
  exact ⟨rfl, rfl⟩

theorem isRegular_skewQuad {c : Cell ℝ} (hc : c ∈ skewQuad.cells) : c.element.IsRegular := by
  obtain ⟨hfamily, hnodes⟩ := of_mem_cells_skewQuad hc
  have hroot := Real.sqrt_nonneg 3
  refine (Element.isRegular_quad4_iff hfamily (by rw [hnodes]; rfl)).mpr fun i hi => ?_
  interval_cases i
  all_goals
    norm_num [Element.cornerMeasure, Element.cornerArea, Element.cross, hnodes,
      DenseMatrix.entry_ofFn_eq, DenseMatrix.ofRows]
    linarith

theorem l2_sq_eq_mass_skewQuad : ∃ (k : Kernel ℝ) (M : SparseMatrix ℝ) (v : Array ℝ),
    Kernel.compile "M" "N'*N" [] = .ok k ∧ Assembly.matrix skewQuad k none .triplet = .ok M ∧
      skewQuad.IsNodal (.vector [.affine 1 [2, 3], .affine 0 [1, -1]]) v ∧
      l2 skewQuad v (.vector [.affine 1 [2, 3], .affine 0 [1, -1]]) = .ok 0 ∧
      ∀ u : Array ℝ, u.size = 8 → ∃ x,
        l2 skewQuad u (.vector [.affine 1 [2, 3], .affine 0 [1, -1]]) = .ok x ∧
          x ^ 2 = difference skewQuad u v ⬝ᵥ M.matrix 8 *ᵥ difference skewQuad u v := by
  have hf : ∀ c ∈ skewQuad.cells, c.element.family.IsLagrange := by
    intro c hc
    rw [(of_mem_cells_skewQuad hc).1]
    decide
  have hnamed : Definitions.AreNamed ([] : Definitions ℝ) := nofun
  obtain ⟨k, hk⟩ := Kernel.exists_compile Kernel.parse_square hnamed (by decide) "M"
  obtain ⟨M, hM⟩ := Assembly.exists_matrix fun c hc => Kernel.exists_localMatrix_mass (hf c hc)
    (reachable_skewQuad.wellFormed.isPlaced rfl hc) (isRegular_skewQuad hc) hk
  have hg : Field.IsAffine
      (.vector ([(1, [2, 3]), (0, [1, -1])].map fun a => .affine a.1 a.2)) 2 2 :=
    Field.isAffine_vector (by simp) (by decide) (by simp)
  obtain ⟨⟨v, hv⟩, hnorms⟩ := l2_sq_eq_mass reachable_skewQuad rfl hf hk hM hg
  obtain ⟨hdifference, hzero, -⟩ := hnorms v hv
  exact ⟨k, M, v, hk, hM, hv, hzero, hdifference⟩

end ErrorNorm
end WeakForm
