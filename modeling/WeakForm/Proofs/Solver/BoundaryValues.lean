import WeakForm.Proofs.Mesh.Locations
import WeakForm.Proofs.Mesh.Masks
import WeakForm.Proofs.Solver.AffineFields

/-!
# Boundary values

A condition covers one component, or all of them, on the nodes of its tag. What it gives there depends
on the place of the node and on the component only: it is a number, a number for each component, or the
value of a field at the coordinates of the node. Of several conditions on a degree of freedom the last
one counts, however their tags overlap.
-/

namespace WeakForm

variable {α : Type} [Scalar α]

namespace Tensor

/-- Values for points and components: one number, one for each point, or one for each point and
component. -/
inductive Tabulates (t : Tensor α) (rows columns : ℕ) (v : ℕ → ℕ → α) : Prop
  | number (hshape : t.shape = [])
      (h : ∀ i < rows, ∀ j < columns, t.data[0]? = some (v i j))
  | points (hshape : t.shape = [rows])
      (h : ∀ i < rows, ∀ j < columns, t.data[i]? = some (v i j))
  | components (hshape : t.shape = [rows, columns])
      (h : ∀ i < rows, ∀ j < columns, t.data[i * columns + j]? = some (v i j))

end Tensor

/-- What a value gives at a point for each component, if there are as many as its columns. Fields are
evaluated at lists of points, and give each of them a value of its own. -/
inductive BoundaryValue.Gives (dim columns : ℕ) (time : Option (Datum α)) :
    BoundaryValue α → (List α → ℕ → α) → Prop
  | number {d : Datum α} {x : α} (h : d.toReals = .ok (.scalar x)) :
      Gives dim columns time (.data d) fun _ _ => x
  | perComponent {d : Datum α} {xs : Array α} (h : d.toReals = .ok (.ofArray xs)) :
      Gives dim columns time (.data d) fun _ j => xs.getD j 0
  | field {f : Field α} {g : List α → ℕ → α}
      (h : ∀ points : DenseMatrix α, points.cols = dim → ∀ t,
        f.eval (.ofRows points time) = .ok t →
          t.Tabulates points.rows columns fun i => g (points.row i)) :
      Gives dim columns time (.field f) g

namespace Field

/-- The field that gives every point the values of a function. -/
def table (columns : ℕ) (g : List α → ℕ → α) : Field α :=
  .function fun s =>
    let rows := (s.coordinates.head?.map fun x => x.data.size).getD 0
    .ok (.ofMatrix (.ofFn rows columns fun i j => g (s.coordinates.map fun x => x.data.getD i 0) j))

theorem eval_table {points : DenseMatrix α} (hcols : 0 < points.cols) (columns : ℕ)
    (time : Option (Datum α)) (g : List α → ℕ → α) : (table columns g).eval (.ofRows points time) =
      .ok (.ofMatrix (.ofFn points.rows columns fun i j => g (points.row i) j)) := by
  have hrows : ((Sample.ofRows points time).coordinates.head?.map fun x => x.data.size).getD 0 =
      points.rows := by
    obtain ⟨k, hk⟩ := Nat.exists_eq_add_one.mpr hcols
    simp [Sample.ofRows, hk, List.range_succ_eq_map, Tensor.ofArray, DenseMatrix.column]
  have hpoint (i : ℕ) : (Sample.ofRows points time).coordinates.map (fun x => x.data.getD i 0) =
      points.row i := by
    rw [Sample.ofRows, List.map_map, DenseMatrix.row]
    refine List.map_congr_left fun j _ => ?_
    by_cases hi : i < points.rows
    · simp [Tensor.ofArray, DenseMatrix.column, hi]
    · simp [Tensor.ofArray, DenseMatrix.column, hi, points.entry_of_rows_le (not_lt.mp hi)]
  change (DataArray.ofReals _).toReals = _
  rw [toReals_ofReals, hrows]
  simp only [hpoint]

end Field

/-- Every function of the point and the component can be prescribed. -/
theorem BoundaryValue.gives_table {dim : ℕ} (hdim : 0 < dim) (columns : ℕ) (time : Option (Datum α))
    (g : List α → ℕ → α) : Gives dim columns time (.field (.table columns g)) g := by
  refine .field fun points hcols t ht => ?_
  obtain rfl := Except.ok.inj ((Field.eval_table (hcols ▸ hdim) columns time g).symm.trans ht)
  refine .components rfl fun i hi j hj => ?_
  obtain ⟨hrow, hcolumn⟩ := DenseMatrix.index_div_mod hj i
  have hlt := DenseMatrix.index_lt hi hj
  simp [Tensor.ofMatrix, DenseMatrix.ofFn, hlt, hrow, hcolumn]

namespace Condition

section Values

variable {rows columns i j : ℕ} {v : ℕ → ℕ → α} {t : Tensor α}

omit [Scalar α] in
theorem entryAt_of_shape_nil [Zero α] (hshape : t.shape = []) (is : List ℕ) :
    t.entryAt is = t.data.getD 0 0 := by
  rw [Tensor.entryAt, Tensor.get, hshape]
  rfl

/-- Values are read where they belong. -/
theorem entryAt_of_tabulates (h : t.Tabulates rows columns v) (hi : i < rows) (hj : j < columns) :
    (asColumn rows t).entryAt [i, j] = v i j := by
  have hread {k : ℕ} (hk : t.data[k]? = some (v i j)) : t.data.getD k 0 = v i j := by
    rw [Array.getD_eq_getD_getElem?, hk, Option.getD_some]
  cases h with
  | number hshape h =>
    rw [asColumn, if_neg (by simp [hshape]), entryAt_of_shape_nil hshape, hread (h i hi j hj)]
  | points hshape h =>
    have hvolume : t.data.size = volume [rows, 1] := by
      rw [t.size_data, hshape]
      rfl
    have hplace : Tensor.ravel [rows, 1] (Tensor.project [rows, 1] [i, j]) = i := by
      have hrepeated : (if rows = 1 then 0 else i) = i := by
        split_ifs with hone
        · omega
        · rfl
      simp [Tensor.project, Tensor.ravel, volume, hrepeated]
    rw [asColumn, if_pos hshape, Tensor.reshape?, dif_pos hvolume, Option.getD_some, Tensor.entryAt,
      Tensor.get]
    exact (congrArg (t.data.getD · 0) hplace).trans (hread (h i hi j hj))
  | components hshape h =>
    have hin : Tensor.InShape [rows, columns] [i, j] := .cons hi (.cons hj .nil)
    have hplace : Tensor.ravel [rows, columns] [i, j] = i * columns + j := by
      simp [Tensor.ravel, volume]
    rw [asColumn, if_neg (by simp [hshape]), Tensor.entryAt, Tensor.get, hshape,
      Tensor.project_eq_self hin, hplace, hread (h i hi j hj)]

/-- Before they are repeated, the values at points are those that are given. -/
theorem entryAt_of_gives {value : BoundaryValue α} {time : Option (Datum α)} {g : List α → ℕ → α}
    {points : DenseMatrix α} (hg : value.Gives points.cols columns time g)
    (h : rawValues value points columns time = .ok t) (hi : i < points.rows) (hj : j < columns) :
    t.entryAt [i, j] = g (points.row i) j := by
  cases hg with
  | @number d x hd =>
    obtain ⟨v, hv, h⟩ := bind_eq_ok.mp h
    obtain rfl := Except.ok.inj (hd.symm.trans hv)
    cases h
    rfl
  | @perComponent d xs hd =>
    obtain ⟨v, hv, h⟩ := bind_eq_ok.mp h
    obtain rfl := Except.ok.inj (hd.symm.trans hv)
    split_ifs at h with hsize
    have hcolumns : xs.size = columns := by
      by_contra hne
      exact hsize ⟨rfl, hne⟩
    cases h
    have hproject : Tensor.project [xs.size] [i, j] = [j] := by
      change [if xs.size = 1 then 0 else j] = [j]
      congr 1
      split_ifs <;> omega
    change (Tensor.ofArray xs).get (Tensor.project [xs.size] [i, j]) = xs.getD j 0
    rw [hproject]
    change xs.getD (j * 1 + 0) 0 = xs.getD j 0
    rw [mul_one, add_zero]
  | field hf =>
    obtain ⟨w, hw, rfl⟩ := map_eq_ok.mp h
    exact entryAt_of_tabulates (hf points rfl w hw) hi hj

end Values

section Places

variable {m : Mesh α} {time : Option (Datum α)} {c : Condition α} {d : ℕ}

/-- A degree of freedom is covered if its node has the tag and its component is prescribed. -/
def Covers (m : Mesh α) (c : Condition α) (d : ℕ) : Prop :=
  m.IsNodeOf c.tag (((d / m.dofsPerNode : ℕ) : ℤ) + 1) ∧
    c.component.GivesComponent (d % m.dofsPerNode)

/-- The number of components that a condition prescribes. -/
def columns (m : Mesh α) (c : Condition α) : ℕ :=
  match c.component with
  | .null => m.dofsPerNode
  | _ => 1

/-- The place of a degree of freedom among those of its node that a condition prescribes. -/
def column (m : Mesh α) (c : Condition α) (d : ℕ) : ℕ :=
  match c.component with
  | .null => d % m.dofsPerNode
  | _ => 0

/-- What a condition gives for a degree of freedom: at the coordinates of its node for its component. -/
def valueOf (m : Mesh α) (c : Condition α) (g : List α → ℕ → α) (d : ℕ) : α :=
  g ((Mesh.coordinateMatrix m.nodes).row (d / m.dofsPerNode)) (c.column m d)

theorem givesComponent_iff {number : Datum α} {i : ℤ} (h : number.integer? = some i) (r : ℕ) :
    number.GivesComponent r ↔ (r : ℤ) = i := by
  cases number with
  | flag b =>
    obtain rfl := Option.some.inj h
    cases b <;> simp [Datum.GivesComponent]
  | integer k =>
    obtain rfl := Option.some.inj h
    rfl
  | _ => cases h

omit [Scalar α] in
/-- A single component is the only one of its node. -/
theorem place_of_integer {i : ℤ} (h : c.component.integer? = some i) (m : Mesh α) (d : ℕ) :
    c.columns m = 1 ∧ c.column m d = 0 := by
  unfold columns column
  cases hcomponent : c.component with
  | null =>
    rw [hcomponent] at h
    cases h
  | _ => exact ⟨rfl, rfl⟩

/-- The prescribed components of a node, and their places. -/
theorem getElem?_components_iff {chosen : Option ℤ} (h : component? m c.component = .ok chosen)
    (hwhole : ∀ x, c.component ≠ .real x) (hn : 0 < m.dofsPerNode) {j : ℕ} :
    (components m.dofsPerNode chosen)[j]? = some ((d % m.dofsPerNode : ℕ) : ℤ) ↔
      c.component.GivesComponent (d % m.dofsPerNode) ∧ j = c.column m d := by
  have hlt := Nat.mod_lt d hn
  rcases component?_cases h hwhole with ⟨hnull, rfl⟩ | ⟨i, hi, rfl, -⟩
  · rw [column, hnull]
    simp only [Datum.GivesComponent, components, true_and, List.getElem?_map, Option.map_eq_some_iff,
      List.getElem?_eq_some_iff, List.length_range, List.getElem_range, Nat.cast_inj]
    constructor
    · rintro ⟨k, ⟨-, hjk⟩, hk⟩
      exact hjk.trans hk
    · rintro rfl
      exact ⟨_, ⟨hlt, rfl⟩, rfl⟩
  · rw [givesComponent_iff hi, (place_of_integer hi m d).2, components]
    cases j with
    | zero => simp [eq_comm]
    | succ j => simp

/-- The prescribed components of a node are those that a condition gives. -/
theorem mem_components_iff {chosen : Option ℤ} (h : component? m c.component = .ok chosen)
    (hwhole : ∀ x, c.component ≠ .real x) (hn : 0 < m.dofsPerNode) :
    ((d % m.dofsPerNode : ℕ) : ℤ) ∈ components m.dofsPerNode chosen ↔
      c.component.GivesComponent (d % m.dofsPerNode) := by
  rw [List.mem_iff_getElem?]
  simp only [getElem?_components_iff h hwhole hn]
  exact ⟨fun ⟨_, hgives, _⟩ => hgives, fun hgives => ⟨_, hgives, rfl⟩⟩

/-- A condition that has its values prescribes what it covers. -/
theorem mem_dofs_iff (hm : m.Reachable) (hc : c.Applicable m time) (hn : 0 < m.dofsPerNode) :
    (d : ℤ) ∈ c.dofs m ↔ c.Covers m d := by
  obtain ⟨⟨⟨dofs, values⟩, h⟩, hwhole⟩ := hc
  obtain ⟨ids, chosen, coords, v, hids, hchosen, -, -, hdofs, -⟩ := essentialValues_eq_ok h
  have hindex (k : ℤ) {i : ℤ} (hi : i ∈ components m.dofsPerNode chosen) :=
    Mesh.index_eq_iff (k := k) (range_of_mem_components hchosen hwhole hi) d
  rw [dofs_eq h, hdofs, Covers, ← (Mesh.mem_getNodeIds hm hids).2,
    ← mem_components_iff hchosen hwhole hn]
  simp only [List.mem_flatMap, List.mem_map]
  constructor
  · rintro ⟨k, hk, i, hi, hd⟩
    obtain ⟨rfl, rfl⟩ := (hindex k hi).mp hd
    exact ⟨hk, hi⟩
  · rintro ⟨hk, hi⟩
    exact ⟨_, hk, _, hi, (hindex _ hi).mpr ⟨rfl, rfl⟩⟩

theorem length_components_eq {chosen : Option ℤ} (h : component? m c.component = .ok chosen)
    (hwhole : ∀ x, c.component ≠ .real x) :
    (components m.dofsPerNode chosen).length = c.columns m := by
  rw [length_components]
  rcases component?_cases h hwhole with ⟨hnull, rfl⟩ | ⟨i, hi, rfl, -⟩
  · rw [columns, hnull]
    rfl
  · exact (place_of_integer hi m 0).1.symm

/-- The coordinates of the nodes of a tag are those of the mesh. -/
theorem row_nodeCoords {ids : List ℤ} {i k : ℕ} (hk : ids[i]? = some ((k : ℤ) + 1))
    (coords : DenseMatrix α) : (Mesh.nodeCoords coords ids).row i = coords.row k := by
  obtain ⟨hi, hget⟩ := List.getElem?_eq_some_iff.mp hk
  rw [Mesh.nodeCoords, DenseMatrix.row_selectRows _ (by simpa using hi)]
  congr 1
  simp [hi, hget]

/-- A value that is prescribed for a degree of freedom is what the condition gives there. -/
theorem eq_of_mem_prescriptions (hm : m.Reachable) (hfrozen : m.frozen = true)
    (hc : c.Applicable m time) (hn : 0 < m.dofsPerNode) {g : List α → ℕ → α}
    (hg : c.value.Gives m.dim (c.columns m) time g) {x : α}
    (hmem : ((d : ℤ), x) ∈ c.prescriptions m time) : x = c.valueOf m g d := by
  obtain ⟨⟨⟨dofs, values⟩, h⟩, hwhole⟩ := hc
  rw [prescriptions, h] at hmem
  obtain ⟨p, hp⟩ := List.mem_iff_getElem?.mp hmem
  obtain ⟨hd, hx⟩ := List.getElem?_zip_eq_some.mp hp
  obtain ⟨ids, chosen, coords, v, hids, hchosen, hcoords, hv, rfl, rfl⟩ := essentialValues_eq_ok h
  obtain ⟨hdim, hplaced, -⟩ := hm.placed hfrozen
  obtain rfl := Option.some.inj (hplaced.symm.trans hcoords)
  have hlength := length_components_eq hchosen hwhole
  rw [hlength] at hv hx
  -- the entry and its degree of freedom belong to one node and one component
  obtain ⟨hlt, hx⟩ : p < ids.length * c.columns m ∧
      v.entryAt [p / c.columns m, p % c.columns m] = x := by
    simpa [DenseMatrix.ofFn, List.getElem?_eq_some_iff] using hx
  have hcolumns : 0 < c.columns m := Nat.pos_of_mul_pos_left (Nat.zero_lt_of_lt hlt)
  have hnode : p / c.columns m < ids.length := (Nat.div_lt_iff_lt_mul hcolumns).mpr hlt
  have hcomponent : p % c.columns m < c.columns m := Nat.mod_lt p hcolumns
  have hplace := getElem?_flatMap_of_length (f := fun k : ℤ => (components m.dofsPerNode chosen).map
    fun i => (k - 1) * (m.dofsPerNode : ℤ) + i) (fun k => (List.length_map _).trans hlength) ids
      (k := p / c.columns m) hcomponent
  rw [Nat.div_add_mod', hd, eq_comm] at hplace
  obtain ⟨k, hk, hplace⟩ := Option.bind_eq_some_iff.mp hplace
  rw [List.getElem?_map] at hplace
  obtain ⟨i, hi, hindex⟩ := Option.map_eq_some_iff.mp hplace
  obtain ⟨rfl, rfl⟩ := (Mesh.index_eq_iff (range_of_mem_components hchosen hwhole
    (List.mem_of_getElem? hi)) d).mp hindex
  have hcolumn := ((getElem?_components_iff hchosen hwhole hn).mp hi).2
  have hrows : (Mesh.nodeCoords (Mesh.coordinateMatrix m.nodes) ids).rows = ids.length :=
    List.length_map _
  have hcols : (Mesh.nodeCoords (Mesh.coordinateMatrix m.nodes) ids).cols = m.dim := hdim.symm
  have hentry := entryAt_of_gives (hcols ▸ hg) hv (hrows ▸ hnode) hcomponent
  rw [← hx, hentry, row_nodeCoords hk, hcolumn, valueOf]

end Places

section Applying

variable {m : Mesh α} {time : Option (Datum α)} {conditions : List (Condition α)} {p q : Prescribed α}
  {c : Condition α} {d : ℕ}

/-- The last one of several conditions that covers a degree of freedom. -/
def IsLast (m : Mesh α) (conditions : List (Condition α)) (c : Condition α) (d : ℕ) : Prop :=
  ∃ before after, conditions = before ++ c :: after ∧ c.Covers m d ∧ ∀ c' ∈ after, ¬ c'.Covers m d

/-- The conditions of a list that cover a degree of freedom are those with a value for it. -/
theorem lastValue?_isSome_iff (hm : m.Reachable) (hn : 0 < m.dofsPerNode)
    (h : ∀ c ∈ conditions, c.Applicable m time) :
    (lastValue? m time conditions d).isSome ↔ ∃ c ∈ conditions, c.Covers m d := by
  rw [lastValue?_isSome h]
  exact exists_congr fun c => and_congr_right fun hc => mem_dofs_iff hm (h c hc) hn

/-- Of several conditions on a degree of freedom the value is that of the last one. -/
theorem lastValue?_of_isLast (hm : m.Reachable) (hfrozen : m.frozen = true) (hn : 0 < m.dofsPerNode)
    (h : ∀ c ∈ conditions, c.Applicable m time) (hlast : IsLast m conditions c d)
    {g : List α → ℕ → α} (hg : c.value.Gives m.dim (c.columns m) time g) :
    lastValue? m time conditions d = some (c.valueOf m g d) := by
  obtain ⟨before, after, rfl, hcovers, hafter⟩ := hlast
  induction before with
  | nil =>
    obtain ⟨hc, h⟩ := List.forall_mem_cons.mp h
    have hnone : lastValue? m time after d = none := by
      rw [← Option.not_isSome_iff_eq_none, lastValue?_isSome_iff hm hn h]
      rintro ⟨c', hc', hcovers'⟩
      exact hafter c' hc' hcovers'
    have hsome := isSome_lookup_prescriptions hc (d : ℤ)
    rw [decide_eq_true ((mem_dofs_iff hm hc hn).mpr hcovers)] at hsome
    obtain ⟨x, hx⟩ := Option.isSome_iff_exists.mp hsome
    have hmem := List.mem_reverse.mp (mem_of_lookup_eq_some hx)
    rw [List.nil_append, lastValue?_cons, hnone, Option.none_or, hx,
      eq_of_mem_prescriptions hm hfrozen hc hn hg hmem]
  | cons b before ih =>
    rw [List.cons_append, lastValue?_cons, ih (List.forall_mem_cons.mp h).2]
    rfl

/-- After conditions were applied, a degree of freedom that some of them cover has the value that the
last one of these gives at the coordinates of its node for its component. What no condition covers is
zero if the mesh makes it essential and unchanged otherwise. Marked is what some condition covers, and
what the mesh makes essential. -/
theorem applyAll_gives (hm : m.Reachable) {u : Array α} (h : applyAll m u conditions time = .ok q) :
    q.values.size = m.dofs ∧ q.marks.length = m.dofs ∧
    ∃ essential, m.getDof none "essential" .null = .ok essential ∧ ∀ d < m.dofs,
      (∀ c g, IsLast m conditions c d → c.value.Gives m.dim (c.columns m) time g →
        q.values[d]? = some (c.valueOf m g d)) ∧
      ((∀ c ∈ conditions, ¬ c.Covers m d) →
        q.values[d]? = if essential[d]? = some true then some 0 else u[d]?) ∧
      (q.marks[d]? = some true ↔
        (∃ c ∈ conditions, c.Covers m d) ∨ essential[d]? = some true) := by
  obtain ⟨hu, essential, hessential, hstart, h⟩ := applyAll_eq_ok h
  have happlicable := applicable_of_foldlM h
  have hfrozen := (Mesh.getDof_eq_ok.mp hessential).1
  obtain ⟨hsized, hplaces⟩ := foldlM_applyOne_spec hm.wellFormed hstart h
  refine ⟨hsized.values, hsized.marks, essential, hessential, fun d hd => ?_⟩
  obtain ⟨hvalue, hmark⟩ := hplaces d hd
  have hn := (Mesh.node_of_dof hm hfrozen hd).1
  have hcovered := lastValue?_isSome_iff (d := d) hm hn happlicable
  have hget : q.values[d]? = some (q.values.getD d 0) := by
    simp [hsized.values.symm ▸ hd]
  have hflag {marks : List Bool} (hlength : marks.length = m.dofs) :
      marks[d]? = some true ↔ marks.getD d false = true := by
    simp [hlength.symm ▸ hd]
  refine ⟨fun c g hlast hg => ?_, fun hnone => ?_, ?_⟩
  · rw [hget, hvalue, lastValue?_of_isLast hm hfrozen hn happlicable hlast hg, Option.getD_some]
  · have hlast : lastValue? m time conditions d = none := by
      rw [← Option.not_isSome_iff_eq_none, hcovered]
      exact fun ⟨c, hc, hcovers⟩ => hnone c hc hcovers
    rw [hget, hvalue, hlast, Option.getD_none, getD_clear _ _ (hu ▸ hd)]
    simp only [hflag hstart.marks]
    split_ifs
    · rfl
    · simp [hu.symm ▸ hd]
  · rw [hflag hsized.marks, hmark, Bool.or_eq_true, hcovered, hflag hstart.marks, or_comm]

/-- A segment with a loop at its end. Its other end has a tag. -/
def pinnedLine : Mesh Float :=
  ((Mesh.ofLists (.integer 2) [[3], [1]] [(.line2, [1, 2]), (.line2, [2, 2])]).freeze.2.addBoundary
    (.number 1) [] false).2

/-- The end with the tag is pinned, and its second component once more, at the coordinate of the node. -/
def pins : List (Condition Float) :=
  [⟨some (.number 1), .data (.list [.real 5, .real 6]), .null⟩,
    ⟨some (.number 1), .field (.table 1 fun point _ => point.getD 0 0), .integer 1⟩]

theorem reachable_pinnedLine : pinnedLine.Reachable :=
  .step (.step (Mesh.reachable_ofLists _ (by simp) (by simp [Family.nodeCount])) (.freeze _))
    (.addBoundary _ (.number 1) [] false)

/-- The pins cover the components of the first node. -/
theorem covers_pinnedLine {c : Condition Float} (hc : c ∈ pins) (d : ℕ) :
    c.Covers pinnedLine d ↔ d / 2 = 0 ∧ c.component.GivesComponent (d % 2) := by
  have htag : c.tag = some (.number 1) := by
    rcases List.mem_pair.mp hc with rfl | rfl <;> rfl
  have hn : pinnedLine.dofsPerNode = 2 := by decide +kernel
  have hids : pinnedLine.getNodeIds (some (.number 1)) = .ok [1] :=
    toOption_eq_some.mp (by decide +kernel)
  rw [Covers, htag, hn, ← (Mesh.mem_getNodeIds reachable_pinnedLine hids).2, List.mem_singleton]
  exact and_congr_left fun _ => by omega

theorem applyAll_pinnedLine : ∃ q, applyAll pinnedLine #[7, 8, 9, 10] pins none = .ok q ∧
    q.values[0]? = some 5 ∧ q.values[1]? = some 3 ∧ q.values[2]? = some 9 ∧ q.marks[2]? ≠ some true := by
  have hsome : (applyAll pinnedLine #[7, 8, 9, 10] pins none).toOption.isSome := by decide +kernel
  obtain ⟨q, hq⟩ := Option.isSome_iff_exists.mp hsome
  have hok := toOption_eq_some.mp hq
  obtain ⟨-, -, essential, hessential, hplaces⟩ := applyAll_gives reachable_pinnedLine hok
  have hdofs : pinnedLine.dofs = 4 := by decide +kernel
  have hmask : pinnedLine.getDof none "essential" .null = .ok [false, false, false, false] :=
    toOption_eq_some.mp (by decide +kernel)
  obtain rfl := Except.ok.inj (hessential.symm.trans hmask)
  have hfree : ∀ c ∈ pins, ¬ c.Covers pinnedLine 2 := fun c hc h =>
    absurd ((covers_pinnedLine hc 2).mp h).1 (by decide)
  refine ⟨q, hok, ?_, ?_, ?_, ?_⟩
  · have hlast : IsLast pinnedLine pins pins[0] 0 := by
      refine ⟨[], [pins[1]], rfl, (covers_pinnedLine (by simp) 0).mpr ⟨rfl, trivial⟩, ?_⟩
      rw [List.forall_mem_singleton, covers_pinnedLine (by simp)]
      rintro ⟨-, hcomponent⟩
      cases (hcomponent : ((0 : ℕ) : ℤ) = 1)
    have hvalues : (Datum.list [.real 5, .real 6]).toReals =
        .ok (.ofArray (#[5, 6] : Array Float)) := rfl
    exact (hplaces 0 (by rw [hdofs]; decide)).1 _ _ hlast (.perComponent hvalues)
  · have hlast : IsLast pinnedLine pins pins[1] 1 :=
      ⟨[pins[0]], [], rfl, (covers_pinnedLine (by simp) 1).mpr ⟨rfl, rfl⟩, by simp⟩
    exact (hplaces 1 (by rw [hdofs]; decide)).1 _ _ hlast
      (BoundaryValue.gives_table (by decide +kernel) 1 none _)
  · exact (hplaces 2 (by rw [hdofs]; decide)).2.1 hfree
  · rw [Ne, (hplaces 2 (by rw [hdofs]; decide)).2.2]
    rintro (⟨c, hc, hcovers⟩ | hmarked)
    · exact hfree c hc hcovers
    · cases hmarked

end Applying


end Condition
end WeakForm
