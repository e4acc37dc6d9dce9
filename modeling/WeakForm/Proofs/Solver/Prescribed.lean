import WeakForm.Condition
import WeakForm.Proofs.Mesh.Elements
import WeakForm.Proofs.RealScalar
import WeakForm.Proofs.Tensor.Broadcasting

/-!
# Prescribed values

Conditions are applied one after the other. In the end a degree of freedom has the value that the
last condition on it prescribes; without a condition it is zero if a region of the mesh makes it
essential, and else as it was before. Marked are the degrees of freedom that have a condition or are
essential.
-/

namespace WeakForm

namespace Mesh

@[simp] theorem size_markPlaces (marks : Array Bool) (places : List ℤ) :
    (markPlaces marks places).size = marks.size := by
  unfold markPlaces
  induction places generalizing marks with
  | nil => rfl
  | cons d places ih =>
    rw [List.foldl_cons, ih]
    split_ifs <;> simp

/-- Marking adds the listed places. -/
theorem getD_markPlaces (marks : Array Bool) (places : List ℤ) {d : ℕ} (hd : d < marks.size) :
    (markPlaces marks places).getD d false = (marks.getD d false || decide ((d : ℤ) ∈ places)) := by
  unfold markPlaces
  induction places generalizing marks with
  | nil => simp
  | cons k places ih =>
    have hsize : d < (if 0 ≤ k then marks.setIfInBounds k.toNat true else marks).size := by
      split_ifs <;> simpa using hd
    rw [List.foldl_cons, ih _ hsize]
    by_cases hk : 0 ≤ k
    · rw [if_pos hk, getD_setIfInBounds _ _ _ _ _ hd]
      by_cases hdk : (d : ℤ) = k
      · have hnat : d = k.toNat := by omega
        simp [← hdk]
      · have hnat : d ≠ k.toNat := by omega
        simp [hnat, hdk]
    · have hdk : (d : ℤ) ≠ k := by omega
      rw [if_neg hk]
      simp [hdk]

variable {α : Type} {m : Mesh α}

/-- The degrees of freedom that the regions of the mesh make essential. -/
def essentialDofs (m : Mesh α) : List ℤ := m.essentialNodes.flatMap m.allDofs

theorem mem_allNodeIds {k : ℤ} : k ∈ m.allNodeIds ↔ 1 ≤ k ∧ k ≤ m.nodes.length := by
  simp only [allNodeIds, List.mem_map, List.mem_range]
  constructor
  · rintro ⟨j, hj, rfl⟩
    omega
  · rintro ⟨hk, hk'⟩
    exact ⟨(k - 1).toNat, by omega, by omega⟩

section NodeIds

variable [Scalar α]

theorem Built.range_of_mem_cellNodeIds (hb : m.Built) {id : ℕ} {k : ℤ}
    (hk : k ∈ m.cellNodeIds id) : 1 ≤ k ∧ k ≤ m.nodes.length := by
  unfold cellNodeIds at hk
  cases hc : m.cells[id - 1]? with
  | none => simp [hc] at hk
  | some c =>
    rw [hc] at hk
    exact (hb.of_mem_cells (List.mem_of_getElem? hc)).1 k hk

theorem WellFormed.range_of_mem_side (hm : m.WellFormed) (hb : m.Built) {c : Cell α}
    (hc : c ∈ m.cells) {side : CellSide} (hs : side ∈ c.sides) {k : ℤ} (hk : k ∈ c.sideNodeIds side) :
    1 ≤ k ∧ k ≤ m.nodes.length := by
  obtain ⟨l, hl, rfl⟩ := List.mem_map.mp hk
  have hnodes : side.nodes ∈ c.element.family.sides := hm.sides c hc ▸ List.mem_map_of_mem hs
  have hlen : l < c.element.nodeIds.length := by
    rw [c.element.length_nodeIds]
    exact (Family.lt_of_mem_sides hnodes).2 l hl
  rw [List.getD_eq_getElem?_getD, List.getElem?_eq_getElem hlen, Option.getD_some]
  exact (hb.of_mem_cells hc).1 _ (List.getElem_mem hlen)

/-- The nodes of every side exist. -/
theorem WellFormed.range_of_mem_sideNodeIds (hm : m.WellFormed) (hb : m.Built) {side : ℕ × ℕ}
    {k : ℤ} (hk : k ∈ m.sideNodeIds side) : 1 ≤ k ∧ k ≤ m.nodes.length := by
  unfold sideNodeIds at hk
  cases hc : m.cells[side.1 - 1]? with
  | none => simp [hc] at hk
  | some c =>
    rw [hc] at hk
    cases hs : c.sides[side.2]? with
    | none => simp [hs] at hk
    | some s =>
      simp only [hs, Option.map_some, Option.getD_some] at hk
      exact hm.range_of_mem_side hb (List.mem_of_getElem? hc) (List.mem_of_getElem? hs) hk

theorem WellFormed.range_of_mem_regionNodeIds (hm : m.WellFormed) (hb : m.Built) {r : Region}
    {k : ℤ} (hk : k ∈ m.regionNodeIds r) : 1 ≤ k ∧ k ≤ m.nodes.length := by
  rw [regionNodeIds, sortedSet, List.mem_mergeSort, List.mem_eraseDups] at hk
  split at hk
  · obtain ⟨id, -, hk⟩ := List.mem_flatMap.mp hk
    exact hb.range_of_mem_cellNodeIds hk
  · obtain ⟨side, -, hk⟩ := List.mem_flatMap.mp hk
    exact hm.range_of_mem_sideNodeIds hb hk

/-- The nodes of a tag exist. -/
theorem WellFormed.range_of_getNodeIds (hm : m.WellFormed) {tag : Option TagId} {ids : List ℤ}
    (h : m.getNodeIds tag = .ok ids) {k : ℤ} (hk : k ∈ ids) : 1 ≤ k ∧ k ≤ m.nodes.length := by
  unfold getNodeIds checkFrozen at h
  split_ifs at h with hf
  · have hb := hm.built hf
    rw [ok_bind] at h
    cases tag with
    | none =>
      cases h
      exact mem_allNodeIds.mp hk
    | some t =>
      obtain ⟨r, -, h⟩ := bind_eq_ok.mp h
      cases h
      exact hm.range_of_mem_regionNodeIds hb hk
  · cases h

/-- The nodes of an essential region exist. -/
theorem WellFormed.range_of_mem_essentialNodes (hm : m.WellFormed) (hb : m.Built) {ids : List ℤ}
    (hids : ids ∈ m.essentialNodes) {k : ℤ} (hk : k ∈ ids) : 1 ≤ k ∧ k ≤ m.nodes.length := by
  obtain ⟨e, -, rfl⟩ := List.mem_map.mp hids
  split_ifs at hk
  · exact mem_allNodeIds.mp hk
  · exact hm.range_of_mem_regionNodeIds hb hk

end NodeIds

/-- Without a component the essential degrees of freedom are marked. -/
theorem getDof_essential [Scalar α] {marks : List Bool}
    (h : m.getDof none "essential" .null = .ok marks) :
    marks = (markPlaces (Array.replicate m.dofs false) m.essentialDofs).toList := by
  unfold getDof at h
  obtain ⟨-, -, h⟩ := bind_eq_ok.mp h
  have hname : DofMode.ofName? "essential" = some .essential := rfl
  rw [hname] at h
  obtain ⟨-, -, h⟩ := bind_eq_ok.mp h
  simp only [pure, Except.pure, ok_bind] at h
  obtain ⟨-, -, h⟩ := bind_eq_ok.mp h
  cases h
  have hmode : (DofMode.essential == DofMode.nonessential) = false := rfl
  have hwhole : (DofMode.essential == DofMode.all) = false := rfl
  simp only [inComponent, Bool.and_true, hmode, hwhole, Bool.and_false, Bool.bne_false]
  exact List.zipIdx_map_fst 0 _

section Reals

variable {m : Mesh ℝ}

/-- Over the reals there may be as many degrees of freedom as one likes. -/
theorem checkDofs_eq (m : Mesh ℝ) (ids : List ℤ) : m.checkDofs ids = .ok () := by
  have hfactor : m.checkFactor = .ok () := by
    simp [checkFactor, Scalar.isWord, Scalar.word]
  rw [checkDofs, hfactor]
  exact checkCapacity_real _ _

theorem forM_checkDofs (m : Mesh ℝ) (nodes : List (List ℤ)) : nodes.forM m.checkDofs = .ok () := by
  induction nodes with
  | nil => rfl
  | cons ids nodes ih =>
    have hcons : (ids :: nodes).forM m.checkDofs =
        (m.checkDofs ids >>= fun _ => nodes.forM m.checkDofs) := rfl
    rw [hcons, checkDofs_eq, ok_bind, ih]

theorem exists_getDof_essential (hfrozen : m.frozen = true) :
    ∃ marks, m.getDof none "essential" .null = .ok marks := by
  have hname : DofMode.ofName? "essential" = some .essential := rfl
  unfold getDof
  rw [checkFrozen, if_pos hfrozen, ok_bind, hname]
  dsimp only
  rw [checkCapacity_real, ok_bind]
  simp only [pure, Except.pure, ok_bind, forM_checkDofs]
  exact ⟨_, rfl⟩

end Reals

end Mesh

namespace Condition

section Overwriting

variable {α : Type} {p : Prescribed α} {n : ℕ}

/-- Values and marks belong to the same degrees of freedom. -/
structure Prescribed.Sized (p : Prescribed α) (n : ℕ) : Prop where
  values : p.values.size = n
  marks : p.marks.length = n

theorem values_overwrite (p : Prescribed α) (dofs : List ℤ) (values : List α) :
    (overwrite p dofs values).values =
      writeEach p.values ((dofs.zip values).map fun dv => (dv.1.toNat, dv.2)) := by
  rw [writeEach, List.foldl_map]
  rfl

theorem Prescribed.Sized.overwrite (h : p.Sized n) (dofs : List ℤ) (values : List α) :
    (overwrite p dofs values).Sized n := by
  constructor
  · rw [values_overwrite, size_writeEach, h.values]
  · simp [Condition.overwrite, h.marks]

theorem lookup_toNat {pairs : List (ℤ × α)} (h : ∀ e ∈ pairs, 0 ≤ e.1) (d : ℕ) :
    (pairs.map fun e => (e.1.toNat, e.2)).lookup d = pairs.lookup (d : ℤ) := by
  induction pairs with
  | nil => rfl
  | cons e pairs ih =>
    obtain ⟨he, hpairs⟩ := List.forall_mem_cons.mp h
    rw [List.map_cons, List.lookup_cons, List.lookup_cons, ih hpairs]
    have hkey : (d == e.1.toNat) = ((d : ℤ) == e.1) := by
      rw [Bool.eq_iff_iff, beq_iff_eq, beq_iff_eq]
      omega
    rw [hkey]

/-- A place has a value if it is listed. -/
theorem isSome_lookup_zip {dofs : List ℤ} {values : List α} (hlen : values.length = dofs.length)
    (d : ℤ) : ((dofs.zip values).reverse.lookup d).isSome = decide (d ∈ dofs) := by
  have hfst : (dofs.zip values).map Prod.fst = dofs := List.map_fst_zip hlen.ge
  rw [Bool.eq_iff_iff, decide_eq_true_eq, ← Option.ne_none_iff_isSome, Ne, List.lookup_eq_none_iff]
  constructor
  · intro hsome
    by_contra hmem
    refine hsome fun e he => ?_
    have he' : e.1 ∈ dofs := (List.of_mem_zip (List.mem_reverse.mp he)).1
    have hne : d ≠ e.1 := fun hde => hmem (hde ▸ he')
    simpa using hne
  · intro hmem hnone
    rw [← hfst] at hmem
    obtain ⟨e, he, hed⟩ := List.mem_map.mp hmem
    simpa [hed] using hnone e (List.mem_reverse.mpr he)

/-- Overwriting puts the listed values in place and marks them. -/
theorem overwrite_spec [Zero α] (h : p.Sized n) {dofs : List ℤ} {values : List α}
    (hlen : values.length = dofs.length) (hnonneg : ∀ d ∈ dofs, 0 ≤ d) {d : ℕ} (hd : d < n) :
    (overwrite p dofs values).values.getD d 0 =
        ((dofs.zip values).reverse.lookup (d : ℤ)).getD (p.values.getD d 0) ∧
      (overwrite p dofs values).marks.getD d false =
        (p.marks.getD d false || ((dofs.zip values).reverse.lookup (d : ℤ)).isSome) := by
  have hpairs : ∀ e ∈ (dofs.zip values).reverse, 0 ≤ e.1 := fun e he =>
    hnonneg e.1 (List.of_mem_zip (List.mem_reverse.mp he)).1
  constructor
  · rw [values_overwrite, getD_writeEach _ _ _ (h.values ▸ hd), ← List.map_reverse,
      lookup_toNat hpairs]
  · have hmark := Mesh.getD_markPlaces p.marks.toArray dofs (d := d) (by simpa [h.marks] using hd)
    rw [isSome_lookup_zip hlen]
    simpa [overwrite] using hmark

end Overwriting

section

variable {α : Type} [Scalar α] {m : Mesh α} {time : Option (Datum α)}

/-- What a condition prescribes: degrees of freedom with their values. -/
def prescriptions (m : Mesh α) (time : Option (Datum α)) (c : Condition α) : List (ℤ × α) :=
  match c.essentialValues m time with
  | .ok (dofs, values) => dofs.zip values
  | .error _ => []

/-- The value that the last of the conditions on a degree of freedom prescribes. -/
def lastValue? (m : Mesh α) (time : Option (Datum α)) (conditions : List (Condition α)) (d : ℕ) :
    Option α :=
  conditions.reverse.findSome? fun c => (c.prescriptions m time).reverse.lookup (d : ℤ)

/-- The value of an essential degree of freedom: zero unless a condition prescribes another one. -/
def prescribedValue (m : Mesh α) (time : Option (Datum α)) (conditions : List (Condition α))
    (d : ℕ) : α :=
  (lastValue? m time conditions d).getD 0

/-- The degrees of freedom that a condition makes essential. They do not depend on the time. -/
def dofs (m : Mesh α) (c : Condition α) : List ℤ :=
  match m.getNodeIds c.tag, component? m c.component with
  | .ok ids, .ok chosen =>
    ids.flatMap fun k => (components m.dofsPerNode chosen).map fun i => (k - 1) * m.dofsPerNode + i
  | _, _ => []

/-- Whether the value of a degree of freedom is given: by a condition or by an essential region. -/
def IsEssential (m : Mesh α) (conditions : List (Condition α)) (d : ℕ) : Prop :=
  (∃ c ∈ conditions, (d : ℤ) ∈ c.dofs m) ∨ (d : ℤ) ∈ m.essentialDofs

/-- Whether a condition has its values at a time. Its component must not be a fraction. -/
structure Applicable (m : Mesh α) (time : Option (Datum α)) (c : Condition α) : Prop where
  exists_values : ∃ r, c.essentialValues m time = .ok r
  whole : ∀ x, c.component ≠ .real x

theorem lastValue?_cons (c : Condition α) (conditions : List (Condition α)) (d : ℕ) :
    lastValue? m time (c :: conditions) d = (lastValue? m time conditions d).or
      ((c.prescriptions m time).reverse.lookup (d : ℤ)) := by
  simp only [lastValue?, List.reverse_cons, List.findSome?_append, List.findSome?_cons,
    List.findSome?_nil]
  cases (c.prescriptions m time).reverse.lookup (d : ℤ) <;> rfl

section Conditions

variable {c : Condition α} {dofs : List ℤ} {values : List α}

/-- A component that is a whole number is counted from zero and less than their count. -/
theorem integer?_of_component {number : Datum α} {i : ℤ} (h : m.component number = .ok i)
    (hwhole : ∀ x, number ≠ .real x) :
    number.integer? = some i ∧ 0 ≤ i ∧ i < (m.dofsPerNode : ℤ) := by
  unfold Mesh.component at h
  split at h
  · rename_i isBelow isBefore hbelow hbefore
    split_ifs at h with hinside
    simp only [Bool.and_eq_true, Bool.not_eq_true'] at hinside
    obtain ⟨rfl, rfl⟩ := hinside
    cases number with
    | flag b =>
      cases h
      simp only [Datum.less?, Datum.lessLeaf?, Datum.integer?, Option.some.injEq,
        decide_eq_false_iff_not, not_lt, decide_eq_true_eq] at hbelow hbefore
      exact ⟨rfl, hbelow, hbefore⟩
    | integer j =>
      simp only [Datum.toInteger, Datum.ofWord] at h
      split_ifs at h
      cases h
      simp only [Datum.less?, Datum.lessLeaf?, Datum.integer?, Option.some.injEq,
        decide_eq_false_iff_not, not_lt, decide_eq_true_eq] at hbelow hbefore
      exact ⟨rfl, hbelow, hbefore⟩
    | real x => exact absurd rfl (hwhole x)
    | null => cases hbelow
    | text s => cases hbelow
    | list items => cases hbelow
    | map entries => cases hbelow
  · cases h

/-- Null stands for all components, and a whole number for itself. -/
theorem component?_cases {number : Datum α} {chosen : Option ℤ}
    (h : component? m number = .ok chosen) (hwhole : ∀ x, number ≠ .real x) :
    (number = .null ∧ chosen = none) ∨
      ∃ i, number.integer? = some i ∧ chosen = some i ∧ 0 ≤ i ∧ i < (m.dofsPerNode : ℤ) := by
  unfold component? at h
  split at h
  · obtain ⟨-, -, rfl⟩ := map_eq_ok.mp h
    exact .inl ⟨rfl, rfl⟩
  · obtain ⟨i, hi, h⟩ := bind_eq_ok.mp h
    obtain ⟨-, -, h⟩ := bind_eq_ok.mp h
    cases h
    obtain ⟨hinteger, hrange⟩ := integer?_of_component hi hwhole
    exact .inr ⟨i, hinteger, rfl, hrange⟩

theorem range_of_mem_components {number : Datum α} {chosen : Option ℤ}
    (h : component? m number = .ok chosen) (hwhole : ∀ x, number ≠ .real x) {i : ℤ}
    (hi : i ∈ components m.dofsPerNode chosen) : 0 ≤ i ∧ i < (m.dofsPerNode : ℤ) := by
  rcases component?_cases h hwhole with ⟨-, rfl⟩ | ⟨k, -, rfl, hrange⟩
  · obtain ⟨j, hj, rfl⟩ := List.mem_map.mp hi
    exact ⟨Int.natCast_nonneg j, by exact_mod_cast List.mem_range.mp hj⟩
  · rwa [List.mem_singleton.mp hi]

theorem length_components (n : ℕ) (chosen : Option ℤ) :
    (components n chosen).length = if chosen.isSome then 1 else n := by
  cases chosen <;> simp [components]

/-- Values are repeated for nodes and components that have no value of their own. -/
theorem nodeValues_eq_ok {value : BoundaryValue α} {coords : DenseMatrix α} {n : ℕ}
    {t : Tensor α} (h : nodeValues value coords n time = .ok t) :
    ∃ v, rawValues value coords n time = .ok v ∧
      t = .ofMatrix (.ofFn coords.rows n fun i j => v.entryAt [i, j]) := by
  unfold nodeValues at h
  obtain ⟨v, hv, h⟩ := bind_eq_ok.mp h
  refine ⟨v, hv, ?_⟩
  split at h
  · rename_i t' hbroadcast
    cases h
    unfold Tensor.broadcastTo? at hbroadcast
    split_ifs at hbroadcast
    cases hbroadcast
    exact Tensor.ofFn_pair _ _ _
  · cases h

/-- The values of a condition belong to the nodes of its tag, one after the other. -/
theorem essentialValues_eq_ok (h : c.essentialValues m time = .ok (dofs, values)) :
    ∃ ids chosen coords v, m.getNodeIds c.tag = .ok ids ∧
      component? m c.component = .ok chosen ∧ m.coords = some coords ∧
      rawValues c.value (Mesh.nodeCoords coords ids) (components m.dofsPerNode chosen).length time =
        .ok v ∧
      (dofs = ids.flatMap fun k =>
        (components m.dofsPerNode chosen).map fun i => (k - 1) * (m.dofsPerNode : ℤ) + i) ∧
      values = (DenseMatrix.ofFn ids.length (components m.dofsPerNode chosen).length
        fun i j => v.entryAt [i, j]).data.toList := by
  unfold essentialValues at h
  obtain ⟨ids, hids, h⟩ := bind_eq_ok.mp h
  obtain ⟨chosen, hchosen, h⟩ := bind_eq_ok.mp h
  split at h
  · cases h
  · rename_i coords hcoords
    obtain ⟨t, ht, h⟩ := bind_eq_ok.mp h
    cases h
    rw [← length_components] at ht
    obtain ⟨v, hv, rfl⟩ := nodeValues_eq_ok ht
    have hrows : (Mesh.nodeCoords coords ids).rows = ids.length := List.length_map _
    exact ⟨ids, chosen, coords, v, hids, hchosen, hcoords, hv, rfl, by rw [← hrows]; rfl⟩

/-- A condition has a value for every degree of freedom that it names. -/
theorem length_of_essentialValues (h : c.essentialValues m time = .ok (dofs, values)) :
    values.length = dofs.length := by
  obtain ⟨ids, chosen, coords, v, -, -, -, -, rfl, rfl⟩ := essentialValues_eq_ok h
  simp [DenseMatrix.ofFn]

/-- A condition whose component is no fraction names degrees of freedom from zero. -/
theorem nonneg_of_essentialValues (hm : m.WellFormed)
    (h : c.essentialValues m time = .ok (dofs, values)) (hwhole : ∀ x, c.component ≠ .real x)
    {d : ℤ} (hd : d ∈ dofs) : 0 ≤ d := by
  obtain ⟨ids, chosen, coords, v, hids, hchosen, -, -, rfl, -⟩ := essentialValues_eq_ok h
  obtain ⟨k, hk, hd⟩ := List.mem_flatMap.mp hd
  obtain ⟨i, hi, rfl⟩ := List.mem_map.mp hd
  have hnode := (hm.range_of_getNodeIds hids hk).1
  have hcomponent := (range_of_mem_components hchosen hwhole hi).1
  have hfirst : 0 ≤ (k - 1) * (m.dofsPerNode : ℤ) := mul_nonneg (by omega) (by omega)
  omega

/-- The degrees of freedom of a condition come with its values. -/
theorem dofs_eq (h : c.essentialValues m time = .ok (dofs, values)) : c.dofs m = dofs := by
  obtain ⟨ids, chosen, coords, v, hids, hchosen, -, -, rfl, -⟩ := essentialValues_eq_ok h
  rw [Condition.dofs, hids, hchosen]

/-- The essential degrees of freedom of a condition that has its values are those with a value. -/
theorem isSome_lookup_prescriptions (hc : c.Applicable m time) (d : ℤ) :
    ((c.prescriptions m time).reverse.lookup d).isSome = decide (d ∈ c.dofs m) := by
  obtain ⟨⟨dofs, values⟩, h⟩ := hc.exists_values
  rw [prescriptions, h, dofs_eq h]
  exact isSome_lookup_zip (length_of_essentialValues h) d

theorem lastValue?_isSome {conditions : List (Condition α)}
    (h : ∀ c ∈ conditions, c.Applicable m time) (d : ℕ) :
    (lastValue? m time conditions d).isSome ↔ ∃ c ∈ conditions, (d : ℤ) ∈ c.dofs m := by
  induction conditions with
  | nil => simp [lastValue?]
  | cons c conditions ih =>
    obtain ⟨hc, h⟩ := List.forall_mem_cons.mp h
    rw [lastValue?_cons, Option.isSome_or, Bool.or_eq_true, ih h, isSome_lookup_prescriptions hc,
      decide_eq_true_eq, List.exists_mem_cons_iff, or_comm]

end Conditions

section Applying

variable {p q : Prescribed α} {n : ℕ} {conditions : List (Condition α)}

/-- Applying one condition overwrites what it prescribes. -/
theorem applyOne_spec (hm : m.WellFormed) {c : Condition α} (hp : p.Sized n)
    (h : applyOne m time p c = .ok q) : q.Sized n ∧ ∀ d, d < n →
      q.values.getD d 0 =
          ((c.prescriptions m time).reverse.lookup (d : ℤ)).getD (p.values.getD d 0) ∧
        q.marks.getD d false =
          (p.marks.getD d false || ((c.prescriptions m time).reverse.lookup (d : ℤ)).isSome) := by
  unfold applyOne at h
  obtain ⟨⟨dofs, values⟩, hvalues, h⟩ := bind_eq_ok.mp h
  have hwhole : ∀ x, c.component ≠ .real x := by
    intro x hx
    rw [hx] at h
    cases h
  have hq : q = overwrite p dofs values := by
    dsimp only at h
    split at h
    · rename_i x hx
      exact absurd hx (hwhole x)
    · cases h
      rfl
  have hprescriptions : c.prescriptions m time = dofs.zip values := by
    rw [prescriptions, hvalues]
  rw [hq, hprescriptions]
  exact ⟨hp.overwrite dofs values, fun d hd => overwrite_spec hp (length_of_essentialValues hvalues)
    (fun d hd => nonneg_of_essentialValues hm hvalues hwhole hd) hd⟩

/-- Of several conditions the last one on a degree of freedom counts. -/
theorem foldlM_applyOne_spec (hm : m.WellFormed) (hp : p.Sized n)
    (h : conditions.foldlM (applyOne m time) p = .ok q) : q.Sized n ∧ ∀ d, d < n →
      q.values.getD d 0 = (lastValue? m time conditions d).getD (p.values.getD d 0) ∧
        q.marks.getD d false =
          (p.marks.getD d false || (lastValue? m time conditions d).isSome) := by
  induction conditions generalizing p with
  | nil =>
    cases h
    exact ⟨hp, fun d _ => ⟨rfl, by simp [lastValue?]⟩⟩
  | cons c conditions ih =>
    rw [List.foldlM_cons] at h
    obtain ⟨p', hp', h⟩ := bind_eq_ok.mp h
    obtain ⟨hsized, hone⟩ := applyOne_spec hm hp hp'
    obtain ⟨hq, hrest⟩ := ih hsized h
    refine ⟨hq, fun d hd => ?_⟩
    rw [(hrest d hd).1, (hrest d hd).2, (hone d hd).1, (hone d hd).2, lastValue?_cons]
    cases lastValue? m time conditions d <;> simp

theorem getD_clear (u : Array α) (marks : List Bool) {d : ℕ} (hd : d < u.size) :
    (clear u marks).getD d 0 = if marks.getD d false then 0 else u.getD d 0 := by
  simp [clear, hd]

/-- The conditions are applied one after the other to a vector that is zero where it is essential. -/
theorem applyAll_eq_ok {u : Array α} (h : applyAll m u conditions time = .ok q) :
    u.size = m.dofs ∧ ∃ marks, m.getDof none "essential" .null = .ok marks ∧
      (⟨clear u marks, marks⟩ : Prescribed α).Sized m.dofs ∧
        conditions.foldlM (applyOne m time) ⟨clear u marks, marks⟩ = .ok q := by
  unfold applyAll at h
  obtain ⟨-, -, h⟩ := bind_eq_ok.mp h
  obtain ⟨-, -, h⟩ := bind_eq_ok.mp h
  obtain ⟨-, -, h⟩ := bind_eq_ok.mp h
  split_ifs at h with hu
  rw [not_not] at hu
  obtain ⟨marks, hmarks, h⟩ := bind_eq_ok.mp h
  exact ⟨hu, marks, hmarks, ⟨by simp [clear, hu], by simp [Mesh.getDof_essential hmarks]⟩, h⟩

theorem sized_of_applyAll (hm : m.WellFormed) {u : Array α}
    (h : applyAll m u conditions time = .ok q) : q.Sized m.dofs := by
  obtain ⟨-, marks, -, hstart, h⟩ := applyAll_eq_ok h
  exact (foldlM_applyOne_spec hm hstart h).1

/-- Conditions that were applied have their values. -/
theorem applicable_of_foldlM (h : conditions.foldlM (applyOne m time) p = .ok q) :
    ∀ c ∈ conditions, c.Applicable m time := by
  induction conditions generalizing p with
  | nil => simp
  | cons c conditions ih =>
    rw [List.foldlM_cons] at h
    obtain ⟨p', hp', h⟩ := bind_eq_ok.mp h
    refine List.forall_mem_cons.mpr ⟨?_, ih h⟩
    obtain ⟨r, hr, hone⟩ := bind_eq_ok.mp hp'
    refine ⟨⟨r, hr⟩, fun x hx => ?_⟩
    rw [hx] at hone
    cases hone

/-- Whether conditions can be applied does not depend on what is overwritten. -/
theorem exists_foldlM_applyOne_of_ok (p' : Prescribed α)
    (h : conditions.foldlM (applyOne m time) p = .ok q) :
    ∃ q', conditions.foldlM (applyOne m time) p' = .ok q' := by
  induction conditions generalizing p p' with
  | nil => exact ⟨p', rfl⟩
  | cons c conditions ih =>
    rw [List.foldlM_cons] at h
    obtain ⟨p₁, hp₁, h⟩ := bind_eq_ok.mp h
    obtain ⟨⟨dofs, values⟩, hvalues, hone⟩ := bind_eq_ok.mp hp₁
    have hnext : ∃ p₂, applyOne m time p' c = .ok p₂ := by
      rw [applyOne, hvalues, ok_bind]
      dsimp only at hone ⊢
      split at hone
      · cases hone
      · exact ⟨_, rfl⟩
    obtain ⟨p₂, hp₂⟩ := hnext
    rw [List.foldlM_cons, hp₂, ok_bind]
    exact ih p₂ h

/-- A vector in which all prescribed values are in place stays as it is when they are applied. -/
theorem applyAll_of_agrees (hm : m.WellFormed) {u v : Array α}
    (h : applyAll m v conditions time = .ok q) (hu : u.size = m.dofs)
    (hagrees : ∀ d, q.marks[d]? = some true → u.getD d 0 = q.values.getD d 0) :
    ∃ q', applyAll m u conditions time = .ok q' ∧ q'.values = u := by
  unfold applyAll at h
  obtain ⟨⟨⟩, hfrozen, h⟩ := bind_eq_ok.mp h
  obtain ⟨⟨⟩, hcapacity, h⟩ := bind_eq_ok.mp h
  obtain ⟨⟨⟩, hnodes, h⟩ := bind_eq_ok.mp h
  split_ifs at h with hv
  rw [not_not] at hv
  obtain ⟨marks, hmarks, h⟩ := bind_eq_ok.mp h
  have hsized (w : Array α) (hw : w.size = m.dofs) :
      (⟨clear w marks, marks⟩ : Prescribed α).Sized m.dofs :=
    ⟨by simp [clear, hw], by simp [Mesh.getDof_essential hmarks]⟩
  obtain ⟨q', hq'⟩ := exists_foldlM_applyOne_of_ok ⟨clear u marks, marks⟩ h
  refine ⟨q', ?_, ?_⟩
  · rw [applyAll, hfrozen, ok_bind, hcapacity, ok_bind, hnodes, ok_bind, if_neg (not_not.mpr hu), hmarks,
      ok_bind, hq']
  obtain ⟨-, hold⟩ := foldlM_applyOne_spec hm (hsized v hv) h
  obtain ⟨hsize, hnew⟩ := foldlM_applyOne_spec hm (hsized u hu) hq'
  refine Array.ext (hsize.values.trans hu.symm) fun d hd hd' => ?_
  have hlt : d < m.dofs := hu ▸ hd'
  have hq : q.marks[d]? = some (q.marks.getD d false) := by
    have hlen : d < q.marks.length := (foldlM_applyOne_spec hm (hsized v hv) h).1.marks ▸ hlt
    simp [hlen]
  suffices q'.values.getD d 0 = u.getD d 0 by simpa [hd, hd'] using this
  obtain ⟨hvalue, hmark⟩ := hold d hlt
  rw [(hnew d hlt).1, getD_clear _ _ hd']
  rw [getD_clear _ _ (hv ▸ hlt)] at hvalue
  cases hlast : lastValue? m time conditions d with
  | some x =>
    -- the last condition on the place prescribes what is there
    have hmarked : q.marks[d]? = some true := by rw [hq, hmark, hlast]; simp
    rw [hagrees d hmarked, hvalue, hlast]
    rfl
  | none =>
    rw [Option.getD_none]
    by_cases hregion : marks.getD d false = true
    · have hmarked : q.marks[d]? = some true := by rw [hq, hmark, hregion]; rfl
      rw [hagrees d hmarked, hvalue, hlast, Option.getD_none, if_pos hregion, if_pos hregion]
    · rw [if_neg hregion]

/-- The values and marks of all degrees of freedom after all conditions were applied. -/
theorem applyAll_spec (hm : m.WellFormed) {u : Array α}
    (happlicable : ∀ c ∈ conditions, c.Applicable m time)
    (h : applyAll m u conditions time = .ok q) : q.Sized m.dofs ∧ ∀ d, d < m.dofs →
      (IsEssential m conditions d → q.values.getD d 0 = prescribedValue m time conditions d) ∧
        (¬ IsEssential m conditions d → q.values.getD d 0 = u.getD d 0) ∧
        (q.marks[d]? = some true ↔ IsEssential m conditions d) := by
  obtain ⟨hu, marks, hmarks, hstart, h⟩ := applyAll_eq_ok h
  have hmarked (d : ℕ) (hd : d < m.dofs) :
      marks.getD d false = decide ((d : ℤ) ∈ m.essentialDofs) := by
    have hplaces := Mesh.getD_markPlaces (Array.replicate m.dofs false) m.essentialDofs (d := d)
      (by simpa using hd)
    rw [Mesh.getDof_essential hmarks]
    simpa [hd] using hplaces
  obtain ⟨hq, hall⟩ := foldlM_applyOne_spec hm hstart h
  refine ⟨hq, fun d hd => ?_⟩
  obtain ⟨hvalue, hmark⟩ := hall d hd
  have hsome := lastValue?_isSome happlicable d
  rw [getD_clear _ _ (hu ▸ hd), hmarked d hd] at hvalue
  refine ⟨fun hessential => ?_, fun hfree => ?_, ?_⟩
  · rw [hvalue, prescribedValue]
    cases hlast : lastValue? m time conditions d with
    | some x => rfl
    | none =>
      have hregion : (d : ℤ) ∈ m.essentialDofs := by
        rcases hessential with hcondition | hregion
        · rw [← hsome, hlast] at hcondition
          cases hcondition
        · exact hregion
      simp [hregion]
  · obtain ⟨hnone, hregion⟩ := not_or.mp hfree
    rw [← hsome, Bool.not_eq_true, Option.isSome_eq_false_iff, Option.isNone_iff_eq_none] at hnone
    rw [hvalue, hnone]
    simp [hregion]
  · have hget : q.marks[d]? = some (q.marks.getD d false) := by
      have hlen : d < q.marks.length := hq.marks ▸ hd
      simp [hlen]
    rw [hget, hmark, hmarked d hd, Option.some.injEq, Bool.or_eq_true, decide_eq_true_eq, hsome,
      or_comm]
    rfl

end Applying

end

section Reals

variable {m : Mesh ℝ} {time : Option (Datum ℝ)} {conditions : List (Condition ℝ)}

theorem exists_applyOne (p : Prescribed ℝ) {c : Condition ℝ} (hc : c.Applicable m time) :
    ∃ q, applyOne m time p c = .ok q := by
  obtain ⟨⟨dofs, values⟩, h⟩ := hc.exists_values
  rw [applyOne, h, ok_bind]
  dsimp only
  split
  · rename_i x hx
    exact absurd hx (hc.whole x)
  · exact ⟨_, rfl⟩

theorem exists_foldlM_applyOne (p : Prescribed ℝ) (h : ∀ c ∈ conditions, c.Applicable m time) :
    ∃ q, conditions.foldlM (applyOne m time) p = .ok q := by
  induction conditions generalizing p with
  | nil => exact ⟨p, rfl⟩
  | cons c conditions ih =>
    obtain ⟨hc, h⟩ := List.forall_mem_cons.mp h
    obtain ⟨q, hq⟩ := exists_applyOne p hc
    rw [List.foldlM_cons, hq, ok_bind]
    exact ih q h

/-- On a frozen mesh all conditions that have their values are applied. -/
theorem exists_applyAll (hfrozen : m.frozen = true) {u : Array ℝ} (hu : u.size = m.dofs)
    (h : ∀ c ∈ conditions, c.Applicable m time) :
    ∃ q, applyAll m u conditions time = .ok q := by
  obtain ⟨marks, hmarks⟩ := Mesh.exists_getDof_essential hfrozen
  obtain ⟨q, hq⟩ := exists_foldlM_applyOne ⟨clear u marks, marks⟩ h
  refine ⟨q, ?_⟩
  rw [applyAll, Mesh.checkFrozen, if_pos hfrozen, ok_bind, checkCapacity_real, ok_bind,
    Mesh.forM_checkDofs, ok_bind, if_neg (not_not.mpr hu), hmarks, ok_bind, hq]

end Reals

end Condition
end WeakForm
