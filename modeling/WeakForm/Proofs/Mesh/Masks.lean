import WeakForm.Proofs.Mesh.Boundaries
import WeakForm.Proofs.Mesh.Numbering
import WeakForm.Proofs.Mesh.Tags

/-!
# Masks

A mask has a place for every degree of freedom. With a tag it marks those of the nodes that belong to
the tag, and without one those of all boundaries that are essential at the moment. A boundary is
essential if the last call that registered it said so, even if a condition stopped that call on the
way. A component leaves out the degrees of freedom of all other components.
-/

namespace WeakForm

/-- The number of a component, by value: a flag counts as zero or one, and null is any component. -/
def Datum.GivesComponent {α : Type} [Scalar α] : Datum α → ℕ → Prop
  | .null, _ => True
  | .flag b, r => r = if b then 1 else 0
  | .integer c, r => (r : ℤ) = c
  | .real x, r => Scalar.sameInteger x r = true
  | _, _ => False

namespace Mesh

variable {α : Type}

/-- A node belongs to a tag: it is a node of a side or of an element that has the tag. -/
def HasNode (m : Mesh α) (key : TagKey) (k : ℤ) : Prop :=
  (∃ c ∈ m.cells, ∃ side ∈ c.sides,
      key ∈ side.boundaryIds.map TagId.key ∧ k ∈ c.sideNodeIds side) ∨
    ∃ c ∈ m.cells, key ∈ c.subdomainIds.map TagId.key ∧ k ∈ c.element.nodeIds

section Marks

variable {m m' : Mesh α} {marks : TagKey → Option Bool} {tag : TagId} {selectors : List (Selector α)}

/-- A call that registers a boundary under its tag, whatever happens to its selectors afterwards. -/
structure Registers (m : Mesh α) (tag : TagId) (selectors : List (Selector α)) : Prop where
  frozen : m.frozen = true
  known : ∀ name, Selector.location name ∈ selectors → (Location.ofName? name).isSome
  usable : tag.key ≠ .unusable
  /-- No subdomain has the tag. -/
  kind : ∀ r, m.regions.lookup (tag.numbered m.regions.length).key = some r → r.kind = .boundary

theorem unknownLocation?_eq_none : unknownLocation? selectors = none ↔
    ∀ name, Selector.location name ∈ selectors → (Location.ofName? name).isSome := by
  induction selectors with
  | nil => simp [unknownLocation?]
  | cons w rest ih =>
    cases w with
    | location name =>
      by_cases hname : (Location.ofName? name).isSome <;> simp [unknownLocation?, hname, ih]
    | predicate p => simp [unknownLocation?, ih]
    | unusable => simp [unknownLocation?, ih]

theorem exists_openRegion {kind : RegionKind} (husable : tag.key ≠ .unusable)
    (hkind : ∀ r, m.regions.lookup tag.key = some r → r.kind = kind) (essential : Bool) :
    ∃ region opened, m.openRegion tag kind essential = .ok (region, opened) := by
  have hold : ((m.regions.lookup tag.key).getD ⟨tag, kind, essential, [], []⟩).kind = kind := by
    cases hr : m.regions.lookup tag.key with
    | none => rfl
    | some r => exact hkind r hr
  exact ⟨_, _, by rw [openRegion, if_neg husable]; exact if_pos hold⟩

/-- The mark of the boundary with a tag. -/
def essential? (m : Mesh α) (key : TagKey) : Option Bool :=
  ((m.regions.lookup key).filter fun r => r.kind == .boundary).map Region.essential

/-- Every tag has one region, and the marks are those of the boundaries. -/
structure KnowsMarks (m : Mesh α) (marks : TagKey → Option Bool) : Prop where
  nodup : (m.regions.map Prod.fst).Nodup
  marks_eq : marks = m.essential?

theorem KnowsMarks.of_regions (h : m.KnowsMarks marks) (hregions : m'.regions = m.regions) :
    m'.KnowsMarks marks := by
  refine ⟨hregions ▸ h.nodup, h.marks_eq.trans ?_⟩
  funext key
  rw [essential?, essential?, hregions]

/-- Sides that are tagged change the mark of their tag. -/
theorem KnowsMarks.sidesTagged (h : m.KnowsMarks marks) {region : Region} {tagged : List SideRef}
    (htagged : SidesTagged m m' tag region tagged) :
    m'.KnowsMarks (Function.update marks tag.key (some region.essential)) := by
  refine ⟨?_, ?_⟩
  · rw [htagged.regions]
    exact nodup_map_fst_assign (nodup_map_fst_assign h.nodup _ _) _ _
  · funext key
    rw [essential?, htagged.lookup, h.marks_eq]
    by_cases hkey : key = tag.key
    · subst hkey
      simp [htagged.kind]
    · rw [Function.update_of_ne hkey, if_neg hkey, essential?]

/-- Tagged cells have no mark. -/
theorem KnowsMarks.cellsTagged (h : m.KnowsMarks marks) {region : Region} {tagged : List ℕ}
    (htagged : CellsTagged m m' tag region tagged) : m'.KnowsMarks marks := by
  refine ⟨?_, h.marks_eq.trans ?_⟩
  · rw [htagged.regions]
    exact nodup_map_fst_assign (nodup_map_fst_assign h.nodup _ _) _ _
  · funext key
    rw [essential?, essential?, htagged.lookup]
    by_cases hkey : key = tag.key
    · obtain ⟨opened, hopen⟩ := htagged.opened
      subst hkey
      cases hr : m.regions.lookup tag.key with
      | none => simp [htagged.kind]
      | some r => simp [Option.filter, htagged.kind, kind_of_openRegion hopen hr]
    · rw [if_neg hkey]

end Marks

section History

variable [Scalar α]

/-- The states of a mesh, with how the last call that registered a boundary marked it: essential or
not. -/
inductive MarkedBy : Mesh α → (TagKey → Option Bool) → Prop
  | empty (space : Datum α) : MarkedBy (Mesh.empty space) fun _ => none
  | addNode {m m' : Mesh α} {marks : TagKey → Option Bool} (h : MarkedBy m marks) (coord : List α)
      (hadd : m.addNode coord = .ok m') : MarkedBy m' marks
  | addElement {m m' : Mesh α} {marks : TagKey → Option Bool} (h : MarkedBy m marks)
      (family : Family) (nodeIds : List ℤ) (hadd : m.addElement family nodeIds = .ok m') :
      MarkedBy m' marks
  | freeze {m : Mesh α} {marks : TagKey → Option Bool} (h : MarkedBy m marks) :
      MarkedBy m.freeze.2 marks
  | registered {m : Mesh α} {marks : TagKey → Option Bool} (h : MarkedBy m marks) (tag : TagId)
      (selectors : List (Selector α)) (essential : Bool) (hcall : m.Registers tag selectors) :
      MarkedBy (m.addBoundary tag selectors essential).2
        (Function.update marks (tag.numbered m.regions.length).key (some essential))
  | refused {m : Mesh α} {marks : TagKey → Option Bool} (h : MarkedBy m marks) (tag : TagId)
      (selectors : List (Selector α)) (essential : Bool) (hcall : ¬ m.Registers tag selectors) :
      MarkedBy (m.addBoundary tag selectors essential).2 marks
  | addSubdomain {m : Mesh α} {marks : TagKey → Option Bool} (h : MarkedBy m marks) (tag : TagId)
      (condition : Predicate α) : MarkedBy (m.addSubdomain tag condition).2 marks

variable {m m' : Mesh α} {marks : TagKey → Option Bool} {tag : TagId} {selectors : List (Selector α)}

theorem MarkedBy.reachable (h : m.MarkedBy marks) : m.Reachable := by
  induction h with
  | empty space => exact .empty space
  | addNode _ coord hadd ih => exact ih.step (.addNode coord hadd)
  | addElement _ family nodeIds hadd ih => exact ih.step (.addElement family nodeIds hadd)
  | freeze _ ih => exact ih.step (.freeze _)
  | registered _ tag selectors essential _ ih => exact ih.step (.addBoundary _ tag selectors essential)
  | refused _ tag selectors essential _ ih => exact ih.step (.addBoundary _ tag selectors essential)
  | addSubdomain _ tag condition ih => exact ih.step (.addSubdomain _ tag condition)

/-- Every state of a mesh comes with marks. -/
theorem Reachable.exists_markedBy (h : m.Reachable) : ∃ marks, m.MarkedBy marks := by
  induction h with
  | empty space => exact ⟨_, .empty space⟩
  | step _ hs ih =>
    obtain ⟨marks, hm⟩ := ih
    cases hs with
    | addNode coord hadd => exact ⟨marks, hm.addNode coord hadd⟩
    | addElement family nodeIds hadd => exact ⟨marks, hm.addElement family nodeIds hadd⟩
    | freeze => exact ⟨marks, hm.freeze⟩
    | addBoundary tag selectors essential =>
      rename_i before _
      by_cases hcall : before.Registers tag selectors
      · exact ⟨_, hm.registered tag selectors essential hcall⟩
      · exact ⟨_, hm.refused tag selectors essential hcall⟩
    | addSubdomain tag condition => exact ⟨marks, hm.addSubdomain tag condition⟩

/-- A call that registers a boundary tags sides under a region with the new mark. -/
theorem Registers.sidesTagged (h : m.Registers tag selectors) (essential : Bool) :
    ∃ region tagged, SidesTagged m (m.addBoundary tag selectors essential).2
      (tag.numbered m.regions.length) region tagged ∧ region.essential = essential := by
  obtain ⟨region, opened, hopen⟩ :=
    exists_openRegion ((TagId.numbered_ne_unusable_iff tag _).mpr h.usable) h.kind essential
  rw [addBoundary_snd tag essential h.frozen (unknownLocation?_eq_none.mpr h.known)]
  exact ⟨region, _, sidesTagged_of_openRegion hopen _, (openRegion_eq_ok hopen).2.1⟩

/-- A call that registers nothing changes nothing. -/
theorem addBoundary_of_not_registers (h : ¬ m.Registers tag selectors) (essential : Bool) :
    (m.addBoundary tag selectors essential).2 = m := by
  by_contra hchanged
  have hfrozen : m.frozen = true := by
    by_contra hopen
    exact hchanged (by simp [Mesh.addBoundary, hopen])
  have hknown : unknownLocation? selectors = none := by
    cases hname : unknownLocation? selectors with
    | none => rfl
    | some name => exact absurd (by simp [Mesh.addBoundary, hfrozen, hname]) hchanged
  rw [addBoundary_snd tag essential hfrozen hknown, tagSidesBy] at hchanged
  cases hopen : m.openRegion (tag.numbered m.regions.length) .boundary essential with
  | error e => exact hchanged (by rw [hopen])
  | ok r =>
    obtain ⟨region, opened⟩ := r
    have husable : (tag.numbered m.regions.length).key ≠ .unusable := by
      intro hkey
      simp [openRegion, hkey] at hopen
    exact h ⟨hfrozen, unknownLocation?_eq_none.mp hknown, (TagId.numbered_ne_unusable_iff tag _).mp husable,
      fun r hr => kind_of_openRegion hopen hr⟩

theorem regions_freeze (m : Mesh α) : m.freeze.2.regions = m.regions := by
  obtain ⟨e, dim, n, coords, hfreeze⟩ | ⟨-, -, -, n, elements, -, -, hfreeze⟩ := m.freeze_cases
  · rw [hfreeze]
  · rw [hfreeze]
    rfl

/-- The marks of a history are those of the mesh. -/
theorem MarkedBy.knowsMarks (h : m.MarkedBy marks) : m.KnowsMarks marks := by
  induction h with
  | empty space => exact ⟨List.nodup_nil, rfl⟩
  | addNode _ coord hadd ih =>
    obtain ⟨-, -, rfl⟩ := addNode_eq_ok hadd
    exact ih.of_regions rfl
  | addElement _ family nodeIds hadd ih =>
    obtain ⟨-, -, rfl⟩ := addElement_eq_ok hadd
    exact ih.of_regions rfl
  | freeze _ ih => exact ih.of_regions (regions_freeze _)
  | registered _ tag selectors essential hcall ih =>
    obtain ⟨region, tagged, htagged, rfl⟩ := hcall.sidesTagged essential
    exact ih.sidesTagged htagged
  | refused _ tag selectors essential hcall ih =>
    rw [addBoundary_of_not_registers hcall]
    exact ih
  | addSubdomain h tag condition ih =>
    rcases Mesh.addSubdomain_cases _ tag condition with hsame | htagged
    · rwa [hsame]
    rw [htagged]
    rcases tagCellsBy_cases h.reachable.tagsAgree _ _ with hsame | ⟨region, tagged, htagged⟩
    · rwa [hsame]
    · exact ih.cellsTagged htagged

/-- A mesh without regions has no marks. -/
theorem Reachable.markedBy_none (hm : m.Reachable) (hregions : m.regions = []) :
    m.MarkedBy fun _ => none := by
  obtain ⟨marks, h⟩ := hm.exists_markedBy
  have hmarks : marks = fun _ => none := by
    rw [h.knowsMarks.marks_eq]
    funext key
    simp [essential?, hregions]
  exact hmarks ▸ h

end History

section Nodes

variable {m : Mesh α} {marks : TagKey → Option Bool} {key : TagKey} {r : Region} {k : ℤ}

theorem TagsAgree.exists_side_iff (hm : m.TagsAgree) :
    (∃ c ∈ m.cells, ∃ side ∈ c.sides, key ∈ side.boundaryIds.map TagId.key ∧
      k ∈ c.sideNodeIds side) ↔ ∃ ref, m.ListsSide key ref ∧ k ∈ m.sideNodeIds ref := by
  constructor
  · rintro ⟨c, hc, side, hside, hkey, hk⟩
    obtain ⟨i, hi⟩ := List.mem_iff_getElem?.mp hc
    obtain ⟨s, hs⟩ := List.mem_iff_getElem?.mp hside
    have href : m.side? (i + 1, s) = some side := side?_eq_some.mpr ⟨i, c, s, rfl, hi, hs⟩
    exact ⟨(i + 1, s), (hm.sides _ side href key).mp hkey, sideNodeIds_eq hi hs ▸ hk⟩
  · rintro ⟨ref, hlists, hk⟩
    obtain ⟨r, hr, hkind, hmem⟩ := hlists
    obtain ⟨side, hside, -⟩ := (hm.boundary key r hr hkind).2.2 ref hmem
    have hkey := (hm.sides ref side hside key).mpr ⟨r, hr, hkind, hmem⟩
    obtain ⟨i, c, s, rfl, hc, hs⟩ := side?_eq_some.mp hside
    exact ⟨c, List.mem_of_getElem? hc, side, List.mem_of_getElem? hs, hkey, sideNodeIds_eq hc hs ▸ hk⟩

theorem TagsAgree.exists_cell_iff (hm : m.TagsAgree) :
    (∃ c ∈ m.cells, key ∈ c.subdomainIds.map TagId.key ∧ k ∈ c.element.nodeIds) ↔
      ∃ id, m.ListsCell key id ∧ k ∈ m.cellNodeIds id := by
  have hnodes {i : ℕ} {c : Cell α} (hc : m.cells[i]? = some c) :
      m.cellNodeIds (i + 1) = c.element.nodeIds := by
    simp [cellNodeIds, hc]
  constructor
  · rintro ⟨c, hc, hkey, hk⟩
    obtain ⟨i, hi⟩ := List.mem_iff_getElem?.mp hc
    exact ⟨i + 1, (hm.cells i c hi key).mp hkey, hnodes hi ▸ hk⟩
  · rintro ⟨id, hlists, hk⟩
    obtain ⟨r, hr, hkind, hmem⟩ := hlists
    obtain ⟨i, c, rfl, hc⟩ := (hm.subdomain key r hr hkind).2.2.2 id hmem
    exact ⟨c, List.mem_of_getElem? hc, (hm.cells i c hc key).mpr ⟨r, hr, hkind, hmem⟩, hnodes hc ▸ hk⟩

/-- The nodes of a region are those that belong to its tag. -/
theorem TagsAgree.mem_regionNodeIds_iff (hm : m.TagsAgree) (hr : m.regions.lookup key = some r) :
    k ∈ m.regionNodeIds r ↔ m.HasNode key k := by
  rw [HasNode, hm.exists_side_iff, hm.exists_cell_iff, regionNodeIds, mem_sortedSet]
  cases hkind : r.kind with
  | boundary => simp [ListsSide, ListsCell, hr, hkind]
  | subdomain => simp [ListsSide, ListsCell, hr, hkind]

theorem TagsAgree.hasNode_of_boundary (hm : m.TagsAgree)
    (hr : m.regions.lookup key = some r) (hkind : r.kind = .boundary) :
    m.HasNode key k ↔ ∃ ref, m.ListsSide key ref ∧ k ∈ m.sideNodeIds ref := by
  rw [HasNode, hm.exists_side_iff, hm.exists_cell_iff]
  simp [ListsCell, hr, hkind]

theorem TagsAgree.hasNode_of_subdomain (hm : m.TagsAgree)
    (hr : m.regions.lookup key = some r) (hkind : r.kind = .subdomain) :
    m.HasNode key k ↔ ∃ id, m.ListsCell key id ∧ k ∈ m.cellNodeIds id := by
  rw [HasNode, hm.exists_side_iff, hm.exists_cell_iff]
  simp [ListsSide, hr, hkind]

/-- A degree of freedom gives the number of its node and its component. -/
theorem index_eq_iff {n : ℕ} {k i : ℤ} (hi : 0 ≤ i ∧ i < (n : ℤ)) (d : ℕ) :
    (k - 1) * (n : ℤ) + i = d ↔ k = ((d / n : ℕ) : ℤ) + 1 ∧ i = ((d % n : ℕ) : ℤ) := by
  have hdivision := Int.ediv_emod_unique (a := d) (r := i) (q := k - 1) (hi.1.trans_lt hi.2)
  rw [Int.natCast_div, Int.natCast_mod, eq_comm (a := i), ← sub_eq_iff_eq_add, eq_comm (a := k - 1),
    hdivision, mul_comm (n : ℤ), add_comm i]
  exact ⟨fun h => ⟨h, hi⟩, fun h => h.1⟩

/-- The degrees of freedom of nodes are found by the number of their node. -/
theorem mem_allDofs_iff_div {ids : List ℤ} (hn : 0 < m.dofsPerNode) (d : ℕ) :
    (d : ℤ) ∈ m.allDofs ids ↔ ((d / m.dofsPerNode : ℕ) : ℤ) + 1 ∈ ids := by
  have hindex (k : ℤ) {i : ℕ} (hi : i < m.dofsPerNode) :=
    index_eq_iff (k := k) ⟨Int.natCast_nonneg i, Int.ofNat_lt.mpr hi⟩ d
  simp only [allDofs, List.mem_flatMap, List.mem_map, List.mem_range]
  constructor
  · rintro ⟨k, hk, i, hi, hd⟩
    exact ((hindex k hi).mp hd).1 ▸ hk
  · exact fun hk => ⟨_, hk, _, Nat.mod_lt d hn, (hindex _ (Nat.mod_lt d hn)).mpr ⟨rfl, rfl⟩⟩

theorem pairwise_allNodeIds (m : Mesh α) : m.allNodeIds.Pairwise (· < ·) :=
  List.Pairwise.map _ (fun _ _ hij => add_lt_add_left (Int.ofNat_lt.mpr hij) 1) List.pairwise_lt_range

/-- A node of the mesh is in an essential region if it belongs to the tag of a boundary whose mark is
set. -/
theorem exists_essentialNodes_iff (hm : m.TagsAgree) (hmarks : m.KnowsMarks marks)
    (hk : k ∈ m.allNodeIds) : (∃ ids ∈ m.essentialNodes, k ∈ ids) ↔
      ∃ key, marks key = some true ∧ (key = .absent ∨ m.HasNode key k) := by
  have hregion (key : TagKey) (r : Region) (hr : m.regions.lookup key = some r) :
      (k ∈ if key = .absent then m.allNodeIds else m.regionNodeIds r) ↔
        key = .absent ∨ m.HasNode key k := by
    split_ifs with habsent
    · simp [habsent, hk]
    · rw [hm.mem_regionNodeIds_iff hr]
      simp [habsent]
  have hmark (key : TagKey) : marks key = some true ↔
      ∃ r, m.regions.lookup key = some r ∧ r.essential = true := by
    rw [hmarks.marks_eq, essential?]
    cases hr : m.regions.lookup key with
    | none => simp
    | some r =>
      cases hkind : r.kind with
      | boundary => simp [Option.filter, hkind]
      | subdomain => simp [Option.filter, hkind, (hm.subdomain key r hr hkind).2.2.1]
  simp only [essentialNodes, List.mem_map, List.mem_filter]
  constructor
  · rintro ⟨ids, ⟨⟨key, r⟩, ⟨hmem, hessential⟩, rfl⟩, hk⟩
    have hr := (lookup_eq_some_iff_mem hmarks.nodup).mpr hmem
    exact ⟨key, (hmark key).mpr ⟨r, hr, hessential⟩, (hregion key r hr).mp hk⟩
  · rintro ⟨key, hkey, hnode⟩
    obtain ⟨r, hr, hessential⟩ := (hmark key).mp hkey
    exact ⟨_, ⟨(key, r), ⟨mem_of_lookup_eq_some hr, hessential⟩, rfl⟩, (hregion key r hr).mpr hnode⟩

end Nodes

section Requests

variable [Scalar α] {m : Mesh α} {marks : TagKey → Option Bool} {tag : Option TagId} {mode : String}
  {component : Datum α} {mask : List Bool}

/-- The nodes that a request for degrees of freedom is about: those of its tag, all of them, or those
of the boundaries that are essential. A boundary that was registered without a tag stands for the
whole mesh. -/
def Covers (m : Mesh α) (marks : TagKey → Option Bool) : Option TagId → DofMode → ℤ → Prop
  | some t, _, k => m.HasNode t.key k
  | none, .all, _ => True
  | none, _, k => ∃ key, marks key = some true ∧ (key = .absent ∨ m.HasNode key k)

theorem inComponent_iff (d : ℕ) :
    m.inComponent component d = true ↔ component.GivesComponent (d % m.dofsPerNode) := by
  cases component with
  | flag b =>
    have hcast : ((d % m.dofsPerNode : ℕ) : ℤ) = (if b then 1 else 0) ↔
        d % m.dofsPerNode = if b then 1 else 0 := by
      cases b <;> simp only [Bool.false_eq_true, if_true, if_false] <;> omega
    rw [Datum.GivesComponent, ← hcast]
    exact beq_iff_eq
  | _ => simp [inComponent, Datum.GivesComponent, Datum.same, Datum.sameLeaf, Datum.integer?]

/-- A place of a mask. -/
theorem getElem?_marksOf {kind : DofMode} {lists : List (List ℤ)}
    (hn : 0 < m.dofsPerNode) {d : ℕ} (hd : d < m.dofs) :
    ∃ isMarked : Bool, (isMarked = true ↔ (tag.isNone && kind == .all) = true ∨
        ∃ ids ∈ lists, ((d / m.dofsPerNode : ℕ) : ℤ) + 1 ∈ ids) ∧
      (m.marksOf tag kind component lists)[d]? =
        some ((isMarked && m.inComponent component d) != (kind == .nonessential)) := by
  have hmark := getD_markPlaces (Array.replicate m.dofs (tag.isNone && kind == .all))
    (lists.flatMap m.allDofs) (d := d) (by simpa using hd)
  have hmem : (d : ℤ) ∈ lists.flatMap m.allDofs ↔
      ∃ ids ∈ lists, ((d / m.dofsPerNode : ℕ) : ℤ) + 1 ∈ ids := by
    simp only [List.mem_flatMap, mem_allDofs_iff_div hn]
  refine ⟨(markPlaces (Array.replicate m.dofs (tag.isNone && kind == .all))
    (lists.flatMap m.allDofs)).getD d false, ?_, ?_⟩
  · rw [hmark, ← hmem]
    simp [hd]
  · simp only [marksOf, List.getElem?_map, List.getElem?_zipIdx, Array.getElem?_toList]
    rw [Array.getD_eq_getD_getElem?, Array.getElem?_eq_getElem (by simpa using hd)]
    simp

omit [Scalar α] in
theorem region_eq_ok {t : TagId} {r : Region} :
    m.region t = .ok r ↔ t.key ≠ .unusable ∧ m.regions.lookup t.key = some r := by
  unfold region
  by_cases husable : t.key = .unusable
  · simp [husable]
  · rw [if_neg husable]
    cases m.regions.lookup t.key <;> simp [husable]

omit [Scalar α] in
theorem getNodeIds_some_eq_ok_iff {t : TagId} {ids : List ℤ} : m.getNodeIds (some t) = .ok ids ↔
    m.frozen = true ∧ ∃ r, m.region t = .ok r ∧ m.regionNodeIds r = ids := by
  simp only [getNodeIds, bind_eq_ok, pure, Except.pure, Except.ok.injEq]
  constructor
  · rintro ⟨⟨⟩, hfrozen, r, hr, hids⟩
    exact ⟨checkFrozen_eq_ok.mp hfrozen, r, hr, hids⟩
  · rintro ⟨hfrozen, r, hr, hids⟩
    exact ⟨(), checkFrozen_eq_ok.mpr hfrozen, r, hr, hids⟩

/-- A request covers the nodes that it goes through. -/
theorem covers_iff (h : m.MarkedBy marks) {kind : DofMode} {lists : List (List ℤ)}
    (hlists : m.NodeLists tag kind lists) {k : ℤ} (hk : k ∈ m.allNodeIds) :
    m.Covers marks tag kind k ↔ (tag.isNone && kind == .all) = true ∨ ∃ ids ∈ lists, k ∈ ids := by
  have hessential := exists_essentialNodes_iff h.reachable.tagsAgree h.knowsMarks hk
  cases tag with
  | some t =>
    obtain ⟨ids, hids, rfl⟩ := hlists
    obtain ⟨-, r, hr, rfl⟩ := getNodeIds_some_eq_ok_iff.mp hids
    simp [Covers, h.reachable.tagsAgree.mem_regionNodeIds_iff (region_eq_ok.mp hr).2]
  | none =>
    cases kind <;> cases hlists <;> simp [Covers, hessential]

/-- The nodes of a request exist, and each is listed once. -/
theorem nodeLists_spec (hm : m.Reachable) (hfrozen : m.frozen = true) {kind : DofMode}
    {lists : List (List ℤ)} (hlists : m.NodeLists tag kind lists) :
    ∀ ids ∈ lists, ids.Nodup ∧ ∀ k ∈ ids, 1 ≤ k ∧ k ≤ m.nodes.length := by
  cases tag with
  | some t =>
    obtain ⟨ids, hids, rfl⟩ := hlists
    simp only [List.mem_singleton, forall_eq]
    refine ⟨?_, fun k hk => hm.wellFormed.range_of_getNodeIds hids hk⟩
    obtain ⟨-, r, hr, rfl⟩ := getNodeIds_some_eq_ok_iff.mp hids
    exact nodup_sortedSet _
  | none =>
    have hone : ∀ ids ∈ m.essentialNodes,
        ids.Nodup ∧ ∀ k ∈ ids, 1 ≤ k ∧ k ≤ m.nodes.length := by
      intro ids hids
      refine ⟨?_, fun k hk =>
        hm.wellFormed.range_of_mem_essentialNodes (hm.wellFormed.built hfrozen) hids hk⟩
      obtain ⟨e, -, rfl⟩ := List.mem_map.mp hids
      split_ifs
      · exact m.pairwise_allNodeIds.imp ne_of_lt
      · exact nodup_sortedSet _
    cases kind <;> cases hlists
    · exact hone
    · exact hone
    · simp

/-- There is a node with the number that a degree of freedom gives. -/
theorem node_of_dof (hm : m.Reachable) (hfrozen : m.frozen = true) {d : ℕ} (hd : d < m.dofs) :
    0 < m.dofsPerNode ∧ ((d / m.dofsPerNode : ℕ) : ℤ) + 1 ∈ m.allNodeIds := by
  rw [(hm.wellFormed.built hfrozen).dofs] at hd
  have hn : 0 < m.dofsPerNode := Nat.pos_of_mul_pos_left (Nat.zero_lt_of_lt hd)
  have hnode : d / m.dofsPerNode < m.nodes.length := (Nat.div_lt_iff_lt_mul hn).mpr hd
  refine ⟨hn, mem_allNodeIds.mpr ⟨?_, ?_⟩⟩
  · exact le_add_of_nonneg_left (Int.natCast_nonneg _)
  · exact_mod_cast hnode

/-- A degree of freedom is chosen if its node is covered and it belongs to the component. -/
def Chooses (m : Mesh α) (marks : TagKey → Option Bool) (tag : Option TagId) (kind : DofMode)
    (component : Datum α) (d : ℕ) : Prop :=
  m.Covers marks tag kind (((d / m.dofsPerNode : ℕ) : ℤ) + 1) ∧ component.GivesComponent (d % m.dofsPerNode)

/-- A mask marks what is chosen, and in the mode nonessential everything else. -/
theorem getElem?_of_getDof (h : m.MarkedBy marks) (hmask : m.getDof tag mode component = .ok mask) :
    ∃ kind, DofMode.ofName? mode = some kind ∧ mask.length = m.dofs ∧ ∀ d < m.dofs,
      (mask[d]? = some true ↔ if kind = .nonessential then ¬ m.Chooses marks tag kind component d
        else m.Chooses marks tag kind component d) := by
  obtain ⟨hfrozen, kind, hkind, -, lists, hlists, -, -, rfl⟩ := getDof_eq_ok.mp hmask
  refine ⟨kind, hkind, by simp [marksOf], fun d hd => ?_⟩
  obtain ⟨hn, hnode⟩ := node_of_dof h.reachable hfrozen hd
  obtain ⟨isMarked, hmarked, hget⟩ := getElem?_marksOf hn hd
  rw [hget, Chooses, covers_iff h hlists hnode, ← hmarked, ← inComponent_iff]
  by_cases hmode : kind = .nonessential
  · cases isMarked <;> simp [hmode]
  · have hnot : (kind == DofMode.nonessential) = false := by simpa using hmode
    cases isMarked <;> simp [hmode, hnot]

/-- The nodes of a tag, or all of them. -/
def IsNodeOf (m : Mesh α) : Option TagId → ℤ → Prop
  | none, k => 1 ≤ k ∧ k ≤ m.nodes.length
  | some t, k => m.HasNode t.key k

/-- Node numbers are listed in increasing order, each of them once. -/
theorem mem_getNodeIds (hm : m.Reachable) {ids : List ℤ} (h : m.getNodeIds tag = .ok ids) :
    ids.Pairwise (· < ·) ∧ ∀ k, k ∈ ids ↔ m.IsNodeOf tag k := by
  cases tag with
  | none =>
    simp only [getNodeIds, bind_eq_ok, pure, Except.pure, Except.ok.injEq] at h
    obtain ⟨-, -, rfl⟩ := h
    exact ⟨m.pairwise_allNodeIds, fun k => mem_allNodeIds⟩
  | some t =>
    obtain ⟨-, r, hr, rfl⟩ := getNodeIds_some_eq_ok_iff.mp h
    refine ⟨?_, fun k => hm.tagsAgree.mem_regionNodeIds_iff (region_eq_ok.mp hr).2⟩
    exact (pairwise_sortedSet _).imp₂ (fun _ _ => lt_of_le_of_ne) (nodup_sortedSet _)

/-- There may be lists of degrees of freedom of all nodes. -/
structure HasRoom (m : Mesh α) : Prop where
  dofs : checkCapacity (α := α) 1 m.dofs = .ok ()
  nodes : ∀ ids : List ℤ, ids.length ≤ m.nodes.length → m.checkDofs ids = .ok ()

theorem HasRoom.forM_checkDofs (h : m.HasRoom) {lists : List (List ℤ)} (hlists : ∀ ids ∈ lists,
    ids.Nodup ∧ ∀ k ∈ ids, 1 ≤ k ∧ k ≤ m.nodes.length) : lists.forM m.checkDofs = .ok () := by
  induction lists with
  | nil => rfl
  | cons ids lists ih =>
    obtain ⟨⟨hnodup, hrange⟩, hlists⟩ := List.forall_mem_cons.mp hlists
    have hsubset : ids ⊆ m.allNodeIds := fun k hk => mem_allNodeIds.mpr (hrange k hk)
    have hlen : ids.length ≤ m.nodes.length := by
      simpa [allNodeIds] using (List.subperm_of_subset hnodup hsubset).length_le
    have hcons : (ids :: lists).forM m.checkDofs =
        (m.checkDofs ids >>= fun _ => lists.forM m.checkDofs) := rfl
    rw [hcons, h.nodes ids hlen, ok_bind, ih hlists]

/-- Where there is room for lists of degrees of freedom, a request is accepted if the mesh is frozen,
the mode is known, the tag is that of a region and the component is in range. -/
theorem HasRoom.exists_getDof_iff (h : m.HasRoom) (hm : m.Reachable) :
    (∃ mask, m.getDof tag mode component = .ok mask) ↔ m.frozen = true ∧
      (DofMode.ofName? mode).isSome ∧ (∀ t, tag = some t → ∃ r, m.region t = .ok r) ∧
        (component = .null ∨ ∃ c, m.component component = .ok c) := by
  simp only [getDof_eq_ok]
  constructor
  · rintro ⟨mask, hfrozen, kind, hkind, -, lists, hlists, -, hcomponent, -⟩
    refine ⟨hfrozen, by simp [hkind], fun t ht => ?_, hcomponent⟩
    subst ht
    obtain ⟨ids, hids, -⟩ := hlists
    obtain ⟨-, r, hr, -⟩ := getNodeIds_some_eq_ok_iff.mp hids
    exact ⟨r, hr⟩
  · rintro ⟨hfrozen, hmode, htag, hcomponent⟩
    obtain ⟨kind, hkind⟩ := Option.isSome_iff_exists.mp hmode
    obtain ⟨lists, hlists⟩ : ∃ lists, m.NodeLists tag kind lists := by
      cases tag with
      | none => cases kind <;> exact ⟨_, rfl⟩
      | some t =>
        obtain ⟨r, hr⟩ := htag t rfl
        exact ⟨_, _, getNodeIds_some_eq_ok_iff.mpr ⟨hfrozen, r, hr, rfl⟩, rfl⟩
    exact ⟨_, hfrozen, kind, hkind, h.dofs, lists, hlists,
      h.forM_checkDofs (nodeLists_spec hm hfrozen hlists), hcomponent, rfl⟩

/-- In every state of a mesh, node numbers come in increasing order and are those of the nodes that
belong to the tag. A mask marks a degree of freedom if its node belongs to the tag, or without a tag to
a boundary that the last call registering it marked essential, and if it belongs to the component; in
the mode all and without a tag it marks all of the component, and in the mode nonessential it marks
everything that the mode essential does not. -/
theorem masks_mark_nodes (h : m.MarkedBy marks) :
    (∀ tag ids, m.getNodeIds tag = .ok ids →
      ids.Pairwise (· < ·) ∧ ∀ k, k ∈ ids ↔ m.IsNodeOf tag k) ∧
    (∀ tag mode component mask, m.getDof tag mode component = .ok mask →
      ∃ kind, DofMode.ofName? mode = some kind ∧ mask.length = m.dofs ∧ ∀ d < m.dofs,
        (mask[d]? = some true ↔ if kind = .nonessential then ¬ m.Chooses marks tag kind component d
          else m.Chooses marks tag kind component d)) ∧
    (m.HasRoom → ∀ tag mode component, (∃ mask, m.getDof tag mode component = .ok mask) ↔
      m.frozen = true ∧ (DofMode.ofName? mode).isSome ∧
        (∀ t, tag = some t → ∃ r, m.region t = .ok r) ∧
        (component = .null ∨ ∃ c, m.component component = .ok c)) :=
  ⟨fun _ _ hids => mem_getNodeIds h.reachable hids, fun _ _ _ _ hmask => getElem?_of_getDof h hmask,
    fun hroom _ _ _ => hroom.exists_getDof_iff h.reachable⟩

/-- A segment with a loop at its end, whose other end is exterior. -/
def openLine : Mesh Float :=
  (Mesh.ofLists (.integer 2) [[0], [1]] [(.line2, [1, 2]), (.line2, [2, 2])]).freeze.2

theorem reachable_openLine : openLine.Reachable :=
  .step (reachable_ofLists _ (by simp) (by simp [Family.nodeCount])) (.freeze _)

/-- Tag 1 was essential until a call failed that registered it again. -/
def markedLine : Mesh Float :=
  ((openLine.addBoundary (.number 1) [] true).2.addBoundary (.name "load") [] true).2.addBoundary
    (.number 1) [.predicate (.function fun _ => .error .wrongType)] false |>.2

theorem markedBy_markedLine : ∃ marks, markedLine.MarkedBy marks ∧ marks (.number 1) = some false ∧
    marks (.name "load") = some true := by
  have hkind {m : Mesh Float} {key : TagKey}
      (h : ((m.regions.lookup key).all fun r => r.kind == .boundary) = true) (r : Region)
      (hr : m.regions.lookup key = some r) : r.kind = .boundary := by
    simpa [hr] using h
  have hfirst := (reachable_openLine.markedBy_none rfl).registered (.number 1) [] true
    ⟨rfl, by simp, nofun, hkind (by decide +kernel)⟩
  have hsecond := hfirst.registered (.name "load") [] true
    ⟨by decide +kernel, by simp, nofun, hkind (by decide +kernel)⟩
  exact ⟨_, hsecond.registered (.number 1) [.predicate (.function fun _ => .error .wrongType)] false
    ⟨by decide +kernel, by simp, nofun, hkind (by decide +kernel)⟩, by decide +kernel, by decide +kernel⟩

theorem masks_of_markedLine : ∃ marks, markedLine.MarkedBy marks ∧ marks (.number 1) = some false ∧
    marks (.name "load") = some true ∧
    markedLine.getDof none "essential" (.integer 1) = .ok [false, true, false, false] ∧
    markedLine.Chooses marks none .essential (.integer 1) 1 ∧
    ¬ markedLine.Chooses marks none .essential (.integer 1) 3 := by
  obtain ⟨marks, hmarks, hfirst, hload⟩ := markedBy_markedLine
  have hmask : markedLine.getDof none "essential" (.integer 1) = .ok [false, true, false, false] :=
    toOption_eq_some.mp (by decide +kernel)
  have hdofs : markedLine.dofs = 4 := by decide +kernel
  obtain ⟨-, hmasks, -⟩ := masks_mark_nodes hmarks
  obtain ⟨kind, hkind, -, hplaces⟩ := hmasks none "essential" (.integer 1) _ hmask
  obtain rfl : .essential = kind := Option.some.inj hkind
  refine ⟨marks, hmarks, hfirst, hload, hmask, ?_, ?_⟩
  · exact (hplaces 1 (by rw [hdofs]; decide)).mp rfl
  · intro hchosen
    exact absurd ((hplaces 3 (by rw [hdofs]; decide)).mpr hchosen) (by decide)

end Requests

end Mesh
end WeakForm
