import WeakForm.Proofs.Mesh.Neighbors

/-!
# Tags agree

What is tagged is written down in several places: in the region of a tag, in the sides and in the
cells. These agree at all times. A tagging that a condition stops on the way has changed all of them
alike, and one that is refused has changed none of them.
-/

namespace WeakForm

theorem TagId.mem_adjoin {tag : TagId} {tags : List TagId} {key : TagKey} :
    key ∈ (tag.adjoin tags).map TagId.key ↔ key = tag.key ∨ key ∈ tags.map TagId.key := by
  unfold TagId.adjoin
  split
  · rename_i h
    obtain ⟨t, ht, hkey⟩ := List.any_eq_true.mp h
    have hmem : tag.key ∈ tags.map TagId.key :=
      beq_iff_eq.mp hkey ▸ List.mem_map_of_mem ht
    exact ⟨.inr, fun h => h.elim (fun he => he ▸ hmem) id⟩
  · simp [or_comm]

namespace Mesh

variable {α : Type}

/-- The region of a tag is a boundary that lists the side. -/
def ListsSide (m : Mesh α) (key : TagKey) (ref : SideRef) : Prop :=
  ∃ r, m.regions.lookup key = some r ∧ r.kind = .boundary ∧ ref ∈ r.sides

/-- The region of a tag is a subdomain that lists the cell. -/
def ListsCell (m : Mesh α) (key : TagKey) (id : ℕ) : Prop :=
  ∃ r, m.regions.lookup key = some r ∧ r.kind = .subdomain ∧ id ∈ r.elements

/-- The regions, the sides and the cells of a mesh say the same about its tags. -/
structure TagsAgree (m : Mesh α) : Prop where
  sides : ∀ ref side, m.side? ref = some side →
    ∀ key, key ∈ side.boundaryIds.map TagId.key ↔ m.ListsSide key ref
  cells : ∀ i c, m.cells[i]? = some c →
    ∀ key, key ∈ c.subdomainIds.map TagId.key ↔ m.ListsCell key (i + 1)
  /-- A cell has the tags of its sides. -/
  union : ∀ c ∈ m.cells, ∀ key, key ∈ c.boundaryIds.map TagId.key ↔
    ∃ side ∈ c.sides, key ∈ side.boundaryIds.map TagId.key
  boundary : ∀ key r, m.regions.lookup key = some r → r.kind = .boundary →
    r.sides.Nodup ∧ r.elements = [] ∧
      ∀ ref ∈ r.sides, ∃ side, m.side? ref = some side ∧ side.onBoundary = true
  subdomain : ∀ key r, m.regions.lookup key = some r → r.kind = .subdomain →
    r.elements.Nodup ∧ r.sides = [] ∧ r.essential = false ∧
      ∀ id ∈ r.elements, ∃ i c, id = i + 1 ∧ m.cells[i]? = some c

section Calls

/-- Takes none but exterior sides. -/
def exteriorOnly (decides : Cell α → CellSide → Except (Error α) Bool) (c : Cell α)
    (side : CellSide) : Except (Error α) Bool :=
  if side.onBoundary then decides c side else .ok false

/-- The mesh after the exterior sides that a condition takes have been tagged. The condition may be
any, and may fail on some sides. -/
def tagSidesBy (m : Mesh α) (tag : TagId) (essential : Bool)
    (decides : Cell α → CellSide → Except (Error α) Bool) : Mesh α :=
  match m.openRegion tag .boundary essential with
  | .error _ => m
  | .ok (region, opened) =>
    let t := tagCellSides tag (exteriorOnly decides) 1 m.cells
    { opened with
      cells := t.cells
      regions := assign tag.key { region with sides := appendNew region.sides t.tagged }
        opened.regions }

/-- Takes none but new cells. -/
def newOnly (region : Region) (decides : Cell α → Except (Error α) Bool) (id : ℕ) (c : Cell α) :
    Except (Error α) Bool :=
  if region.elements.contains id then .ok false else decides c

/-- The mesh after the cells that a condition takes have been tagged. -/
def tagCellsBy (m : Mesh α) (tag : TagId) (decides : Cell α → Except (Error α) Bool) : Mesh α :=
  match m.openRegion tag .subdomain false with
  | .error _ => m
  | .ok (region, opened) =>
    let t := tagCells tag (newOnly region decides) 1 m.cells
    { opened with
      cells := t.cells
      regions := assign tag.key { region with elements := region.elements ++ t.tagged }
        opened.regions }

variable [Scalar α]

/-- One call that tags a boundary or a subdomain, whether it succeeds or not. The conditions are
those of the mesh or any others. -/
inductive Call : Mesh α → Mesh α → Prop
  | addBoundary (m : Mesh α) (tag : TagId) (selectors : List (Selector α)) (essential : Bool) :
      Call m (m.addBoundary tag selectors essential).2
  | addSubdomain (m : Mesh α) (tag : TagId) (condition : Predicate α) :
      Call m (m.addSubdomain tag condition).2
  | tagSidesBy (m : Mesh α) (tag : TagId) (essential : Bool)
      (decides : Cell α → CellSide → Except (Error α) Bool) :
      Call m (m.tagSidesBy tag essential decides)
  | tagCellsBy (m : Mesh α) (tag : TagId) (decides : Cell α → Except (Error α) Bool) :
      Call m (m.tagCellsBy tag decides)

theorem takesSide_eq_exteriorOnly (selectors : List (Selector α)) :
    takesSide selectors = exteriorOnly fun (c : Cell α) side =>
      if selectors.isEmpty then .ok true else selectsAny c side selectors := by
  funext c side
  unfold takesSide exteriorOnly
  cases side.onBoundary <;> simp

/-- Tagging a boundary in a frozen mesh tags the sides that the selectors take. -/
theorem addBoundary_snd {m : Mesh α} (tag : TagId) {selectors : List (Selector α)} (essential : Bool)
    (hfrozen : m.frozen = true) (hknown : unknownLocation? selectors = none) :
    (m.addBoundary tag selectors essential).2 =
      m.tagSidesBy (tag.numbered m.regions.length) essential fun c side =>
        if selectors.isEmpty then .ok true else selectsAny c side selectors := by
  unfold Mesh.addBoundary Mesh.tagSidesBy
  rw [← takesSide_eq_exteriorOnly, hfrozen, hknown]
  dsimp only [Bool.not_true, Bool.false_eq_true, if_false]
  cases m.openRegion (tag.numbered m.regions.length) .boundary essential with
  | error e => rfl
  | ok region => rfl

/-- Tagging a boundary by selectors is refused or tags the sides that they take. -/
theorem addBoundary_cases (m : Mesh α) (tag : TagId) (selectors : List (Selector α))
    (essential : Bool) : (m.addBoundary tag selectors essential).2 = m ∨
      (m.addBoundary tag selectors essential).2 =
        m.tagSidesBy (tag.numbered m.regions.length) essential fun c side =>
          if selectors.isEmpty then .ok true else selectsAny c side selectors := by
  cases hfrozen : m.frozen with
  | false => exact .inl (by simp [Mesh.addBoundary, hfrozen])
  | true =>
    cases hknown : unknownLocation? selectors with
    | some name => exact .inl (by simp [Mesh.addBoundary, hfrozen, hknown])
    | none => exact .inr (addBoundary_snd tag essential hfrozen hknown)

theorem addSubdomain_cases (m : Mesh α) (tag : TagId) (condition : Predicate α) :
    (m.addSubdomain tag condition).2 = m ∨ (m.addSubdomain tag condition).2 =
      m.tagCellsBy (tag.numbered m.regions.length) fun c =>
        condition.holdsAt c.element.nodes.toRows := by
  unfold Mesh.addSubdomain Mesh.tagCellsBy
  split_ifs
  · exact .inl rfl
  · dsimp only
    cases m.openRegion (tag.numbered m.regions.length) .subdomain false with
    | error e => exact .inl rfl
    | ok region => exact .inr rfl

end Calls

section Opening

variable {m opened : Mesh α} {tag : TagId} {kind : RegionKind} {essential : Bool} {region : Region}

/-- A region that is opened is the one that its tag has, of the same kind, or an empty one. -/
theorem openRegion_eq_ok (h : m.openRegion tag kind essential = .ok (region, opened)) :
    region.kind = kind ∧ region.essential = essential ∧
      opened = { m with regions := assign tag.key region m.regions } ∧
      ((∃ old, m.regions.lookup tag.key = some old ∧ old.kind = kind ∧
          region.sides = old.sides ∧ region.elements = old.elements) ∨
        m.regions.lookup tag.key = none ∧ region.sides = [] ∧ region.elements = []) := by
  unfold openRegion at h
  split_ifs at h
  dsimp only at h
  split_ifs at h with hkind
  cases h
  refine ⟨hkind, rfl, rfl, ?_⟩
  cases hold : m.regions.lookup tag.key with
  | none => exact .inr ⟨rfl, rfl, rfl⟩
  | some old =>
    rw [hold] at hkind
    exact .inl ⟨old, rfl, hkind, rfl, rfl⟩

/-- A tag that is opened anew has the kind that it had. -/
theorem kind_of_openRegion {r : Region} (h : m.openRegion tag kind essential = .ok (region, opened))
    (hr : m.regions.lookup tag.key = some r) : r.kind = kind := by
  obtain ⟨-, -, -, ⟨old, hold, hkind, -⟩ | ⟨hnone, -⟩⟩ := openRegion_eq_ok h
  · rwa [Option.some.inj (hr.symm.trans hold)]
  · exact absurd (hr.symm.trans hnone) nofun

section Unchanged

/-- The mesh is the same but for tags and regions. -/
def Retagged (m m' : Mesh α) : Prop :=
  ∃ cells regions, m' = { m with cells := cells, regions := regions } ∧
    cells.map Cell.untagged = m.cells.map Cell.untagged

namespace Retagged

variable {m' m'' : Mesh α}

theorem refl (m : Mesh α) : m.Retagged m := ⟨_, _, rfl, rfl⟩

theorem trans (h : m.Retagged m') (h' : m'.Retagged m'') : m.Retagged m'' := by
  obtain ⟨cells, regions, rfl, huntagged⟩ := h
  obtain ⟨cells', regions', rfl, huntagged'⟩ := h'
  exact ⟨cells', regions', rfl, huntagged'.trans huntagged⟩

theorem untagged (h : m.Retagged m') : m'.cells.map Cell.untagged = m.cells.map Cell.untagged := by
  obtain ⟨cells, regions, rfl, huntagged⟩ := h
  exact huntagged

theorem frozen_eq (h : m.Retagged m') : m'.frozen = m.frozen := by
  obtain ⟨cells, regions, rfl, -⟩ := h
  rfl

theorem dofs_eq (h : m.Retagged m') : m'.dofs = m.dofs := by
  obtain ⟨cells, regions, rfl, -⟩ := h
  rfl

theorem dofsPerNode_eq (h : m.Retagged m') : m'.dofsPerNode = m.dofsPerNode := by
  obtain ⟨cells, regions, rfl, -⟩ := h
  rfl

/-- Where the tags and the regions are the same, so is the mesh. -/
theorem eq_of_cells_of_regions (h : m.Retagged m') (hcells : m'.cells = m.cells)
    (hregions : m'.regions = m.regions) : m' = m := by
  obtain ⟨cells, regions, rfl, -⟩ := h
  obtain rfl : cells = m.cells := hcells
  obtain rfl : regions = m.regions := hregions
  rfl

end Retagged

variable [Scalar α] (m) (tag)

/-- Tagging writes tags into cells and regions and leaves the rest of the mesh as it is. -/
theorem retagged_addBoundary (selectors : List (Selector α)) (essential : Bool) :
    m.Retagged (m.addBoundary tag selectors essential).2 := by
  rcases m.addBoundary_cases tag selectors essential with h | h <;> rw [h]
  · exact .refl m
  · unfold tagSidesBy
    split
    · exact .refl m
    · rename_i hopen
      obtain ⟨-, -, rfl, -⟩ := openRegion_eq_ok hopen
      exact ⟨_, _, rfl, map_untagged_tagCellSides _ _ _ _⟩

theorem retagged_addSubdomain (condition : Predicate α) :
    m.Retagged (m.addSubdomain tag condition).2 := by
  rcases m.addSubdomain_cases tag condition with h | h <;> rw [h]
  · exact .refl m
  · unfold tagCellsBy
    split
    · exact .refl m
    · rename_i hopen
      obtain ⟨-, -, rfl, -⟩ := openRegion_eq_ok hopen
      exact ⟨_, _, rfl, map_untagged_tagCells _ _ _ _⟩

/-- Tagging does not count the degrees of freedom anew. -/
theorem dofs_addBoundary (selectors : List (Selector α)) (essential : Bool) :
    (m.addBoundary tag selectors essential).2.dofs = m.dofs :=
  (m.retagged_addBoundary tag selectors essential).dofs_eq

theorem dofs_addSubdomain (condition : Predicate α) :
    (m.addSubdomain tag condition).2.dofs = m.dofs := (m.retagged_addSubdomain tag condition).dofs_eq

end Unchanged

theorem listsSide_of_openRegion (h : m.openRegion tag .boundary essential = .ok (region, opened))
    (ref : SideRef) : m.ListsSide tag.key ref ↔ ref ∈ region.sides := by
  obtain ⟨-, -, -, ⟨old, hold, hkind, hsides, -⟩ | ⟨hnone, hsides, -⟩⟩ := openRegion_eq_ok h
  · simp [ListsSide, hold, hkind, hsides]
  · simp [ListsSide, hnone, hsides]

theorem listsCell_of_openRegion (h : m.openRegion tag .subdomain essential = .ok (region, opened))
    (id : ℕ) : m.ListsCell tag.key id ↔ id ∈ region.elements := by
  obtain ⟨-, -, -, ⟨old, hold, hkind, -, helements⟩ | ⟨hnone, -, helements⟩⟩ := openRegion_eq_ok h
  · simp [ListsCell, hold, hkind, helements]
  · simp [ListsCell, hnone, helements]

/-- What a region that is opened says about its tag. -/
theorem TagsAgree.of_openRegion (hm : m.TagsAgree)
    (h : m.openRegion tag kind essential = .ok (region, opened)) :
    region.sides.Nodup ∧ region.elements.Nodup ∧
      (kind = .boundary → region.elements = [] ∧
        ∀ ref ∈ region.sides, ∃ side, m.side? ref = some side ∧ side.onBoundary = true) ∧
      (kind = .subdomain → region.sides = [] ∧
        ∀ id ∈ region.elements, ∃ i c, id = i + 1 ∧ m.cells[i]? = some c) := by
  obtain ⟨-, -, -, ⟨old, hold, rfl, hsides, helements⟩ | ⟨-, hsides, helements⟩⟩ := openRegion_eq_ok h
  · rw [hsides, helements]
    cases hkind : old.kind with
    | boundary =>
      obtain ⟨hnodup, hempty, hrefs⟩ := hm.boundary tag.key old hold hkind
      exact ⟨hnodup, hempty ▸ List.nodup_nil, fun _ => ⟨hempty, hrefs⟩, nofun⟩
    | subdomain =>
      obtain ⟨hnodup, hempty, -, hids⟩ := hm.subdomain tag.key old hold hkind
      exact ⟨hempty ▸ List.nodup_nil, hnodup, nofun, fun _ => ⟨hempty, hids⟩⟩
  · rw [hsides, helements]
    exact ⟨List.nodup_nil, List.nodup_nil, fun _ => ⟨rfl, by simp⟩, fun _ => ⟨rfl, by simp⟩⟩

end Opening

section Sides

variable {m m' : Mesh α} {tag : TagId} {region : Region} {tagged : List SideRef}

theorem side?_of_mapIdx {f : ℕ → Cell α → Cell α} {g : SideRef → CellSide → CellSide}
    (hcells : m'.cells = m.cells.mapIdx f)
    (hsides : ∀ i c, (f i c).sides = c.sides.mapIdx fun s => g (i + 1, s)) (ref : SideRef) :
    m'.side? ref = (m.side? ref).map (g ref) := by
  match ref with
  | (0, _) => rfl
  | (i + 1, s) =>
    simp only [side?, hcells, List.getElem?_mapIdx]
    cases m.cells[i]? with
    | none => rfl
    | some c => simp [hsides]

theorem exists_mem_sides_iff {i : ℕ} {c : Cell α} (hc : m.cells[i]? = some c) {P : CellSide → Prop} :
    (∃ side ∈ c.sides, P side) ↔ ∃ s, ∃ side ∈ m.side? (i + 1, s), P side := by
  simp only [side?, hc, Option.bind_some, List.mem_iff_getElem?, Option.mem_def]
  constructor
  · rintro ⟨side, ⟨s, hs⟩, h⟩
    exact ⟨s, side, hs, h⟩
  · rintro ⟨s, side, hs, h⟩
    exact ⟨side, ⟨s, hs⟩, h⟩

theorem lookup_assign_assign {key name : TagKey} {r r' : Region} (regions : List (TagKey × Region)) :
    (assign key r' (assign key r regions)).lookup name =
      if name = key then some r' else regions.lookup name := by
  simp only [lookup_assign, beq_iff_eq]
  split_ifs <;> rfl

/-- Sides of a mesh have been tagged. -/
structure SidesTagged (m m' : Mesh α) (tag : TagId) (region : Region) (tagged : List SideRef) :
    Prop where
  opened : ∃ essential opened, m.openRegion tag .boundary essential = .ok (region, opened)
  cells : m'.cells = m.cells.mapIdx fun i c => markCell tag (sidesOfCell tagged (i + 1)) c
  regions : m'.regions = assign tag.key { region with sides := appendNew region.sides tagged }
    (assign tag.key region m.regions)
  exterior : ∀ ref ∈ tagged, ∃ side, m.side? ref = some side ∧ side.onBoundary = true

theorem sidesTagged_of_openRegion {essential : Bool} {region : Region} {opened : Mesh α}
    (hopen : m.openRegion tag .boundary essential = .ok (region, opened))
    (decides : Cell α → CellSide → Except (Error α) Bool) :
    SidesTagged m (m.tagSidesBy tag essential decides) tag region
      (tagCellSides tag (exteriorOnly decides) 1 m.cells).tagged := by
  obtain ⟨-, -, hopened, -⟩ := openRegion_eq_ok hopen
  rw [tagSidesBy, hopen]
  refine ⟨⟨essential, opened, hopen⟩, ?_, by rw [hopened], ?_⟩
  · simp only [cells_tagCellSides, Nat.add_comm 1]
  · intro ref href
    obtain ⟨hid, c, side, hc, hside, hdecides⟩ := exists_of_mem_tagCellSides href
    refine ⟨side, side?_eq_some.mpr ⟨ref.1 - 1, c, ref.2, ?_, hc, hside⟩, ?_⟩
    · exact Prod.ext (Nat.sub_add_cancel hid).symm rfl
    · by_contra hboundary
      simp [exteriorOnly, hboundary] at hdecides

theorem tagSidesBy_cases (m : Mesh α) (tag : TagId) (essential : Bool)
    (decides : Cell α → CellSide → Except (Error α) Bool) :
    m.tagSidesBy tag essential decides = m ∨
      ∃ region tagged, SidesTagged m (m.tagSidesBy tag essential decides) tag region tagged := by
  cases hopen : m.openRegion tag .boundary essential with
  | error e => exact .inl (by rw [tagSidesBy, hopen])
  | ok r => exact .inr ⟨r.1, _, sidesTagged_of_openRegion hopen decides⟩

namespace SidesTagged

theorem side? (h : SidesTagged m m' tag region tagged) (ref : SideRef) : m'.side? ref =
    (m.side? ref).map fun side => if ref ∈ tagged then markSide tag side else side :=
  side?_of_mapIdx (g := fun ref side => if ref ∈ tagged then markSide tag side else side) h.cells
    (fun i c => by simp only [markCell, mem_sidesOfCell]) ref

theorem lookup (h : SidesTagged m m' tag region tagged) (key : TagKey) : m'.regions.lookup key =
    if key = tag.key then some { region with sides := appendNew region.sides tagged }
      else m.regions.lookup key := by
  rw [h.regions, lookup_assign_assign]

theorem kind (h : SidesTagged m m' tag region tagged) : region.kind = .boundary := by
  obtain ⟨essential, opened, hopen⟩ := h.opened
  exact (openRegion_eq_ok hopen).1

theorem listsSide_iff (h : SidesTagged m m' tag region tagged) (key : TagKey) (ref : SideRef) :
    m'.ListsSide key ref ↔ key = tag.key ∧ ref ∈ tagged ∨ m.ListsSide key ref := by
  obtain ⟨essential, opened, hopen⟩ := h.opened
  by_cases hkey : key = tag.key
  · rw [hkey, listsSide_of_openRegion hopen]
    simp [ListsSide, h.lookup, h.kind, or_comm]
  · simp [ListsSide, h.lookup, hkey]

theorem listsCell_iff (h : SidesTagged m m' tag region tagged) (key : TagKey) (id : ℕ) :
    m'.ListsCell key id ↔ m.ListsCell key id := by
  obtain ⟨essential, opened, hopen⟩ := h.opened
  by_cases hkey : key = tag.key
  · obtain ⟨-, -, -, ⟨old, hold, hkind, -⟩ | ⟨hnone, -⟩⟩ := openRegion_eq_ok hopen
    · simp [ListsCell, h.lookup, hkey, h.kind, hold, hkind]
    · simp [ListsCell, h.lookup, hkey, h.kind, hnone]
  · simp [ListsCell, h.lookup, hkey]

/-- What a side has as a tag after the tagging. -/
theorem mem_side?_iff (h : SidesTagged m m' tag region tagged) (ref : SideRef) (key : TagKey) :
    (∃ side ∈ m'.side? ref, key ∈ side.boundaryIds.map TagId.key) ↔
      (key = tag.key ∧ ref ∈ tagged) ∨ ∃ side ∈ m.side? ref, key ∈ side.boundaryIds.map TagId.key := by
  rw [h.side?]
  by_cases href : ref ∈ tagged
  · obtain ⟨side, hside, -⟩ := h.exterior ref href
    simp only [hside, href, Option.map_some, Option.mem_some, exists_eq_left', if_true, markSide,
      TagId.mem_adjoin, and_true]
  · simp only [href, if_false, Option.map_id', and_false, false_or]

/-- Tagged cells have the tags of their sides. -/
theorem union (h : SidesTagged m m' tag region tagged) (hm : m.TagsAgree) {c' : Cell α}
    (hc' : c' ∈ m'.cells) (key : TagKey) : key ∈ c'.boundaryIds.map TagId.key ↔
      ∃ side ∈ c'.sides, key ∈ side.boundaryIds.map TagId.key := by
  obtain ⟨i, hi⟩ := List.mem_iff_getElem?.mp hc'
  have hcells := hi
  rw [h.cells, List.getElem?_mapIdx, Option.map_eq_some_iff] at hcells
  obtain ⟨c, hc, rfl⟩ := hcells
  have hcell : key ∈ (markCell tag (sidesOfCell tagged (i + 1)) c).boundaryIds.map TagId.key ↔
      (key = tag.key ∧ ∃ s, (i + 1, s) ∈ tagged) ∨ key ∈ c.boundaryIds.map TagId.key := by
    have hempty : (sidesOfCell tagged (i + 1)).isEmpty = true ↔ ¬ ∃ s, (i + 1, s) ∈ tagged := by
      simp only [List.isEmpty_iff, List.eq_nil_iff_forall_not_mem, mem_sidesOfCell, not_exists]
    by_cases htagged : ∃ s, (i + 1, s) ∈ tagged
    · simp only [markCell, hempty, htagged, not_true, if_false, TagId.mem_adjoin, and_true]
    · simp only [markCell, hempty, htagged, not_false_iff, if_true, and_false, false_or]
  rw [hcell, hm.union c (List.mem_of_getElem? hc) key, exists_mem_sides_iff hc, exists_mem_sides_iff hi]
  simp only [h.mem_side?_iff, exists_or, exists_and_left]

/-- Sides that are tagged are tagged everywhere. -/
theorem tagsAgree (h : SidesTagged m m' tag region tagged) (hm : m.TagsAgree) : m'.TagsAgree where
  sides := by
    intro ref side' hside' key
    rw [h.side?, Option.map_eq_some_iff] at hside'
    obtain ⟨side, hside, rfl⟩ := hside'
    rw [h.listsSide_iff, ← hm.sides ref side hside]
    split_ifs with href
    · simp only [markSide, TagId.mem_adjoin, href, and_true]
    · simp only [href, and_false, false_or]
  cells := by
    intro i c' hc' key
    rw [h.cells, List.getElem?_mapIdx, Option.map_eq_some_iff] at hc'
    obtain ⟨c, hc, rfl⟩ := hc'
    rw [h.listsCell_iff]
    exact hm.cells i c hc key
  union := fun c' hc' key => h.union hm hc' key
  boundary := by
    intro key r hr hkind
    have hkeep {refs : List SideRef}
        (hrefs : ∀ ref ∈ refs, ∃ side, m.side? ref = some side ∧ side.onBoundary = true) :
        ∀ ref ∈ refs, ∃ side, m'.side? ref = some side ∧ side.onBoundary = true := by
      intro ref href
      obtain ⟨side, hside, hboundary⟩ := hrefs ref href
      refine ⟨_, by rw [h.side?, hside, Option.map_some], ?_⟩
      split_ifs <;> exact hboundary
    rw [h.lookup] at hr
    split_ifs at hr with hkey
    · cases hr
      obtain ⟨essential, opened, hopen⟩ := h.opened
      obtain ⟨hnodup, -, hregion, -⟩ := hm.of_openRegion hopen
      obtain ⟨hempty, hrefs⟩ := hregion rfl
      refine ⟨nodup_appendNew hnodup _, hempty, hkeep fun ref href => ?_⟩
      exact (mem_appendNew.mp href).elim (hrefs ref) (h.exterior ref)
    · obtain ⟨hnodup, hempty, hrefs⟩ := hm.boundary key r hr hkind
      exact ⟨hnodup, hempty, hkeep hrefs⟩
  subdomain := by
    intro key r hr hkind
    rw [h.lookup] at hr
    split_ifs at hr with hkey
    · cases hr
      exact absurd (h.kind.symm.trans hkind) nofun
    · obtain ⟨hnodup, hempty, hessential, hids⟩ := hm.subdomain key r hr hkind
      refine ⟨hnodup, hempty, hessential, fun id hid => ?_⟩
      obtain ⟨i, c, rfl, hc⟩ := hids id hid
      exact ⟨i, _, rfl, by rw [h.cells, List.getElem?_mapIdx, hc, Option.map_some]⟩

end SidesTagged

end Sides

section Cells

variable {m m' : Mesh α} {tag : TagId} {region : Region} {tagged : List ℕ}

/-- Cells of a mesh have been tagged. -/
structure CellsTagged (m m' : Mesh α) (tag : TagId) (region : Region) (tagged : List ℕ) :
    Prop where
  opened : ∃ opened, m.openRegion tag .subdomain false = .ok (region, opened)
  cells : m'.cells = m.cells.mapIdx fun i c =>
    if i + 1 ∈ tagged then { c with subdomainIds := tag.adjoin c.subdomainIds } else c
  regions : m'.regions = assign tag.key { region with elements := region.elements ++ tagged }
    (assign tag.key region m.regions)
  nodup : (region.elements ++ tagged).Nodup
  exists_cell : ∀ id ∈ tagged, ∃ i c, id = i + 1 ∧ m.cells[i]? = some c

theorem cellsTagged_of_openRegion (hm : m.TagsAgree) {opened : Mesh α}
    (hopen : m.openRegion tag .subdomain false = .ok (region, opened))
    (decides : Cell α → Except (Error α) Bool) :
    CellsTagged m (m.tagCellsBy tag decides) tag region
      (tagCells tag (newOnly region decides) 1 m.cells).tagged := by
  obtain ⟨-, -, hopened, -⟩ := openRegion_eq_ok hopen
  obtain ⟨-, hnodup, -⟩ := hm.of_openRegion hopen
  rw [tagCellsBy, hopen]
  refine ⟨⟨opened, hopen⟩, ?_, by rw [hopened], ?_, ?_⟩
  · simp only [cells_tagCells, Nat.add_comm 1]
  · refine hnodup.append (nodup_tagCells _ _ _ _) (List.disjoint_left.mpr fun id hid htagged => ?_)
    obtain ⟨-, c, -, hdecides⟩ := exists_of_mem_tagCells htagged
    simp [newOnly, hid] at hdecides
  · intro id hid
    obtain ⟨hpos, c, hc, -⟩ := exists_of_mem_tagCells hid
    exact ⟨id - 1, c, (Nat.sub_add_cancel hpos).symm, hc⟩

theorem tagCellsBy_cases (hm : m.TagsAgree) (tag : TagId)
    (decides : Cell α → Except (Error α) Bool) : m.tagCellsBy tag decides = m ∨
      ∃ region tagged, CellsTagged m (m.tagCellsBy tag decides) tag region tagged := by
  cases hopen : m.openRegion tag .subdomain false with
  | error e => exact .inl (by rw [tagCellsBy, hopen])
  | ok r => exact .inr ⟨r.1, _, cellsTagged_of_openRegion hm hopen decides⟩

namespace CellsTagged

theorem side? (h : CellsTagged m m' tag region tagged) (ref : SideRef) : m'.side? ref = m.side? ref := by
  rw [side?_of_mapIdx (g := fun _ side => side) h.cells
    (fun i c => by rw [mapIdx_self]; split_ifs <;> rfl) ref, Option.map_id']

theorem lookup (h : CellsTagged m m' tag region tagged) (key : TagKey) : m'.regions.lookup key =
    if key = tag.key then some { region with elements := region.elements ++ tagged }
      else m.regions.lookup key := by
  rw [h.regions, lookup_assign_assign]

theorem kind (h : CellsTagged m m' tag region tagged) : region.kind = .subdomain := by
  obtain ⟨opened, hopen⟩ := h.opened
  exact (openRegion_eq_ok hopen).1

theorem listsCell_iff (h : CellsTagged m m' tag region tagged) (key : TagKey) (id : ℕ) :
    m'.ListsCell key id ↔ key = tag.key ∧ id ∈ tagged ∨ m.ListsCell key id := by
  obtain ⟨opened, hopen⟩ := h.opened
  by_cases hkey : key = tag.key
  · rw [hkey, listsCell_of_openRegion hopen]
    simp [ListsCell, h.lookup, h.kind, or_comm]
  · simp [ListsCell, h.lookup, hkey]

theorem listsSide_iff (h : CellsTagged m m' tag region tagged) (key : TagKey) (ref : SideRef) :
    m'.ListsSide key ref ↔ m.ListsSide key ref := by
  obtain ⟨opened, hopen⟩ := h.opened
  by_cases hkey : key = tag.key
  · obtain ⟨-, -, -, ⟨old, hold, hkind, -⟩ | ⟨hnone, -⟩⟩ := openRegion_eq_ok hopen
    · simp [ListsSide, h.lookup, hkey, h.kind, hold, hkind]
    · simp [ListsSide, h.lookup, hkey, h.kind, hnone]
  · simp [ListsSide, h.lookup, hkey]

/-- Cells that are tagged are tagged everywhere. -/
theorem tagsAgree (h : CellsTagged m m' tag region tagged) (hm : m.TagsAgree) : m'.TagsAgree where
  sides := by
    intro ref side hside key
    rw [h.side?] at hside
    rw [h.listsSide_iff]
    exact hm.sides ref side hside key
  cells := by
    intro i c' hc' key
    rw [h.cells, List.getElem?_mapIdx, Option.map_eq_some_iff] at hc'
    obtain ⟨c, hc, rfl⟩ := hc'
    rw [h.listsCell_iff, ← hm.cells i c hc]
    split_ifs with hid
    · simp only [TagId.mem_adjoin, hid, and_true]
    · simp only [hid, and_false, false_or]
  union := by
    intro c' hc' key
    rw [h.cells, List.mem_mapIdx] at hc'
    obtain ⟨i, hi, rfl⟩ := hc'
    have hold := hm.union _ (List.getElem_mem hi) key
    split_ifs <;> exact hold
  boundary := by
    intro key r hr hkind
    rw [h.lookup] at hr
    split_ifs at hr with hkey
    · cases hr
      exact absurd (h.kind.symm.trans hkind) nofun
    · simp only [h.side?]
      exact hm.boundary key r hr hkind
  subdomain := by
    intro key r hr hkind
    have hkeep {ids : List ℕ} (hids : ∀ id ∈ ids, ∃ i c, id = i + 1 ∧ m.cells[i]? = some c) :
        ∀ id ∈ ids, ∃ i c, id = i + 1 ∧ m'.cells[i]? = some c := by
      intro id hid
      obtain ⟨i, c, rfl, hc⟩ := hids id hid
      exact ⟨i, _, rfl, by rw [h.cells, List.getElem?_mapIdx, hc, Option.map_some]⟩
    rw [h.lookup] at hr
    split_ifs at hr with hkey
    · cases hr
      obtain ⟨opened, hopen⟩ := h.opened
      obtain ⟨-, -, -, hregion⟩ := hm.of_openRegion hopen
      obtain ⟨hempty, hids⟩ := hregion rfl
      refine ⟨h.nodup, hempty, (openRegion_eq_ok hopen).2.1, hkeep fun id hid => ?_⟩
      exact (List.mem_append.mp hid).elim (hids id) (h.exists_cell id)
    · obtain ⟨hnodup, hempty, hessential, hids⟩ := hm.subdomain key r hr hkind
      exact ⟨hnodup, hempty, hessential, hkeep hids⟩

end CellsTagged

end Cells

section Freezing

/-- The tags of the sides of a cell, and its own. -/
def tagsOf (c : Cell α) : List (List TagId) × List TagId × List TagId :=
  (c.sides.map CellSide.boundaryIds, c.boundaryIds, c.subdomainIds)

theorem boundaryIds_connectSide (group : List SideRef) (self : SideRef) (side : CellSide) :
    (connectSide group self side).boundaryIds = side.boundaryIds := by
  unfold connectSide
  split <;> rfl

theorem map_tagsOf_connectSides (cells : List (Cell α)) :
    (connectSides cells).map tagsOf = cells.map tagsOf := by
  unfold connectSides
  rw [List.map_map, ← map_zipIdx_fst tagsOf]
  refine List.map_congr_left fun c _ => ?_
  simp only [Function.comp_apply, tagsOf, List.map_map, Function.comp_def, boundaryIds_connectSide,
    map_zipIdx_fst]

theorem map_tagsOf_classifySides [Scalar α] (coords : DenseMatrix α) (cells : List (Cell α)) :
    (classifySides coords cells).map tagsOf = cells.map tagsOf := by
  unfold classifySides
  split_ifs
  · rfl
  · rw [List.map_map]
    refine List.map_congr_left fun c _ => ?_
    simp only [Function.comp_apply, tagsOf, List.map_map]
    congr 1
    refine List.map_congr_left fun s _ => ?_
    simp only [Function.comp_apply]
    split_ifs <;> rfl

/-- The tags agree as long as there are none. -/
theorem tagsAgree_of_untagged {m : Mesh α} (hregions : m.regions = [])
    (hcells : ∀ c ∈ m.cells, (∀ side ∈ c.sides, side.boundaryIds = []) ∧ c.boundaryIds = [] ∧
      c.subdomainIds = []) : m.TagsAgree where
  sides := by
    intro ref side hside key
    obtain ⟨i, c, s, rfl, hc, hs⟩ := side?_eq_some.mp hside
    have hempty := (hcells c (List.mem_of_getElem? hc)).1 side (List.mem_of_getElem? hs)
    simp [hempty, ListsSide, hregions]
  cells := by
    intro i c hc key
    have hempty := (hcells c (List.mem_of_getElem? hc)).2.2
    simp [hempty, ListsCell, hregions]
  union := by
    intro c hc key
    obtain ⟨hsides, hempty, -⟩ := hcells c hc
    simp +contextual [hempty, hsides]
  boundary := by simp [hregions]
  subdomain := by simp [hregions]

end Freezing

section Runs

theorem TagsAgree.of_eq {m m' : Mesh α} (hm : m.TagsAgree) (hcells : m'.cells = m.cells)
    (hregions : m'.regions = m.regions) : m'.TagsAgree := by
  have hside (ref : SideRef) : m'.side? ref = m.side? ref := by
    match ref with
    | (0, _) => rfl
    | (i + 1, s) => simp only [side?, hcells]
  refine ⟨?_, ?_, ?_, ?_, ?_⟩
  · simpa only [hside, ListsSide, hregions] using hm.sides
  · simpa only [hcells, ListsCell, hregions] using hm.cells
  · simpa only [hcells] using hm.union
  · simpa only [hside, hregions] using hm.boundary
  · simpa only [hcells, hregions] using hm.subdomain

variable [Scalar α] {m m' : Mesh α}

/-- A call that tags something is refused, or it tags sides or cells. -/
theorem Call.cases (hs : Call m m') (hm : m.TagsAgree) : m' = m ∨
    (∃ tag region tagged, SidesTagged m m' tag region tagged) ∨
      ∃ tag region tagged, CellsTagged m m' tag region tagged := by
  have hsides (tag : TagId) (essential : Bool)
      (decides : Cell α → CellSide → Except (Error α) Bool)
      (h : m' = m.tagSidesBy tag essential decides) : m' = m ∨
        (∃ tag region tagged, SidesTagged m m' tag region tagged) ∨
          ∃ tag region tagged, CellsTagged m m' tag region tagged := by
    subst h
    rcases m.tagSidesBy_cases tag essential decides with hsame | htagged
    · exact .inl hsame
    · exact .inr (.inl ⟨tag, htagged⟩)
  have hcells (tag : TagId) (decides : Cell α → Except (Error α) Bool)
      (h : m' = m.tagCellsBy tag decides) : m' = m ∨
        (∃ tag region tagged, SidesTagged m m' tag region tagged) ∨
          ∃ tag region tagged, CellsTagged m m' tag region tagged := by
    subst h
    rcases tagCellsBy_cases hm tag decides with hsame | htagged
    · exact .inl hsame
    · exact .inr (.inr ⟨tag, htagged⟩)
  cases hs with
  | addBoundary tag selectors essential =>
    exact (m.addBoundary_cases tag selectors essential).elim .inl (hsides _ _ _)
  | addSubdomain tag condition =>
    exact (m.addSubdomain_cases tag condition).elim .inl (hcells _ _)
  | tagSidesBy tag essential decides => exact hsides tag essential decides rfl
  | tagCellsBy tag decides => exact hcells tag decides rfl

/-- Every call that tags something, or fails to, keeps the tags in agreement. -/
theorem Call.tagsAgree (hs : Call m m') (hm : m.TagsAgree) : m'.TagsAgree := by
  obtain rfl | ⟨tag, region, tagged, h⟩ | ⟨tag, region, tagged, h⟩ := hs.cases hm
  · exact hm
  · exact h.tagsAgree hm
  · exact h.tagsAgree hm

/-- No call takes a tag away or changes its kind. -/
theorem Call.kind (hs : Call m m') (hm : m.TagsAgree) {key : TagKey} {r : Region}
    (hr : m.regions.lookup key = some r) :
    ∃ r', m'.regions.lookup key = some r' ∧ r'.kind = r.kind := by
  obtain rfl | ⟨tag, region, tagged, h⟩ | ⟨tag, region, tagged, h⟩ := hs.cases hm
  · exact ⟨r, hr, rfl⟩
  · rw [h.lookup]
    split_ifs with hkey
    · obtain ⟨essential, opened, hopen⟩ := h.opened
      exact ⟨_, rfl, h.kind.trans (kind_of_openRegion hopen (hkey ▸ hr)).symm⟩
    · exact ⟨r, hr, rfl⟩
  · rw [h.lookup]
    split_ifs with hkey
    · obtain ⟨opened, hopen⟩ := h.opened
      exact ⟨_, rfl, h.kind.trans (kind_of_openRegion hopen (hkey ▸ hr)).symm⟩
    · exact ⟨r, hr, rfl⟩

/-- A mesh has no tags when it is frozen. -/
theorem TagsAgree.freeze (hm : m.TagsAgree) (hw : m.WellFormed) : m.freeze.2.TagsAgree := by
  obtain ⟨e, dim, n, coords, hfreeze⟩ | ⟨hopen, -, -, n, elements, -, -, hfreeze⟩ := m.freeze_cases
  · rw [hfreeze]
    exact hm.of_eq rfl rfl
  rw [hfreeze]
  refine tagsAgree_of_untagged (hw.not_frozen hopen).2 fun c hc => ?_
  have hmem := List.mem_map_of_mem (f := tagsOf) hc
  dsimp only [frozenWith] at hmem
  rw [map_tagsOf_classifySides, map_tagsOf_connectSides, List.map_map] at hmem
  obtain ⟨e, -, htags⟩ := List.mem_map.mp hmem
  simp only [Function.comp_apply, tagsOf, Cell.ofElement, List.map_map, Prod.mk.injEq] at htags
  obtain ⟨hsides, hboundary, hsubdomain⟩ := htags
  refine ⟨fun side hside => ?_, hboundary.symm, hsubdomain.symm⟩
  obtain ⟨nodes, -, hids⟩ := List.mem_map.mp (hsides ▸ List.mem_map_of_mem hside)
  exact hids.symm

/-- At all times the tags of a mesh agree. -/
theorem Reachable.tagsAgree (hm : m.Reachable) : m.TagsAgree := by
  induction hm with
  | empty space => exact tagsAgree_of_untagged rfl (by simp [Mesh.empty])
  | step hm hs ih =>
    cases hs with
    | addNode coord hadd =>
      obtain ⟨-, -, rfl⟩ := addNode_eq_ok hadd
      exact ih.of_eq rfl rfl
    | addElement family nodeIds hadd =>
      obtain ⟨-, -, rfl⟩ := addElement_eq_ok hadd
      exact ih.of_eq rfl rfl
    | freeze => exact ih.freeze hm.wellFormed
    | addBoundary tag selectors essential =>
      exact (Call.addBoundary _ tag selectors essential).tagsAgree ih
    | addSubdomain tag condition => exact (Call.addSubdomain _ tag condition).tagsAgree ih

/-- However the boundaries and subdomains of a mesh are tagged, also by calls that are refused and by
conditions that fail on the way, its tags agree and keep their kinds. -/
theorem tags_agree (hm : m.Reachable) (hs : Relation.ReflTransGen Call m m') :
    m'.TagsAgree ∧ ∀ key r, m.regions.lookup key = some r →
      ∃ r', m'.regions.lookup key = some r' ∧ r'.kind = r.kind := by
  induction hs with
  | refl => exact ⟨hm.tagsAgree, fun key r hr => ⟨r, hr, rfl⟩⟩
  | tail _ hcall ih =>
    obtain ⟨hagree, hkinds⟩ := ih
    refine ⟨hcall.tagsAgree hagree, fun key r hr => ?_⟩
    obtain ⟨r', hr', hkind⟩ := hkinds key r hr
    obtain ⟨r'', hr'', hkind'⟩ := hcall.kind hagree hr'
    exact ⟨r'', hr'', hkind'.trans hkind⟩

/-- Takes the sides of the first element and fails on all others. -/
def failsLater (c : Cell α) (_ : CellSide) : Except (Error α) Bool :=
  if c.element.id = 1 then .ok true else .error .wrongType

/-- A line one end of which was tagged before the condition failed on the other one. Then the tag was
refused to a subdomain. -/
noncomputable def taggedLine : Mesh ℝ :=
  ((loopedLine.tagSidesBy (.number 1) true failsLater).addSubdomain (.number 1) (.always true)).2

theorem tags_of_taggedLine_agree : taggedLine.TagsAgree ∧
    ∃ r, taggedLine.regions.lookup (.number 1) = some r ∧ r.kind = .boundary ∧ r.sides = [(1, 0)] := by
  have hregion : (taggedLine.regions.lookup (.number 1)).map (fun r => (r.kind, r.sides)) =
      some (.boundary, [(1, 0)]) := by decide +kernel
  obtain ⟨r, hr, hsides⟩ := Option.map_eq_some_iff.mp hregion
  obtain ⟨hkind, hsides⟩ := Prod.ext_iff.mp hsides
  have hcalls : Relation.ReflTransGen Call loopedLine taggedLine :=
    .tail (.single (.tagSidesBy _ _ _ _)) (.addSubdomain _ _ _)
  exact ⟨(tags_agree reachable_loopedLine hcalls).1, r, hr, hkind, hsides⟩

end Runs

end Mesh
end WeakForm
