import WeakForm.Proofs.Mesh.Elements
import WeakForm.Proofs.Mesh.Tags
import WeakForm.Proofs.Solver.Prescribed

/-!
# Frozen meshes and their regions

An open mesh whose elements fit its nodes can be frozen. Tagging a boundary or a subdomain succeeds
exactly if every side or every new cell is decided on, and then adds to the region of the tag what is
to be taken.
-/

namespace WeakForm

section Assignments

variable {κ β : Type} [BEq κ] [LawfulBEq κ]

theorem assign_of_lookup_eq_none {key : κ} {entries : List (κ × β)}
    (h : entries.lookup key = none) (value : β) :
    assign key value entries = entries ++ [(key, value)] := by
  induction entries with
  | nil => rfl
  | cons e entries ih =>
    obtain ⟨k, old⟩ := e
    rw [List.lookup_cons] at h
    by_cases hk : k = key
    · simp [hk] at h
    · have hne : (key == k) = false := by simpa using Ne.symm hk
      rw [hne] at h
      simp [assign, hk, ih h]

/-- A new key that is given two values has the second one. -/
theorem assign_assign {key : κ} {entries : List (κ × β)} (h : entries.lookup key = none)
    (value value' : β) :
    assign key value' (assign key value entries) = entries ++ [(key, value')] := by
  rw [assign_of_lookup_eq_none h]
  induction entries with
  | nil => simp [assign]
  | cons e entries ih =>
    obtain ⟨k, old⟩ := e
    rw [List.lookup_cons] at h
    by_cases hk : k = key
    · simp [hk] at h
    · have hne : (key == k) = false := by simpa using Ne.symm hk
      rw [hne] at h
      simp [assign, hk, ih h]

end Assignments

/-- A tag that is a number or a name. -/
structure TagId.IsPlain (tag : TagId) : Prop where
  usable : tag.key ≠ .unusable
  defined : tag.key ≠ .undefined none
  present : tag.key ≠ .absent

/-- A tag that is given its number stays usable. -/
theorem TagId.numbered_ne_unusable_iff (tag : TagId) (serial : ℕ) :
    (tag.numbered serial).key ≠ .unusable ↔ tag.key ≠ .unusable := by
  unfold TagId.numbered
  split_ifs with h <;> simp [h]

theorem TagId.isPlain_name (s : String) : (TagId.name s).IsPlain := ⟨nofun, nofun, nofun⟩

namespace Mesh

section Freezing

variable {α : Type} [Scalar α] {m : Mesh α} {n : ℕ}

/-- An open mesh is frozen if its elements are over existing nodes and its degrees of freedom suit
all families. -/
theorem freeze_eq_ok (hm : m.Reachable) (hopen : m.frozen = false) (hnodes : m.nodes ≠ [])
    (hconnectivity : m.connectivity ≠ [])
    (hn : Space.dofsPerNode m.space (nodeDim m.nodes) = .ok n)
    (hcells : ∀ c ∈ m.connectivity, (∀ fixed, c.1.fixedDofs = some fixed → n = fixed) ∧
      ∀ k ∈ c.2, 1 ≤ k ∧ k ≤ (m.nodes.length : ℤ)) :
    m.freeze.1 = .ok () ∧ m.freeze.2.frozen = true ∧ m.freeze.2.space = m.space ∧
      m.freeze.2.nodes = m.nodes ∧ m.freeze.2.connectivity = m.connectivity ∧
      m.freeze.2.dofsPerNode = n ∧ m.freeze.2.coords = some (coordinateMatrix m.nodes) ∧
      m.freeze.2.regions = [] := by
  obtain ⟨elements, helements⟩ : ∃ elements, buildElements (coordinateMatrix m.nodes) n
      m.connectivity = .ok elements := by
    refine exists_mapM_eq_ok fun c hc => ?_
    have hmem : c.1 ∈ m.connectivity := (List.mem_zipIdx' hc).2 ▸ List.getElem_mem _
    obtain ⟨hfixed, hrange⟩ := hcells c.1 hmem
    exact exists_buildElement _ (hm.wellFormed.connectivity c.1 hmem) hfixed hrange
  have hregions := (hm.wellFormed.not_frozen hopen).2
  rw [freeze_eq hopen hnodes hconnectivity hn helements]
  exact ⟨rfl, rfl, rfl, rfl, rfl, rfl, rfl, hregions⟩

end Freezing

section Tagging

variable {α : Type}

/-- Where every side is decided on, the sides that are to be taken are tagged. -/
theorem tagSides_of_total (tag : TagId) {isMatch : CellSide → Except (Error α) Bool}
    {takes : CellSide → Bool} {sides : List CellSide}
    (h : ∀ side ∈ sides, isMatch side = .ok (takes side)) (s : ℕ) :
    (tagSides tag isMatch s sides).error = none ∧ ∀ k,
      k ∈ (tagSides tag isMatch s sides).tagged ↔
        s ≤ k ∧ ∃ side, sides[k - s]? = some side ∧ takes side = true := by
  induction sides generalizing s with
  | nil => simp [tagSides]
  | cons side rest ih =>
    obtain ⟨hside, h⟩ := List.forall_mem_cons.mp h
    obtain ⟨herror, hmem⟩ := ih h (s + 1)
    have hrest (k : ℕ) : (s ≤ k ∧ ∃ other, (side :: rest)[k - s]? = some other ∧
        takes other = true) ↔ (k = s ∧ takes side = true) ∨
          (s + 1 ≤ k ∧ ∃ other, rest[k - (s + 1)]? = some other ∧ takes other = true) := by
      rcases Nat.lt_trichotomy k s with hk | rfl | hk
      · simp [hk.not_ge, hk.ne, show ¬ s + 1 ≤ k by omega]
      · simp
      · rw [show k - s = k - (s + 1) + 1 by omega, List.getElem?_cons_succ]
        simp [hk.le, hk.ne', Nat.succ_le_of_lt hk]
    rw [tagSides, hside]
    cases htakes : takes side with
    | false => exact ⟨herror, fun k => by rw [hrest, hmem]; simp [htakes]⟩
    | true => exact ⟨herror, fun k => by rw [hrest, List.mem_cons, hmem]; simp [htakes]⟩

theorem tagCellSides_of_total (tag : TagId) {isMatch : Cell α → CellSide → Except (Error α) Bool}
    {takes : Cell α → CellSide → Bool} {cells : List (Cell α)}
    (h : ∀ c ∈ cells, ∀ side ∈ c.sides, isMatch c side = .ok (takes c side)) (id : ℕ) :
    (tagCellSides tag isMatch id cells).error = none ∧ ∀ ref,
      ref ∈ (tagCellSides tag isMatch id cells).tagged ↔
        id ≤ ref.1 ∧ ∃ c side, cells[ref.1 - id]? = some c ∧ c.sides[ref.2]? = some side ∧
          takes c side = true := by
  induction cells generalizing id with
  | nil => simp [tagCellSides]
  | cons c rest ih =>
    obtain ⟨hc, h⟩ := List.forall_mem_cons.mp h
    obtain ⟨herror, hmem⟩ := ih h (id + 1)
    obtain ⟨hsides, hsmem⟩ := tagSides_of_total tag hc 0
    rw [tagCellSides]
    dsimp only
    rw [hsides]
    refine ⟨herror, fun ref => ?_⟩
    obtain ⟨k, s⟩ := ref
    rw [List.mem_append, hmem, List.mem_map]
    simp only [Prod.mk.injEq, hsmem, Nat.zero_le, Nat.sub_zero, true_and]
    rcases Nat.lt_trichotomy k id with hk | rfl | hk
    · simp [hk.not_ge, hk.ne', show ¬ id + 1 ≤ k by omega]
    · simp
    · rw [show k - id = k - (id + 1) + 1 by omega, List.getElem?_cons_succ]
      simp [hk.le, hk.ne, Nat.succ_le_of_lt hk]

/-- A tagging that is not stopped has decided on every side. -/
theorem total_of_tagSides {tag : TagId} {isMatch : CellSide → Except (Error α) Bool} {s : ℕ}
    {sides : List CellSide} (h : (tagSides tag isMatch s sides).error = none) :
    ∀ side ∈ sides, ∃ b, isMatch side = .ok b := by
  induction sides generalizing s with
  | nil => simp
  | cons side rest ih =>
    rw [tagSides] at h
    cases hside : isMatch side with
    | error e =>
      rw [hside] at h
      cases h
    | ok b =>
      rw [hside] at h
      refine List.forall_mem_cons.mpr ⟨⟨b, hside⟩, ?_⟩
      cases b <;> exact ih h

theorem total_of_tagCellSides {tag : TagId} {isMatch : Cell α → CellSide → Except (Error α) Bool}
    {id : ℕ} {cells : List (Cell α)} (h : (tagCellSides tag isMatch id cells).error = none) :
    ∀ c ∈ cells, ∀ side ∈ c.sides, ∃ b, isMatch c side = .ok b := by
  induction cells generalizing id with
  | nil => simp
  | cons c rest ih =>
    rw [tagCellSides] at h
    dsimp only at h
    cases hsides : (tagSides tag (isMatch c) 0 c.sides).error with
    | some e =>
      rw [hsides] at h
      cases h
    | none =>
      rw [hsides] at h
      exact List.forall_mem_cons.mpr ⟨total_of_tagSides hsides, ih h⟩

/-- Where every cell is decided on, the cells that are to be taken are tagged. -/
theorem tagCells_of_total (tag : TagId) {isMatch : ℕ → Cell α → Except (Error α) Bool}
    {takes : ℕ → Cell α → Bool} {cells : List (Cell α)} {id : ℕ}
    (h : ∀ i c, cells[i]? = some c → isMatch (id + i) c = .ok (takes (id + i) c)) :
    (tagCells tag isMatch id cells).error = none ∧ ∀ k,
      k ∈ (tagCells tag isMatch id cells).tagged ↔
        id ≤ k ∧ ∃ c, cells[k - id]? = some c ∧ takes k c = true := by
  induction cells generalizing id with
  | nil => simp [tagCells]
  | cons c rest ih =>
    have hc : isMatch id c = .ok (takes id c) := h 0 c rfl
    have hlater : ∀ i d, rest[i]? = some d → isMatch (id + 1 + i) d = .ok (takes (id + 1 + i) d) := by
      intro i d hd
      have hnext := h (i + 1) d hd
      rwa [← Nat.add_assoc, Nat.add_right_comm] at hnext
    obtain ⟨herror, hmem⟩ := ih hlater
    have hrest (k : ℕ) : (id ≤ k ∧ ∃ d, (c :: rest)[k - id]? = some d ∧ takes k d = true) ↔
        (k = id ∧ takes id c = true) ∨
          (id + 1 ≤ k ∧ ∃ d, rest[k - (id + 1)]? = some d ∧ takes k d = true) := by
      rcases Nat.lt_trichotomy k id with hk | rfl | hk
      · simp [hk.not_ge, hk.ne, show ¬ id + 1 ≤ k by omega]
      · simp
      · rw [show k - id = k - (id + 1) + 1 by omega, List.getElem?_cons_succ]
        simp [hk.le, hk.ne', Nat.succ_le_of_lt hk]
    rw [tagCells, hc]
    cases htakes : takes id c with
    | false => exact ⟨herror, fun k => by rw [hrest, hmem]; simp [htakes]⟩
    | true => exact ⟨herror, fun k => by rw [hrest, List.mem_cons, hmem]; simp [htakes]⟩

/-- Where every new cell is decided on, the new cells that are to be taken are tagged. -/
theorem tagCells_newOnly (tag : TagId) {region : Region} {decides : Cell α → Except (Error α) Bool}
    {holds : Cell α → Bool} {cells : List (Cell α)}
    (h : ∀ i c, cells[i]? = some c → i + 1 ∉ region.elements → decides c = .ok (holds c)) :
    (tagCells tag (newOnly region decides) 1 cells).error = none ∧ ∀ id,
      id ∈ (tagCells tag (newOnly region decides) 1 cells).tagged ↔
        id ∉ region.elements ∧ 1 ≤ id ∧ ∃ c, cells[id - 1]? = some c ∧ holds c = true := by
  let takes := fun id c => !region.elements.contains id && holds c
  have htotal : ∀ i c, cells[i]? = some c → newOnly region decides (1 + i) c = .ok (takes (1 + i) c) := by
    intro i c hc
    have hnew := h i c hc
    rw [Nat.add_comm] at hnew
    by_cases hold : 1 + i ∈ region.elements
    · simp [newOnly, takes, hold]
    · simp [newOnly, takes, hold, hnew]
  obtain ⟨herror, hmem⟩ := tagCells_of_total tag htotal
  refine ⟨herror, fun id => ?_⟩
  rw [hmem]
  by_cases hold : id ∈ region.elements <;> simp [takes, hold]

theorem total_of_tagCells {tag : TagId} {isMatch : ℕ → Cell α → Except (Error α) Bool} {id : ℕ}
    {cells : List (Cell α)} (h : (tagCells tag isMatch id cells).error = none) {i : ℕ} {c : Cell α}
    (hc : cells[i]? = some c) : ∃ b, isMatch (id + i) c = .ok b := by
  induction cells generalizing id i with
  | nil => cases hc
  | cons d rest ih =>
    rw [tagCells] at h
    cases hd : isMatch id d with
    | error e =>
      rw [hd] at h
      cases h
    | ok b =>
      rw [hd] at h
      cases i with
      | zero =>
        cases hc
        exact ⟨b, hd⟩
      | succ i =>
        rw [← Nat.add_assoc, Nat.add_right_comm]
        cases b <;> exact ih h hc

variable [Scalar α] {m opened : Mesh α} {tag : TagId} {selectors : List (Selector α)}
  {essential : Bool} {takes : Cell α → CellSide → Bool} {region r : Region}

omit [Scalar α] in
/-- A new tag gets an empty region. -/
theorem openRegion_of_new (kind : RegionKind) (essential : Bool) (husable : tag.key ≠ .unusable)
    (hnew : m.regions.lookup tag.key = none) : m.openRegion tag kind essential =
      .ok (⟨tag, kind, essential, [], []⟩,
        { m with regions := assign tag.key ⟨tag, kind, essential, [], []⟩ m.regions }) := by
  rw [openRegion, if_neg husable, hnew, Option.getD_none]
  exact if_pos rfl

/-- The sides that the selectors take are added to the region of the tag. -/
theorem addBoundary_of_total (hfrozen : m.frozen = true) (hselectors : unknownLocation? selectors = none)
    (hopen : m.openRegion (tag.numbered m.regions.length) .boundary essential = .ok (region, opened))
    (htakes : ∀ c ∈ m.cells, ∀ side ∈ c.sides, takesSide selectors c side = .ok (takes c side)) :
    ∃ sides cells, m.addBoundary tag selectors essential = (.ok { region with sides := sides },
        { opened with
          cells := cells
          regions := assign (tag.numbered m.regions.length).key { region with sides := sides }
            opened.regions }) ∧
      cells.map Cell.untagged = m.cells.map Cell.untagged ∧ ∀ ref, ref ∈ sides ↔ ref ∈ region.sides ∨
        1 ≤ ref.1 ∧ ∃ c side, m.cells[ref.1 - 1]? = some c ∧ c.sides[ref.2]? = some side ∧
          takes c side = true := by
  obtain ⟨herror, hmem⟩ := tagCellSides_of_total (tag.numbered m.regions.length) htakes 1
  have hcells := map_untagged_tagCellSides (tag.numbered m.regions.length) (takesSide selectors) 1 m.cells
  unfold addBoundary
  simp only [hfrozen, Bool.not_true, Bool.false_eq_true, if_false, hselectors, hopen, herror, outcome]
  exact ⟨_, _, rfl, hcells, fun ref => by rw [mem_appendNew, hmem]⟩

/-- What tagging a boundary with success takes. -/
theorem exists_of_addBoundary (h : (m.addBoundary tag selectors essential).1 = .ok r) :
    m.frozen = true ∧ unknownLocation? selectors = none ∧
      (∃ region opened,
        m.openRegion (tag.numbered m.regions.length) .boundary essential = .ok (region, opened)) ∧
      ∀ c ∈ m.cells, ∀ side ∈ c.sides, ∃ b, takesSide selectors c side = .ok b := by
  unfold addBoundary at h
  split_ifs at h with hfrozen
  split at h
  · cases h
  rename_i hselectors
  dsimp only at h
  split at h
  · cases h
  rename_i region opened hopen
  dsimp only [outcome] at h
  split at h
  · cases h
  rename_i herror
  exact ⟨by simpa using hfrozen, hselectors, ⟨region, opened, hopen⟩, total_of_tagCellSides herror⟩

/-- The cells that satisfy a condition are added to the region of the tag. -/
theorem addSubdomain_of_total (hfrozen : m.frozen = true) {condition : Predicate α}
    (hopen : m.openRegion (tag.numbered m.regions.length) .subdomain false = .ok (region, opened))
    {holds : Cell α → Bool} (hholds : ∀ i c, m.cells[i]? = some c → i + 1 ∉ region.elements →
      condition.holdsAt c.element.nodes.toRows = .ok (holds c)) :
    ∃ elements cells, m.addSubdomain tag condition = (.ok { region with elements := elements },
        { opened with
          cells := cells
          regions := assign (tag.numbered m.regions.length).key { region with elements := elements }
            opened.regions }) ∧
      cells.map Cell.untagged = m.cells.map Cell.untagged ∧ ∀ id, id ∈ elements ↔
        id ∈ region.elements ∨ 1 ≤ id ∧ ∃ c, m.cells[id - 1]? = some c ∧ holds c = true := by
  let takes := newOnly region fun c : Cell α => condition.holdsAt c.element.nodes.toRows
  obtain ⟨herror, hmem⟩ := tagCells_newOnly (tag.numbered m.regions.length) hholds
  have hcells := map_untagged_tagCells (tag.numbered m.regions.length) takes 1 m.cells
  unfold addSubdomain
  simp only [hfrozen, Bool.not_true, Bool.false_eq_true, if_false, hopen]
  refine ⟨region.elements ++ (tagCells (tag.numbered m.regions.length) takes 1 m.cells).tagged, _,
    Prod.ext ?_ rfl, hcells, fun id => ?_⟩
  · exact congrArg (outcome _) herror
  · rw [List.mem_append, hmem]
    by_cases hold : id ∈ region.elements <;> simp [hold]

/-- What tagging a subdomain with success takes. -/
theorem exists_of_addSubdomain {condition : Predicate α}
    (h : (m.addSubdomain tag condition).1 = .ok r) : m.frozen = true ∧ ∃ region opened,
      m.openRegion (tag.numbered m.regions.length) .subdomain false = .ok (region, opened) ∧
      ∀ i c, m.cells[i]? = some c → i + 1 ∉ region.elements →
        ∃ b, condition.holdsAt c.element.nodes.toRows = .ok b := by
  unfold addSubdomain at h
  split_ifs at h with hfrozen
  dsimp only at h
  split at h
  · cases h
  rename_i region opened hopen
  dsimp only [outcome] at h
  split at h
  · cases h
  rename_i herror
  refine ⟨by simpa using hfrozen, region, opened, hopen, fun i c hc hnew => ?_⟩
  obtain ⟨b, hb⟩ := total_of_tagCells herror hc
  rw [Nat.add_comm] at hnew
  exact ⟨b, by simpa [hnew] using hb⟩

/-- A new tag for the sides that the selectors take. -/
theorem addBoundary_eq_ok (hfrozen : m.frozen = true) (htag : tag.IsPlain)
    (hnew : m.regions.lookup tag.key = none) (hselectors : unknownLocation? selectors = none)
    (htakes : ∀ c ∈ m.cells, ∀ side ∈ c.sides, takesSide selectors c side = .ok (takes c side)) :
    ∃ r cells, m.addBoundary tag selectors essential =
        (.ok r, { m with cells := cells, regions := m.regions ++ [(tag.key, r)] }) ∧
      cells.map Cell.untagged = m.cells.map Cell.untagged ∧ r.kind = .boundary ∧
      r.essential = essential ∧ ∀ ref, ref ∈ r.sides ↔
        1 ≤ ref.1 ∧ ∃ c side, m.cells[ref.1 - 1]? = some c ∧ c.sides[ref.2]? = some side ∧
          takes c side = true := by
  have hnumbered : tag.numbered m.regions.length = tag := if_neg htag.defined
  have hopen := (congrArg (m.openRegion · .boundary essential) hnumbered).trans
    (openRegion_of_new .boundary essential htag.usable hnew)
  obtain ⟨sides, cells, hadd, hcells, hmem⟩ :=
    addBoundary_of_total hfrozen hselectors hopen htakes
  refine ⟨⟨tag, .boundary, essential, sides, []⟩, cells, hadd.trans ?_, hcells, rfl, rfl,
    fun ref => by simp [hmem]⟩
  simp only [hnumbered, assign_assign hnew]

/-- Without selectors all exterior sides are taken. -/
theorem takesSide_nil (c : Cell α) (side : CellSide) :
    takesSide [] c side = .ok side.onBoundary := by
  unfold takesSide
  cases side.onBoundary <;> rfl

end Tagging

section Selections

variable {α : Type} {m : Mesh α} {r : Region} {k : ℤ}

/-- The nodes of a boundary are those of its sides. -/
theorem mem_regionNodeIds (hkind : r.kind = .boundary) : k ∈ m.regionNodeIds r ↔
    ∃ ref ∈ r.sides, ∃ c side, m.cells[ref.1 - 1]? = some c ∧ c.sides[ref.2]? = some side ∧
      k ∈ c.sideNodeIds side := by
  rw [regionNodeIds, mem_sortedSet, hkind]
  simp only [List.mem_flatMap]
  refine exists_congr fun ref => and_congr_right fun _ => ?_
  unfold sideNodeIds
  cases hc : m.cells[ref.1 - 1]? with
  | none => simp
  | some c => cases hs : c.sides[ref.2]? <;> simp [hs]

/-- Tags do not change the nodes of sides. -/
theorem exists_side_of_untagged {cells cells' : List (Cell α)}
    (h : cells'.map Cell.untagged = cells.map Cell.untagged) {i s : ℕ} :
    (∃ c side, cells'[i]? = some c ∧ c.sides[s]? = some side ∧ k ∈ c.sideNodeIds side) ↔
      ∃ c side, cells[i]? = some c ∧ c.sides[s]? = some side ∧ k ∈ c.sideNodeIds side := by
  have hone {cells cells' : List (Cell α)} (h : cells'.map outline = cells.map outline) :
      (∃ c side, cells'[i]? = some c ∧ c.sides[s]? = some side ∧ k ∈ c.sideNodeIds side) →
        ∃ c side, cells[i]? = some c ∧ c.sides[s]? = some side ∧ k ∈ c.sideNodeIds side := by
    rintro ⟨c', side', hc', hs', hk⟩
    obtain ⟨c, side, hc, hs, -, hids, -⟩ := exists_side_of_outline h hc' hs'
    exact ⟨c, side, hc, hs, hids ▸ hk⟩
  exact ⟨hone (map_outline_of_untagged h), hone (map_outline_of_untagged h.symm)⟩

theorem getNodeIds_eq_ok (hfrozen : m.frozen = true) {tag : TagId} (htag : tag.IsPlain)
    (hr : m.regions.lookup tag.key = some r) :
    m.getNodeIds (some tag) = .ok (m.regionNodeIds r) := by
  simp [getNodeIds, checkFrozen, hfrozen, region, htag.usable, hr, pure, Except.pure]

end Selections

end Mesh
end WeakForm
