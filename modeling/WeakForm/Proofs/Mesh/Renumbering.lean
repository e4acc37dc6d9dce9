import WeakForm.Proofs.Mesh.Renumbered

/-!
# Tags of renumbered meshes

Two meshes that differ in the numbers of their nodes and in the order of their elements are frozen
and tagged by the same calls. A call takes the same sides and the same cells of both of them, so that
at all times the regions of one mesh are those of the other under new numbers.
-/

namespace WeakForm

section Entries

variable {κ β γ : Type} [BEq κ] {R : β → γ → Prop} {xs : List (κ × β)} {ys : List (κ × γ)}

theorem rel_lookup (h : List.Forall₂ (fun e e' => e'.1 = e.1 ∧ R e.2 e'.2) xs ys) (key : κ) :
    Option.Rel R (xs.lookup key) (ys.lookup key) := by
  induction h with
  | nil => exact .none
  | @cons e e' _ _ hee _ ih =>
    obtain ⟨hkey, hvalue⟩ := hee
    rw [List.lookup_cons, List.lookup_cons, hkey]
    cases key == e.1 with
    | true => exact .some hvalue
    | false => exact ih

theorem forall₂_assign (h : List.Forall₂ (fun e e' => e'.1 = e.1 ∧ R e.2 e'.2) xs ys) (key : κ)
    {x : β} {y : γ} (hxy : R x y) :
    List.Forall₂ (fun e e' => e'.1 = e.1 ∧ R e.2 e'.2) (assign key x xs) (assign key y ys) := by
  induction h with
  | nil => exact .cons ⟨rfl, hxy⟩ .nil
  | @cons e e' _ _ hee hrest ih =>
    obtain ⟨hkey, hvalue⟩ := hee
    obtain ⟨k, old⟩ := e
    obtain ⟨_, old'⟩ := e'
    obtain rfl := hkey
    unfold assign
    split_ifs
    · exact .cons ⟨rfl, hxy⟩ hrest
    · exact .cons ⟨rfl, hvalue⟩ ih

end Entries

/-- The new number of a cell; like nodes, cells are numbered from one. -/
def movedCell (ρ : Equiv.Perm ℕ) (id : ℕ) : ℕ := ρ (id - 1) + 1

namespace Region

/-- The region `r'` has the sides and the cells of `r` under their new numbers. -/
structure Matches (ρ : Equiv.Perm ℕ) (r r' : Region) : Prop where
  kind_eq : r'.kind = r.kind
  essential_eq : r'.essential = r.essential
  mem_sides : ∀ ref', ref' ∈ r'.sides ↔ ∃ ref ∈ r.sides, ref' = (movedCell ρ ref.1, ref.2)
  mem_elements : ∀ id', id' ∈ r'.elements ↔ ∃ id ∈ r.elements, id' = movedCell ρ id

/-- New regions have no members. -/
theorem matches_empty (ρ : Equiv.Perm ℕ) (tag : TagId) (kind : RegionKind) (essential : Bool) :
    Matches ρ ⟨tag, kind, essential, [], []⟩ ⟨tag, kind, essential, [], []⟩ :=
  ⟨rfl, rfl, by simp, by simp⟩

theorem Matches.mark {ρ : Equiv.Perm ℕ} {r r' : Region} (h : Matches ρ r r') (essential : Bool) :
    Matches ρ { r with essential := essential } { r' with essential := essential } :=
  ⟨h.kind_eq, rfl, h.mem_sides, h.mem_elements⟩

end Region

namespace Cell

variable {f : ℤ → ℤ} {c c' : Cell ℝ} {side side' : CellSide}

theorem isCopy_untagged : c'.untagged.IsCopy f c.untagged ↔ c'.IsCopy f c := by
  have hplaces (c : Cell ℝ) : c.untagged.sides.map CellSide.place = c.sides.map CellSide.place := by
    rw [untagged, List.map_map]
    rfl
  constructor
  · rintro ⟨helement, hsides⟩
    exact ⟨helement, by rwa [hplaces, hplaces] at hsides⟩
  · rintro ⟨helement, hsides⟩
    exact ⟨helement, by rwa [hplaces, hplaces]⟩

namespace IsCopy

variable (h : c'.IsCopy f c)
include h

/-- The sides of a copy lie where the sides do. -/
theorem rel_sides (s : ℕ) :
    Option.Rel (fun side side' => side'.place = side.place) c.sides[s]? c'.sides[s]? := by
  have hplaces := congrArg (fun places : List _ => places[s]?) h.sides
  simp only [List.getElem?_map] at hplaces
  generalize c.sides[s]? = side at hplaces ⊢
  generalize c'.sides[s]? = side' at hplaces ⊢
  cases side with
  | none =>
    rw [Option.map_eq_none_iff.mp hplaces]
    exact .none
  | some side =>
    obtain ⟨side', rfl, hplace⟩ := Option.map_eq_some_iff.mp hplaces
    exact .some hplace

theorem exists_side_iff {P P' : CellSide → Prop}
    (hP : ∀ side side', side'.place = side.place → (P' side' ↔ P side)) (s : ℕ) :
    (∃ side', c'.sides[s]? = some side' ∧ P' side') ↔ ∃ side, c.sides[s]? = some side ∧ P side := by
  have hrel := h.rel_sides s
  generalize c.sides[s]? = side at hrel ⊢
  generalize c'.sides[s]? = side' at hrel ⊢
  cases hrel with
  | some hplace => simpa using hP _ _ hplace
  | none => simp

theorem exists_mem_sides (hs' : side' ∈ c'.sides) : ∃ side ∈ c.sides, side'.place = side.place := by
  obtain ⟨side, hs, hplace⟩ := List.mem_map.mp (h.sides ▸ List.mem_map_of_mem hs')
  exact ⟨side, hs, hplace.symm⟩

variable (hplace : side'.place = side.place)
include hplace

theorem selects (w : Selector ℝ) : Mesh.selects c' side' w = Mesh.selects c side w := by
  obtain ⟨hnodes, -, hlocation⟩ : side'.nodes = side.nodes ∧ side'.onBoundary = side.onBoundary ∧
      side'.location = side.location := by simpa [CellSide.place] using hplace
  cases w with
  | location name => rw [Mesh.selects, Mesh.selects, hlocation]
  | predicate p => rw [Mesh.selects, Mesh.selects, sidePoints_copy h.element hnodes]
  | unusable => rfl

/-- Selectors look at where a side lies, which is the same for a copy. -/
theorem takesSide (selectors : List (Selector ℝ)) :
    Mesh.takesSide selectors c' side' = Mesh.takesSide selectors c side := by
  have hany : Mesh.selectsAny c' side' selectors = Mesh.selectsAny c side selectors := by
    induction selectors with
    | nil => rfl
    | cons w selectors ih => rw [Mesh.selectsAny, Mesh.selectsAny, h.selects hplace, ih]
  have hboundary : side'.onBoundary = side.onBoundary := congrArg (fun place => place.2.1) hplace
  rw [Mesh.takesSide, Mesh.takesSide, hboundary, hany]

end IsCopy
end Cell

namespace Mesh

/-- The same tags have been used for both meshes, for regions that match. -/
def RegionsMatch (ρ : Equiv.Perm ℕ) (m m' : Mesh ℝ) : Prop :=
  List.Forall₂ (fun e e' => e'.1 = e.1 ∧ Region.Matches ρ e.2 e'.2) m.regions m'.regions

/-- The mesh `m'` is `m` with other numbers of its nodes and its cells. -/
structure IsCopy (m' : Mesh ℝ) (π ρ : Equiv.Perm ℕ) (m : Mesh ℝ) : Prop where
  isOver : m.IsOver m.nodes m.connectivity m.dofsPerNode
  isOver' : m'.IsOver m'.nodes m'.connectivity m.dofsPerNode
  nodes : Moved (fun x y => y = x) π m.nodes m'.nodes
  cells : Moved (fun c c' => c'.IsCopy (movedNode π) c) ρ m.cells m'.cells
  regions : RegionsMatch ρ m m'

/-- No node is listed twice. -/
theorem nodup_of_getNodeIds {m : Mesh ℝ} {tag : Option TagId} {ids : List ℤ}
    (h : m.getNodeIds tag = .ok ids) : ids.Nodup := by
  obtain ⟨-, -, h⟩ := bind_eq_ok.mp h
  cases tag with
  | none =>
    cases h
    refine List.nodup_range.map fun j k hjk => ?_
    simpa using hjk
  | some t =>
    obtain ⟨r, -, h⟩ := bind_eq_ok.mp h
    cases h
    exact nodup_sortedSet _

namespace IsCopy

variable {π ρ : Equiv.Perm ℕ} {m m' m₁ m₁' : Mesh ℝ}

section Tagging

variable (h : m'.IsCopy π ρ m)
include h

/-- Tagging changes the tags of cells and the regions only. -/
theorem retag (hs : Step m m₁) (hs' : Step m' m₁')
    (hcells : m₁.cells.map Cell.untagged = m.cells.map Cell.untagged)
    (hcells' : m₁'.cells.map Cell.untagged = m'.cells.map Cell.untagged)
    (hregions : RegionsMatch ρ m₁ m₁') :
    m₁'.IsCopy π ρ m₁ := by
  have hover := h.isOver.step hs
  have hover' := h.isOver'.step hs'
  obtain ⟨cells, regions, -, rfl⟩ := hs.exists_of_frozen h.isOver.frozen
  obtain ⟨cells', regions', -, rfl⟩ := hs'.exists_of_frozen h.isOver'.frozen
  refine ⟨hover, hover', h.nodes, ?_, hregions⟩
  have hmoved : Moved (fun c c' => c'.IsCopy (movedNode π) c) ρ (m.cells.map Cell.untagged)
      (m'.cells.map Cell.untagged) :=
    Moved.map_iff.mpr (h.cells.imp fun _ _ _ _ _ hcopy => Cell.isCopy_untagged.mpr hcopy)
  rw [← hcells, ← hcells'] at hmoved
  exact (Moved.map_iff.mp hmoved).imp fun _ _ _ _ _ hcopy => Cell.isCopy_untagged.mp hcopy

/-- The cells that have a property which copies share are the same. -/
theorem exists_cell_iff {P : Cell ℝ → Prop}
    (hP : ∀ c c' : Cell ℝ, c'.IsCopy (movedNode π) c → (P c' ↔ P c)) (id' : ℕ) :
    (1 ≤ id' ∧ ∃ c', m'.cells[id' - 1]? = some c' ∧ P c') ↔
      ∃ id, (1 ≤ id ∧ ∃ c, m.cells[id - 1]? = some c ∧ P c) ∧ id' = movedCell ρ id := by
  constructor
  · rintro ⟨hone, c', hc', hp⟩
    obtain ⟨i, c, hi, hc, hcopy⟩ := h.cells.exists_left hc'
    refine ⟨i + 1, ⟨by omega, c, hc, (hP c c' hcopy).mp hp⟩, ?_⟩
    rw [movedCell, Nat.add_sub_cancel, hi, Nat.sub_add_cancel hone]
  · rintro ⟨id, ⟨-, c, hc, hp⟩, rfl⟩
    obtain ⟨c', hc', hcopy⟩ := h.cells.exists_right hc
    exact ⟨by simp [movedCell], c', hc', (hP c c' hcopy).mpr hp⟩

/-- The sides that have a property which copies share are the same. -/
theorem exists_side_iff {P : Cell ℝ → CellSide → Prop}
    (hP : ∀ (c c' : Cell ℝ) side side', c'.IsCopy (movedNode π) c → side'.place = side.place →
      (P c' side' ↔ P c side)) (ref' : SideRef) :
    (1 ≤ ref'.1 ∧ ∃ c' side', m'.cells[ref'.1 - 1]? = some c' ∧ c'.sides[ref'.2]? = some side' ∧
      P c' side') ↔ ∃ ref : SideRef, (1 ≤ ref.1 ∧ ∃ c side, m.cells[ref.1 - 1]? = some c ∧
        c.sides[ref.2]? = some side ∧ P c side) ∧ ref' = (movedCell ρ ref.1, ref.2) := by
  have hcell := h.exists_cell_iff (P := fun c => ∃ side, c.sides[ref'.2]? = some side ∧ P c side)
    (fun c c' hcopy => hcopy.exists_side_iff (hP c c' · · hcopy) ref'.2) ref'.1
  simp only [exists_and_left, hcell]
  constructor
  · rintro ⟨id, hid, hmoved⟩
    exact ⟨(id, ref'.2), hid, Prod.ext hmoved rfl⟩
  · rintro ⟨ref, href, rfl⟩
    exact ⟨ref.1, href, rfl⟩

/-- A tag that can be opened in one mesh can be opened in the other. -/
theorem openRegion {tag : TagId} {kind : RegionKind} {essential : Bool} {region : Region}
    {opened : Mesh ℝ} (hopen : m.openRegion tag kind essential = .ok (region, opened)) :
    ∃ region' opened', m'.openRegion tag kind essential = .ok (region', opened') ∧
      Region.Matches ρ region region' ∧ RegionsMatch ρ opened opened' := by
  unfold Mesh.openRegion at hopen ⊢
  split_ifs at hopen ⊢
  dsimp only at hopen ⊢
  have hold : Region.Matches ρ ((m.regions.lookup tag.key).getD ⟨tag, kind, essential, [], []⟩)
      ((m'.regions.lookup tag.key).getD ⟨tag, kind, essential, [], []⟩) := by
    have hrel := rel_lookup h.regions tag.key
    generalize m.regions.lookup tag.key = r at hrel ⊢
    generalize m'.regions.lookup tag.key = r' at hrel ⊢
    cases hrel with
    | some hmatch => exact hmatch
    | none => exact Region.matches_empty ρ tag kind essential
  split_ifs at hopen with hkind
  cases hopen
  rw [if_pos (hold.kind_eq.trans hkind)]
  exact ⟨_, _, rfl, hold.mark essential, forall₂_assign h.regions tag.key (hold.mark essential)⟩

theorem numbered_eq (tag : TagId) : tag.numbered m'.regions.length = tag.numbered m.regions.length := by
  rw [List.Forall₂.length_eq h.regions]

/-- The same sides of both meshes are tagged. -/
theorem addBoundary {tag : TagId} {selectors : List (Selector ℝ)} {essential : Bool} {r : Region}
    (hok : (m.addBoundary tag selectors essential).1 = .ok r) :
    (m'.addBoundary tag selectors essential).2.IsCopy π ρ (m.addBoundary tag selectors essential).2 := by
  obtain ⟨-, hselectors, ⟨region, opened, hopen⟩, htotal⟩ := exists_of_addBoundary hok
  obtain ⟨region', opened', hopen', hregion, hregions⟩ := h.openRegion hopen
  rw [← h.numbered_eq] at hopen'
  -- every side is decided on, so that what is tagged is a matter of a Boolean for each of them
  let takes (c : Cell ℝ) (side : CellSide) := (takesSide selectors c side).toOption.getD false
  have htakes : ∀ c ∈ m.cells, ∀ side ∈ c.sides, takesSide selectors c side = .ok (takes c side) := by
    intro c hc side hs
    obtain ⟨b, hb⟩ := htotal c hc side hs
    simp only [takes, hb]
    rfl
  have hsame (c c' : Cell ℝ) (side side' : CellSide) (hcopy : c'.IsCopy (movedNode π) c)
      (hplace : side'.place = side.place) : takes c' side' = takes c side :=
    congrArg (·.toOption.getD false) (hcopy.takesSide hplace selectors)
  have htakes' : ∀ c' ∈ m'.cells, ∀ side' ∈ c'.sides,
      takesSide selectors c' side' = .ok (takes c' side') := by
    intro c' hc' side' hs'
    obtain ⟨c, hc, hcopy⟩ := h.cells.exists_mem_left hc'
    obtain ⟨side, hs, hplace⟩ := hcopy.exists_mem_sides hs'
    rw [hcopy.takesSide hplace, htakes c hc side hs, hsame c c' side side' hcopy hplace]
  obtain ⟨sides, cells, hadd, hcells, hmem⟩ :=
    addBoundary_of_total h.isOver.frozen hselectors hopen htakes
  obtain ⟨sides', cells', hadd', hcells', hmem'⟩ :=
    addBoundary_of_total h.isOver'.frozen hselectors hopen' htakes'
  have htagged : Region.Matches ρ { region with sides := sides } { region' with sides := sides' } := by
    refine ⟨hregion.kind_eq, hregion.essential_eq, fun ref' => ?_, hregion.mem_elements⟩
    change _ ↔ ∃ ref ∈ sides, _
    rw [hmem', hregion.mem_sides, h.exists_side_iff fun c c' side side' hcopy hplace =>
      iff_of_eq (congrArg (· = true) (hsame c c' side side' hcopy hplace))]
    constructor
    · rintro (⟨ref, href, rfl⟩ | ⟨ref, href, rfl⟩)
      · exact ⟨ref, (hmem ref).mpr (.inl href), rfl⟩
      · exact ⟨ref, (hmem ref).mpr (.inr href), rfl⟩
    · rintro ⟨ref, href, rfl⟩
      exact ((hmem ref).mp href).imp (⟨ref, ·, rfl⟩) (⟨ref, ·, rfl⟩)
  refine h.retag (.addBoundary m tag selectors essential) (.addBoundary m' tag selectors essential)
    ?_ ?_ ?_
  · rw [hadd]
    exact hcells
  · rw [hadd']
    exact hcells'
  · rw [hadd, hadd', h.numbered_eq]
    exact forall₂_assign hregions _ htagged

/-- The same cells of both meshes are tagged. -/
theorem addSubdomain {tag : TagId} {condition : Predicate ℝ} {r : Region}
    (hok : (m.addSubdomain tag condition).1 = .ok r) :
    (m'.addSubdomain tag condition).2.IsCopy π ρ (m.addSubdomain tag condition).2 := by
  obtain ⟨-, region, opened, hopen, htotal⟩ := exists_of_addSubdomain hok
  obtain ⟨region', opened', hopen', hregion, hregions⟩ := h.openRegion hopen
  rw [← h.numbered_eq] at hopen'
  let holds (c : Cell ℝ) := (condition.holdsAt c.element.nodes.toRows).toOption.getD false
  have hholds : ∀ i c, m.cells[i]? = some c → i + 1 ∉ region.elements →
      condition.holdsAt c.element.nodes.toRows = .ok (holds c) := by
    intro i c hc hnew
    obtain ⟨b, hb⟩ := htotal i c hc hnew
    simp only [holds, hb]
    rfl
  have hholds' : ∀ i c', m'.cells[i]? = some c' → i + 1 ∉ region'.elements →
      condition.holdsAt c'.element.nodes.toRows = .ok (holds c') := by
    intro i' c' hc' hnew
    obtain ⟨i, c, rfl, hc, hcopy⟩ := h.cells.exists_left hc'
    have hold : i + 1 ∉ region.elements := fun hmem =>
      hnew ((hregion.mem_elements _).mpr ⟨i + 1, hmem, rfl⟩)
    simp only [holds, hcopy.element.nodes_eq]
    exact hholds i c hc hold
  have hsame : ∀ c c' : Cell ℝ, c'.IsCopy (movedNode π) c → (holds c' = true ↔ holds c = true) :=
    fun c c' hcopy => by simp only [holds, hcopy.element.nodes_eq]
  obtain ⟨elements, cells, hadd, hcells, hmem⟩ := addSubdomain_of_total h.isOver.frozen hopen hholds
  obtain ⟨elements', cells', hadd', hcells', hmem'⟩ :=
    addSubdomain_of_total h.isOver'.frozen hopen' hholds'
  have htagged : Region.Matches ρ { region with elements := elements }
      { region' with elements := elements' } := by
    refine ⟨hregion.kind_eq, hregion.essential_eq, hregion.mem_sides, fun id' => ?_⟩
    change _ ↔ ∃ id ∈ elements, _
    rw [hmem', hregion.mem_elements, h.exists_cell_iff hsame]
    constructor
    · rintro (⟨id, hid, rfl⟩ | ⟨id, hid, rfl⟩)
      · exact ⟨id, (hmem id).mpr (.inl hid), rfl⟩
      · exact ⟨id, (hmem id).mpr (.inr hid), rfl⟩
    · rintro ⟨id, hid, rfl⟩
      exact ((hmem id).mp hid).imp (⟨id, ·, rfl⟩) (⟨id, ·, rfl⟩)
  refine h.retag (.addSubdomain m tag condition) (.addSubdomain m' tag condition) ?_ ?_ ?_
  · rw [hadd]
    exact hcells
  · rw [hadd']
    exact hcells'
  · rw [hadd, hadd', h.numbered_eq]
    exact forall₂_assign hregions _ htagged

end Tagging

section Selections

variable (h : m'.IsCopy π ρ m)
include h

theorem dofsPerNode_eq : m'.dofsPerNode = m.dofsPerNode := h.isOver'.dofsPerNode_eq

theorem dofs_eq : m'.dofs = m.dofs := by
  rw [h.isOver'.dofs_eq, h.isOver.dofs_eq, h.nodes.length_eq]

/-- A tag has matching regions in both meshes. -/
theorem exists_lookup {key : TagKey} {r : Region} (hr : m.regions.lookup key = some r) :
    ∃ r', m'.regions.lookup key = some r' ∧ Region.Matches ρ r r' := by
  have hrel := rel_lookup h.regions key
  rw [hr] at hrel
  generalize m'.regions.lookup key = r' at hrel ⊢
  cases hrel with
  | some hmatch => exact ⟨_, rfl, hmatch⟩

theorem exists_boundary {tag : TagId} {r : Region} (hr : m.boundary tag = .ok r) :
    ∃ r', m'.boundary tag = .ok r' ∧ Region.Matches ρ r r' := by
  unfold Mesh.boundary at hr ⊢
  split_ifs at hr ⊢
  split at hr
  · rename_i found hfound
    cases hr
    obtain ⟨hlookup, hkind⟩ := Option.filter_eq_some_iff.mp hfound
    obtain ⟨r', hr', hmatch⟩ := h.exists_lookup hlookup
    have hfound' : (m'.regions.lookup tag.key).filter (fun r => r.kind == .boundary) = some r' := by
      rw [hr', Option.filter_some, hmatch.kind_eq, if_pos hkind]
    rw [hfound']
    exact ⟨r', rfl, hmatch⟩
  · cases hr

theorem cellNodeIds_eq (id : ℕ) :
    m'.cellNodeIds (movedCell ρ id) = (m.cellNodeIds id).map (movedNode π) := by
  have hrel := h.cells (id - 1)
  unfold Mesh.cellNodeIds
  rw [movedCell, Nat.add_sub_cancel]
  generalize m.cells[id - 1]? = c at hrel ⊢
  generalize m'.cells[ρ (id - 1)]? = c' at hrel ⊢
  cases hrel with
  | some hcopy => exact hcopy.element.nodeIds_eq
  | none => rfl

theorem sideNodeIds_eq (ref : SideRef) :
    m'.sideNodeIds (movedCell ρ ref.1, ref.2) = (m.sideNodeIds ref).map (movedNode π) := by
  unfold Mesh.sideNodeIds
  rw [movedCell, Nat.add_sub_cancel]
  have hrel := h.cells (ref.1 - 1)
  generalize hc : m.cells[ref.1 - 1]? = c at hrel ⊢
  generalize m'.cells[ρ (ref.1 - 1)]? = c' at hrel ⊢
  cases hrel with
  | none => rfl
  | @some c c' hcopy =>
    have hrel := hcopy.rel_sides ref.2
    dsimp only
    generalize hs : c.sides[ref.2]? = side at hrel ⊢
    generalize c'.sides[ref.2]? = side' at hrel ⊢
    cases hrel with
    | none => rfl
    | @some side side' hplace =>
      refine Cell.sideNodeIds_copy hcopy.element (congrArg Prod.fst hplace) ?_
      rw [← h.isOver.reachable.wellFormed.sides c (List.mem_of_getElem? hc)]
      exact List.mem_map_of_mem (List.mem_of_getElem? hs)

theorem mem_regionNodeIds_iff {r r' : Region} (hr : Region.Matches ρ r r') (k' : ℤ) :
    k' ∈ m'.regionNodeIds r' ↔ k' ∈ (m.regionNodeIds r).map (movedNode π) := by
  rw [Mesh.regionNodeIds, mem_sortedSet, hr.kind_eq, List.mem_map, Mesh.regionNodeIds]
  simp only [mem_sortedSet]
  cases r.kind with
  | boundary =>
    simp only [List.mem_flatMap, hr.mem_sides]
    constructor
    · rintro ⟨_, ⟨ref, href, rfl⟩, hk⟩
      rw [h.sideNodeIds_eq] at hk
      obtain ⟨k, hside, rfl⟩ := List.mem_map.mp hk
      exact ⟨k, ⟨ref, href, hside⟩, rfl⟩
    · rintro ⟨k, ⟨ref, href, hk⟩, rfl⟩
      exact ⟨_, ⟨ref, href, rfl⟩, h.sideNodeIds_eq ref ▸ List.mem_map_of_mem hk⟩
  | subdomain =>
    simp only [List.mem_flatMap, hr.mem_elements]
    constructor
    · rintro ⟨_, ⟨id, hid, rfl⟩, hk⟩
      rw [h.cellNodeIds_eq] at hk
      obtain ⟨k, hcell, rfl⟩ := List.mem_map.mp hk
      exact ⟨k, ⟨id, hid, hcell⟩, rfl⟩
    · rintro ⟨k, ⟨id, hid, hk⟩, rfl⟩
      exact ⟨_, ⟨id, hid, rfl⟩, h.cellNodeIds_eq id ▸ List.mem_map_of_mem hk⟩

/-- A tag has the same nodes under their new numbers. -/
theorem perm_regionNodeIds {r r' : Region} (hr : Region.Matches ρ r r') :
    (m'.regionNodeIds r').Perm ((m.regionNodeIds r).map (movedNode π)) := by
  have hone : ∀ k ∈ m.regionNodeIds r, 1 ≤ k := fun k hk =>
    (h.isOver.reachable.wellFormed.range_of_mem_regionNodeIds h.isOver.built hk).1
  refine (List.perm_ext_iff_of_nodup (nodup_sortedSet _) ?_).mpr (h.mem_regionNodeIds_iff hr)
  refine List.Nodup.map_on (fun k hk l hl => ?_) (nodup_sortedSet _)
  exact (movedNode_inj (hone k hk) (hone l hl)).mp

theorem perm_allNodeIds : m'.allNodeIds.Perm (m.allNodeIds.map (movedNode π)) := by
  have hmoved : m.allNodeIds.map (movedNode π) =
      ((List.range m.nodes.length).map π).map fun k : ℕ => (k : ℤ) + 1 := by
    simp [Mesh.allNodeIds, movedNode, Function.comp_def]
  rw [hmoved]
  exact (h.nodes.perm_range.map _).symm

/-- The nodes of a tag, or all of them, are the same under their new numbers. -/
theorem getNodeIds {tag : Option TagId} {ids : List ℤ} (hids : m.getNodeIds tag = .ok ids) :
    ∃ ids', m'.getNodeIds tag = .ok ids' ∧ ids'.Perm (ids.map (movedNode π)) := by
  unfold Mesh.getNodeIds checkFrozen at hids ⊢
  rw [if_pos h.isOver.frozen, ok_bind] at hids
  rw [if_pos h.isOver'.frozen, ok_bind]
  cases tag with
  | none =>
    cases hids
    exact ⟨_, rfl, h.perm_allNodeIds⟩
  | some t =>
    obtain ⟨r, hr, hids⟩ := bind_eq_ok.mp hids
    cases hids
    obtain ⟨r', hr', hmatch⟩ : ∃ r', m'.region t = .ok r' ∧ Region.Matches ρ r r' := by
      unfold Mesh.region at hr ⊢
      split_ifs at hr ⊢
      split at hr
      · rename_i found hfound
        cases hr
        obtain ⟨r', hr', hmatch⟩ := h.exists_lookup hfound
        rw [hr']
        exact ⟨r', rfl, hmatch⟩
      · cases hr
    dsimp only
    rw [hr', ok_bind]
    exact ⟨_, rfl, h.perm_regionNodeIds hmatch⟩

/-- The same nodes are essential. -/
theorem forall₂_essentialNodes : List.Forall₂ (fun ids ids' => ids'.Perm (ids.map (movedNode π)))
    m.essentialNodes m'.essentialNodes := by
  unfold Mesh.essentialNodes
  rw [List.forall₂_map_left_iff, List.forall₂_map_right_iff]
  have hessential := List.rel_filter (p := fun e => e.2.essential) (q := fun e => e.2.essential)
    (fun _ _ he => iff_of_eq (congrArg (· = true) he.2.essential_eq.symm)) h.regions
  refine List.Forall₂.imp (fun e e' he => ?_) hessential
  obtain ⟨hkey, hmatch⟩ := he
  rw [hkey]
  split_ifs
  · exact h.perm_allNodeIds
  · exact h.perm_regionNodeIds hmatch

end Selections

end IsCopy

section Runs

variable {π ρ : Equiv.Perm ℕ} {m m' : Mesh ℝ}

/-- The mesh `m'` has the nodes and the elements of `m` under other numbers, and both were frozen and
then tagged by the same calls. -/
inductive Renumbering (π ρ : Equiv.Perm ℕ) : Mesh ℝ → Mesh ℝ → Prop
  | freeze {m m' : Mesh ℝ} (hm : m.Reachable) (hm' : m'.Reachable) (hopen : m'.frozen = false)
      (h : m.Permutes π ρ m') (hok : m.freeze.1 = .ok ()) : Renumbering π ρ m.freeze.2 m'.freeze.2
  | addBoundary {m m' : Mesh ℝ} (h : Renumbering π ρ m m') (tag : TagId)
      (selectors : List (Selector ℝ)) (essential : Bool) {r : Region}
      (hok : (m.addBoundary tag selectors essential).1 = .ok r) :
      Renumbering π ρ (m.addBoundary tag selectors essential).2
        (m'.addBoundary tag selectors essential).2
  | addSubdomain {m m' : Mesh ℝ} (h : Renumbering π ρ m m') (tag : TagId) (condition : Predicate ℝ)
      {r : Region} (hok : (m.addSubdomain tag condition).1 = .ok r) :
      Renumbering π ρ (m.addSubdomain tag condition).2 (m'.addSubdomain tag condition).2

/-- However the meshes are tagged, one stays a copy of the other. -/
theorem Renumbering.isCopy (h : Renumbering π ρ m m') : m'.IsCopy π ρ m := by
  induction h with
  | @freeze m m' hm hm' hopen h hok =>
    obtain ⟨n, hover, hover', hregions, hregions', hcells⟩ := h.freeze hm hm' hopen hok
    refine ⟨?_, ?_, ?_, hcells, ?_⟩
    · rwa [hover.nodes_eq, hover.connectivity_eq, hover.dofsPerNode_eq]
    · rwa [hover'.nodes_eq, hover'.connectivity_eq, hover.dofsPerNode_eq]
    · rw [hover.nodes_eq, hover'.nodes_eq]
      exact h.moved_nodes
    · rw [RegionsMatch, hregions, hregions']
      exact .nil
  | addBoundary h tag selectors essential hok ih => exact ih.addBoundary hok
  | addSubdomain h tag condition hok ih => exact ih.addSubdomain hok

end Runs

end Mesh
end WeakForm
