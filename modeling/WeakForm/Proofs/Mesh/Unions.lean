import WeakForm.Proofs.Mesh.Masks

/-!
# Unions

Tagging adds to a tag and takes nothing away. However often a boundary is tagged, in the end it has the
sides that it had before and all that match a selector of one of the calls, and a subdomain has the
cells all of whose nodes satisfy one of the conditions. Neither the order of the calls nor the way in
which selectors are distributed over them matters, only the last call says whether the boundary is
essential.
-/

namespace WeakForm

/-- A tag that is listed is not added. -/
theorem TagId.adjoin_of_mem {tag : TagId} {tags : List TagId} (h : tag.key ∈ tags.map TagId.key) :
    tag.adjoin tags = tags := by
  obtain ⟨t, ht, hkey⟩ := List.mem_map.mp h
  exact if_pos (List.any_eq_true.mpr ⟨t, ht, by simpa using hkey⟩)

theorem Location.ofName?_eq_some_iff {s : String} {l : Location} :
    Location.ofName? s = some l ↔ l.name = Text.lowercase s := by
  constructor
  · intro h
    unfold Location.ofName? at h
    simpa using List.find?_some h
  · intro h
    unfold Location.ofName?
    rw [← h]
    cases l <;> rfl

/-- A condition that is decided at all points of a list holds there if it does at each of them. -/
theorem Predicate.holdsAt_eq_ok {α : Type} [Scalar α] {p : Predicate α} {points : List (List α)}
    (h : ∀ point ∈ points, ∃ b, p.eval point = .ok b) :
    ∃ b, p.holdsAt points = .ok b ∧ (b = true ↔ ∀ point ∈ points, p.eval point = .ok true) := by
  induction points with
  | nil => exact ⟨true, rfl, by simp⟩
  | cons point points ih =>
    obtain ⟨⟨b, hb⟩, h⟩ := List.forall_mem_cons.mp h
    cases b with
    | false => exact ⟨false, by rw [holdsAt, hb], by simp [hb]⟩
    | true =>
      obtain ⟨b, hrest, hiff⟩ := ih h
      exact ⟨b, by rw [holdsAt, hb, hrest], by simp [hb, hiff]⟩

section Selectors

variable {α : Type} [Scalar α]

/-- A side lies on the face that the selector names, in any letter case, or all its nodes satisfy the
condition. -/
def Selector.Matches (c : Cell α) (side : CellSide) : Selector α → Prop
  | .location name => ∃ l, side.location = some l ∧ l.name = Text.lowercase name
  | .predicate p => ∀ point ∈ c.sidePoints side, p.eval point = .ok true
  | .unusable => False

/-- A selector names a face, or its condition is decided at the nodes of all sides of the mesh. -/
def Selector.IsTotal (m : Mesh α) : Selector α → Prop
  | .location name => ∃ l : Location, l.name = Text.lowercase name
  | .predicate p => ∀ c ∈ m.cells, ∀ side ∈ c.sides, ∀ point ∈ c.sidePoints side,
      ∃ b, p.eval point = .ok b
  | .unusable => False

namespace Mesh

variable {m : Mesh α} {c : Cell α} {side : CellSide} {w : Selector α} {selectors : List (Selector α)}

theorem selects_eq_ok (hw : w.IsTotal m) (hc : c ∈ m.cells) (hside : side ∈ c.sides) :
    ∃ b, selects c side w = .ok b ∧ (b = true ↔ w.Matches c side) := by
  cases w with
  | location name =>
    refine ⟨_, rfl, ?_⟩
    cases hl : side.location with
    | none => simp [Selector.Matches, hl]
    | some l => simp [Selector.Matches, hl, Location.ofName?_eq_some_iff]
  | predicate p => exact Predicate.holdsAt_eq_ok (hw c hc side hside)
  | unusable => exact hw.elim

theorem selectsAny_eq_ok (hselectors : ∀ w ∈ selectors, w.IsTotal m) (hc : c ∈ m.cells)
    (hside : side ∈ c.sides) :
    ∃ b, selectsAny c side selectors = .ok b ∧ (b = true ↔ ∃ w ∈ selectors, w.Matches c side) := by
  induction selectors with
  | nil => exact ⟨false, rfl, by simp⟩
  | cons w selectors ih =>
    obtain ⟨hw, hselectors⟩ := List.forall_mem_cons.mp hselectors
    obtain ⟨b, hb, hiff⟩ := selects_eq_ok hw hc hside
    cases b with
    | true => exact ⟨true, by rw [selectsAny, hb], by simp [← hiff]⟩
    | false =>
      obtain ⟨b, hrest, hrestiff⟩ := ih hselectors
      exact ⟨b, by rw [selectsAny, hb, hrest], by simp [← hiff, hrestiff]⟩

/-- A call takes an exterior side that matches one of its selectors; without selectors it takes all
exterior sides. -/
def Takes (selectors : List (Selector α)) (c : Cell α) (side : CellSide) : Prop :=
  side.onBoundary = true ∧ (selectors = [] ∨ ∃ w ∈ selectors, w.Matches c side)

theorem takesSide_eq_ok (hselectors : ∀ w ∈ selectors, w.IsTotal m) (hc : c ∈ m.cells)
    (hside : side ∈ c.sides) :
    ∃ b, takesSide selectors c side = .ok b ∧ (b = true ↔ Takes selectors c side) := by
  obtain ⟨b, hb, hiff⟩ := selectsAny_eq_ok hselectors hc hside
  unfold takesSide Takes
  by_cases hboundary : side.onBoundary = true
  · cases selectors with
    | nil => exact ⟨true, by simp [hboundary], by simp [hboundary]⟩
    | cons w selectors => exact ⟨b, by simp [hboundary, hb], by simp [hboundary, hiff]⟩
  · exact ⟨false, by simp [hboundary], by simp [hboundary]⟩

/-- A side of the mesh that a call takes. -/
def Picks (m : Mesh α) (selectors : List (Selector α)) (ref : SideRef) : Prop :=
  ∃ i c s side, ref = (i + 1, s) ∧ m.cells[i]? = some c ∧ c.sides[s]? = some side ∧
    Takes selectors c side

end Mesh

end Selectors

namespace Mesh

variable {α : Type}

/-- A tag that may be given to a region of a kind: it is a number or a name that no region of the other
kind has. -/
structure Admits (m : Mesh α) (tag : TagId) (kind : RegionKind) : Prop where
  frozen : m.frozen = true
  usable : tag.key ≠ .unusable
  defined : tag.key ≠ .undefined none
  kind : ∀ r, m.regions.lookup tag.key = some r → r.kind = kind

/-- A call leaves the tag open for the next one. -/
theorem Admits.retagged {m m' : Mesh α} {tag : TagId} {kind : RegionKind} {region : Region}
    (h : m.Admits tag kind) (hm' : m.Retagged m') (hregion : m'.regions.lookup tag.key = some region)
    (hkind : region.kind = kind) : m'.Admits tag kind := by
  refine ⟨hm'.frozen_eq.trans h.frozen, h.usable, h.defined, fun r hr => ?_⟩
  obtain rfl := Option.some.inj (hregion.symm.trans hr)
  exact hkind

section Untagged

variable {m m' : Mesh α}

/-- Tags do not change which nodes sides and cells have. -/
theorem sideNodeIds_of_untagged (h : m'.cells.map Cell.untagged = m.cells.map Cell.untagged)
    (ref : SideRef) : m'.sideNodeIds ref = m.sideNodeIds ref := by
  have huntagged (m : Mesh α) : m.sideNodeIds ref =
      ((m.cells.map Cell.untagged)[ref.1 - 1]?.bind fun c => c.sides[ref.2]?.map c.sideNodeIds).getD [] := by
    rw [sideNodeIds, List.getElem?_map]
    cases m.cells[ref.1 - 1]? with
    | none => rfl
    | some c =>
      simp only [Option.map_some, Option.bind_some, Cell.untagged, List.getElem?_map]
      cases c.sides[ref.2]? <;> rfl
  rw [huntagged, huntagged, h]

theorem cellNodeIds_of_untagged (h : m'.cells.map Cell.untagged = m.cells.map Cell.untagged) (id : ℕ) :
    m'.cellNodeIds id = m.cellNodeIds id := by
  have hids (m : Mesh α) :
      m.cellNodeIds id = ((m.cells.map Cell.element)[id - 1]?.map Element.nodeIds).getD [] := by
    rw [cellNodeIds, List.getElem?_map]
    cases m.cells[id - 1]? <;> rfl
  rw [hids, hids, Cell.map_element_of_untagged h]

/-- A side of retagged cells is a side of the cells but for its tags. -/
theorem exists_side_of_retagged (h : m'.cells.map Cell.untagged = m.cells.map Cell.untagged) {i s : ℕ}
    {c' : Cell α} {side' : CellSide} (hc' : m'.cells[i]? = some c') (hs' : c'.sides[s]? = some side') :
    ∃ c side, m.cells[i]? = some c ∧ c.sides[s]? = some side ∧ c'.element = c.element ∧
      side'.untagged = side.untagged := by
  obtain ⟨c, hc, hcell⟩ := Cell.exists_of_untagged h.symm hc'
  have hside := congrArg (fun c : Cell α => c.sides[s]?) hcell
  simp only [Cell.untagged, List.getElem?_map, hs', Option.map_some] at hside
  obtain ⟨side, hs, hside⟩ := Option.map_eq_some_iff.mp hside
  exact ⟨c, side, hc, hs, (congrArg Cell.element hcell).symm, hside.symm⟩

variable [Scalar α] {w : Selector α} {selectors : List (Selector α)} {c c' : Cell α}
  {side side' : CellSide}

theorem sidePoints_congr (helement : c'.element = c.element) (hside : side'.untagged = side.untagged) :
    c'.sidePoints side' = c.sidePoints side := by
  have hnodes : side'.nodes = side.nodes :=
    (congrArg CellSide.nodes hside :)
  rw [Cell.sidePoints, Cell.sidePoints, helement, hnodes]

theorem takes_congr (helement : c'.element = c.element) (hside : side'.untagged = side.untagged) :
    Takes selectors c' side' ↔ Takes selectors c side := by
  have hboundary : side'.onBoundary = side.onBoundary :=
    (congrArg CellSide.onBoundary hside :)
  have hlocation : side'.location = side.location :=
    (congrArg CellSide.location hside :)
  have hmatches (w : Selector α) : w.Matches c' side' ↔ w.Matches c side := by
    cases w <;> simp only [Selector.Matches, hlocation, sidePoints_congr helement hside]
  simp only [Takes, hboundary, hmatches]

theorem isTotal_of_untagged (h : m'.cells.map Cell.untagged = m.cells.map Cell.untagged)
    (hw : w.IsTotal m) : w.IsTotal m' := by
  cases w with
  | location name => exact hw
  | predicate p =>
    intro c' hc' side' hside'
    obtain ⟨i, hi⟩ := List.mem_iff_getElem?.mp hc'
    obtain ⟨s, hs⟩ := List.mem_iff_getElem?.mp hside'
    obtain ⟨c, side, hc, hs, helement, hside⟩ := exists_side_of_retagged h hi hs
    rw [sidePoints_congr helement hside]
    exact hw c (List.mem_of_getElem? hc) side (List.mem_of_getElem? hs)
  | unusable => exact hw

/-- Which sides a call takes does not depend on the tags. -/
theorem picks_iff_of_untagged (h : m'.cells.map Cell.untagged = m.cells.map Cell.untagged)
    (ref : SideRef) : m'.Picks selectors ref ↔ m.Picks selectors ref := by
  have hone {m m' : Mesh α} (h : m'.cells.map Cell.untagged = m.cells.map Cell.untagged)
      (hpicks : m'.Picks selectors ref) : m.Picks selectors ref := by
    obtain ⟨i, c', s, side', rfl, hc', hs', htakes⟩ := hpicks
    obtain ⟨c, side, hc, hs, helement, hside⟩ := exists_side_of_retagged h hc' hs'
    exact ⟨i, c, s, side, rfl, hc, hs, (takes_congr helement hside).mp htakes⟩
  exact ⟨hone h, hone h.symm⟩

end Untagged

theorem appendNew_of_subset {β : Type} [BEq β] [LawfulBEq β] {old new : List β} (h : new ⊆ old) :
    appendNew old new = old := by
  unfold appendNew
  induction new with
  | nil => rfl
  | cons b new ih =>
    obtain ⟨hb, hnew⟩ := List.cons_subset.mp h
    rw [List.foldl_cons, adjoin, if_pos (by simpa using hb)]
    exact ih hnew

/-- A cell whose taken sides have the tag already is not changed. -/
theorem markCell_eq_self {tag : TagId} {taken : List ℕ} {c : Cell α}
    (hsides : ∀ s side, s ∈ taken → c.sides[s]? = some side → tag.key ∈ side.boundaryIds.map TagId.key)
    (hcell : taken ≠ [] → tag.key ∈ c.boundaryIds.map TagId.key) : markCell tag taken c = c := by
  have hmarked : (c.sides.mapIdx fun s side => if s ∈ taken then markSide tag side else side) = c.sides := by
    refine List.ext_getElem (by simp) fun s _ hs => ?_
    rw [List.getElem_mapIdx]
    split_ifs with htaken
    · rw [markSide, TagId.adjoin_of_mem (hsides s _ htaken (List.getElem?_eq_getElem hs))]
    · rfl
  have hids : (if taken.isEmpty then c.boundaryIds else tag.adjoin c.boundaryIds) = c.boundaryIds := by
    split_ifs with hempty
    · rfl
    · exact TagId.adjoin_of_mem (hcell (by simpa using hempty))
  rw [markCell, hmarked, hids]

section Boundaries

variable [Scalar α] {m m' : Mesh α} {tag : TagId} {selectors : List (Selector α)} {region : Region}
  {tagged : List SideRef}

/-- A call whose selectors are all decided succeeds and tags the sides that it takes. -/
theorem Admits.addBoundary (h : m.Admits tag .boundary) (hselectors : ∀ w ∈ selectors, w.IsTotal m)
    (essential : Bool) : ∃ region tagged,
      (m.addBoundary tag selectors essential).1 =
        .ok { region with sides := appendNew region.sides tagged } ∧
      SidesTagged m (m.addBoundary tag selectors essential).2 tag region tagged ∧
      region.essential = essential ∧ ∀ ref, ref ∈ tagged ↔ m.Picks selectors ref := by
  have hnumbered : tag.numbered m.regions.length = tag := if_neg h.defined
  have hknown : unknownLocation? selectors = none := by
    refine unknownLocation?_eq_none.mpr fun name hname => ?_
    obtain ⟨l, hl⟩ := hselectors _ hname
    rw [Location.ofName?_eq_some_iff.mpr hl]
    rfl
  obtain ⟨region, opened, hopen⟩ := exists_openRegion h.usable h.kind essential
  classical
  have htakes : ∀ c ∈ m.cells, ∀ side ∈ c.sides,
      takesSide selectors c side = .ok (decide (Takes selectors c side)) := by
    intro c hc side hside
    obtain ⟨b, hb, hiff⟩ := takesSide_eq_ok hselectors hc hside
    have hdecide : b = decide (Takes selectors c side) := by rw [Bool.eq_iff_iff, hiff, decide_eq_true_eq]
    rw [hb, hdecide]
  obtain ⟨herror, hmem⟩ := tagCellSides_of_total tag htakes 1
  have htagged := sidesTagged_of_openRegion hopen fun (c : Cell α) side =>
    if selectors.isEmpty then .ok true else selectsAny c side selectors
  rw [← takesSide_eq_exteriorOnly] at htagged
  refine ⟨region, (tagCellSides tag (takesSide selectors) 1 m.cells).tagged, ?_, ?_,
    (openRegion_eq_ok hopen).2.1, ?_⟩
  · unfold Mesh.addBoundary
    simp only [h.frozen, Bool.not_true, Bool.false_eq_true, if_false, hknown, hnumbered, hopen,
      herror, outcome]
  · rw [addBoundary_snd tag essential h.frozen hknown, hnumbered]
    exact htagged
  · intro ref
    rw [hmem]
    constructor
    · rintro ⟨hone, c, side, hc, hs, htakes⟩
      exact ⟨ref.1 - 1, c, ref.2, side, Prod.ext (Nat.sub_add_cancel hone).symm rfl, hc, hs,
        of_decide_eq_true htakes⟩
    · rintro ⟨i, c, s, side, rfl, hc, hs, htakes⟩
      exact ⟨Nat.le_add_left 1 i, c, side, hc, hs, decide_eq_true htakes⟩

/-- The mesh after a boundary has been tagged by several calls, each with selectors and a mark. -/
def tagBoundary (m : Mesh α) (tag : TagId) (calls : List (List (Selector α) × Bool)) : Mesh α :=
  calls.foldl (fun m call => (m.addBoundary tag call.1 call.2).2) m

variable {calls : List (List (Selector α) × Bool)}

/-- Calls that all succeed add up. -/
theorem Admits.tagBoundary (h : m.Admits tag .boundary)
    (hcalls : ∀ call ∈ calls, ∀ w ∈ call.1, w.IsTotal m) :
    (m.tagBoundary tag calls).Admits tag .boundary ∧ m.Retagged (m.tagBoundary tag calls) ∧
      ∀ key ref, (m.tagBoundary tag calls).ListsSide key ref ↔
        m.ListsSide key ref ∨ key = tag.key ∧ ∃ call ∈ calls, m.Picks call.1 ref := by
  induction calls generalizing m with
  | nil => exact ⟨h, .refl m, by simp [Mesh.tagBoundary]⟩
  | cons call calls ih =>
    obtain ⟨hcall, hcalls⟩ := List.forall_mem_cons.mp hcalls
    obtain ⟨region, tagged, -, htagged, -, hmem⟩ := h.addBoundary hcall call.2
    have hstep := m.retagged_addBoundary tag call.1 call.2
    have hnext := h.retagged hstep ((htagged.lookup tag.key).trans (if_pos rfl)) htagged.kind
    obtain ⟨hadmits, hretagged, hlists⟩ := ih hnext fun call hcall w hw =>
      isTotal_of_untagged hstep.untagged (hcalls call hcall w hw)
    refine ⟨hadmits, hstep.trans hretagged, fun key ref => ?_⟩
    have hlater := hlists key ref
    rw [htagged.listsSide_iff, hmem] at hlater
    simp only [picks_iff_of_untagged hstep.untagged] at hlater
    rw [show m.tagBoundary tag (call :: calls) =
      (m.addBoundary tag call.1 call.2).2.tagBoundary tag calls from rfl, hlater,
      List.exists_mem_cons_iff]
    tauto

theorem tagBoundary_append (m : Mesh α) (tag : TagId) (before calls : List (List (Selector α) × Bool)) :
    m.tagBoundary tag (before ++ calls) = (m.tagBoundary tag before).tagBoundary tag calls :=
  List.foldl_append

omit [Scalar α] in
/-- Sides that have the tag already are not changed. -/
theorem SidesTagged.cells_eq (h : SidesTagged m m' tag region tagged) (hm : m.TagsAgree)
    (hlisted : ∀ ref ∈ tagged, m.ListsSide tag.key ref) : m'.cells = m.cells := by
  rw [h.cells]
  refine List.ext_getElem (by simp) fun i _ hi => ?_
  rw [List.getElem_mapIdx]
  have hside (s : ℕ) (hs : s ∈ sidesOfCell tagged (i + 1)) : ∃ side, m.cells[i].sides[s]? = some side ∧
      tag.key ∈ side.boundaryIds.map TagId.key := by
    have href := mem_sidesOfCell.mp hs
    obtain ⟨side, hside, -⟩ := h.exterior _ href
    obtain ⟨j, c, t, heq, hc, ht⟩ := side?_eq_some.mp hside
    obtain ⟨rfl, rfl⟩ : i = j ∧ s = t := by simpa using heq
    rw [List.getElem?_eq_getElem hi, Option.some.injEq] at hc
    exact ⟨side, hc ▸ ht, (hm.sides _ side hside _).mpr (hlisted _ href)⟩
  refine markCell_eq_self (fun s side hs hfound => ?_) fun htaken => ?_
  · obtain ⟨side', hfound', hkey⟩ := hside s hs
    rwa [Option.some.inj (hfound.symm.trans hfound')]
  · obtain ⟨s, hs⟩ := List.exists_mem_of_ne_nil _ htaken
    obtain ⟨side, hfound, hkey⟩ := hside s hs
    exact (hm.union _ (List.getElem_mem hi) _).mpr ⟨side, List.mem_of_getElem? hfound, hkey⟩

omit [Scalar α] in
/-- A region that is opened with the mark that it has is not changed. -/
theorem openRegion_of_lookup {kind : RegionKind} {essential : Bool} {opened : Mesh α} {r : Region}
    (hopen : m.openRegion tag kind essential = .ok (region, opened))
    (hr : m.regions.lookup tag.key = some r) (hessential : region.essential = r.essential) : region = r := by
  unfold openRegion at hopen
  split_ifs at hopen
  rw [hr] at hopen
  dsimp only [Option.getD_some] at hopen
  split_ifs at hopen
  cases hopen
  cases r
  cases hessential
  rfl

omit [Scalar α] in
/-- A region that lists all the tagged sides and has the mark already is not changed. -/
theorem SidesTagged.regions_eq (h : SidesTagged m m' tag region tagged)
    (hlisted : ∀ ref ∈ tagged, m.ListsSide tag.key ref) {r : Region}
    (hr : m.regions.lookup tag.key = some r) (hessential : region.essential = r.essential) :
    m'.regions = m.regions := by
  obtain ⟨essential, opened, hopen⟩ := h.opened
  obtain rfl := openRegion_of_lookup hopen hr hessential
  have hsides : appendNew region.sides tagged = region.sides :=
    appendNew_of_subset fun ref href => (listsSide_of_openRegion hopen ref).mp (hlisted ref href)
  rw [h.regions, hsides, assign_of_lookup_eq_some hr, assign_of_lookup_eq_some hr]

end Boundaries

section Subdomains

variable [Scalar α] {m m' : Mesh α} {tag : TagId} {condition : Predicate α} {region : Region}
  {tagged : List ℕ}

/-- A condition is decided at all nodes of the elements. -/
def DecidedOn (m : Mesh α) (condition : Predicate α) : Prop :=
  ∀ c ∈ m.cells, ∀ point ∈ c.element.nodes.toRows, ∃ b, condition.eval point = .ok b

/-- All nodes of an element satisfy a condition. -/
def Satisfies (m : Mesh α) (condition : Predicate α) (id : ℕ) : Prop :=
  ∃ i c, id = i + 1 ∧ m.cells[i]? = some c ∧
    ∀ point ∈ c.element.nodes.toRows, condition.eval point = .ok true

theorem decidedOn_of_untagged (h : m'.cells.map Cell.untagged = m.cells.map Cell.untagged)
    (hcondition : m.DecidedOn condition) : m'.DecidedOn condition := by
  intro c' hc'
  obtain ⟨i, hi⟩ := List.mem_iff_getElem?.mp hc'
  obtain ⟨c, hc, hcell⟩ := Cell.exists_of_untagged h.symm hi
  have helement : c.element = c'.element := (congrArg Cell.element hcell :)
  exact helement ▸ hcondition c (List.mem_of_getElem? hc)

/-- Which elements satisfy a condition does not depend on the tags. -/
theorem satisfies_iff_of_untagged (h : m'.cells.map Cell.untagged = m.cells.map Cell.untagged) (id : ℕ) :
    m'.Satisfies condition id ↔ m.Satisfies condition id := by
  have hone {m m' : Mesh α} (h : m'.cells.map Cell.untagged = m.cells.map Cell.untagged)
      (hsatisfies : m'.Satisfies condition id) : m.Satisfies condition id := by
    obtain ⟨i, c', rfl, hc', hpoints⟩ := hsatisfies
    obtain ⟨c, hc, hcell⟩ := Cell.exists_of_untagged h.symm hc'
    have helement : c.element = c'.element := (congrArg Cell.element hcell :)
    exact ⟨i, c, rfl, hc, helement ▸ hpoints⟩
  exact ⟨hone h, hone h.symm⟩

/-- A call whose condition is decided succeeds and tags the new cells that satisfy it. -/
theorem Admits.addSubdomain (h : m.Admits tag .subdomain) (hm : m.TagsAgree)
    (hcondition : m.DecidedOn condition) : ∃ region tagged,
      (m.addSubdomain tag condition).1 = .ok { region with elements := region.elements ++ tagged } ∧
      CellsTagged m (m.addSubdomain tag condition).2 tag region tagged ∧
      ∀ id, id ∈ tagged ↔ m.Satisfies condition id ∧ ¬ m.ListsCell tag.key id := by
  have hnumbered : tag.numbered m.regions.length = tag := if_neg h.defined
  obtain ⟨region, opened, hopen⟩ := exists_openRegion h.usable h.kind false
  classical
  have hholds (c : Cell α) (hc : c ∈ m.cells) : condition.holdsAt c.element.nodes.toRows =
      .ok (decide (∀ point ∈ c.element.nodes.toRows, condition.eval point = .ok true)) := by
    obtain ⟨b, hb, hiff⟩ := Predicate.holdsAt_eq_ok (hcondition c hc)
    rw [hb, Bool.eq_iff_iff.mpr (hiff.trans decide_eq_true_iff.symm)]
  let decides := fun c : Cell α => condition.holdsAt c.element.nodes.toRows
  have hdecides : ∀ i c, m.cells[i]? = some c → i + 1 ∉ region.elements →
      decides c = .ok (decide (∀ point ∈ c.element.nodes.toRows, condition.eval point = .ok true)) :=
    fun _ c hc _ => hholds c (List.mem_of_getElem? hc)
  obtain ⟨herror, hmem⟩ := tagCells_newOnly tag hdecides
  have htagged := cellsTagged_of_openRegion hm hopen decides
  have hsnd : (m.addSubdomain tag condition).2 = m.tagCellsBy tag decides := by
    unfold Mesh.addSubdomain tagCellsBy
    simp only [h.frozen, Bool.not_true, Bool.false_eq_true, if_false, hnumbered, hopen]
    rfl
  refine ⟨region, (tagCells tag (newOnly region decides) 1 m.cells).tagged, ?_, hsnd ▸ htagged, ?_⟩
  · unfold Mesh.addSubdomain
    simp only [h.frozen, Bool.not_true, Bool.false_eq_true, if_false, hnumbered, hopen]
    exact congrArg (outcome _) herror
  · intro id
    rw [hmem, listsCell_of_openRegion hopen]
    constructor
    · rintro ⟨hnew, hone, c, hc, hpoints⟩
      exact ⟨⟨id - 1, c, (Nat.sub_add_cancel hone).symm, hc, of_decide_eq_true hpoints⟩, hnew⟩
    · rintro ⟨⟨i, c, rfl, hc, hpoints⟩, hnew⟩
      exact ⟨hnew, Nat.le_add_left 1 i, c, hc, decide_eq_true hpoints⟩

/-- The mesh after a subdomain has been tagged by several calls. -/
def tagSubdomain (m : Mesh α) (tag : TagId) (conditions : List (Predicate α)) : Mesh α :=
  conditions.foldl (fun m condition => (m.addSubdomain tag condition).2) m

/-- Calls that all succeed add up. -/
theorem Admits.tagSubdomain {conditions : List (Predicate α)} (h : m.Admits tag .subdomain)
    (hm : m.Reachable) (hconditions : ∀ condition ∈ conditions, m.DecidedOn condition) :
    (m.tagSubdomain tag conditions).Admits tag .subdomain ∧ m.Retagged (m.tagSubdomain tag conditions) ∧
      ∀ key id, (m.tagSubdomain tag conditions).ListsCell key id ↔
        m.ListsCell key id ∨ key = tag.key ∧ ∃ condition ∈ conditions, m.Satisfies condition id := by
  induction conditions generalizing m with
  | nil => exact ⟨h, .refl m, by simp [Mesh.tagSubdomain]⟩
  | cons condition conditions ih =>
    obtain ⟨hcondition, hconditions⟩ := List.forall_mem_cons.mp hconditions
    obtain ⟨region, tagged, -, htagged, hmem⟩ := h.addSubdomain hm.tagsAgree hcondition
    have hstep := m.retagged_addSubdomain tag condition
    have hnext := h.retagged hstep ((htagged.lookup tag.key).trans (if_pos rfl)) htagged.kind
    obtain ⟨hadmits, hretagged, hlists⟩ := ih hnext (hm.step (.addSubdomain m tag condition))
      fun condition hcondition => decidedOn_of_untagged hstep.untagged (hconditions condition hcondition)
    refine ⟨hadmits, hstep.trans hretagged, fun key id => ?_⟩
    have hlater := hlists key id
    rw [htagged.listsCell_iff, hmem] at hlater
    simp only [satisfies_iff_of_untagged hstep.untagged] at hlater
    rw [show m.tagSubdomain tag (condition :: conditions) =
      (m.addSubdomain tag condition).2.tagSubdomain tag conditions from rfl, hlater,
      List.exists_mem_cons_iff]
    by_cases hkey : key = tag.key
    · subst hkey
      tauto
    · tauto

/-- A call that finds no new cell changes nothing. -/
theorem addSubdomain_of_listed (h : m.Admits tag .subdomain) (hm : m.TagsAgree)
    (hcondition : m.DecidedOn condition) {r : Region} (hr : m.regions.lookup tag.key = some r)
    (hlisted : ∀ id, m.Satisfies condition id → m.ListsCell tag.key id) :
    (m.addSubdomain tag condition).2 = m := by
  obtain ⟨region, tagged, -, htagged, hmem⟩ := h.addSubdomain hm hcondition
  have hempty : tagged = [] := by
    refine List.eq_nil_iff_forall_not_mem.mpr fun id hid => ?_
    obtain ⟨hsatisfies, hnew⟩ := (hmem id).mp hid
    exact hnew (hlisted id hsatisfies)
  subst hempty
  obtain ⟨opened, hopen⟩ := htagged.opened
  have hessential : region.essential = r.essential :=
    (openRegion_eq_ok hopen).2.1.trans (hm.subdomain tag.key r hr (h.kind r hr)).2.2.1.symm
  obtain rfl := openRegion_of_lookup hopen hr hessential
  refine (m.retagged_addSubdomain tag condition).eq_of_cells_of_regions ?_ ?_
  · rw [htagged.cells]
    simp [mapIdx_self]
  · rw [htagged.regions, List.append_nil, assign_of_lookup_eq_some hr, assign_of_lookup_eq_some hr]

end Subdomains

section Requests

variable [Scalar α] {m m₁ m₂ : Mesh α} {tag : TagId} {P : ℤ → Prop} {r : Region}

/-- The nodes of a tag are those with a property: they are listed in increasing order, and masks mark
their degrees of freedom. -/
structure HasNodes (m : Mesh α) (tag : TagId) (P : ℤ → Prop) : Prop where
  ids : ∃ ids, m.getNodeIds (some tag) = .ok ids ∧ ids.Pairwise (· < ·) ∧ ∀ k, k ∈ ids ↔ P k
  mask : ∀ mode component mask, m.getDof (some tag) mode component = .ok mask →
    ∃ kind, DofMode.ofName? mode = some kind ∧ mask.length = m.dofs ∧ ∀ d < m.dofs,
      (mask[d]? = some true ↔ (kind = .nonessential ↔ ¬ (P (((d / m.dofsPerNode : ℕ) : ℤ) + 1) ∧
        component.GivesComponent (d % m.dofsPerNode))))

theorem Reachable.hasNodes (hm : m.Reachable) (hfrozen : m.frozen = true) (hr : m.region tag = .ok r)
    (hP : ∀ k, m.HasNode tag.key k ↔ P k) : m.HasNodes tag P where
  ids := by
    have hids := getNodeIds_some_eq_ok_iff.mpr ⟨hfrozen, r, hr, rfl⟩
    obtain ⟨hsorted, hmem⟩ := mem_getNodeIds hm hids
    exact ⟨_, hids, hsorted, fun k => (hmem k).trans (hP k)⟩
  mask := by
    intro mode component mask hmask
    obtain ⟨marks, hmarks⟩ := hm.exists_markedBy
    obtain ⟨kind, hkind, hlength, hplaces⟩ := getElem?_of_getDof hmarks hmask
    refine ⟨kind, hkind, hlength, fun d hd => (hplaces d hd).trans ?_⟩
    simp only [Chooses, Covers, hP]
    split_ifs with hmode <;> simp [hmode]

/-- The mask of a tag depends on tags only by the nodes of the tag. -/
theorem Retagged.getDof_congr (h₁ : m.Retagged m₁) (h₂ : m.Retagged m₂)
    (hids : m₁.getNodeIds (some tag) = m₂.getNodeIds (some tag)) (mode : String) (component : Datum α) :
    m₁.getDof (some tag) mode component = m₂.getDof (some tag) mode component := by
  obtain ⟨cells, regions, rfl, -⟩ := h₁
  obtain ⟨cells', regions', rfl, -⟩ := h₂
  unfold getDof
  simp only [hids]
  rfl

/-- Node numbers are determined by the nodes of the tag. -/
theorem HasNodes.getNodeIds_eq (h₁ : m₁.HasNodes tag P) (h₂ : m₂.HasNodes tag P) :
    m₁.getNodeIds (some tag) = m₂.getNodeIds (some tag) := by
  obtain ⟨ids₁, hids₁, hsorted₁, hmem₁⟩ := h₁.ids
  obtain ⟨ids₂, hids₂, hsorted₂, hmem₂⟩ := h₂.ids
  have hperm : ids₁.Perm ids₂ := (List.perm_ext_iff_of_nodup (hsorted₁.imp ne_of_lt)
    (hsorted₂.imp ne_of_lt)).mpr fun k => (hmem₁ k).trans (hmem₂ k).symm
  rw [hids₁, hids₂, hperm.eq_of_pairwise' (hsorted₁.imp le_of_lt) (hsorted₂.imp le_of_lt)]

end Requests

section Main

variable [Scalar α] {m : Mesh α} {tag : TagId}

/-- Two sequences of calls with the same selectors, however they are ordered, repeated and distributed
over the calls. -/
structure SameSelectors (calls calls' : List (List (Selector α) × Bool)) : Prop where
  nil : calls = [] ↔ calls' = []
  /-- Calls that take all exterior sides. -/
  whole : (∃ call ∈ calls, call.1 = []) ↔ ∃ call ∈ calls', call.1 = []
  selectors : ∀ w, (∃ call ∈ calls, w ∈ call.1) ↔ ∃ call ∈ calls', w ∈ call.1

theorem SameSelectors.picks_iff {calls calls' : List (List (Selector α) × Bool)}
    (h : SameSelectors calls calls') (ref : SideRef) :
    (∃ call ∈ calls, m.Picks call.1 ref) ↔ ∃ call ∈ calls', m.Picks call.1 ref := by
  have hone {calls calls' : List (List (Selector α) × Bool)} (h : SameSelectors calls calls')
      (hpicks : ∃ call ∈ calls, m.Picks call.1 ref) : ∃ call ∈ calls', m.Picks call.1 ref := by
    obtain ⟨call, hcall, i, c, s, side, rfl, hc, hs, hboundary, htakes⟩ := hpicks
    rcases htakes with hwhole | ⟨w, hw, hmatches⟩
    · obtain ⟨call', hcall', hwhole'⟩ := h.whole.mp ⟨call, hcall, hwhole⟩
      exact ⟨call', hcall', i, c, s, side, rfl, hc, hs, hboundary, .inl hwhole'⟩
    · obtain ⟨call', hcall', hw'⟩ := (h.selectors w).mp ⟨call, hcall, hw⟩
      exact ⟨call', hcall', i, c, s, side, rfl, hc, hs, hboundary, .inr ⟨w, hw', hmatches⟩⟩
  exact ⟨hone h, hone ⟨h.nil.symm, h.whole.symm, fun w => (h.selectors w).symm⟩⟩

theorem reachable_tagBoundary (hm : m.Reachable) (calls : List (List (Selector α) × Bool)) :
    (m.tagBoundary tag calls).Reachable := by
  induction calls generalizing m with
  | nil => exact hm
  | cons call calls ih => exact ih (hm.step (.addBoundary m tag call.1 call.2))

theorem reachable_tagSubdomain (hm : m.Reachable) (conditions : List (Predicate α)) :
    (m.tagSubdomain tag conditions).Reachable := by
  induction conditions generalizing m with
  | nil => exact hm
  | cons condition conditions ih => exact ih (hm.step (.addSubdomain m tag condition))

/-- Calls that tag a boundary give it the sides that it had before and those that match a selector of
one of them. -/
structure BoundaryUnion (m : Mesh α) (tag : TagId) (calls : List (List (Selector α) × Bool)) : Prop where
  succeeds : ∀ before call after, calls = before ++ call :: after →
    ∃ r, ((m.tagBoundary tag before).addBoundary tag call.1 call.2).1 = .ok r
  sides : ∀ ref, (m.tagBoundary tag calls).ListsSide tag.key ref ↔
    m.ListsSide tag.key ref ∨ ∃ call ∈ calls, m.Picks call.1 ref
  /-- The sides know that they are tagged. -/
  tags : ∀ ref side, (m.tagBoundary tag calls).side? ref = some side →
    (tag.key ∈ side.boundaryIds.map TagId.key ↔
      m.ListsSide tag.key ref ∨ ∃ call ∈ calls, m.Picks call.1 ref)
  essential : ∀ before call, calls = before ++ [call] →
    (m.tagBoundary tag calls).essential? tag.key = some call.2
  nodes : calls ≠ [] → (m.tagBoundary tag calls).HasNodes tag fun k =>
    ∃ ref, (m.ListsSide tag.key ref ∨ ∃ call ∈ calls, m.Picks call.1 ref) ∧ k ∈ m.sideNodeIds ref
  order : ∀ calls', (∀ call ∈ calls', ∀ w ∈ call.1, w.IsTotal m) → SameSelectors calls calls' →
    (∀ ref, (m.tagBoundary tag calls).ListsSide tag.key ref ↔
      (m.tagBoundary tag calls').ListsSide tag.key ref) ∧
    (m.tagBoundary tag calls).getNodeIds (some tag) = (m.tagBoundary tag calls').getNodeIds (some tag) ∧
    ∀ mode component, (m.tagBoundary tag calls).getDof (some tag) mode component =
      (m.tagBoundary tag calls').getDof (some tag) mode component
  /-- A call that is repeated tags nothing, and changes nothing at all unless it changes the mark. -/
  again : ∀ call ∈ calls,
    ((m.tagBoundary tag calls).addBoundary tag call.1 call.2).2.cells = (m.tagBoundary tag calls).cells ∧
    ((m.tagBoundary tag calls).essential? tag.key = some call.2 →
      ((m.tagBoundary tag calls).addBoundary tag call.1 call.2).2 = m.tagBoundary tag calls)

/-- Calls that tag a subdomain give it the elements that it had before and those all of whose nodes
satisfy one of the conditions. -/
structure SubdomainUnion (m : Mesh α) (tag : TagId) (conditions : List (Predicate α)) : Prop where
  succeeds : ∀ before condition after, conditions = before ++ condition :: after →
    ∃ r, ((m.tagSubdomain tag before).addSubdomain tag condition).1 = .ok r
  elements : ∀ id, (m.tagSubdomain tag conditions).ListsCell tag.key id ↔
    m.ListsCell tag.key id ∨ ∃ condition ∈ conditions, m.Satisfies condition id
  /-- The elements know that they are tagged. -/
  tags : ∀ i c, (m.tagSubdomain tag conditions).cells[i]? = some c →
    (tag.key ∈ c.subdomainIds.map TagId.key ↔
      m.ListsCell tag.key (i + 1) ∨ ∃ condition ∈ conditions, m.Satisfies condition (i + 1))
  nodes : conditions ≠ [] → (m.tagSubdomain tag conditions).HasNodes tag fun k =>
    ∃ id, (m.ListsCell tag.key id ∨ ∃ condition ∈ conditions, m.Satisfies condition id) ∧
      k ∈ m.cellNodeIds id
  order : ∀ conditions', (∀ condition, condition ∈ conditions ↔ condition ∈ conditions') →
    (∀ id, (m.tagSubdomain tag conditions).ListsCell tag.key id ↔
      (m.tagSubdomain tag conditions').ListsCell tag.key id) ∧
    (m.tagSubdomain tag conditions).getNodeIds (some tag) =
      (m.tagSubdomain tag conditions').getNodeIds (some tag) ∧
    ∀ mode component, (m.tagSubdomain tag conditions).getDof (some tag) mode component =
      (m.tagSubdomain tag conditions').getDof (some tag) mode component
  /-- A call that is repeated changes nothing. -/
  again : ∀ condition ∈ conditions,
    ((m.tagSubdomain tag conditions).addSubdomain tag condition).2 = m.tagSubdomain tag conditions

section BoundaryCalls

variable {calls : List (List (Selector α) × Bool)} (h : m.Admits tag .boundary) (hm : m.Reachable)
  (hcalls : ∀ call ∈ calls, ∀ w ∈ call.1, w.IsTotal m)
include h hcalls

omit hcalls in
/-- The last call sets the mark. -/
theorem essential?_tagBoundary_concat (before : List (List (Selector α) × Bool))
    (call : List (Selector α) × Bool) (hcalls : ∀ c ∈ before ++ [call], ∀ w ∈ c.1, w.IsTotal m) :
    (∃ r, ((m.tagBoundary tag before).addBoundary tag call.1 call.2).1 = .ok r) ∧
      (m.tagBoundary tag (before ++ [call])).essential? tag.key = some call.2 := by
  have hbefore : ∀ c ∈ before, ∀ w ∈ c.1, w.IsTotal m := fun c hc =>
    hcalls c (List.mem_append_left _ hc)
  obtain ⟨hadmits, hretagged, -⟩ := h.tagBoundary hbefore
  have hcall : ∀ w ∈ call.1, w.IsTotal (m.tagBoundary tag before) := fun w hw =>
    isTotal_of_untagged hretagged.untagged (hcalls call (by simp) w hw)
  obtain ⟨region, tagged, hok, htagged, hessential, -⟩ := hadmits.addBoundary hcall call.2
  refine ⟨⟨_, hok⟩, ?_⟩
  rw [tagBoundary_append, show (m.tagBoundary tag before).tagBoundary tag [call] =
    ((m.tagBoundary tag before).addBoundary tag call.1 call.2).2 from rfl, essential?, htagged.lookup,
    if_pos rfl]
  simp [Option.filter, htagged.kind, hessential]

include hm

theorem hasNodes_tagBoundary (hne : calls ≠ []) : (m.tagBoundary tag calls).HasNodes tag fun k =>
    ∃ ref, (m.ListsSide tag.key ref ∨ ∃ call ∈ calls, m.Picks call.1 ref) ∧ k ∈ m.sideNodeIds ref := by
  obtain ⟨hadmits, hretagged, hlists⟩ := h.tagBoundary hcalls
  obtain ⟨before, call, rfl⟩ := (List.eq_nil_or_concat' calls).resolve_left hne
  obtain ⟨-, hessential⟩ := essential?_tagBoundary_concat h before call hcalls
  obtain ⟨r, hr⟩ : ∃ r, (m.tagBoundary tag (before ++ [call])).regions.lookup tag.key = some r := by
    rw [essential?] at hessential
    obtain ⟨r, hr, -⟩ := Option.map_eq_some_iff.mp hessential
    exact ⟨r, (Option.filter_eq_some_iff.mp hr).1⟩
  have hreachable : (m.tagBoundary tag (before ++ [call])).Reachable := reachable_tagBoundary hm _
  refine hreachable.hasNodes hadmits.frozen (region_eq_ok.mpr ⟨h.usable, hr⟩) fun k => ?_
  rw [hreachable.tagsAgree.hasNode_of_boundary hr (hadmits.kind r hr)]
  simp only [hlists, sideNodeIds_of_untagged hretagged.untagged, true_and]

/-- Which sides a tag gets does not depend on the order of the calls and selectors. -/
theorem order_tagBoundary {calls' : List (List (Selector α) × Bool)}
    (hcalls' : ∀ call ∈ calls', ∀ w ∈ call.1, w.IsTotal m) (hsame : SameSelectors calls calls') :
    (∀ ref, (m.tagBoundary tag calls).ListsSide tag.key ref ↔
      (m.tagBoundary tag calls').ListsSide tag.key ref) ∧
    (m.tagBoundary tag calls).getNodeIds (some tag) = (m.tagBoundary tag calls').getNodeIds (some tag) ∧
    ∀ mode component, (m.tagBoundary tag calls).getDof (some tag) mode component =
      (m.tagBoundary tag calls').getDof (some tag) mode component := by
  obtain ⟨-, hretagged, hlists⟩ := h.tagBoundary hcalls
  obtain ⟨-, hretagged', hlists'⟩ := h.tagBoundary hcalls'
  have hids : (m.tagBoundary tag calls).getNodeIds (some tag) =
      (m.tagBoundary tag calls').getNodeIds (some tag) := by
    by_cases hne : calls = []
    · rw [hne, hsame.nil.mp hne]
    · have hnodes' := hasNodes_tagBoundary h hm hcalls' (mt hsame.nil.mpr hne)
      simp only [← hsame.picks_iff] at hnodes'
      exact (hasNodes_tagBoundary h hm hcalls hne).getNodeIds_eq hnodes'
  refine ⟨fun ref => ?_, hids, hretagged.getDof_congr hretagged' hids⟩
  rw [hlists, hlists', hsame.picks_iff]

/-- A call whose sides are listed already leaves them as they are. -/
theorem again_tagBoundary {call : List (Selector α) × Bool} (hcall : call ∈ calls) :
    ((m.tagBoundary tag calls).addBoundary tag call.1 call.2).2.cells = (m.tagBoundary tag calls).cells ∧
    ((m.tagBoundary tag calls).essential? tag.key = some call.2 →
      ((m.tagBoundary tag calls).addBoundary tag call.1 call.2).2 = m.tagBoundary tag calls) := by
  obtain ⟨hadmits, hretagged, hlists⟩ := h.tagBoundary hcalls
  have htotal : ∀ w ∈ call.1, w.IsTotal (m.tagBoundary tag calls) := fun w hw =>
    isTotal_of_untagged hretagged.untagged (hcalls call hcall w hw)
  obtain ⟨region, tagged, -, htagged, hessential, hmem⟩ := hadmits.addBoundary htotal call.2
  have hlisted : ∀ ref ∈ tagged, (m.tagBoundary tag calls).ListsSide tag.key ref := by
    intro ref href
    have hpicks := (picks_iff_of_untagged hretagged.untagged ref).mp ((hmem ref).mp href)
    exact (hlists tag.key ref).mpr (.inr ⟨rfl, call, hcall, hpicks⟩)
  have hcells := htagged.cells_eq (reachable_tagBoundary hm calls).tagsAgree hlisted
  refine ⟨hcells, fun hmark => ?_⟩
  obtain ⟨r, hr, hmark⟩ := Option.map_eq_some_iff.mp hmark
  exact (retagged_addBoundary _ tag call.1 call.2).eq_of_cells_of_regions hcells
    (htagged.regions_eq hlisted (Option.filter_eq_some_iff.mp hr).1 (hessential.trans hmark.symm))

theorem boundaryUnion : m.BoundaryUnion tag calls where
  succeeds := by
    rintro before call after rfl
    have hbefore : ∀ c ∈ before ++ [call], ∀ w ∈ c.1, w.IsTotal m := by
      intro c hc
      refine hcalls c (List.mem_append.mpr ((List.mem_append.mp hc).imp_right fun hc => ?_))
      exact List.mem_cons.mpr (.inl (List.mem_singleton.mp hc))
    exact (essential?_tagBoundary_concat h before call hbefore).1
  sides := fun ref => by simpa using (h.tagBoundary hcalls).2.2 tag.key ref
  tags := by
    intro ref side hside
    rw [(reachable_tagBoundary hm calls).tagsAgree.sides ref side hside]
    simpa using (h.tagBoundary hcalls).2.2 tag.key ref
  essential := by
    rintro before call rfl
    exact (essential?_tagBoundary_concat h before call hcalls).2
  nodes := hasNodes_tagBoundary h hm hcalls
  order := fun _ hcalls' hsame => order_tagBoundary h hm hcalls hcalls' hsame
  again := fun _ hcall => again_tagBoundary h hm hcalls hcall

end BoundaryCalls

section SubdomainCalls

variable {conditions : List (Predicate α)} (h : m.Admits tag .subdomain) (hm : m.Reachable)
  (hconditions : ∀ condition ∈ conditions, m.DecidedOn condition)
include h hm hconditions

theorem exists_region_tagSubdomain (hne : conditions ≠ []) :
    ∃ r, (m.tagSubdomain tag conditions).regions.lookup tag.key = some r := by
  obtain ⟨before, condition, rfl⟩ := (List.eq_nil_or_concat' conditions).resolve_left hne
  have hbefore : ∀ p ∈ before, m.DecidedOn p := fun p hp => hconditions p (List.mem_append_left _ hp)
  obtain ⟨hadmits, hretagged, -⟩ := h.tagSubdomain hm hbefore
  obtain ⟨region, tagged, -, htagged, -⟩ := hadmits.addSubdomain
    (reachable_tagSubdomain hm before).tagsAgree
    (decidedOn_of_untagged hretagged.untagged (hconditions condition (by simp)))
  have hlast : m.tagSubdomain tag (before ++ [condition]) =
      ((m.tagSubdomain tag before).addSubdomain tag condition).2 := List.foldl_append
  exact ⟨_, by rw [hlast, htagged.lookup, if_pos rfl]⟩

theorem hasNodes_tagSubdomain (hne : conditions ≠ []) :
    (m.tagSubdomain tag conditions).HasNodes tag fun k =>
      ∃ id, (m.ListsCell tag.key id ∨ ∃ condition ∈ conditions, m.Satisfies condition id) ∧
        k ∈ m.cellNodeIds id := by
  obtain ⟨hadmits, hretagged, hlists⟩ := h.tagSubdomain hm hconditions
  obtain ⟨r, hr⟩ := exists_region_tagSubdomain h hm hconditions hne
  have hreachable : (m.tagSubdomain tag conditions).Reachable := reachable_tagSubdomain hm _
  refine hreachable.hasNodes hadmits.frozen (region_eq_ok.mpr ⟨h.usable, hr⟩) fun k => ?_
  rw [hreachable.tagsAgree.hasNode_of_subdomain hr (hadmits.kind r hr)]
  simp only [hlists, cellNodeIds_of_untagged hretagged.untagged, true_and]

theorem subdomainUnion : m.SubdomainUnion tag conditions where
  succeeds := by
    rintro before condition after rfl
    have hbefore : ∀ p ∈ before, m.DecidedOn p := fun p hp => hconditions p (List.mem_append_left _ hp)
    obtain ⟨hadmits, hretagged, -⟩ := h.tagSubdomain hm hbefore
    obtain ⟨region, tagged, hok, -⟩ := hadmits.addSubdomain
      (reachable_tagSubdomain hm before).tagsAgree
      (decidedOn_of_untagged hretagged.untagged (hconditions condition (by simp)))
    exact ⟨_, hok⟩
  elements := fun id => by simpa using (h.tagSubdomain hm hconditions).2.2 tag.key id
  tags := by
    intro i c hc
    rw [(reachable_tagSubdomain hm conditions).tagsAgree.cells i c hc]
    simpa using (h.tagSubdomain hm hconditions).2.2 tag.key (i + 1)
  nodes := hasNodes_tagSubdomain h hm hconditions
  order := by
    intro conditions' hsame
    have hconditions' : ∀ p ∈ conditions', m.DecidedOn p := fun p hp => hconditions p ((hsame p).mpr hp)
    obtain ⟨-, hretagged, hlists⟩ := h.tagSubdomain hm hconditions
    obtain ⟨-, hretagged', hlists'⟩ := h.tagSubdomain hm hconditions'
    have hids : (m.tagSubdomain tag conditions).getNodeIds (some tag) =
        (m.tagSubdomain tag conditions').getNodeIds (some tag) := by
      by_cases hne : conditions = []
      · have hnil : conditions' = [] := List.eq_nil_iff_forall_not_mem.mpr fun p hp => by
          simpa [hne] using (hsame p).mpr hp
        rw [hne, hnil]
      · have hne' : conditions' ≠ [] := by
          rintro rfl
          exact hne (List.eq_nil_iff_forall_not_mem.mpr fun p hp => by simpa using (hsame p).mp hp)
        have hnodes' := hasNodes_tagSubdomain h hm hconditions' hne'
        simp only [← hsame] at hnodes'
        exact (hasNodes_tagSubdomain h hm hconditions hne).getNodeIds_eq hnodes'
    refine ⟨fun id => ?_, hids, hretagged.getDof_congr hretagged' hids⟩
    simp only [hlists, hlists', hsame]
  again := by
    intro condition hcondition
    obtain ⟨hadmits, hretagged, hlists⟩ := h.tagSubdomain hm hconditions
    obtain ⟨r, hr⟩ := exists_region_tagSubdomain h hm hconditions (List.ne_nil_of_mem hcondition)
    refine addSubdomain_of_listed hadmits (reachable_tagSubdomain hm conditions).tagsAgree
      (decidedOn_of_untagged hretagged.untagged (hconditions condition hcondition)) hr fun id hid => ?_
    have hsatisfies := (satisfies_iff_of_untagged hretagged.untagged id).mp hid
    exact (hlists tag.key id).mpr (.inr ⟨rfl, condition, hcondition, hsatisfies⟩)

end SubdomainCalls

/-- Tagging is a union. Boundaries are tagged by names of faces in any letter case and by conditions that
are decided at the nodes of all sides, subdomains by conditions that are decided at all nodes. -/
theorem tagging_is_union (hm : m.Reachable) (tag : TagId) :
    (m.Admits tag .boundary → ∀ calls : List (List (Selector α) × Bool),
      (∀ call ∈ calls, ∀ w ∈ call.1, w.IsTotal m) → m.BoundaryUnion tag calls) ∧
    (m.Admits tag .subdomain → ∀ conditions : List (Predicate α),
      (∀ condition ∈ conditions, m.DecidedOn condition) → m.SubdomainUnion tag conditions) :=
  ⟨fun h _ hcalls => boundaryUnion h hm hcalls, fun h _ hconditions => subdomainUnion h hm hconditions⟩

/-- One call by name and one by a condition. -/
noncomputable def endCalls : List (List (Selector ℝ) × Bool) :=
  [([.location "LEFT"], true), ([.predicate (.function fun p => .ok (decide (p = [2])))], false)]

theorem unions_of_loopedLine : loopedLine.BoundaryUnion (.number 1) endCalls ∧
    (loopedLine.tagBoundary (.number 1) endCalls).essential? (.number 1) = some false ∧
    (loopedLine.tagBoundary (.number 1) endCalls).getNodeIds (some (.number 1)) =
      (loopedLine.tagBoundary (.number 1) endCalls.reverse).getNodeIds (some (.number 1)) ∧
    loopedLine.SubdomainUnion (.number 2) [.always true, .function fun p => .ok (decide (p = [0]))] := by
  obtain ⟨hboundary, -⟩ := tagging_is_union reachable_loopedLine (.number 1)
  obtain ⟨-, hsubdomain⟩ := tagging_is_union reachable_loopedLine (.number 2)
  have hadmits (n : ℤ) (kind : RegionKind) : loopedLine.Admits (.number n) kind :=
    ⟨by decide +kernel, nofun, nofun, nofun⟩
  have hcalls : ∀ call ∈ endCalls, ∀ w ∈ call.1, w.IsTotal loopedLine := by
    have hleft : (Selector.location "LEFT" : Selector ℝ).IsTotal loopedLine :=
      ⟨.left, by decide +kernel⟩
    have hcondition : (Selector.predicate (.function fun p : List ℝ =>
        .ok (decide (p = [2])))).IsTotal loopedLine := fun _ _ _ _ _ _ => ⟨_, rfl⟩
    simpa [endCalls] using ⟨hleft, hcondition⟩
  have hunion := hboundary (hadmits 1 .boundary) endCalls hcalls
  have hreversed : SameSelectors endCalls endCalls.reverse :=
    ⟨by simp, by simp, by simp⟩
  refine ⟨hunion, hunion.essential [_] _ rfl, ?_, hsubdomain (hadmits 2 .subdomain) _ ?_⟩
  · exact (hunion.order endCalls.reverse (by simpa using hcalls) hreversed).2.1
  · rintro condition hcondition c hc point hpoint
    rcases List.mem_pair.mp hcondition with rfl | rfl <;> exact ⟨_, rfl⟩

end Main

end Mesh
end WeakForm
