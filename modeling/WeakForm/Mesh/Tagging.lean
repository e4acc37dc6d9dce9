import WeakForm.Assignment
import WeakForm.Mesh.Basic

/-!
# Tagging

Tagging a boundary adds all exterior sides that a selector matches to the region of the tag; tagging
a subdomain adds all cells whose nodes satisfy a condition. A tag keeps its kind. When a condition
fails on the way, the sides and cells tagged before stay tagged.
-/

namespace WeakForm
namespace Mesh

variable {α : Type}

/-- Registers a tag for a kind of region, with a new essential mark. -/
def openRegion (m : Mesh α) (tag : TagId) (kind : RegionKind) (essential : Bool) :
    Except (Error α) (Region × Mesh α) :=
  if tag.key = .unusable then .error .wrongType
  else
    let region := (m.regions.lookup tag.key).getD ⟨tag, kind, essential, [], []⟩
    if region.kind = kind then
      let marked := { region with essential := essential }
      .ok (marked, { m with regions := assign tag.key marked m.regions })
    else .error (.tagInUse tag region.kind)

/-- The sides of a cell after tagging, the tagged ones among them, and the error that stopped
the tagging. -/
structure SideTagging (α : Type) where
  sides : List CellSide
  tagged : List Nat
  error : Option (Error α)

/-- Tags the matching sides of a list, the first of which has number `s`. -/
def tagSides (tag : TagId) (isMatch : CellSide → Except (Error α) Bool) :
    (s : Nat) → List CellSide → SideTagging α
  | _, [] => ⟨[], [], none⟩
  | s, side :: rest =>
    match isMatch side with
    | .error e => ⟨side :: rest, [], some e⟩
    | .ok false =>
      let t := tagSides tag isMatch (s + 1) rest
      ⟨side :: t.sides, t.tagged, t.error⟩
    | .ok true =>
      let t := tagSides tag isMatch (s + 1) rest
      ⟨{ side with boundaryIds := tag.adjoin side.boundaryIds } :: t.sides, s :: t.tagged, t.error⟩

/-- Cells after tagging, the tagged sides among them, and the error that stopped the tagging. -/
structure CellTagging (α β : Type) where
  cells : List (Cell α)
  tagged : List β
  error : Option (Error α)

/-- Tags the matching sides of a list of cells. -/
def tagCellSides (tag : TagId) (isMatch : Cell α → CellSide → Except (Error α) Bool) :
    (id : Nat) → List (Cell α) → CellTagging α (Nat × Nat)
  | _, [] => ⟨[], [], none⟩
  | id, c :: rest =>
    let t := tagSides tag (isMatch c) 0 c.sides
    let ids := if t.tagged.isEmpty then c.boundaryIds else tag.adjoin c.boundaryIds
    let cell := { c with sides := t.sides, boundaryIds := ids }
    let here := t.tagged.map fun s => (id, s)
    match t.error with
    | some e => ⟨cell :: rest, here, some e⟩
    | none =>
      let u := tagCellSides tag isMatch (id + 1) rest
      ⟨cell :: u.cells, here ++ u.tagged, u.error⟩

/-- Tags the matching cells of a list. -/
def tagCells (tag : TagId) (isMatch : Nat → Cell α → Except (Error α) Bool) :
    (id : Nat) → List (Cell α) → CellTagging α Nat
  | _, [] => ⟨[], [], none⟩
  | id, c :: rest =>
    match isMatch id c with
    | .error e => ⟨c :: rest, [], some e⟩
    | .ok false =>
      let u := tagCells tag isMatch (id + 1) rest
      ⟨c :: u.cells, u.tagged, u.error⟩
    | .ok true =>
      let u := tagCells tag isMatch (id + 1) rest
      ⟨{ c with subdomainIds := tag.adjoin c.subdomainIds } :: u.cells, id :: u.tagged, u.error⟩

/-- Appends the new members of a list to another one. -/
def appendNew {β : Type} [BEq β] (old new : List β) : List β :=
  new.foldl (fun members b => adjoin b members) old

variable [Scalar α]

/-- Whether a selector matches a side. -/
def selects (c : Cell α) (side : CellSide) : Selector α → Except (Error α) Bool
  | .location name => .ok (side.location.any fun l => Location.ofName? name == some l)
  | .predicate p => p.holdsAt (c.sidePoints side)
  | .unusable => .error .wrongType

/-- Whether one of the selectors matches a side; the first that does decides. -/
def selectsAny (c : Cell α) (side : CellSide) : List (Selector α) → Except (Error α) Bool
  | [] => .ok false
  | w :: rest =>
    match selects c side w with
    | .ok false => selectsAny c side rest
    | r => r

/-- Whether tagging with the given selectors, or with none at all, takes a side. -/
def takesSide (selectors : List (Selector α)) (c : Cell α) (side : CellSide) :
    Except (Error α) Bool :=
  if !side.onBoundary then .ok false
  else if selectors.isEmpty then .ok true
  else selectsAny c side selectors

/-- The first selector that names no face. -/
def unknownLocation? : List (Selector α) → Option String
  | [] => none
  | .location name :: rest =>
    if (Location.ofName? name).isSome then unknownLocation? rest else some name
  | _ :: rest => unknownLocation? rest

/-- The region after an operation that stopped with an error or not. -/
def outcome (region : Region) (error : Option (Error α)) : Except (Error α) Region :=
  match error with
  | some e => .error e
  | none => .ok region

/-- Tags the exterior sides that one of the selectors matches, or all of them when there are no
selectors. The result is the region of the tag. -/
def addBoundary (m : Mesh α) (tag : TagId) (selectors : List (Selector α)) (essential : Bool) :
    Except (Error α) Region × Mesh α :=
  if !m.frozen then (.error .openMesh, m)
  else
    match unknownLocation? selectors with
    | some name => (.error (.unknownLocation name), m)
    | none =>
      let tag := tag.numbered m.regions.length
      match m.openRegion tag .boundary essential with
      | .error e => (.error e, m)
      | .ok (region, opened) =>
        let t := tagCellSides tag (takesSide selectors) 1 m.cells
        let tagged := { region with sides := appendNew region.sides t.tagged }
        (outcome tagged t.error,
          { opened with cells := t.cells, regions := assign tag.key tagged opened.regions })

/-- Tags the cells all of whose nodes satisfy a condition. The result is the region of the tag. -/
def addSubdomain (m : Mesh α) (tag : TagId) (condition : Predicate α) :
    Except (Error α) Region × Mesh α :=
  if !m.frozen then (.error .openMesh, m)
  else
    let tag := tag.numbered m.regions.length
    match m.openRegion tag .subdomain false with
    | .error e => (.error e, m)
    | .ok (region, opened) =>
      let isMatch := fun id (c : Cell α) =>
        if region.elements.contains id then .ok false else condition.holdsAt c.element.nodes.toRows
      let t := tagCells tag isMatch 1 m.cells
      let tagged := { region with elements := region.elements ++ t.tagged }
      (outcome tagged t.error,
        { opened with cells := t.cells, regions := assign tag.key tagged opened.regions })

end Mesh
end WeakForm
