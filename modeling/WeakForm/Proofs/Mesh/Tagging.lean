import WeakForm.Mesh.Tagging
import WeakForm.Proofs.Lists

/-!
# What tagging changes

Tagging writes tags into cells and sides and leaves everything else as it is. The sides and cells
that it reports exist and are reported once, so a region names sides of its mesh without
repetition.
-/

namespace WeakForm

section

variable {β : Type} [BEq β] [LawfulBEq β]

@[simp] theorem mem_adjoin {b x : β} {members : List β} :
    x ∈ adjoin b members ↔ x = b ∨ x ∈ members := by
  unfold adjoin
  split
  · rename_i h
    have hb : b ∈ members := by simpa using h
    exact ⟨.inr, fun hx => hx.elim (fun he => he ▸ hb) id⟩
  · simp [or_comm]

theorem nodup_adjoin {b : β} {members : List β} (h : members.Nodup) : (adjoin b members).Nodup := by
  unfold adjoin
  split
  · exact h
  · rename_i hb
    have hb' : b ∉ members := by simpa using hb
    exact h.append (List.nodup_singleton b) (by simpa using hb')

namespace Mesh

@[simp] theorem mem_appendNew {x : β} {old new : List β} :
    x ∈ appendNew old new ↔ x ∈ old ∨ x ∈ new := by
  unfold appendNew
  induction new generalizing old with
  | nil => simp
  | cons b new ih =>
    rw [List.foldl_cons, ih, mem_adjoin, List.mem_cons]
    tauto

theorem nodup_appendNew {old : List β} (h : old.Nodup) (new : List β) :
    (appendNew old new).Nodup := by
  unfold appendNew
  induction new generalizing old with
  | nil => exact h
  | cons b new ih => exact ih (nodup_adjoin h)

end Mesh

end

namespace CellSide

/-- The side without its tags. -/
def untagged (s : CellSide) : CellSide := { s with boundaryIds := [] }

end CellSide

namespace Cell

variable {α : Type}

/-- The cell without its tags. -/
def untagged (c : Cell α) : Cell α := ⟨c.element, c.sides.map CellSide.untagged, [], []⟩

theorem map_element_of_untagged {cells cells' : List (Cell α)}
    (h : cells'.map untagged = cells.map untagged) :
    cells'.map element = cells.map element := by
  simpa [Function.comp_def, untagged] using congrArg (List.map element) h

theorem map_sideNodes_of_untagged {c c' : Cell α} (h : c'.untagged = c.untagged) :
    c'.sides.map CellSide.nodes = c.sides.map CellSide.nodes := by
  have hs : c'.sides.map CellSide.untagged = c.sides.map CellSide.untagged :=
    congrArg Cell.sides h
  simpa [Function.comp_def, CellSide.untagged] using congrArg (List.map CellSide.nodes) hs

theorem exists_of_untagged {cells cells' : List (Cell α)}
    (h : cells'.map untagged = cells.map untagged) {k : ℕ} {c : Cell α}
    (hk : cells[k]? = some c) : ∃ c', cells'[k]? = some c' ∧ c'.untagged = c.untagged := by
  have hmap := congrArg (fun l : List (Cell α) => l[k]?) h
  simp only [List.getElem?_map, hk, Option.map_some] at hmap
  exact Option.map_eq_some_iff.mp hmap

end Cell

/-- A region names sides of the given cells, each once. -/
structure Region.SidesIn {α : Type} (r : Region) (cells : List (Cell α)) : Prop where
  nodup : r.sides.Nodup
  exists_cell : ∀ side ∈ r.sides,
    1 ≤ side.1 ∧ ∃ c, cells[side.1 - 1]? = some c ∧ side.2 < c.sides.length

theorem Region.SidesIn.retag {r : Region} {α : Type} {cells cells' : List (Cell α)}
    (hr : r.SidesIn cells) (h : cells'.map Cell.untagged = cells.map Cell.untagged) :
    r.SidesIn cells' := by
  refine ⟨hr.nodup, ?_⟩
  intro side hside
  obtain ⟨hid, c, hc, hs⟩ := hr.exists_cell side hside
  obtain ⟨c', hc', hcc⟩ := Cell.exists_of_untagged h hc
  have hlen := congrArg List.length (Cell.map_sideNodes_of_untagged hcc)
  rw [List.length_map, List.length_map] at hlen
  exact ⟨hid, c', hc', hlen ▸ hs⟩

namespace Mesh

variable {α : Type}

theorem map_untagged_tagSides (tag : TagId) (isMatch : CellSide → Except (Error α) Bool) (s : ℕ)
    (sides : List CellSide) :
    ((tagSides tag isMatch s sides).sides).map CellSide.untagged =
      sides.map CellSide.untagged := by
  induction sides generalizing s with
  | nil => rfl
  | cons side rest ih =>
    rw [tagSides]
    split
    · rfl
    · exact congrArg (side.untagged :: ·) (ih (s + 1))
    · exact congrArg (side.untagged :: ·) (ih (s + 1))

/-- Tagged sides are sides that match. -/
theorem exists_of_mem_tagSides {tag : TagId} {isMatch : CellSide → Except (Error α) Bool} {s k : ℕ}
    {sides : List CellSide} (h : k ∈ (tagSides tag isMatch s sides).tagged) :
    s ≤ k ∧ ∃ side, sides[k - s]? = some side ∧ isMatch side = .ok true := by
  induction sides generalizing s with
  | nil => simp [tagSides] at h
  | cons side rest ih =>
    have hrest (h : k ∈ (tagSides tag isMatch (s + 1) rest).tagged) :
        s ≤ k ∧ ∃ other, (side :: rest)[k - s]? = some other ∧ isMatch other = .ok true := by
      obtain ⟨hk, other, hother, hmatch⟩ := ih h
      refine ⟨by omega, other, ?_, hmatch⟩
      rw [show k - s = k - (s + 1) + 1 by omega, List.getElem?_cons_succ]
      exact hother
    rw [tagSides] at h
    split at h
    · simp at h
    · exact hrest h
    · rename_i hmatch
      rcases List.mem_cons.mp h with rfl | h
      · exact ⟨le_rfl, side, by simp, hmatch⟩
      · exact hrest h

theorem map_untagged_tagCellSides (tag : TagId)
    (isMatch : Cell α → CellSide → Except (Error α) Bool) (id : ℕ) (cells : List (Cell α)) :
    ((tagCellSides tag isMatch id cells).cells).map Cell.untagged = cells.map Cell.untagged := by
  induction cells generalizing id with
  | nil => rfl
  | cons c rest ih =>
    have hc : ∀ ids, Cell.untagged
        ⟨c.element, (tagSides tag (isMatch c) 0 c.sides).sides, ids, c.subdomainIds⟩ =
          c.untagged := by
      intro ids
      simp only [Cell.untagged, map_untagged_tagSides]
    rw [tagCellSides]
    dsimp only
    split
    · rw [List.map_cons, List.map_cons, hc]
    · rw [List.map_cons, List.map_cons, hc, ih]

/-- Tagged sides of cells are sides that match. -/
theorem exists_of_mem_tagCellSides {tag : TagId}
    {isMatch : Cell α → CellSide → Except (Error α) Bool} {id : ℕ} {cells : List (Cell α)}
    {ref : ℕ × ℕ} (h : ref ∈ (tagCellSides tag isMatch id cells).tagged) :
    id ≤ ref.1 ∧ ∃ c side, cells[ref.1 - id]? = some c ∧ c.sides[ref.2]? = some side ∧
      isMatch c side = .ok true := by
  induction cells generalizing id with
  | nil => simp [tagCellSides] at h
  | cons c rest ih =>
    have here : ref ∈ (tagSides tag (isMatch c) 0 c.sides).tagged.map (fun s => (id, s)) →
        id ≤ ref.1 ∧ ∃ c' side, (c :: rest)[ref.1 - id]? = some c' ∧ c'.sides[ref.2]? = some side ∧
          isMatch c' side = .ok true := by
      intro hside
      obtain ⟨s, hs, rfl⟩ := List.mem_map.mp hside
      obtain ⟨-, side, hside, hmatch⟩ := exists_of_mem_tagSides hs
      exact ⟨le_rfl, c, side, by simp, by simpa using hside, hmatch⟩
    rw [tagCellSides] at h
    dsimp only at h
    split at h
    · exact here h
    · rcases List.mem_append.mp h with h | h
      · exact here h
      · obtain ⟨hid, c', side, hc', hs, hmatch⟩ := ih h
        refine ⟨by omega, c', side, ?_, hs, hmatch⟩
        rw [show ref.1 - id = ref.1 - (id + 1) + 1 by omega, List.getElem?_cons_succ]
        exact hc'

theorem mem_tagCellSides {tag : TagId} {isMatch : Cell α → CellSide → Except (Error α) Bool}
    {id : ℕ} {cells : List (Cell α)} {side : ℕ × ℕ}
    (h : side ∈ (tagCellSides tag isMatch id cells).tagged) :
    id ≤ side.1 ∧ ∃ c, cells[side.1 - id]? = some c ∧ side.2 < c.sides.length := by
  obtain ⟨hid, c, other, hc, hside, -⟩ := exists_of_mem_tagCellSides h
  exact ⟨hid, c, hc, (List.getElem?_eq_some_iff.mp hside).1⟩

theorem map_untagged_tagCells (tag : TagId) (isMatch : ℕ → Cell α → Except (Error α) Bool)
    (id : ℕ) (cells : List (Cell α)) :
    ((tagCells tag isMatch id cells).cells).map Cell.untagged = cells.map Cell.untagged := by
  induction cells generalizing id with
  | nil => rfl
  | cons c rest ih =>
    rw [tagCells]
    split
    · rfl
    · exact congrArg (c.untagged :: ·) (ih (id + 1))
    · exact congrArg (c.untagged :: ·) (ih (id + 1))

/-- Tagged cells are cells that match, in increasing order. -/
theorem exists_of_mem_tagCells {tag : TagId} {isMatch : ℕ → Cell α → Except (Error α) Bool} {id k : ℕ}
    {cells : List (Cell α)} (h : k ∈ (tagCells tag isMatch id cells).tagged) :
    id ≤ k ∧ ∃ c, cells[k - id]? = some c ∧ isMatch k c = .ok true := by
  induction cells generalizing id with
  | nil => simp [tagCells] at h
  | cons c rest ih =>
    have hrest (h : k ∈ (tagCells tag isMatch (id + 1) rest).tagged) :
        id ≤ k ∧ ∃ other, (c :: rest)[k - id]? = some other ∧ isMatch k other = .ok true := by
      obtain ⟨hk, other, hother, hmatch⟩ := ih h
      refine ⟨by omega, other, ?_, hmatch⟩
      rw [show k - id = k - (id + 1) + 1 by omega, List.getElem?_cons_succ]
      exact hother
    rw [tagCells] at h
    split at h
    · simp at h
    · exact hrest h
    · rename_i hmatch
      rcases List.mem_cons.mp h with rfl | h
      · exact ⟨le_rfl, c, by simp, hmatch⟩
      · exact hrest h

theorem nodup_tagCells (tag : TagId) (isMatch : ℕ → Cell α → Except (Error α) Bool) (id : ℕ)
    (cells : List (Cell α)) : (tagCells tag isMatch id cells).tagged.Nodup := by
  induction cells generalizing id with
  | nil => exact List.nodup_nil
  | cons c rest ih =>
    rw [tagCells]
    split
    · exact List.nodup_nil
    · exact ih (id + 1)
    · refine List.nodup_cons.mpr ⟨fun hmem => ?_, ih (id + 1)⟩
      have := (exists_of_mem_tagCells hmem).1
      omega

section Marks

/-- A side with one more tag. -/
def markSide (tag : TagId) (side : CellSide) : CellSide :=
  { side with boundaryIds := tag.adjoin side.boundaryIds }

/-- A cell some of whose sides have one more tag. -/
def markCell (tag : TagId) (taken : List ℕ) (c : Cell α) : Cell α :=
  { c with
    sides := c.sides.mapIdx fun s side => if s ∈ taken then markSide tag side else side
    boundaryIds := if taken.isEmpty then c.boundaryIds else tag.adjoin c.boundaryIds }

/-- The sides of one cell among those of a list. -/
def sidesOfCell (refs : List (ℕ × ℕ)) (id : ℕ) : List ℕ :=
  (refs.filter fun ref => ref.1 == id).map Prod.snd

theorem mem_sidesOfCell {refs : List (ℕ × ℕ)} {id s : ℕ} :
    s ∈ sidesOfCell refs id ↔ (id, s) ∈ refs := by
  simp [sidesOfCell]

theorem sidesOfCell_eq_nil {refs : List (ℕ × ℕ)} {id : ℕ} (h : ∀ ref ∈ refs, ref.1 ≠ id) :
    sidesOfCell refs id = [] := by
  rw [sidesOfCell, List.map_eq_nil_iff, List.filter_eq_nil_iff]
  simpa using h

theorem sidesOfCell_map (id : ℕ) (sides : List ℕ) :
    sidesOfCell (sides.map fun s => (id, s)) id = sides := by
  simp [sidesOfCell, List.filter_map, Function.comp_def]

theorem sidesOfCell_append (refs others : List (ℕ × ℕ)) (id : ℕ) :
    sidesOfCell (refs ++ others) id = sidesOfCell refs id ++ sidesOfCell others id := by
  simp [sidesOfCell]

theorem mapIdx_self {β : Type} (items : List β) : (items.mapIdx fun _ x => x) = items :=
  List.ext_getElem (by simp) fun i _ _ => by simp

theorem markCell_nil (tag : TagId) (c : Cell α) : markCell tag [] c = c := by
  simp [markCell, mapIdx_self]

/-- Exactly the tagged sides get the tag. -/
theorem sides_tagSides (tag : TagId) (isMatch : CellSide → Except (Error α) Bool) (s : ℕ)
    (sides : List CellSide) : (tagSides tag isMatch s sides).sides = sides.mapIdx fun k side =>
      if s + k ∈ (tagSides tag isMatch s sides).tagged then markSide tag side else side := by
  induction sides generalizing s with
  | nil => rfl
  | cons side rest ih =>
    have hlater : s ∉ (tagSides tag isMatch (s + 1) rest).tagged := fun hmem => by
      have := (exists_of_mem_tagSides hmem).1
      omega
    rw [tagSides]
    split
    · simp [mapIdx_self]
    · simp only [List.mapIdx_cons, Nat.add_zero, hlater, if_false, Nat.add_succ, ← Nat.succ_add]
      exact congrArg (side :: ·) (ih (s + 1))
    · simp only [List.mapIdx_cons, Nat.add_zero, List.mem_cons_self, if_true]
      refine congrArg (markSide tag side :: ·) ((ih (s + 1)).trans ?_)
      refine List.ext_getElem (by simp) fun k _ _ => ?_
      simp only [List.getElem_mapIdx, List.mem_cons, show s + (k + 1) = s + 1 + k by omega,
        show s + 1 + k ≠ s by omega, false_or]

/-- Exactly the tagged sides get the tag, and the cells that they belong to. -/
theorem cells_tagCellSides (tag : TagId) (isMatch : Cell α → CellSide → Except (Error α) Bool)
    (id : ℕ) (cells : List (Cell α)) : (tagCellSides tag isMatch id cells).cells =
      cells.mapIdx fun i c =>
        markCell tag (sidesOfCell (tagCellSides tag isMatch id cells).tagged (id + i)) c := by
  induction cells generalizing id with
  | nil => rfl
  | cons c rest ih =>
    have hcell : { c with
          sides := (tagSides tag (isMatch c) 0 c.sides).sides
          boundaryIds := if (tagSides tag (isMatch c) 0 c.sides).tagged.isEmpty then c.boundaryIds
            else tag.adjoin c.boundaryIds } =
        markCell tag (tagSides tag (isMatch c) 0 c.sides).tagged c := by
      rw [sides_tagSides, markCell]
      simp only [Nat.zero_add]
    have hother (i : ℕ) :
        sidesOfCell ((tagSides tag (isMatch c) 0 c.sides).tagged.map fun s => (id, s))
          (id + (i + 1)) = [] := sidesOfCell_eq_nil (by simp)
    have hlater : sidesOfCell (tagCellSides tag isMatch (id + 1) rest).tagged id = [] :=
      sidesOfCell_eq_nil fun ref href => by
        have := (exists_of_mem_tagCellSides href).1
        omega
    rw [tagCellSides]
    dsimp only
    split
    · simp only [List.mapIdx_cons, Nat.add_zero, sidesOfCell_map, hother, markCell_nil, mapIdx_self]
      exact congrArg (· :: rest) hcell
    · simp only [List.mapIdx_cons, Nat.add_zero, sidesOfCell_append, sidesOfCell_map, hlater,
        List.append_nil, hother, List.nil_append]
      refine congrArg₂ List.cons hcell ((ih (id + 1)).trans ?_)
      simp only [Nat.add_assoc, Nat.add_comm 1]

/-- Exactly the tagged cells get the tag. -/
theorem cells_tagCells (tag : TagId) (isMatch : ℕ → Cell α → Except (Error α) Bool) (id : ℕ)
    (cells : List (Cell α)) : (tagCells tag isMatch id cells).cells = cells.mapIdx fun i c =>
      if id + i ∈ (tagCells tag isMatch id cells).tagged then
        { c with subdomainIds := tag.adjoin c.subdomainIds } else c := by
  induction cells generalizing id with
  | nil => rfl
  | cons c rest ih =>
    have hlater : id ∉ (tagCells tag isMatch (id + 1) rest).tagged := fun hmem => by
      have := (exists_of_mem_tagCells hmem).1
      omega
    rw [tagCells]
    split
    · simp [mapIdx_self]
    · simp only [List.mapIdx_cons, Nat.add_zero, hlater, if_false, Nat.add_succ, ← Nat.succ_add]
      exact congrArg (c :: ·) (ih (id + 1))
    · simp only [List.mapIdx_cons, Nat.add_zero, List.mem_cons_self, if_true]
      refine congrArg (_ :: ·) ((ih (id + 1)).trans ?_)
      refine List.ext_getElem (by simp) fun i _ _ => ?_
      simp only [List.getElem_mapIdx, List.mem_cons, show id + (i + 1) = id + 1 + i by omega,
        show id + 1 + i ≠ id by omega, false_or]

end Marks

end Mesh
end WeakForm
