import Mathlib.Data.List.OfFn
import Mathlib.Tactic
import WeakForm.Proofs.Assembly.IndexLists
import WeakForm.Proofs.Linear.SparseEntries
import WeakForm.Proofs.Tensor.Maps

/-!
# Blocks in a global matrix

A block has, at a row and a column of the global matrix, the entries at all pairs of positions
whose indices are these. Triplet assembly adds all of them to the matrix. Direct assembly keeps
only the last one, so what it leaves out is the sum of the others, the overwritten entries of the
block. There are none when the indices of the block are distinct.
-/

namespace WeakForm
namespace Assembly

theorem positionPairs_eq (n : ℕ) : positionPairs n = List.range n ×ˢ List.range n := rfl

theorem mem_positionPairs {n : ℕ} {pq : ℕ × ℕ} :
    pq ∈ positionPairs n ↔ pq.1 < n ∧ pq.2 < n := by
  rw [positionPairs_eq, List.mem_product, List.mem_range, List.mem_range]

theorem product_self_eq_map (dofs : List ℕ) :
    dofs ×ˢ dofs =
      (positionPairs dofs.length).map fun pq => (dofs.getD pq.1 0, dofs.getD pq.2 0) := by
  have hd : dofs = (List.range dofs.length).map fun p => dofs.getD p 0 := by
    apply List.ext_getElem (by simp)
    intro p hp _
    simp [hp]
  conv_lhs => rw [hd]
  simp only [positionPairs, SProd.sprod, List.product, List.flatMap_map, List.map_flatMap,
    List.map_map]
  rfl

namespace Block

variable (b : Block (DenseMatrix ℝ))

/-- The entries form a matrix with a row and a column per index. -/
structure IsSquare : Prop where
  rows : b.entries.rows = b.dofs.length
  cols : b.entries.cols = b.dofs.length

/-- The pairs of positions at which the block has row `i` and column `j`, in writing order. -/
def placesAt (i j : ℕ) : List (ℕ × ℕ) :=
  (positionPairs b.dofs.length).filter fun pq => b.dofs[pq.1]? = some i ∧ b.dofs[pq.2]? = some j

def entryAt (pq : ℕ × ℕ) : ℝ := b.entries.entry pq.1 pq.2

/-- The sum of all entries of the block at row `i` and column `j`. -/
def spread (i j : ℕ) : ℝ := ((b.placesAt i j).map b.entryAt).sum

/-- The last entry of the block at row `i` and column `j`. -/
def kept (i j : ℕ) : ℝ := ((b.placesAt i j).getLast?.map b.entryAt).getD 0

/-- The sum of the entries at row `i` and column `j` that are followed by another one there. -/
def overwritten (i j : ℕ) : ℝ := ((b.placesAt i j).dropLast.map b.entryAt).sum

theorem spread_eq_add (i j : ℕ) : b.spread i j = b.overwritten i j + b.kept i j := by
  unfold spread overwritten kept
  induction b.placesAt i j using List.reverseRecOn with
  | nil => simp
  | append_singleton places pq _ => simp

/-- The position of an index among distinct ones is unique. -/
theorem length_placesAt_le_one (h : b.dofs.Nodup) (i j : ℕ) : (b.placesAt i j).length ≤ 1 := by
  have hpairs : (positionPairs b.dofs.length).Nodup := by
    rw [positionPairs_eq]
    exact List.nodup_range.product List.nodup_range
  have heq : ∀ x ∈ b.placesAt i j, ∀ y ∈ b.placesAt i j, x = y := by
    intro x hx y hy
    simp only [placesAt, List.mem_filter, mem_positionPairs, decide_eq_true_eq] at hx hy
    obtain ⟨⟨hx₁, hx₂⟩, hxi, hxj⟩ := hx
    obtain ⟨-, hyi, hyj⟩ := hy
    exact Prod.ext ((List.getElem?_inj hx₁ h).mp (hxi.trans hyi.symm))
      ((List.getElem?_inj hx₂ h).mp (hxj.trans hyj.symm))
  have hnodup : (b.placesAt i j).Nodup := hpairs.filter _
  match hplaces : b.placesAt i j with
  | [] => simp
  | [_] => simp
  | x :: y :: rest =>
    rw [hplaces] at heq hnodup
    have hxy : x = y := heq x (by simp) y (by simp)
    simp [hxy] at hnodup

theorem overwritten_eq_zero (h : b.dofs.Nodup) (i j : ℕ) : b.overwritten i j = 0 := by
  have hlen := b.length_placesAt_le_one h i j
  have hdrop : (b.placesAt i j).dropLast = [] := by
    apply List.eq_nil_of_length_eq_zero
    rw [List.length_dropLast]
    omega
  rw [overwritten, hdrop]
  rfl

end Block

section TripletAssembly

/-- The triplets of a block. -/
def blockTriplets (b : Block (DenseMatrix ℝ)) : List (SparseMatrix.Triplet ℝ) :=
  (positionPairs b.dofs.length).map fun pq =>
    ⟨b.dofs.getD pq.1 0, b.dofs.getD pq.2 0, b.entryAt pq⟩

theorem toList_data_square {b : Block (DenseMatrix ℝ)} (h : b.IsSquare) :
    b.entries.data.toList = (positionPairs b.dofs.length).map b.entryAt := by
  change _ = ((List.range b.dofs.length).flatMap fun p => (List.range b.dofs.length).map (Prod.mk p)).map _
  rw [DenseMatrix.toList_data, h.rows, List.map_flatMap]
  refine List.flatMap_congr fun p _ => ?_
  rw [DenseMatrix.row, h.cols, List.map_map]
  rfl

/-- The indices of all blocks and their entries are in the same order. -/
theorem triplets_eq {blocks : List (Block (DenseMatrix ℝ))} (h : ∀ b ∈ blocks, b.IsSquare) :
    triplets blocks = blocks.flatMap blockTriplets := by
  have hdof : blocks.flatMap Block.dofs = (blocks.map Block.dofs).flatten := List.flatMap_def
  have hsizes : (blocks.map fun b => b.dofs.length) = (blocks.map Block.dofs).map List.length := by
    rw [List.map_map]
    rfl
  simp only [triplets]
  rw [hdof, hsizes,
    (tripletIndices_holds (start_le_size (blocks.map Block.dofs))).zip,
    allPairs_flatten, List.flatMap_map, zipWith_flatMap]
  · apply List.flatMap_congr
    intro b hb
    rw [product_self_eq_map, toList_data_square (h b hb), List.zipWith_map_left,
      List.zipWith_map_right, List.zipWith_self]
    rfl
  · intro b hb
    rw [product_self_eq_map, toList_data_square (h b hb), List.length_map, List.length_map]

theorem length_data_square {b : Block (DenseMatrix ℝ)} (h : b.IsSquare) :
    b.entries.data.toList.length = b.dofs.length * b.dofs.length := by
  rw [Array.length_toList, b.entries.size_data, h.rows, h.cols]

/-- The value of an entry is behind those of all blocks before. -/
theorem getElem?_entries {blocks : List (Block (DenseMatrix ℝ))} (h : ∀ b ∈ blocks, b.IsSquare)
    {e : ℕ} {b : Block (DenseMatrix ℝ)} (hb : blocks[e]? = some b) {i j : ℕ}
    (hi : i < b.dofs.length) (hj : j < b.dofs.length) :
    (blocks.flatMap fun b => b.entries.data.toList)[
      entriesOf ((blocks.map Block.dofs).take e) + (i * b.dofs.length + j)]? =
        some (b.entries.entry i j) := by
  have hsquare : b.IsSquare := h b (List.mem_of_getElem? hb)
  have hplace : ((blocks.take e).map fun b => b.entries.data.toList.length).sum =
      entriesOf ((blocks.map Block.dofs).take e) := by
    rw [entriesOf, ← List.map_take, List.map_map]
    exact congrArg List.sum
      (List.map_congr_left fun c hc => length_data_square (h c (List.mem_of_mem_take hc)))
  have hlt : i * b.dofs.length + j < b.entries.data.toList.length := by
    rw [length_data_square hsquare]
    exact DenseMatrix.index_lt hi hj
  rw [← hplace, getElem?_flatMap_of_lt (f := fun b => b.entries.data.toList) hb hlt,
    List.getElem?_eq_getElem hlt, DenseMatrix.entry, hsquare.cols, if_pos hj]
  rw [Array.length_toList] at hlt
  simp [hlt]

/-- The index lists of blocks of any lengths, empty ones among them. No index is read outside its
array, every cell of the lists is written once and none outside, and the number of cells written is
the sum of the squared lengths. The indices of entry `(i, j)` of a block are behind those of all blocks
before, where its value is among the values of all blocks. -/
theorem index_lists_complete (blocks : List (List ℕ)) :
    fillIndices blocks.flatten.toArray (starts (blocks.map List.length)) =
        some (.full (blockIndices blocks)) ∧
      (blockIndices blocks).IsComplete blocks ∧
      ∀ parts : List (Block (DenseMatrix ℝ)), parts.map Block.dofs = blocks →
        (∀ part ∈ parts, part.IsSquare) → ∀ e part, parts[e]? = some part →
        ∀ i j, i < part.dofs.length → j < part.dofs.length →
        (parts.flatMap fun part => part.entries.data.toList)[
          entriesOf (blocks.take e) + (i * part.dofs.length + j)]? = some (part.entries.entry i j) := by
  refine ⟨fillIndices_eq (start_le_size blocks),
    isComplete_blockIndices blocks, ?_⟩
  rintro parts rfl hsquare e part hpart i j hi hj
  exact getElem?_entries hsquare hpart hi hj

theorem getD_eq_iff {dofs : List ℕ} {p : ℕ} (hp : p < dofs.length) (i : ℕ) :
    dofs.getD p 0 = i ↔ dofs[p]? = some i := by
  simp [hp]

theorem sum_filter_eq {β : Type} (P : β → Bool) (f : β → ℝ) (items : List β) :
    ((items.filter P).map f).sum = (items.map fun x => if P x then f x else 0).sum := by
  induction items with
  | nil => rfl
  | cons x items ih => by_cases h : P x <;> simp [h, ih]

theorem tripletSum_blockTriplets (b : Block (DenseMatrix ℝ)) (i j : ℕ) :
    SparseMatrix.tripletSum (blockTriplets b) i j = b.spread i j := by
  unfold SparseMatrix.tripletSum blockTriplets Block.spread Block.placesAt
  rw [List.map_map, sum_filter_eq]
  congr 1
  apply List.map_congr_left
  intro pq hpq
  obtain ⟨hp, hq⟩ := mem_positionPairs.mp hpq
  simp only [Function.comp_apply, getD_eq_iff hp, getD_eq_iff hq, decide_eq_true_eq]

theorem tripletSum_flatMap {ι : Type} (f : ι → List (SparseMatrix.Triplet ℝ)) (items : List ι)
    (i j : ℕ) :
    SparseMatrix.tripletSum (items.flatMap f) i j =
      (items.map fun x => SparseMatrix.tripletSum (f x) i j).sum := by
  induction items with
  | nil => rfl
  | cons x items ih =>
    rw [List.map_cons, List.sum_cons, ← ih]
    simp [SparseMatrix.tripletSum]

/-- Triplet assembly adds up the entries of all blocks. -/
theorem entry_triplet {blocks : List (Block (DenseMatrix ℝ))} (h : ∀ b ∈ blocks, b.IsSquare)
    {n i j : ℕ} (hi : i < n) :
    (triplet n blocks).entry i j = (blocks.map fun b => b.spread i j).sum := by
  rw [triplet, SparseMatrix.entry_ofTriplets _ hi, triplets_eq h, tripletSum_flatMap]
  simp only [tripletSum_blockTriplets]

end TripletAssembly

section DirectAssembly

/-- What direct assembly writes for a pair of positions of a block. -/
def update (A : SparseMatrix ℝ) (b : Block (DenseMatrix ℝ)) (pq : ℕ × ℕ) :
    SparseMatrix.Triplet ℝ :=
  let i := b.dofs.getD pq.1 0
  let j := b.dofs.getD pq.2 0
  ⟨i, j, A.entry i j + b.entryAt pq⟩

theorem addDirect_eq (A : SparseMatrix ℝ) (b : Block (DenseMatrix ℝ)) :
    addDirect A b =
      (positionPairs b.dofs.length).foldl (fun B pq => B.assign (update A b pq)) A := rfl

theorem filter_update (A : SparseMatrix ℝ) (b : Block (DenseMatrix ℝ)) (i j : ℕ) :
    ((positionPairs b.dofs.length).filter fun pq =>
      (update A b pq).row = i ∧ (update A b pq).col = j) = b.placesAt i j := by
  apply List.filter_congr
  intro pq hpq
  obtain ⟨hp, hq⟩ := mem_positionPairs.mp hpq
  simp only [update, getD_eq_iff hp, getD_eq_iff hq]

/-- Of the entries of a block at one place direct assembly adds the last one. -/
theorem entry_addDirect (A : SparseMatrix ℝ) (b : Block (DenseMatrix ℝ)) {i j : ℕ}
    (hi : i < A.data.size) : (addDirect A b).entry i j = A.entry i j + b.kept i j := by
  rw [addDirect_eq, SparseMatrix.entry_foldl_assign _ _ _ hi, filter_update, Block.kept]
  match hlast : (b.placesAt i j).getLast? with
  | none => simp
  | some pq =>
    have hmem : pq ∈ b.placesAt i j := List.mem_of_getLast? hlast
    simp only [Block.placesAt, List.mem_filter, mem_positionPairs, decide_eq_true_eq] at hmem
    obtain ⟨⟨hp, hq⟩, hpi, hqj⟩ := hmem
    simp [update, hpi, hqj]

theorem size_foldl_addDirect {α : Type} [Scalar α] (blocks : List (Block (DenseMatrix α)))
    (A : SparseMatrix α) :
    let B := blocks.foldl addDirect A
    B.rows = A.rows ∧ B.cols = A.cols ∧ B.data.size = A.data.size := by
  induction blocks generalizing A with
  | nil => exact ⟨rfl, rfl, rfl⟩
  | cons b blocks ih =>
    obtain ⟨hr, hc, hd⟩ := ih (addDirect A b)
    obtain ⟨hr', hc', hd'⟩ := SparseMatrix.size_foldl_assign
      (fun pq : ℕ × ℕ => ⟨b.dofs.getD pq.1 0, b.dofs.getD pq.2 0,
        A.entry (b.dofs.getD pq.1 0) (b.dofs.getD pq.2 0) + b.entries.entry pq.1 pq.2⟩)
      (positionPairs b.dofs.length) A
    exact ⟨hr.trans hr', hc.trans hc', hd.trans hd'⟩

theorem entry_foldl_addDirect (blocks : List (Block (DenseMatrix ℝ))) (A : SparseMatrix ℝ)
    {i j : ℕ} (hi : i < A.data.size) :
    (blocks.foldl addDirect A).entry i j =
      A.entry i j + (blocks.map fun b => b.kept i j).sum := by
  induction blocks generalizing A with
  | nil => simp
  | cons b blocks ih =>
    have hs : i < (addDirect A b).data.size := by
      rw [addDirect_eq, (SparseMatrix.size_foldl_assign _ _ _).2.2]
      exact hi
    rw [List.foldl_cons, ih _ hs, entry_addDirect A b hi, List.map_cons, List.sum_cons, add_assoc]

/-- Direct assembly adds up the last entries of all blocks. -/
theorem entry_direct (blocks : List (Block (DenseMatrix ℝ))) {n i j : ℕ} (hi : i < n) :
    (direct n blocks).entry i j = (blocks.map fun b => b.kept i j).sum := by
  rw [direct, entry_foldl_addDirect _ _ (by simpa [SparseMatrix.empty] using hi),
    SparseMatrix.entry_empty, zero_add]

@[simp] theorem rows_direct {α : Type} [Scalar α] (n : ℕ) (blocks : List (Block (DenseMatrix α))) :
    (direct n blocks).rows = n := (size_foldl_addDirect blocks _).1

@[simp] theorem cols_direct {α : Type} [Scalar α] (n : ℕ) (blocks : List (Block (DenseMatrix α))) :
    (direct n blocks).cols = n := (size_foldl_addDirect blocks _).2.1

end DirectAssembly

/-- The two ways of assembly agree exactly if the overwritten entries add up to zero at each
place. -/
theorem direct_eq_triplet_iff {blocks : List (Block (DenseMatrix ℝ))}
    (h : ∀ b ∈ blocks, b.IsSquare) (n : ℕ) :
    (direct n blocks).toDense = (triplet n blocks).toDense ↔
      ∀ i j, i < n → j < n → (blocks.map fun b => b.overwritten i j).sum = 0 := by
  rw [SparseMatrix.toDense_eq_iff (by simp [triplet]) (by simp [triplet]), rows_direct,
    cols_direct]
  refine forall_congr' fun i => forall_congr' fun j => forall_congr' fun hi => forall_congr'
    fun hj => ?_
  rw [entry_direct _ hi, entry_triplet h hi]
  simp only [Block.spread_eq_add, List.sum_map_add]
  constructor
  · intro he
    linarith
  · intro he
    linarith

end Assembly
end WeakForm
