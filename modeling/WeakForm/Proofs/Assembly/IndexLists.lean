import Mathlib.Algebra.BigOperators.Group.List.Basic
import Mathlib.Data.List.ProdSigma
import Mathlib.Tactic
import WeakForm.Assembly
import WeakForm.Proofs.Lists

/-!
# Index lists

The index lists of a list of blocks hold, block after block, all pairs of indices of the block row
by row. The invariant of the writing loop says which pairs are written already and how many places
are still free; the number of entries is exactly the number of places, so none is left at the end.

The loop checks nothing. Run with checks, from empty cells, it stops as soon as it would read outside
an array, or write outside one or into a cell that is full. Either way it gets to the end, with the same
lists: nothing is used of reading and writing but that they work in range.
-/

namespace WeakForm
namespace Assembly

/-- The lists hold the given pairs and have `free` places more. -/
structure IndexLists.Holds (lists : IndexLists) (pairs : List (ℕ × ℕ)) (free : ℕ) : Prop where
  rows : lists.rows.toList = pairs.map Prod.fst ++ List.replicate free 0
  cols : lists.cols.toList = pairs.map Prod.snd ++ List.replicate free 0
  next : lists.next = pairs.length

namespace IndexLists

theorem holds_blank (size : ℕ) : (blank size).Holds [] size :=
  ⟨by simp [blank], by simp [blank], rfl⟩

theorem set_append_replicate {β : Type} (xs : List β) (free : ℕ) (x z : β) :
    (xs ++ List.replicate (free + 1) z).set xs.length x =
      xs ++ [x] ++ List.replicate free z := by
  rw [List.set_append_right _ _ le_rfl, Nat.sub_self, List.replicate_succ, List.set_cons_zero,
    List.append_assoc, List.singleton_append]

theorem Holds.write {lists : IndexLists} {pairs : List (ℕ × ℕ)} {free : ℕ}
    (h : lists.Holds pairs (free + 1)) (row col : ℕ) :
    (lists.write row col).Holds (pairs ++ [(row, col)]) free := by
  have hr := set_append_replicate (pairs.map Prod.fst) free row 0
  have hc := set_append_replicate (pairs.map Prod.snd) free col 0
  rw [List.length_map] at hr hc
  refine ⟨?_, ?_, ?_⟩
  · rw [IndexLists.write, Array.toList_setIfInBounds, h.rows, h.next, hr, List.map_append]
    rfl
  · rw [IndexLists.write, Array.toList_setIfInBounds, h.cols, h.next, hc, List.map_append]
    rfl
  · rw [IndexLists.write, h.next, List.length_append]
    rfl

theorem Holds.zip {lists : IndexLists} {pairs : List (ℕ × ℕ)} (h : lists.Holds pairs 0) :
    lists.rows.toList.zip lists.cols.toList = pairs := by
  rw [h.rows, h.cols, List.replicate_zero, List.append_nil, List.append_nil]
  induction pairs with
  | nil => rfl
  | cons p pairs ih => simp [List.zip_map']

end IndexLists

/-- The place where block `e` starts. -/
def start (ptr : Array ℕ) (e : ℕ) : ℕ := ptr.getD e 0

/-- The pairs of indices of block `e`, row by row. -/
def blockPairs (dof ptr : Array ℕ) (e : ℕ) : List (ℕ × ℕ) :=
  let indices := (span (start ptr e) (start ptr (e + 1))).map fun i => dof.getD i 0
  indices ×ˢ indices

theorem length_blockPairs (dof ptr : Array ℕ) (e : ℕ) :
    (blockPairs dof ptr e).length =
      (start ptr (e + 1) - start ptr e) * (start ptr (e + 1) - start ptr e) := by
  rw [blockPairs, List.length_product, List.length_map, span, List.length_range']

/-- The pairs of indices of all blocks. -/
def allPairs (dof ptr : Array ℕ) : List (ℕ × ℕ) :=
  (List.range (ptr.size - 1)).flatMap (blockPairs dof ptr)

/-!
## The loop
-/

section Loop

variable {m : Type → Type} [Monad m] [LawfulMonad m] {σ : Type} {access : Access m σ}
  {Holds : σ → List (ℕ × ℕ) → ℕ → Prop} {dof ptr : Array ℕ} {e : ℕ}

/-- A step goes through wherever there is room for the given pairs, and writes just these. -/
def Writes (Holds : σ → List (ℕ × ℕ) → ℕ → Prop) (step : σ → m σ) (pairs : List (ℕ × ℕ)) : Prop :=
  ∀ ⦃lists done free⦄, Holds lists done (pairs.length + free) →
    ∃ lists', step lists = pure lists' ∧ Holds lists' (done ++ pairs) free

/-- A loop goes through if all of its steps do. -/
theorem writes_foldlM {ι : Type} {items : List ι} {step : σ → ι → m σ} {pairs : ι → List (ℕ × ℕ)}
    (h : ∀ x ∈ items, Writes Holds (fun lists => step lists x) (pairs x)) :
    Writes Holds (fun lists => items.foldlM step lists) (items.flatMap pairs) := by
  induction items with
  | nil =>
    intro lists done free hlists
    exact ⟨lists, rfl, by simpa using hlists⟩
  | cons x items ih =>
    obtain ⟨hx, hitems⟩ := List.forall_mem_cons.mp h
    intro lists done free hlists
    rw [List.flatMap_cons, List.length_append, Nat.add_assoc] at hlists
    obtain ⟨lists₁, hstep, hlists₁⟩ := hx hlists
    obtain ⟨lists₂, hrest, hlists₂⟩ := ih hitems hlists₁
    refine ⟨lists₂, ?_, ?_⟩
    · simp only [List.foldlM_cons, hstep, pure_bind]
      exact hrest
    · rw [List.flatMap_cons, ← List.append_assoc]
      exact hlists₂

/-- Reading within an array gives what is there, and a pair is written wherever there is room. -/
structure Access.IsFaithful (access : Access m σ) (Holds : σ → List (ℕ × ℕ) → ℕ → Prop) : Prop where
  read_eq : ∀ (xs : Array ℕ) (i : ℕ), i < xs.size → access.read xs i = pure (xs.getD i 0)
  writes : ∀ row col, Writes Holds (fun lists => access.write lists row col) [(row, col)]

namespace Access.IsFaithful

variable (h : access.IsFaithful Holds)
include h

omit [LawfulMonad m] in
theorem read_start (he : e < ptr.size) : access.read ptr e = pure (start ptr e) := h.read_eq ptr e he

theorem entryCount_eq (dof ptr : Array ℕ) :
    access.entryCount ptr = pure (allPairs dof ptr).length := by
  have hloop (es : List ℕ) (hes : ∀ e ∈ es, e + 1 < ptr.size) (count : ℕ) :
      es.foldlM (fun count e => do
        let n := (← access.read ptr (e + 1)) - (← access.read ptr e)
        pure (count + n * n)) count = pure (count + (es.flatMap (blockPairs dof ptr)).length) := by
    induction es generalizing count with
    | nil => rfl
    | cons e es ih =>
      obtain ⟨he, hes⟩ := List.forall_mem_cons.mp hes
      rw [List.foldlM_cons, h.read_start he, h.read_start (Nat.lt_of_succ_lt he), pure_bind, pure_bind,
        pure_bind, ih hes, List.flatMap_cons, List.length_append, length_blockPairs, Nat.add_assoc]
  have hall := hloop (List.range (ptr.size - 1)) (fun e he => by
    have := List.mem_range.mp he
    omega) 0
  rwa [Nat.zero_add] at hall

/-- The indices of a block are all there, so its pairs are written. -/
theorem writes_writeBlock (he : e + 1 < ptr.size) (hdof : start ptr (e + 1) ≤ dof.size) :
    Writes Holds (fun lists => access.writeBlock dof ptr lists e) (blockPairs dof ptr e) := by
  have hread {i : ℕ} (hi : i ∈ span (start ptr e) (start ptr (e + 1))) :
      access.read dof i = pure (dof.getD i 0) := by
    obtain ⟨k, hk, rfl⟩ := List.mem_range'.mp hi
    exact h.read_eq dof _ (by omega)
  have hpairs : blockPairs dof ptr e =
      (span (start ptr e) (start ptr (e + 1))).flatMap fun i =>
        (span (start ptr e) (start ptr (e + 1))).flatMap fun j => [(dof.getD i 0, dof.getD j 0)] := by
    simp only [blockPairs, SProd.sprod, List.product, List.flatMap_map, List.map_map,
      ← List.map_eq_flatMap]
    rfl
  rw [hpairs]
  simp only [writeBlock, h.read_start he, h.read_start (Nat.lt_of_succ_lt he), pure_bind]
  refine writes_foldlM fun i hi => writes_foldlM fun j hj => ?_
  simp only [hread hi, hread hj, pure_bind]
  exact h.writes _ _

/-- If no block ends behind the last index, then the loop goes through from lists without pairs, and in
the end no place is free. -/
theorem exists_writeBlocks {blank : ℕ → σ} (hblank : ∀ size, Holds (blank size) [] size)
    (hdof : ∀ e, start ptr e ≤ dof.size) :
    ∃ lists, access.writeBlocks dof ptr blank = pure lists ∧ Holds lists (allPairs dof ptr) 0 := by
  have hwrites : Writes Holds
      (fun lists => (List.range (ptr.size - 1)).foldlM (access.writeBlock dof ptr) lists)
      (allPairs dof ptr) := by
    refine writes_foldlM fun e he => h.writes_writeBlock ?_ (hdof _)
    have := List.mem_range.mp he
    omega
  obtain ⟨lists, hlists, hholds⟩ := hwrites (hblank _)
  refine ⟨lists, ?_, hholds⟩
  rw [writeBlocks, h.entryCount_eq dof, pure_bind]
  exact hlists

end Access.IsFaithful

end Loop

theorem isFaithful_unchecked : unchecked.IsFaithful IndexLists.Holds where
  read_eq _ _ _ := rfl
  writes row col lists done free h := by
    rw [List.length_singleton, Nat.add_comm] at h
    exact ⟨_, rfl, h.write row col⟩

/-- All places are written, each with its pair. -/
theorem tripletIndices_holds {dof ptr : Array ℕ} (hdof : ∀ e, start ptr e ≤ dof.size) :
    (tripletIndices dof ptr).Holds (allPairs dof ptr) 0 := by
  obtain ⟨lists, hlists, hholds⟩ :=
    isFaithful_unchecked.exists_writeBlocks IndexLists.holds_blank hdof
  rw [tripletIndices, hlists]
  exact hholds

/-!
## Where blocks start
-/

theorem starts_concat (sizes : List ℕ) (n : ℕ) :
    starts (sizes ++ [n]) = (starts sizes).push ((starts sizes).back?.getD 0 + n) := by
  simp [starts]

theorem size_starts (sizes : List ℕ) : (starts sizes).size = sizes.length + 1 := by
  induction sizes using List.reverseRecOn with
  | nil => rfl
  | append_singleton sizes n ih => simp [starts_concat, ih]

/-- A block starts behind all entries of the blocks before it. -/
theorem start_starts (sizes : List ℕ) {e : ℕ} (he : e ≤ sizes.length) :
    start (starts sizes) e = (sizes.take e).sum := by
  induction sizes using List.reverseRecOn generalizing e with
  | nil => simp_all [starts, start]
  | append_singleton sizes n ih =>
    have hlast : (starts sizes).back?.getD 0 = sizes.sum := by
      have h := ih le_rfl
      rw [List.take_length] at h
      rw [← h, start, Array.back?_eq_getElem?, size_starts, Array.getD_eq_getD_getElem?]
      rfl
    rw [starts_concat, hlast, start, Array.getD_eq_getD_getElem?, Array.getElem?_push, size_starts]
    by_cases hn : e = sizes.length + 1
    · simp [hn]
    · have he' : e ≤ sizes.length := by simp at he; omega
      have h := ih he'
      rw [start, Array.getD_eq_getD_getElem?] at h
      rw [if_neg hn, h, List.take_append_of_le_length he']

theorem map_range'_getD (xs : List ℕ) {a n : ℕ} (h : a + n ≤ xs.length) :
    (List.range' a n).map (fun i => xs.getD i 0) = (xs.drop a).take n := by
  apply List.ext_getElem
  · simp; omega
  · intro k hk hk'
    have hlt : a + k < xs.length := by simp at hk; omega
    simp [hlt]

/-- A block is found again among the concatenated ones from the place where it starts. -/
theorem take_drop_flatten (blocks : List (List ℕ)) {e : ℕ} (he : e < blocks.length) :
    (blocks.flatten.drop ((blocks.map List.length).take e).sum).take blocks[e].length =
      blocks[e] := by
  induction blocks generalizing e with
  | nil => simp at he
  | cons b blocks ih =>
    cases e with
    | zero => simp
    | succ e =>
      have := ih (Nat.lt_of_succ_lt_succ he)
      rw [List.map_cons, List.take_succ_cons, List.sum_cons, List.flatten_cons,
        List.drop_length_add_append]
      exact this

theorem sum_take_add_length_le (blocks : List (List ℕ)) {e : ℕ} (he : e < blocks.length) :
    ((blocks.map List.length).take e).sum + blocks[e].length ≤ blocks.flatten.length := by
  rw [List.length_flatten, ← List.sum_take_add_sum_drop (blocks.map List.length) e]
  have hd : (blocks.map List.length).drop e =
      blocks[e].length :: (blocks.map List.length).drop (e + 1) := by
    rw [List.drop_eq_getElem_cons (by simpa using he)]
    simp
  rw [hd, List.sum_cons]
  omega

theorem blockPairs_flatten (blocks : List (List ℕ)) {e : ℕ} (he : e < blocks.length) :
    blockPairs blocks.flatten.toArray (starts (blocks.map List.length)) e =
      blocks[e] ×ˢ blocks[e] := by
  have hs : start (starts (blocks.map List.length)) e = ((blocks.map List.length).take e).sum :=
    start_starts _ (by simpa using he.le)
  have hs' : start (starts (blocks.map List.length)) (e + 1) =
      ((blocks.map List.length).take e).sum + blocks[e].length := by
    rw [start_starts _ (by simpa using he), List.sum_take_succ _ _ (by simpa using he)]
    simp
  have hmap : (span (start (starts (blocks.map List.length)) e)
      (start (starts (blocks.map List.length)) (e + 1))).map
        (fun i => blocks.flatten.toArray.getD i 0) = blocks[e] := by
    rw [span, hs, hs', Nat.add_sub_cancel_left]
    simp only [Array.getD_eq_getD_getElem?, List.getElem?_toArray, ← List.getD_eq_getElem?_getD]
    rw [map_range'_getD _ (sum_take_add_length_le blocks he), take_drop_flatten blocks he]
  rw [blockPairs]
  simp only [hmap]

/-- The pairs of concatenated blocks are those of the first block, of the second one, and so on. -/
theorem allPairs_flatten (blocks : List (List ℕ)) :
    allPairs blocks.flatten.toArray (starts (blocks.map List.length)) =
      blocks.flatMap fun b => b ×ˢ b := by
  rw [allPairs, size_starts, List.length_map, Nat.add_sub_cancel, List.flatMap_def,
    List.flatMap_def]
  congr 1
  apply List.ext_getElem (by simp)
  intro e he he'
  have hb : e < blocks.length := by simpa using he
  simp [blockPairs_flatten blocks hb]

theorem start_le_size (blocks : List (List ℕ)) (e : ℕ) :
    start (starts (blocks.map List.length)) e ≤ blocks.flatten.toArray.size := by
  rw [List.size_toArray]
  by_cases he : e ≤ blocks.length
  · rw [start_starts _ (by simpa using he), List.length_flatten,
      ← List.sum_take_add_sum_drop (blocks.map List.length) e]
    exact Nat.le_add_right _ _
  · rw [start, Array.getD_eq_getD_getElem?, Array.getElem?_eq_none]
    · exact Nat.zero_le _
    · rw [size_starts, List.length_map]
      omega

/-!
## Cells
-/

/-- Index lists whose cells are empty until they are written. -/
structure Cells where
  rows : Array (Option ℕ)
  cols : Array (Option ℕ)
  next : ℕ

namespace Cells

def empty (size : ℕ) : Cells := ⟨Array.replicate size none, Array.replicate size none, 0⟩

/-- Fills an empty cell. -/
def fill (cells : Array (Option ℕ)) (k x : ℕ) : Option (Array (Option ℕ)) :=
  if cells[k]? = some none then some (cells.setIfInBounds k (some x)) else none

/-- Fills the next cells. -/
def write (c : Cells) (row col : ℕ) : Option Cells := do
  let rows ← fill c.rows c.next row
  let cols ← fill c.cols c.next col
  pure ⟨rows, cols, c.next + 1⟩

/-- The first cells hold the given pairs and `free` cells behind them are empty. -/
structure Holds (c : Cells) (pairs : List (ℕ × ℕ)) (free : ℕ) : Prop where
  rows : c.rows.toList = pairs.map (fun p => some p.1) ++ List.replicate free none
  cols : c.cols.toList = pairs.map (fun p => some p.2) ++ List.replicate free none
  next : c.next = pairs.length

/-- The cells of index lists, all of which are full. -/
def full (lists : IndexLists) : Cells := ⟨lists.rows.map some, lists.cols.map some, lists.next⟩

theorem holds_empty (size : ℕ) : (empty size).Holds [] size :=
  ⟨by simp [empty], by simp [empty], rfl⟩

theorem fill_of_append {cells : Array (Option ℕ)} {done : List (Option ℕ)} {free : ℕ}
    (h : cells.toList = done ++ List.replicate (free + 1) none) (x : ℕ) :
    ∃ cells', fill cells done.length x = some cells' ∧
      cells'.toList = done ++ [some x] ++ List.replicate free none := by
  have hempty : cells[done.length]? = some none := by
    rw [← Array.getElem?_toList, h, List.getElem?_append_right le_rfl, Nat.sub_self]
    rfl
  refine ⟨_, if_pos hempty, ?_⟩
  rw [Array.toList_setIfInBounds, h, IndexLists.set_append_replicate]

theorem Holds.write {c : Cells} {pairs : List (ℕ × ℕ)} {free : ℕ} (h : c.Holds pairs (free + 1))
    (row col : ℕ) : ∃ c', c.write row col = some c' ∧ c'.Holds (pairs ++ [(row, col)]) free := by
  obtain ⟨rows, hrows, hrows'⟩ := fill_of_append h.rows row
  obtain ⟨cols, hcols, hcols'⟩ := fill_of_append h.cols col
  rw [List.length_map, ← h.next] at hrows hcols
  refine ⟨⟨rows, cols, c.next + 1⟩, ?_, ?_, ?_, ?_⟩
  · simp only [Cells.write, hrows, hcols]
    rfl
  · rw [hrows', List.map_append]
    rfl
  · rw [hcols', List.map_append]
    rfl
  · rw [h.next, List.length_append]
    rfl

end Cells

/-- Reads and writes that stop outside an array, and at a cell that is full. -/
def checked : Access Option Cells := ⟨fun xs i => xs[i]?, Cells.write⟩

/-- The loop of the index lists, run with checks from empty cells. -/
def fillIndices (dof ptr : Array ℕ) : Option Cells := checked.writeBlocks dof ptr .empty

theorem isFaithful_checked : checked.IsFaithful Cells.Holds where
  read_eq xs i hi := by simp [checked, hi]
  writes row col c done free h := by
    rw [List.length_singleton, Nat.add_comm] at h
    exact h.write row col

-- a block that ends behind the last index is noticed
example : (fillIndices #[7, 8] #[0, 2, 3]).isNone = true := by decide

/-- With checks the loop has the same lists. -/
theorem fillIndices_eq {dof ptr : Array ℕ} (hdof : ∀ e, start ptr e ≤ dof.size) :
    fillIndices dof ptr = some (.full (tripletIndices dof ptr)) := by
  obtain ⟨⟨rows, cols, next⟩, hc, hholds⟩ :=
    isFaithful_checked.exists_writeBlocks Cells.holds_empty hdof
  have htotal := tripletIndices_holds hdof
  have hrows : rows = (tripletIndices dof ptr).rows.map some := by
    apply Array.toList_inj.mp
    rw [hholds.rows, Array.toList_map, htotal.rows]
    simp [Function.comp_def]
  have hcols : cols = (tripletIndices dof ptr).cols.map some := by
    apply Array.toList_inj.mp
    rw [hholds.cols, Array.toList_map, htotal.cols]
    simp [Function.comp_def]
  have hnext : next = (tripletIndices dof ptr).next := hholds.next.trans htotal.next.symm
  rw [fillIndices, hc, hrows, hcols, hnext, Cells.full]
  rfl

/-!
## Places of entries
-/

/-- The index lists of a list of blocks. -/
def blockIndices (blocks : List (List ℕ)) : IndexLists :=
  tripletIndices blocks.flatten.toArray (starts (blocks.map List.length))

/-- Number of entries of some blocks. -/
def entriesOf (blocks : List (List ℕ)) : ℕ := (blocks.map fun b => b.length * b.length).sum

/-- The lists have the entries of all blocks and no others. Entry `(i, j)` of a block is behind those of
all blocks before, row by row. -/
structure IndexLists.IsComplete (lists : IndexLists) (blocks : List (List ℕ)) : Prop where
  size_rows : lists.rows.size = entriesOf blocks
  size_cols : lists.cols.size = entriesOf blocks
  next_eq : lists.next = entriesOf blocks
  rows_eq : ∀ e b, blocks[e]? = some b → ∀ i j (hi : i < b.length), j < b.length →
    lists.rows[entriesOf (blocks.take e) + (i * b.length + j)]? = some b[i]
  cols_eq : ∀ e b, blocks[e]? = some b → ∀ i j, i < b.length → ∀ hj : j < b.length,
    lists.cols[entriesOf (blocks.take e) + (i * b.length + j)]? = some b[j]

theorem getElem?_product_self {β : Type} (b : List β) {i j : ℕ} (hi : i < b.length)
    (hj : j < b.length) : (b ×ˢ b)[i * b.length + j]? = some (b[i], b[j]) := by
  have hplace : ((b.take i).map fun x => (b.map (Prod.mk x)).length).sum = i * b.length := by
    simp only [List.length_map, List.map_const', List.sum_replicate, List.length_take, smul_eq_mul]
    rw [Nat.min_eq_left hi.le]
  have hrow := getElem?_flatMap_of_lt (f := fun x => b.map (Prod.mk x)) (i := j)
    (List.getElem?_eq_getElem hi) (by rwa [List.length_map])
  rw [hplace, List.getElem?_map, List.getElem?_eq_getElem hj] at hrow
  exact hrow

/-- The pair of an entry is behind those of all blocks before. -/
theorem getElem?_pairs {blocks : List (List ℕ)} {e : ℕ} {b : List ℕ} (hb : blocks[e]? = some b)
    {i j : ℕ} (hi : i < b.length) (hj : j < b.length) :
    (blocks.flatMap fun b => b ×ˢ b)[entriesOf (blocks.take e) + (i * b.length + j)]? =
      some (b[i], b[j]) := by
  have hpart := getElem?_flatMap_of_lt (f := fun b : List ℕ => b ×ˢ b) (i := i * b.length + j) hb
    (by rw [List.length_product]; exact DenseMatrix.index_lt hi hj)
  simp only [List.length_product] at hpart
  rw [entriesOf, hpart, getElem?_product_self b hi hj]

theorem isComplete_blockIndices (blocks : List (List ℕ)) : (blockIndices blocks).IsComplete blocks := by
  have hholds : (blockIndices blocks).Holds (blocks.flatMap fun b => b ×ˢ b) 0 :=
    allPairs_flatten blocks ▸ tripletIndices_holds (start_le_size blocks)
  have hcount : (blocks.flatMap fun b => b ×ˢ b).length = entriesOf blocks := by
    simp only [List.length_flatMap, List.length_product, entriesOf]
  have hrows : (blockIndices blocks).rows.toList = (blocks.flatMap fun b => b ×ˢ b).map Prod.fst := by
    simpa using hholds.rows
  have hcols : (blockIndices blocks).cols.toList = (blocks.flatMap fun b => b ×ˢ b).map Prod.snd := by
    simpa using hholds.cols
  constructor
  case size_rows => rw [← Array.length_toList, hrows, List.length_map, hcount]
  case size_cols => rw [← Array.length_toList, hcols, List.length_map, hcount]
  case next_eq => exact hholds.next.trans hcount
  case rows_eq =>
    intro e b hb i j hi hj
    rw [← Array.getElem?_toList, hrows, List.getElem?_map, getElem?_pairs hb hi hj]
    rfl
  case cols_eq =>
    intro e b hb i j hi hj
    rw [← Array.getElem?_toList, hcols, List.getElem?_map, getElem?_pairs hb hi hj]
    rfl

end Assembly
end WeakForm
