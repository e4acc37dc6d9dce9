import WeakForm.Proofs.RealScalar
import WeakForm.Linear.Sparse
import Mathlib.Algebra.BigOperators.Group.List.Basic

/-!
# Entries of sparse matrices

What the operations on sparse matrices do to the entries. Changing one entry leaves all others as
they are; triplets add up at each place, and of several values assigned to one place the last one
stays. Rows past the end of a matrix do not exist, so all statements are about rows in range.
-/

namespace WeakForm

namespace SparseRow

variable {α : Type}

theorem lookup_eq_none_of_notMem {row : SparseRow α} {j : ℕ} (h : j ∉ row.columns) :
    row.lookup j = none := by
  rw [List.lookup_eq_none_iff]
  intro e he
  have hj : e.1 ≠ j := fun hej => h (List.mem_map.mpr ⟨e, he, hej⟩)
  simpa using hj.symm

theorem lookup_alter (row : SparseRow α) (j k : ℕ) (f : Option α → Option α) :
    (row.alter j f).lookup k = if k = j then f (row.lookup j) else row.lookup k := by
  unfold alter
  rw [lookup_tabulate]
  by_cases hc : row.columns.contains j = true
  · rw [if_pos hc]
    have hj : j ∈ row.columns := by simpa using hc
    split_ifs with hk hkj hkj
    · rfl
    · rfl
    · exact absurd (hkj ▸ hj) hk
    · exact (lookup_eq_none_of_notMem hk).symm
  · rw [if_neg hc]
    split_ifs with hk hkj hkj
    · rfl
    · rfl
    · exact absurd (by simp [hkj]) hk
    · exact (lookup_eq_none_of_notMem fun hmem => hk (by simp [hmem])).symm

end SparseRow

namespace SparseMatrix

variable {α : Type}

@[simp] theorem size_data_alter (A : SparseMatrix α) (r c : ℕ) (f : Option α → Option α) :
    (A.alter r c f).data.size = A.data.size := by simp [alter]

theorem stored?_alter (A : SparseMatrix α) {r c i j : ℕ} (f : Option α → Option α)
    (hi : i < A.data.size) :
    (A.alter r c f).stored? i j = if i = r ∧ j = c then f (A.stored? r c) else A.stored? i j := by
  unfold stored? alter
  by_cases hr : r = i
  · subst hr
    simp [Array.getElem_modify, hi, SparseRow.lookup_alter]
  · rw [if_neg fun h => hr h.1.symm]
    simp [Array.getElem_modify, hi, hr]

theorem entry_alter [Zero α] (A : SparseMatrix α) {r c i j : ℕ} (f : Option α → Option α)
    (hi : i < A.data.size) :
    (A.alter r c f).entry i j =
      if i = r ∧ j = c then (f (A.stored? r c)).getD 0 else A.entry i j := by
  unfold entry
  rw [stored?_alter A f hi]
  split_ifs <;> rfl

@[simp] theorem entry_empty [Zero α] (m n i j : ℕ) :
    (empty m n : SparseMatrix α).entry i j = 0 := by
  unfold entry stored? empty
  by_cases hi : i < m <;> simp [hi]

/-- Matrices of one size with the same entries are the same once all entries are written out. -/
theorem toDense_eq_iff {A B : SparseMatrix ℝ} (hr : A.rows = B.rows) (hc : A.cols = B.cols) :
    A.toDense = B.toDense ↔ ∀ i j, i < A.rows → j < A.cols → A.entry i j = B.entry i j := by
  constructor
  · intro h i j hi hj
    have he : A.toDense.entry i j = B.toDense.entry i j := by rw [h]
    rwa [toDense, toDense, DenseMatrix.entry_ofFn _ hi hj,
      DenseMatrix.entry_ofFn _ (hr ▸ hi) (hc ▸ hj)] at he
  · intro h
    apply DenseMatrix.ext hr hc
    intro i j hi hj
    change i < A.rows at hi
    change j < A.cols at hj
    rw [toDense, toDense, DenseMatrix.entry_ofFn _ hi hj,
      DenseMatrix.entry_ofFn _ (hr ▸ hi) (hc ▸ hj)]
    exact h i j hi hj

section Triplets

theorem entry_accumulate (A : SparseMatrix ℝ) (t : Triplet ℝ) {i j : ℕ} (hi : i < A.data.size) :
    (A.accumulate t).entry i j = A.entry i j + if t.row = i ∧ t.col = j then t.value else 0 := by
  unfold accumulate
  rw [entry_alter A _ hi]
  by_cases h : i = t.row ∧ j = t.col
  · obtain ⟨rfl, rfl⟩ := h
    simp [entry]
  · rw [if_neg h, if_neg fun ht => h ⟨ht.1.symm, ht.2.symm⟩, add_zero]

/-- The value that a list of triplets has in row `i` and column `j`. -/
def tripletSum (ts : List (Triplet ℝ)) (i j : ℕ) : ℝ :=
  (ts.map fun t => if t.row = i ∧ t.col = j then t.value else 0).sum

theorem entry_foldl_accumulate (ts : List (Triplet ℝ)) (A : SparseMatrix ℝ) {i j : ℕ}
    (hi : i < A.data.size) :
    (ts.foldl accumulate A).entry i j = A.entry i j + tripletSum ts i j := by
  induction ts generalizing A with
  | nil => simp [tripletSum]
  | cons t ts ih =>
    have hs : i < (A.accumulate t).data.size := by rwa [accumulate, size_data_alter]
    rw [List.foldl_cons, ih _ hs, entry_accumulate A t hi, add_assoc]
    rfl

/-- Triplets add up at each place. -/
theorem entry_ofTriplets (ts : List (Triplet ℝ)) {m n i j : ℕ} (hi : i < m) :
    (ofTriplets m n ts).entry i j = tripletSum ts i j := by
  rw [ofTriplets, entry_foldl_accumulate ts _ (by simpa [empty] using hi), entry_empty, zero_add]

variable [Zero α] [Add α]

theorem size_foldl_accumulate (ts : List (Triplet α)) (A : SparseMatrix α) :
    (ts.foldl accumulate A).rows = A.rows ∧ (ts.foldl accumulate A).cols = A.cols := by
  induction ts generalizing A with
  | nil => exact ⟨rfl, rfl⟩
  | cons t ts ih => exact ih _

@[simp] theorem rows_ofTriplets (m n : ℕ) (ts : List (Triplet α)) :
    (ofTriplets m n ts).rows = m := (size_foldl_accumulate ts _).1

@[simp] theorem cols_ofTriplets (m n : ℕ) (ts : List (Triplet α)) :
    (ofTriplets m n ts).cols = n := (size_foldl_accumulate ts _).2

end Triplets

section Assignments

theorem entry_assign (A : SparseMatrix ℝ) (t : Triplet ℝ) {i j : ℕ} (hi : i < A.data.size) :
    (A.assign t).entry i j = if i = t.row ∧ j = t.col then t.value else A.entry i j := by
  unfold assign
  rw [entry_alter A _ hi]
  congr 1
  by_cases hv : t.value = 0 <;> simp [nonzero?, unlessZero, hv]

variable {β : Type} (place : β → Triplet ℝ)

/-- Of the values assigned to one place the last one stays. -/
theorem entry_foldl_assign (items : List β) (A : SparseMatrix ℝ) {i j : ℕ}
    (hi : i < A.data.size) :
    (items.foldl (fun B b => B.assign (place b)) A).entry i j =
      (((items.filter fun b => (place b).row = i ∧ (place b).col = j).getLast?.map
        fun b => (place b).value).getD (A.entry i j)) := by
  induction items generalizing A with
  | nil => rfl
  | cons b items ih =>
    have hs : i < (A.assign (place b)).data.size := by rwa [assign, size_data_alter]
    rw [List.foldl_cons, ih _ hs, entry_assign A _ hi, List.filter_cons]
    by_cases h : (place b).row = i ∧ (place b).col = j
    · obtain ⟨rfl, rfl⟩ := h
      simp only [and_self, decide_true, if_true, List.getLast?_cons]
      cases (items.filter _).getLast? <;> rfl
    · rw [if_neg fun hb => h ⟨hb.1.symm, hb.2.symm⟩]
      simp [h]

theorem size_foldl_assign [Scalar α] (place : β → Triplet α) (items : List β) (A : SparseMatrix α) :
    let B := items.foldl (fun B b => B.assign (place b)) A
    B.rows = A.rows ∧ B.cols = A.cols ∧ B.data.size = A.data.size := by
  induction items generalizing A with
  | nil => exact ⟨rfl, rfl, rfl⟩
  | cons b items ih =>
    obtain ⟨hr, hc, hd⟩ := ih (A.assign (place b))
    exact ⟨hr, hc, hd.trans (size_data_alter A _ _ _)⟩

end Assignments

end SparseMatrix
end WeakForm
