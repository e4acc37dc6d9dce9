import WeakForm.Proofs.Assembly.Blocks
import WeakForm.Proofs.Mesh.Elements

/-!
# Shares of elements

What an element puts into row `i` and column `j` of a global matrix: the sum of the entries of its
own matrix at all pairs of places that carry these indices. Blocks put exactly the shares of their
elements into the global matrix and the global vector.
-/

namespace WeakForm

open Finset

namespace Kernel

section Sizes

variable {α : Type} [Scalar α] {k : Kernel α} {e : Element α}

theorem localMatrix_size {K : DenseMatrix α} (h : k.localMatrix e = .ok K) :
    K.rows = e.dofs ∧ K.cols = e.dofs := by
  unfold localMatrix at h
  obtain ⟨t, -, h⟩ := bind_eq_ok.mp h
  dsimp only at h
  split at h
  · split at h
    · rename_i hsize
      cases h
      exact hsize
    · cases h
  · cases h

theorem localVector_size {v : Array α} (h : k.localVector e = .ok v) : v.size = e.dofs := by
  unfold localVector at h
  obtain ⟨t, -, h⟩ := bind_eq_ok.mp h
  split at h
  · rename_i hsize
    cases h
    exact hsize
  · cases h

/-- The matrix of an element, or an empty one if it has none. -/
def matrixOf (k : Kernel α) (e : Element α) : DenseMatrix α :=
  (k.localMatrix e).toOption.getD (.zero 0 0)

/-- The vector of an element, or an empty one if it has none. -/
def vectorOf (k : Kernel α) (e : Element α) : Array α := (k.localVector e).toOption.getD #[]

theorem matrixOf_eq {K : DenseMatrix α} (h : k.localMatrix e = .ok K) : k.matrixOf e = K := by
  rw [matrixOf, h]
  rfl

theorem vectorOf_eq {v : Array α} (h : k.localVector e = .ok v) : k.vectorOf e = v := by
  rw [vectorOf, h]
  rfl

end Sizes

variable (k : Kernel ℝ) (e : Element ℝ)

/-- The sum of the entries of the matrix of an element whose degrees of freedom have the indices
`i` and `j`. -/
noncomputable def matrixShare (i j : ℕ) : ℝ :=
  ∑ p ∈ range e.dofs, ∑ q ∈ range e.dofs,
    if e.getDof[p]? = some (i : ℤ) ∧ e.getDof[q]? = some (j : ℤ) then (k.matrixOf e).entry p q
    else 0

/-- The sum of the entries of the vector of an element whose degrees of freedom have index `i`. -/
noncomputable def vectorShare (i : ℕ) : ℝ :=
  ∑ p ∈ range e.dofs, if e.getDof[p]? = some (i : ℤ) then (k.vectorOf e).getD p 0 else 0

/-- A matrix is the sum of the matrices of some elements: each of them has one, all its indices are
in range, and every entry is the sum of their shares. -/
structure IsMatrixOver (k : Kernel ℝ) (es : List (Element ℝ)) (n : ℕ) (A : SparseMatrix ℝ) :
    Prop where
  rows : A.rows = n
  cols : A.cols = n
  in_range : ∀ e ∈ es, ∀ d ∈ e.getDof, 0 ≤ d ∧ d < n
  exists_matrix : ∀ e ∈ es, ∃ K, k.localMatrix e = .ok K ∧ K.rows = e.dofs ∧ K.cols = e.dofs
  entry : ∀ i j, i < n → j < n → A.entry i j = (es.map fun e => k.matrixShare e i j).sum

/-- A vector is the sum of the vectors of some elements. -/
structure IsVectorOver (k : Kernel ℝ) (es : List (Element ℝ)) (n : ℕ) (v : Array ℝ) : Prop where
  size : v.size = n
  in_range : ∀ e ∈ es, ∀ d ∈ e.getDof, 0 ≤ d ∧ d < n
  exists_vector : ∀ e ∈ es, ∃ f, k.localVector e = .ok f ∧ f.size = e.dofs
  entry : ∀ i < n, v.getD i 0 = (es.map fun e => k.vectorShare e i).sum

section Reordering

/-- The indices and the local values of an element, on which alone its shares depend. -/
def localData {β : Type} (entries : Element ℝ → Except (Error ℝ) β) (e : Element ℝ) :
    List ℤ × Option β :=
  (e.getDof, (entries e).toOption)

theorem sum_map_of_perm {β : Type} {entries : Element ℝ → Except (Error ℝ) β}
    {es es' : List (Element ℝ)}
    (h : (es'.map (localData entries)).Perm (es.map (localData entries)))
    (share : List ℤ × Option β → ℝ) :
    (es'.map fun e => share (localData entries e)).sum =
      (es.map fun e => share (localData entries e)).sum := by
  have hsum := (h.map share).sum_eq
  rw [List.map_map, List.map_map] at hsum
  exact hsum

variable {k}

theorem sum_matrixShare_of_perm {es es' : List (Element ℝ)}
    (h : (es'.map (localData k.localMatrix)).Perm (es.map (localData k.localMatrix))) (i j : ℕ) :
    (es'.map fun e => k.matrixShare e i j).sum = (es.map fun e => k.matrixShare e i j).sum := by
  let share (d : List ℤ × Option (DenseMatrix ℝ)) : ℝ :=
    ∑ p ∈ range d.1.length, ∑ q ∈ range d.1.length,
      if d.1[p]? = some (i : ℤ) ∧ d.1[q]? = some (j : ℤ) then
        (d.2.getD (.zero 0 0)).entry p q
      else 0
  have hshare (e : Element ℝ) : k.matrixShare e i j = share (localData k.localMatrix e) := by
    simp only [share, localData, matrixShare, matrixOf, Element.length_getDof]
  simp only [hshare]
  exact sum_map_of_perm h share

theorem sum_vectorShare_of_perm {es es' : List (Element ℝ)}
    (h : (es'.map (localData k.localVector)).Perm (es.map (localData k.localVector))) (i : ℕ) :
    (es'.map fun e => k.vectorShare e i).sum = (es.map fun e => k.vectorShare e i).sum := by
  let share (d : List ℤ × Option (Array ℝ)) : ℝ :=
    ∑ p ∈ range d.1.length, if d.1[p]? = some (i : ℤ) then (d.2.getD #[]).getD p 0 else 0
  have hshare (e : Element ℝ) : k.vectorShare e i = share (localData k.localVector e) := by
    simp only [share, localData, vectorShare, vectorOf, Element.length_getDof]
  simp only [hshare]
  exact sum_map_of_perm h share

/-- The order of the elements does not matter. -/
theorem IsMatrixOver.toDense_eq {es es' : List (Element ℝ)} {n : ℕ} {A A' : SparseMatrix ℝ}
    (hA : k.IsMatrixOver es n A) (hA' : k.IsMatrixOver es' n A')
    (h : (es'.map (localData k.localMatrix)).Perm (es.map (localData k.localMatrix))) :
    A'.toDense = A.toDense := by
  rw [SparseMatrix.toDense_eq_iff (hA'.rows.trans hA.rows.symm) (hA'.cols.trans hA.cols.symm)]
  intro i j hi hj
  rw [hA'.rows] at hi
  rw [hA'.cols] at hj
  rw [hA'.entry i j hi hj, hA.entry i j hi hj, sum_matrixShare_of_perm h]

/-- Only the entries of the matrix matter. -/
theorem IsMatrixOver.of_toDense {es : List (Element ℝ)} {n : ℕ} {A B : SparseMatrix ℝ}
    (hA : k.IsMatrixOver es n A) (hrows : B.rows = n) (hcols : B.cols = n)
    (h : B.toDense = A.toDense) : k.IsMatrixOver es n B := by
  refine ⟨hrows, hcols, hA.in_range, hA.exists_matrix, ?_⟩
  intro i j hi hj
  rw [SparseMatrix.toDense_eq_iff (hrows.trans hA.rows.symm) (hcols.trans hA.cols.symm)] at h
  rw [h i j (hrows ▸ hi) (hcols ▸ hj), hA.entry i j hi hj]

theorem IsVectorOver.eq {es es' : List (Element ℝ)} {n : ℕ} {v v' : Array ℝ}
    (hv : k.IsVectorOver es n v) (hv' : k.IsVectorOver es' n v')
    (h : (es'.map (localData k.localVector)).Perm (es.map (localData k.localVector))) : v' = v := by
  apply Array.ext (hv'.size.trans hv.size.symm)
  intro i hi' hi
  have hentry := hv'.entry i (hv'.size ▸ hi')
  rw [sum_vectorShare_of_perm h, ← hv.entry i (hv.size ▸ hi)] at hentry
  simpa [hi, hi'] using hentry

end Reordering

end Kernel

namespace Assembly

section Indices

/-- Indices that are not negative are the same as natural numbers. -/
theorem getElem?_globalDofs {α : Type} {e : Element α} (h : ∀ d ∈ e.getDof, 0 ≤ d) (p i : ℕ) :
    (globalDofs e)[p]? = some i ↔ e.getDof[p]? = some (i : ℤ) := by
  rw [globalDofs, List.getElem?_map, Option.map_eq_some_iff]
  constructor
  · rintro ⟨d, hd, rfl⟩
    rw [hd, Int.toNat_of_nonneg (h d (List.mem_of_getElem? hd))]
  · intro hd
    exact ⟨i, hd, Int.toNat_natCast i⟩

@[simp] theorem length_globalDofs {α : Type} (e : Element α) :
    (globalDofs e).length = e.dofs := by
  rw [globalDofs, List.length_map, Element.length_getDof]

theorem blockOf_eq_ok {β : Type} {entries : Element ℝ → Except (Error ℝ) β} {e : Element ℝ}
    {b : Block β} : blockOf entries e = .ok b ↔ ∃ K, entries e = .ok K ∧ b = ⟨globalDofs e, K⟩ := by
  unfold blockOf
  rw [checkCapacity_real, ok_bind, bind_eq_ok]
  simp only [pure, Except.pure, Except.ok.injEq, eq_comm]

end Indices

section Matrices

theorem sum_positionPairs (n : ℕ) (f : ℕ × ℕ → ℝ) :
    ((positionPairs n).map f).sum = ∑ p ∈ range n, ∑ q ∈ range n, f (p, q) := by
  unfold positionPairs
  rw [List.map_flatMap, List.flatMap_def, List.sum_flatten, List.map_map]
  simp only [Function.comp_def, List.map_map]
  rfl

theorem Block.spread_eq_sum (b : Block (DenseMatrix ℝ)) (i j : ℕ) :
    b.spread i j = ∑ p ∈ range b.dofs.length, ∑ q ∈ range b.dofs.length,
      if b.dofs[p]? = some i ∧ b.dofs[q]? = some j then b.entries.entry p q else 0 := by
  unfold spread placesAt
  rw [sum_filter_eq, sum_positionPairs]
  simp only [decide_eq_true_eq, entryAt]

/-- The block of an element spreads its matrix over the global one. -/
theorem spread_block (k : Kernel ℝ) {e : Element ℝ} (h : ∀ d ∈ e.getDof, 0 ≤ d) (i j : ℕ) :
    Block.spread ⟨globalDofs e, k.matrixOf e⟩ i j = k.matrixShare e i j := by
  rw [Block.spread_eq_sum, Kernel.matrixShare]
  simp only [getElem?_globalDofs h, length_globalDofs]

end Matrices

section Vectors

namespace Block

/-- The entries form a vector with one entry per index. -/
def IsAligned (b : Block (Array ℝ)) : Prop := b.entries.size = b.dofs.length

/-- The sum of all entries of the block at index `i`. -/
def spreadAt (b : Block (Array ℝ)) (i : ℕ) : ℝ :=
  ((b.dofs.zip b.entries.toList).map fun dv => if dv.1 = i then dv.2 else 0).sum

theorem zip_eq_map (dofs : List ℕ) (values : List ℝ) (h : values.length = dofs.length) :
    dofs.zip values =
      (List.range dofs.length).map fun p => (dofs.getD p 0, values.getD p 0) := by
  apply List.ext_getElem
  · simp [h]
  · intro p hp _
    have hp' : p < dofs.length := by
      rw [List.length_zip] at hp
      omega
    simp [hp', h]

theorem spreadAt_eq_sum {b : Block (Array ℝ)} (h : b.IsAligned) (i : ℕ) :
    b.spreadAt i = ∑ p ∈ range b.dofs.length,
      if b.dofs[p]? = some i then b.entries.getD p 0 else 0 := by
  unfold spreadAt
  rw [zip_eq_map _ _ (by simpa [IsAligned] using h), List.map_map]
  change ((List.range b.dofs.length).map _).sum = ((List.range b.dofs.length).map _).sum
  congr 1
  apply List.map_congr_left
  intro p hp
  have hp' : p < b.dofs.length := List.mem_range.mp hp
  simp only [Function.comp_apply, getD_eq_iff hp']
  simp [Array.getD_eq_getD_getElem?]

end Block

theorem getD_foldl_modify (pairs : List (ℕ × ℝ)) (f : Array ℝ) {i : ℕ} (hi : i < f.size) :
    (pairs.foldl (fun f dv => f.modify dv.1 (· + dv.2)) f).getD i 0 =
      f.getD i 0 + (pairs.map fun dv => if dv.1 = i then dv.2 else 0).sum := by
  induction pairs generalizing f with
  | nil => simp
  | cons dv pairs ih =>
    have hs : i < (f.modify dv.1 (· + dv.2)).size := by rwa [Array.size_modify]
    rw [List.foldl_cons, ih _ hs, List.map_cons, List.sum_cons, ← add_assoc]
    congr 1
    simp only [Array.getD_eq_getD_getElem?, Array.getElem?_modify]
    by_cases hd : dv.1 = i <;> simp [hd, hi]

@[simp] theorem size_scatter {α : Type} [Scalar α] (f : Array α) (b : Block (Array α)) :
    (scatter f b).size = f.size := by
  unfold scatter
  induction b.dofs.zip b.entries.toList generalizing f with
  | nil => rfl
  | cons dv pairs ih => rw [List.foldl_cons, ih, Array.size_modify]

theorem size_foldl_scatter {α : Type} [Scalar α] (blocks : List (Block (Array α))) (f : Array α) :
    (blocks.foldl scatter f).size = f.size := by
  induction blocks generalizing f with
  | nil => rfl
  | cons b blocks ih => rw [List.foldl_cons, ih, size_scatter]

theorem getD_foldl_scatter (blocks : List (Block (Array ℝ))) (f : Array ℝ) {i : ℕ}
    (hi : i < f.size) :
    (blocks.foldl scatter f).getD i 0 = f.getD i 0 + (blocks.map fun b => b.spreadAt i).sum := by
  induction blocks generalizing f with
  | nil => simp
  | cons b blocks ih =>
    rw [List.foldl_cons, ih _ (by rwa [size_scatter]), scatter, getD_foldl_modify _ _ hi,
      List.map_cons, List.sum_cons, add_assoc]
    rfl

/-- The block of an element spreads its vector over the global one. -/
theorem spreadAt_block {k : Kernel ℝ} {e : Element ℝ} (h : ∀ d ∈ e.getDof, 0 ≤ d)
    (hk : (k.vectorOf e).size = e.dofs) (i : ℕ) :
    Block.spreadAt ⟨globalDofs e, k.vectorOf e⟩ i = k.vectorShare e i := by
  have hb : Block.IsAligned ⟨globalDofs e, k.vectorOf e⟩ := by
    rw [Block.IsAligned, length_globalDofs, hk]
  rw [Block.spreadAt_eq_sum hb, Kernel.vectorShare]
  simp only [getElem?_globalDofs h, length_globalDofs]

end Vectors

end Assembly

section Sizes

variable {α : Type} [Scalar α] {m : Mesh α} {kernel : Kernel α} {boundary : Option TagId}

theorem Mesh.size_of_zeroVector {f : Array α} (h : m.zeroVector = .ok f) : f.size = m.dofs := by
  obtain ⟨⟨⟩, -, rfl⟩ := map_eq_ok.mp h
  exact Array.size_replicate

theorem Mesh.size_of_zeroMatrix {A : SparseMatrix α} (h : m.zeroMatrix = .ok A) :
    A.rows = m.dofs ∧ A.cols = m.dofs := by
  unfold zeroMatrix at h
  split_ifs at h
  obtain ⟨⟨⟩, -, rfl⟩ := map_eq_ok.mp h
  exact ⟨rfl, rfl⟩

/-- The matrix of any kernel is square over the degrees of freedom. -/
theorem Assembly.size_of_matrix {method : AssemblyMethod} {A : SparseMatrix α}
    (h : Assembly.matrix m kernel boundary method = .ok A) : A.rows = m.dofs ∧ A.cols = m.dofs := by
  cases method with
  | direct =>
    obtain ⟨⟨⟩, -, h⟩ := bind_eq_ok.mp h
    obtain ⟨blocks, -, h⟩ := bind_eq_ok.mp h
    cases h
    exact ⟨Assembly.rows_direct _ _, Assembly.cols_direct _ _⟩
  | triplet =>
    obtain ⟨blocks, -, h⟩ := bind_eq_ok.mp h
    split_ifs at h
    · exact Mesh.size_of_zeroMatrix h
    · cases h
      exact ⟨SparseMatrix.rows_ofTriplets _ _ _, SparseMatrix.cols_ofTriplets _ _ _⟩

theorem Assembly.size_of_vector {f : Array α} (h : Assembly.vector m kernel boundary = .ok f) :
    f.size = m.dofs := by
  obtain ⟨⟨⟩, -, h⟩ := bind_eq_ok.mp h
  obtain ⟨blocks, -, h⟩ := bind_eq_ok.mp h
  cases h
  rw [Assembly.size_foldl_scatter, Array.size_replicate]

end Sizes

end WeakForm
