import WeakForm.Proofs.Linear.Cancellation
import WeakForm.Proofs.Tensor.Maps

/-!
# Products of matrices and arrays

Arrays with two axes are matrices, and their operations are those of matrices. The product of an
array with a matrix has as many axes as the array.
-/

namespace WeakForm

theorem dvd_volume {n : ℕ} {shape : List ℕ} (h : n ∈ shape) : n ∣ volume shape := by
  induction shape with
  | nil => cases h
  | cons k shape ih =>
    rcases List.mem_cons.mp h with rfl | h
    · exact Nat.dvd_mul_right _ _
    · exact (ih h).mul_left k

namespace Tensor

variable {β : Type}

theorem item?_eq_none {t : Tensor β} {n : ℕ} (h : n ∈ t.shape) (hn : n ≠ 1) : t.item? = none := by
  refine if_neg fun hsize => hn ?_
  rw [t.size_data] at hsize
  exact Nat.dvd_one.mp (hsize ▸ dvd_volume h)

section Matrices

theorem ofFn_pair (m n : ℕ) (f : List ℕ → β) :
    ofFn [m, n] f = ofMatrix (.ofFn m n fun i j => f [i, j]) := by
  apply ext
  · rfl
  · apply Array.ext
    · simp [ofFn, ofMatrix, DenseMatrix.ofFn, volume]
    · intro k _ _
      simp [ofFn, ofMatrix, DenseMatrix.ofFn, volume, unravel]

theorem exists_ofMatrix {t : Tensor β} (h : t.shape.length = 2) : ∃ A, t = ofMatrix A := by
  obtain ⟨shape, data, hsize⟩ := t
  obtain ⟨m, n, rfl⟩ := List.length_eq_two.mp h
  exact ⟨⟨m, n, data, by rw [hsize]; simp [volume]⟩, rfl⟩

theorem get_ofMatrix [Zero β] (A : DenseMatrix β) (i : ℕ) {j : ℕ} (hj : j < A.cols) :
    (ofMatrix A).get [i, j] = A.entry i j := by
  simp [get, ofMatrix, ravel, volume, DenseMatrix.entry, hj]

/-- Within a matrix nothing is repeated. -/
theorem get_project_ofMatrix [Zero β] (A : DenseMatrix β) {i j : ℕ} (hi : i < A.rows)
    (hj : j < A.cols) : (ofMatrix A).get (project [A.rows, A.cols] [i, j]) = A.entry i j := by
  have hproject : project [A.rows, A.cols] [i, j] = [i, j] := by
    simp only [project, List.length_cons, List.length_nil, Nat.sub_self, List.drop_zero,
      List.zipWith_cons_cons, List.zipWith_nil_left, List.cons.injEq, and_true]
    constructor <;> split_ifs <;> omega
  rw [hproject, get_ofMatrix A i hj]

theorem transpose_ofMatrix [Zero β] (A : DenseMatrix β) :
    (ofMatrix A).transpose = ofMatrix A.transpose := by
  have h : (ofMatrix A).transpose = ofFn [A.cols, A.rows] fun is => (ofMatrix A).get is.reverse := rfl
  rw [h, ofFn_pair]
  refine congrArg ofMatrix (DenseMatrix.ext rfl rfl fun i j hi hj => ?_)
  change i < A.cols at hi
  change j < A.rows at hj
  rw [DenseMatrix.entry_ofFn _ hi hj, DenseMatrix.transpose, DenseMatrix.entry_ofFn _ hi hj]
  exact get_ofMatrix A j hi

theorem broadcastTo?_ofMatrix [Zero β] (A : DenseMatrix β) :
    (ofMatrix A).broadcastTo? [A.rows, A.cols] = some (ofMatrix A) := by
  have hbroadcast : broadcastShape (ofMatrix A).shape [A.rows, A.cols] = some [A.rows, A.cols] := by
    simp [broadcastShape, broadcastReversed, ofMatrix]
  rw [broadcastTo?, if_pos hbroadcast, ofFn_pair]
  refine congrArg (fun B => some (ofMatrix B)) (DenseMatrix.ext rfl rfl fun i j hi hj => ?_)
  change i < A.rows at hi
  change j < A.cols at hj
  rw [DenseMatrix.entry_ofFn _ hi hj]
  exact get_project_ofMatrix A hi hj

theorem mul?_ofMatrix [Zero β] [Add β] [Mul β] (A B : DenseMatrix β) :
    (ofMatrix A).mul? (ofMatrix B) =
      if A.cols = B.rows then some (ofMatrix (A.mul B)) else none := rfl

/-- A scalar multiplies every entry of a matrix. -/
theorem times_scalar [MulZeroClass β] (A : DenseMatrix β) (z : β) :
    zipWith (· * ·) (ofMatrix A) (scalar z) = some (ofMatrix (A.map (· * z))) := by
  have hshape : ¬ (ofMatrix A).shape = (scalar z).shape := by simp [ofMatrix, scalar]
  have hbroadcast : broadcastShape (ofMatrix A).shape (scalar z).shape = some [A.rows, A.cols] := rfl
  rw [zipWith, dif_neg hshape, hbroadcast, Option.map_some, ofFn_pair]
  refine congrArg (fun B => some (ofMatrix B)) (DenseMatrix.ext rfl rfl fun i j hi hj => ?_)
  change i < A.rows at hi
  change j < A.cols at hj
  rw [DenseMatrix.entry_ofFn _ hi hj, DenseMatrix.entry_map (φ := (· * z)) (zero_mul z)]
  exact congrArg (· * z) (get_project_ofMatrix A hi hj)

theorem scalar_times [MulZeroClass β] (A : DenseMatrix β) (z : β) :
    zipWith (· * ·) (scalar z) (ofMatrix A) = some (ofMatrix (A.map (z * ·))) := by
  have hshape : ¬ (scalar z).shape = (ofMatrix A).shape := by simp [ofMatrix, scalar]
  have hbroadcast : broadcastShape (scalar z).shape (ofMatrix A).shape = some [A.rows, A.cols] := rfl
  rw [zipWith, dif_neg hshape, hbroadcast, Option.map_some, ofFn_pair]
  refine congrArg (fun B => some (ofMatrix B)) (DenseMatrix.ext rfl rfl fun i j hi hj => ?_)
  change i < A.rows at hi
  change j < A.cols at hj
  rw [DenseMatrix.entry_ofFn _ hi hj, DenseMatrix.entry_map (φ := (z * ·)) (mul_zero z)]
  exact congrArg (z * ·) (get_project_ofMatrix A hi hj)

/-- Matrices of one size are added entry by entry. -/
theorem plus_ofMatrix [AddZeroClass β] {A B : DenseMatrix β} (hrows : A.rows = B.rows)
    (hcols : A.cols = B.cols) : ∃ C, zipWith (· + ·) (ofMatrix A) (ofMatrix B) = some (ofMatrix C) ∧
      C.rows = A.rows ∧ C.cols = A.cols ∧ ∀ i j, C.entry i j = A.entry i j + B.entry i j := by
  have hshape : (ofMatrix A).shape = (ofMatrix B).shape := by simp [ofMatrix, hrows, hcols]
  have hsize : (Array.zipWith (· + ·) A.data B.data).size = A.rows * A.cols := by
    rw [Array.size_zipWith, A.size_data, B.size_data, hrows, hcols, Nat.min_self]
  refine ⟨⟨A.rows, A.cols, _, hsize⟩, by rw [zipWith, dif_pos hshape]; rfl, rfl, rfl, fun i j => ?_⟩
  unfold DenseMatrix.entry
  rw [← hcols]
  dsimp only
  split_ifs with hj
  · by_cases hk : i * A.cols + j < A.rows * A.cols
    · have hA : i * A.cols + j < A.data.size := by rwa [A.size_data]
      have hB : i * A.cols + j < B.data.size := by rwa [B.size_data, ← hrows, ← hcols]
      simp [hA, hB]
    · have hA : ¬ i * A.cols + j < A.data.size := by rwa [A.size_data]
      have hB : ¬ i * A.cols + j < B.data.size := by rwa [B.size_data, ← hrows, ← hcols]
      simp [hA, hB]
  · exact (add_zero 0).symm

end Matrices

section Shapes

theorem lastTwo?_append (lead : List ℕ) (m n : ℕ) :
    lastTwo? (lead ++ [m, n]) = some (lead, m, n) := by
  simp [lastTwo?]

theorem lastTwo?_eq_some {shape lead : List ℕ} {m n : ℕ} (h : lastTwo? shape = some (lead, m, n)) :
    shape = lead ++ [m, n] := by
  unfold lastTwo? at h
  split at h
  · rename_i n' m' lead' hreverse
    cases h
    rw [← List.reverse_reverse shape, hreverse]
    simp
  · cases h

variable {a b c : Tensor β}

theorem toMatrix?_eq_none (h : a.shape.length ≠ 2) : a.toMatrix? = none := by
  obtain ⟨shape, data, hsize⟩ := a
  match shape with
  | [] => rfl
  | [n] => rfl
  | [m, n] => exact absurd rfl h
  | l :: m :: n :: shape => rfl

theorem reshape?_eq_some {shape : List ℕ} (h : a.reshape? shape = some c) : c.shape = shape := by
  unfold reshape? at h
  split_ifs at h
  cases h
  rfl

theorem asRow?_eq_some (h : a.asRow? = some c) :
    a.shape.length = 1 ∧ c.shape.length = 2 ∨ a.shape.length ≠ 1 ∧ c = a := by
  unfold asRow? at h
  split_ifs at h with ha
  · exact .inl ⟨ha, by rw [reshape?_eq_some h, List.length_cons, ha]⟩
  · cases h
    exact .inr ⟨ha, rfl⟩

theorem asColumn?_eq_some (h : a.asColumn? = some c) :
    a.shape.length = 1 ∧ c.shape.length = 2 ∨ a.shape.length ≠ 1 ∧ c = a := by
  unfold asColumn? at h
  split_ifs at h with ha
  · exact .inl ⟨ha, by rw [reshape?_eq_some h, List.length_append, ha]; rfl⟩
  · cases h
    exact .inr ⟨ha, rfl⟩

theorem broadcastShape_nil_left (s : List ℕ) : broadcastShape [] s = some s := by
  simp [broadcastShape, broadcastReversed]

theorem broadcastShape_nil_right (s : List ℕ) : broadcastShape s [] = some s := by
  have hreversed (s : List ℕ) : broadcastReversed s [] = some s := by cases s <;> rfl
  simp [broadcastShape, hreversed]

theorem length_broadcastReversed {s t r : List ℕ} (h : broadcastReversed s t = some r) :
    r.length = max s.length t.length := by
  induction s, t using broadcastReversed.induct generalizing r with
  | case1 t =>
    cases h
    simp
  | case2 s hs =>
    cases s with
    | nil => exact absurd rfl hs
    | cons m s =>
      cases h
      simp
  | case3 m s n t hmn ih =>
    rw [broadcastReversed, if_pos hmn] at h
    obtain ⟨r, hr, rfl⟩ := Option.map_eq_some_iff.mp h
    rw [List.length_cons, ih hr, List.length_cons, List.length_cons, Nat.succ_max_succ]
  | case4 s n t hmn ih =>
    rw [broadcastReversed, if_neg hmn, if_pos rfl] at h
    obtain ⟨r, hr, rfl⟩ := Option.map_eq_some_iff.mp h
    rw [List.length_cons, ih hr, List.length_cons, List.length_cons, Nat.succ_max_succ]
  | case5 m s n t hmn hm =>
    rw [broadcastReversed, if_neg hmn, if_neg hm] at h
    cases h

/-- Arrays with the same number of axes are combined to one that has it, too. -/
theorem length_shape_zipWith [Zero β] {f : β → β → β}
    (hab : a.shape.length = b.shape.length)
    (h : zipWith f a b = some c) : c.shape.length = a.shape.length := by
  unfold zipWith at h
  split_ifs at h
  · cases h
    rfl
  · obtain ⟨shape, hshape, rfl⟩ := Option.map_eq_some_iff.mp h
    obtain ⟨r, hr, rfl⟩ := Option.map_eq_some_iff.mp hshape
    have hlength := length_broadcastReversed hr
    rw [List.length_reverse, List.length_reverse, ← hab, max_self] at hlength
    exact (List.length_reverse).trans hlength

variable [Zero β] [Add β] [Mul β]

theorem mulStacks_eq_some (h : mulStacks a b = some c) :
    ∃ leadA leadB lead m k n, a.shape = leadA ++ [m, k] ∧ b.shape = leadB ++ [k, n] ∧
      broadcastShape leadA leadB = some lead ∧ c.shape = lead ++ [m, n] := by
  unfold mulStacks at h
  obtain ⟨⟨leadA, m, k⟩, hA, h⟩ := Option.bind_eq_some_iff.mp h
  obtain ⟨⟨leadB, k', n⟩, hB, h⟩ := Option.bind_eq_some_iff.mp h
  dsimp only at h
  split_ifs at h with hk
  obtain ⟨lead, hlead, h⟩ := Option.bind_eq_some_iff.mp h
  cases h
  subst hk
  exact ⟨leadA, leadB, lead, m, k, n, lastTwo?_eq_some hA, lastTwo?_eq_some hB, hlead, rfl⟩

/-- The axes of a product of two arrays of which one is no matrix. -/
theorem mulAsStacks_eq_some (h : a.mulAsStacks b = some c) :
    ∃ a' b' leadA leadB lead m k n, a.asRow? = some a' ∧ b.asColumn? = some b' ∧
      a'.shape = leadA ++ [m, k] ∧ b'.shape = leadB ++ [k, n] ∧
      broadcastShape leadA leadB = some lead ∧
      c.shape = lead ++ (if a.shape.length = 1 then [] else [m]) ++
        (if b.shape.length = 1 then [] else [n]) := by
  unfold mulAsStacks at h
  cases ha : a.asRow? with
  | none => simp [ha] at h
  | some a' =>
    cases hb : b.asColumn? with
    | none => simp [ha, hb] at h
    | some b' =>
      simp only [ha, hb] at h
      obtain ⟨p, hp, h⟩ := Option.bind_eq_some_iff.mp h
      obtain ⟨leadA, leadB, lead, m, k, n, hA, hB, hlead, hshape⟩ := mulStacks_eq_some hp
      rw [hshape, lastTwo?_append] at h
      exact ⟨a', b', leadA, leadB, lead, m, k, n, rfl, rfl, hA, hB, hlead, reshape?_eq_some h⟩

/-- A matrix times an array that is no matrix: the array keeps its number of axes, and one of the
new ones is that of the rows. -/
theorem shape_mul?_of_matrix_left {A : DenseMatrix β} (hb : b.shape.length ≠ 2)
    (h : (ofMatrix A).mul? b = some c) : c.shape.length = b.shape.length ∧ A.rows ∈ c.shape := by
  rw [mul?_eq_mulAsStacks (.inr (toMatrix?_eq_none hb))] at h
  obtain ⟨a', b', leadA, leadB, lead, m, k, n, ha', hb', hA, hB, hlead, hc⟩ := mulAsStacks_eq_some h
  obtain rfl : ofMatrix A = a' := Option.some.inj ha'
  have hA : [] ++ [A.rows, A.cols] = leadA ++ [m, k] := hA
  obtain ⟨rfl, hrows⟩ := List.append_inj' hA rfl
  obtain rfl := Option.some.inj ((broadcastShape_nil_left leadB).symm.trans hlead)
  obtain ⟨rfl, -⟩ : A.rows = m ∧ A.cols = k := by simpa using hrows
  have hmatrix : ¬ (ofMatrix A).shape.length = 1 := by simp [ofMatrix]
  rw [if_neg hmatrix] at hc
  refine ⟨?_, by simp [hc]⟩
  have hlength : b'.shape.length = leadB.length + 2 := by rw [hB, List.length_append]; rfl
  rcases asColumn?_eq_some hb' with ⟨hone, htwo⟩ | ⟨hone, rfl⟩
  · obtain rfl : leadB = [] := List.length_eq_zero_iff.mp (by omega)
    rw [hc, if_pos hone, hone]
    rfl
  · rw [hc, if_neg hone, hlength]
    simp

/-- An array that is no matrix times a matrix: the array keeps its number of axes. -/
theorem shape_mul?_of_matrix_right {B : DenseMatrix β} (ha : a.shape.length ≠ 2)
    (h : a.mul? (ofMatrix B) = some c) : c.shape.length = a.shape.length := by
  rw [mul?_eq_mulAsStacks (.inl (toMatrix?_eq_none ha))] at h
  obtain ⟨a', b', leadA, leadB, lead, m, k, n, ha', hb', hA, hB, hlead, hc⟩ := mulAsStacks_eq_some h
  obtain rfl : ofMatrix B = b' := Option.some.inj hb'
  have hB : [] ++ [B.rows, B.cols] = leadB ++ [k, n] := hB
  obtain ⟨rfl, -⟩ := List.append_inj' hB rfl
  obtain rfl := Option.some.inj ((broadcastShape_nil_right leadA).symm.trans hlead)
  have hmatrix : ¬ (ofMatrix B).shape.length = 1 := by simp [ofMatrix]
  rw [if_neg hmatrix] at hc
  have hlength : a'.shape.length = leadA.length + 2 := by rw [hA, List.length_append]; rfl
  rcases asRow?_eq_some ha' with ⟨hone, htwo⟩ | ⟨hone, rfl⟩
  · obtain rfl : leadA = [] := List.length_eq_zero_iff.mp (by omega)
    rw [hc, if_pos hone, hone]
    rfl
  · rw [hc, if_neg hone, hlength]
    simp

/-- An array with one axis is multiplied with a matrix that has a row for each of its entries. -/
theorem rows_of_mul?_axis {n : ℕ} {B : DenseMatrix β} (ha : a.shape = [n])
    (h : a.mul? (ofMatrix B) = some c) : B.rows = n := by
  rw [mul?_eq_mulAsStacks (.inl (toMatrix?_eq_none (by simp [ha])))] at h
  obtain ⟨a', b', leadA, leadB, lead, m, k, l, ha', hb', hA, hB, -, -⟩ := mulAsStacks_eq_some h
  obtain rfl : ofMatrix B = b' := Option.some.inj hb'
  have hB : [] ++ [B.rows, B.cols] = leadB ++ [k, l] := hB
  obtain ⟨-, hrows⟩ := List.append_inj' hB rfl
  rw [asRow?, ha, if_pos List.length_singleton] at ha'
  rw [reshape?_eq_some ha'] at hA
  obtain ⟨-, hentries⟩ := List.append_inj' (show [] ++ [1, n] = leadA ++ [m, k] from hA) rfl
  exact (List.cons.inj hrows).1.trans (List.cons.inj (List.cons.inj hentries).2).1.symm

end Shapes

end Tensor
end WeakForm
