import Mathlib.Algebra.BigOperators.Group.Finset.Basic
import Mathlib.Data.List.GetD
import WeakForm.Proofs.Linear.Elimination
import WeakForm.Proofs.Value.RealMatrices
import WeakForm.Solver.Partition

/-!
# Partitioned systems over the reals

The marked degrees of freedom keep their values. If the equations of the others determine them, the
values found solve all of these equations as they stand, with the marked values among the unknowns.
-/

namespace WeakForm

/-- A list sums up to what its items do by their places. -/
theorem sum_map_eq_sum_range (f : ℕ → ℝ) (places : List ℕ) :
    (places.map f).sum = ∑ l ∈ Finset.range places.length, f (places.getD l 0) := by
  induction places with
  | nil => rfl
  | cons i places ih =>
    rw [List.map_cons, List.sum_cons, ih, List.length_cons, Finset.sum_range_succ', add_comm]
    simp

namespace Partition

section Indices

variable {marks : List Bool}

theorem mem_indices {mark : Bool} {i : ℕ} : i ∈ indices marks mark ↔ marks[i]? = some mark := by
  simp only [indices, List.mem_map, List.mem_filter, beq_iff_eq, Prod.exists, exists_eq_right,
    List.mk_mem_zipIdx_iff_getElem?]

theorem nodup_indices (marks : List Bool) (mark : Bool) : (indices marks mark).Nodup := by
  have hall : (marks.zipIdx.map Prod.snd).Nodup := by
    rw [List.zipIdx_map_snd]
    exact List.nodup_range'
  exact hall.sublist (List.filter_sublist.map _)

/-- Every place is marked or not. -/
theorem perm_indices (marks : List Bool) :
    (indices marks false ++ indices marks true).Perm (List.range marks.length) := by
  have hsplit := (List.filter_append_perm (fun b : Bool × ℕ => b.1 == false) marks.zipIdx).map
    Prod.snd
  rw [List.map_append, List.zipIdx_map_snd, ← List.range_eq_range'] at hsplit
  have hmarked : (marks.zipIdx.filter fun b => b.1 == true) =
      marks.zipIdx.filter fun b => !(b.1 == false) := by
    congr 1
    funext b
    cases b.1 <;> rfl
  rw [indices, indices, hmarked]
  exact hsplit

/-- A sum over all places falls apart into those over the places without and with a mark. -/
theorem sum_range_eq (marks : List Bool) (f : ℕ → ℝ) : ∑ j ∈ Finset.range marks.length, f j =
    ((indices marks false).map f).sum + ((indices marks true).map f).sum := by
  have hlist : ∑ j ∈ Finset.range marks.length, f j = ((List.range marks.length).map f).sum := rfl
  rw [hlist, ← ((perm_indices marks).map f).sum_eq, List.map_append, List.sum_append]

end Indices

section Reduction

variable (A : SparseMatrix ℝ) {free : List ℕ}

theorem entry_reducedMatrix {k l : ℕ} (hk : k < free.length) (hl : l < free.length) :
    (reducedMatrix A free).entry k l = A.entry (free.getD k 0) (free.getD l 0) := by
  have hzip : free.zipIdx = (List.range free.length).map fun l => (free.getD l 0, l) := by
    apply List.ext_getElem
    · simp
    · intro l hl _
      rw [List.length_zipIdx] at hl
      simp [hl]
  have hrow (i : ℕ) : (free.zipIdx.filterMap fun j => (A.stored? i j.1).map fun v => (j.2, v)) =
      SparseRow.tabulate (List.range free.length) fun l => A.stored? i (free.getD l 0) := by
    rw [hzip, List.filterMap_map]
    rfl
  have hdata : (reducedMatrix A free).data.getD k [] =
      SparseRow.tabulate (List.range free.length) fun l =>
        A.stored? (free.getD k 0) (free.getD l 0) := by
    simp only [reducedMatrix, hrow]
    simp [hk]
  simp only [SparseMatrix.entry, SparseMatrix.stored?, hdata, SparseRow.lookup_tabulate]
  rw [if_pos (List.mem_range.mpr hl)]

theorem knownPart_eq (u : ℕ → ℝ) (fixed : List ℕ) (i : ℕ) :
    knownPart A u fixed i = (fixed.map fun j => A.entry i j * u j).sum := by
  rw [knownPart, ← List.sum_eq_foldl]
  congr 1
  refine List.map_congr_left fun j _ => ?_
  unfold SparseMatrix.entry
  cases A.stored? i j <;> simp

theorem getD_reducedLoad (b u : ℕ → ℝ) (fixed : List ℕ) {k : ℕ} (hk : k < free.length) :
    (reducedLoad A b u free fixed).getD k 0 =
      b (free.getD k 0) - (fixed.map fun j => A.entry (free.getD k 0) j * u j).sum := by
  simp [reducedLoad, hk, knownPart_eq]

end Reduction

section Keeping

variable {α : Type} {u : Array α} {marks : List Bool}

theorem write_eq (u : Array α) (places : List ℕ) (values : List α) :
    write u places values = writeEach u (places.zip values) := rfl

@[simp] theorem size_write (u : Array α) (places : List ℕ) (values : List α) :
    (write u places values).size = u.size := by rw [write_eq, size_writeEach]

/-- The marked places are not written. -/
theorem getD_write_of_marked {xs : List α} {d : ℕ} {z : α} (hd : marks[d]? = some true) :
    (write u (indices marks false) xs).getD d z = u.getD d z := by
  rw [write_eq]
  apply getD_writeEach_of_notMem
  intro hmem
  obtain ⟨⟨i, x⟩, hix, rfl⟩ := List.mem_map.mp hmem
  rw [mem_indices.mp (List.of_mem_zip hix).1] at hd
  cases hd

variable [Scalar α] {A : NumberMatrix α} {b : NumberArray α} {p : Condition.Prescribed α}

theorem size_of_solve (h : solve A b p = .ok u) : u.size = p.values.size := by
  unfold solve at h
  dsimp only at h
  split_ifs at h <;> cases h
  · rfl
  · exact size_write _ _ _

/-- Marked degrees of freedom keep their values, whatever the matrix. -/
theorem getD_solve_of_marked (h : solve A b p = .ok u) {d : ℕ} {z : α} (hd : p.marks[d]? = some true) :
    u.getD d z = p.values.getD d z := by
  unfold solve at h
  dsimp only at h
  split_ifs at h <;> cases h
  · rfl
  · exact getD_write_of_marked hd

end Keeping

section Writing

variable {u : Array ℝ} {marks : List Bool} {xs : List ℝ}

theorem getD_write_of_free (hu : u.size = marks.length)
    (hxs : xs.length = (indices marks false).length) {l : ℕ}
    (hl : l < (indices marks false).length) :
    (write u (indices marks false) xs).getD ((indices marks false).getD l 0) 0 = xs.getD l 0 := by
  have hplace : (indices marks false)[l] < u.size := by
    rw [hu]
    exact (List.getElem?_eq_some_iff.mp (mem_indices.mp (List.getElem_mem hl))).1
  have hwrite := getD_writeEach_zip u (nodup_indices marks false) hxs hl hplace (0 : ℝ)
  rw [List.getD_eq_getElem _ _ hl, List.getD_eq_getElem _ _ (hxs ▸ hl)]
  exact hwrite

/-- A row of the product with a vector in which the free places were written. -/
theorem sum_write (A : SparseMatrix ℝ) (hu : u.size = marks.length) (hcols : marks.length ≤ A.cols)
    (hxs : xs.length = (indices marks false).length) (i : ℕ) :
    ∑ j ∈ Finset.range A.cols, A.entry i j * (write u (indices marks false) xs).getD j 0 =
      ∑ l ∈ Finset.range (indices marks false).length,
          A.entry i ((indices marks false).getD l 0) * xs.getD l 0 +
        ((indices marks true).map fun j => A.entry i j * u.getD j 0).sum := by
  have hbeyond : ∑ j ∈ Finset.range A.cols,
        A.entry i j * (write u (indices marks false) xs).getD j 0 =
      ∑ j ∈ Finset.range marks.length,
        A.entry i j * (write u (indices marks false) xs).getD j 0 := by
    refine (Finset.sum_subset (Finset.range_mono hcols) fun j _ hj => ?_).symm
    have hj : (write u (indices marks false) xs).size ≤ j := by
      rw [size_write, hu]
      simpa using hj
    rw [Array.getD_eq_getD_getElem?, Array.getElem?_eq_none hj, Option.getD_none, mul_zero]
  rw [hbeyond, sum_range_eq, sum_map_eq_sum_range]
  congr 1
  · refine Finset.sum_congr rfl fun l hl => ?_
    rw [getD_write_of_free hu hxs (Finset.mem_range.mp hl)]
  · congr 1
    refine List.map_congr_left fun j hj => ?_
    rw [getD_write_of_marked (mem_indices.mp hj)]

end Writing

/-- Of the vectors that are zero at the marked places, the matrix takes only zero to a vector that
is zero at the others. -/
def Determines (A : SparseMatrix ℝ) (marks : List Bool) : Prop :=
  ∀ w : Array ℝ, w.size = marks.length → (∀ d, marks[d]? = some true → w.getD d 0 = 0) →
    (∀ i, marks[i]? = some false → ∑ j ∈ Finset.range A.cols, A.entry i j * w.getD j 0 = 0) →
    ∀ i, marks[i]? = some false → w.getD i 0 = 0

section Solving

variable {A : SparseMatrix ℝ} {marks : List Bool}

/-- Then the reduced system has a solution. -/
theorem Determines.solve?_isSome (h : Determines A marks) (hcols : marks.length ≤ A.cols)
    (load : List ℝ) :
    ((reducedMatrix A (indices marks false)).solve? load).isSome = true := by
  refine SparseMatrix.solve?_isSome rfl (fun xs hxs hzero x hx => ?_) load
  have hxs : xs.length = (indices marks false).length := hxs
  have hzeros (d : ℕ) : (Array.replicate marks.length (0 : ℝ)).getD d 0 = 0 := by
    by_cases hd : d < marks.length <;> simp [hd]
  have hu : (Array.replicate marks.length (0 : ℝ)).size = marks.length := Array.size_replicate
  -- with zeros at the marked places it is a vector that the whole matrix takes to zero
  have hrows (i : ℕ) (hi : marks[i]? = some false) : ∑ j ∈ Finset.range A.cols, A.entry i j *
      (write (Array.replicate marks.length 0) (indices marks false) xs).getD j 0 = 0 := by
    obtain ⟨k, hk, rfl⟩ := List.getElem_of_mem (mem_indices.mpr hi)
    rw [sum_write A hu hcols hxs]
    simp only [hzeros, mul_zero, List.map_const', List.sum_replicate, smul_zero, add_zero]
    refine Eq.trans (Finset.sum_congr rfl fun l hl => ?_) (hzero k hk)
    rw [entry_reducedMatrix A hk (Finset.mem_range.mp hl), List.getD_eq_getElem _ _ hk]
  obtain ⟨l, hl, rfl⟩ := List.getElem_of_mem hx
  have hl' : l < (indices marks false).length := hxs ▸ hl
  have hvalue := h _ (by rw [size_write, hu])
    (fun d hd => by rw [getD_write_of_marked hd, hzeros]) hrows _
    (mem_indices.mp (List.getElem_mem hl'))
  rwa [← List.getD_eq_getElem _ 0 hl', getD_write_of_free hu hxs hl',
    List.getD_eq_getElem _ _ hl] at hvalue

/-- What is found solves the equations of the free places. -/
theorem sum_of_solve? {b : ℕ → ℝ} {u : Array ℝ} {xs : List ℝ} (hu : u.size = marks.length)
    (hcols : marks.length ≤ A.cols)
    (h : (reducedMatrix A (indices marks false)).solve?
      (reducedLoad A b (u.getD · 0) (indices marks false) (indices marks true)) = some xs)
    {i : ℕ} (hi : marks[i]? = some false) :
    ∑ j ∈ Finset.range A.cols, A.entry i j * (write u (indices marks false) xs).getD j 0 = b i := by
  obtain ⟨hxs, hrows⟩ := SparseMatrix.sum_of_solve? rfl h
  obtain ⟨k, hk, rfl⟩ := List.getElem_of_mem (mem_indices.mpr hi)
  have hrow := hrows k hk
  rw [getD_reducedLoad _ _ _ _ hk, List.getD_eq_getElem _ _ hk] at hrow
  have hentries : ∑ l ∈ Finset.range (indices marks false).length,
        A.entry (indices marks false)[k] ((indices marks false).getD l 0) * xs.getD l 0 =
      ∑ l ∈ Finset.range (reducedMatrix A (indices marks false)).cols,
        (reducedMatrix A (indices marks false)).entry k l * xs.getD l 0 := by
    refine Finset.sum_congr rfl fun l hl => ?_
    rw [entry_reducedMatrix A hk (Finset.mem_range.mp hl), List.getD_eq_getElem _ _ hk]
  rw [sum_write A hu hcols hxs, hentries, hrow]
  ring

end Solving

section Systems

variable {A : NumberMatrix ℝ} {b : NumberArray ℝ} {p : Condition.Prescribed ℝ} {u : Array ℝ}

theorem size_realParts (b : NumberArray ℝ) : b.realParts.data.size = volume b.shape := by
  rw [b.realParts.size_data]
  cases b <;> rfl

/-- A partitioned real system is solved: the marked places keep their values, and if the equations
of the others determine them, these equations hold. -/
theorem solve_spec (hA : A.kind ≠ .complex) (hb : b.kind ≠ .complex)
    (hsize : p.values.size = p.marks.length) (h : solve A b p = .ok u) :
    u.size = p.values.size ∧
      (∀ d, p.marks[d]? = some true → u.getD d 0 = p.values.getD d 0) ∧
      ∀ i, p.marks[i]? = some false →
        i < A.rows ∧ i < b.realParts.data.size ∧
          (Determines A.toReals p.marks → A.rowProduct u i = b.realParts.data.getD i 0) := by
  unfold solve at h
  dsimp only at h
  split_ifs at h with hempty hrange
  · cases h
    rw [List.isEmpty_iff] at hempty
    refine ⟨rfl, fun _ _ => rfl, fun i hi => ?_⟩
    have hmem := mem_indices.mpr hi
    rw [hempty] at hmem
    cases hmem
  · cases h
    have hreal : ¬ (A.kind = .complex ∨ b.kind = .complex) := by tauto
    simp only [Bool.and_eq_true, List.all_eq_true, decide_eq_true_eq] at hrange
    refine ⟨size_write _ _ _, fun d hd => getD_write_of_marked hd, fun i hi => ?_⟩
    obtain ⟨⟨hrows, -⟩, hentries⟩ := hrange.1 i (mem_indices.mpr hi)
    refine ⟨hrows, by rwa [size_realParts], fun hdetermines => ?_⟩
    have hcols : p.marks.length ≤ A.toReals.cols := by
      rw [A.cols_toReals]
      by_contra hlt
      rw [not_le] at hlt
      have hlast : A.cols ∈ indices p.marks false ++ indices p.marks true :=
        (perm_indices p.marks).mem_iff.mpr (List.mem_range.mpr hlt)
      rcases List.mem_append.mp hlast with hmem | hmem
      · exact absurd (hrange.1 _ hmem).1.2 (lt_irrefl _)
      · exact absurd (hrange.2 _ hmem) (lt_irrefl _)
    obtain ⟨xs, hxs⟩ := Option.isSome_iff_exists.mp (hdetermines.solve?_isSome hcols
      (reducedLoad A.toReals (b.realParts.data.getD · 0) (p.values.getD · 0)
        (indices p.marks false) (indices p.marks true)))
    have hvalues : freeValues A b p.values (indices p.marks false) (indices p.marks true) = xs := by
      simp only [freeValues, if_neg hreal, hxs, Option.getD_some]
    rw [hvalues, NumberMatrix.rowProduct, ← A.cols_toReals]
    exact sum_of_solve? hsize hcols hxs hi

end Systems

end Partition
end WeakForm
