import Mathlib.Algebra.BigOperators.Group.Finset.Basic
import WeakForm.Proofs.Linear.SparseEntries
import WeakForm.Proofs.Lists
import WeakForm.Proofs.Value.RealArrays
import WeakForm.Value.NumberMatrix

/-!
# Matrices of real numbers

Over the reals a matrix of any kind but the complex one stands for its real entries: whole numbers
do not wrap around. Multiples, sums, differences and products with vectors are those of the real
matrices.
-/

namespace WeakForm

theorem sumTo_eq_sum {β : Type} [AddCommMonoid β] (n : ℕ) (f : ℕ → β) :
    sumTo n f = ∑ j ∈ Finset.range n, f j := by
  induction n with
  | zero => rfl
  | succ n ih => rw [sumTo, ih, Finset.sum_range_succ]

/-- A sum over `n` parts of `r` items each. -/
theorem sum_range_mul_eq (n r : ℕ) (f : ℕ → ℝ) :
    ∑ j ∈ Finset.range (n * r), f j = ∑ p ∈ Finset.range n, ∑ i ∈ Finset.range r, f (p * r + i) := by
  induction n with
  | zero => simp
  | succ n ih => rw [Nat.succ_mul, Finset.sum_range_add, ih, Finset.sum_range_succ _ n]

/-- The real number of a whole one without sign in an array. -/
def Natural.cast (n : Natural ℝ) : ℝ := n.value

namespace SparseMatrix

theorem map_map {β γ δ : Type} (A : SparseMatrix β) (f : β → γ) (g : γ → δ) :
    (A.map f).map g = A.map fun v => g (f v) := by
  simp [map, Function.comp_def]

section Entries

variable {β γ : Type} [Zero β] [Zero γ]

theorem entry_map {f : β → γ} (h0 : f 0 = 0) (A : SparseMatrix β) (i j : ℕ) :
    (A.map f).entry i j = f (A.entry i j) := by
  have hrow (row : SparseRow β) :
      (row.map fun e => (e.1, f e.2)).lookup j = (row.lookup j).map f := lookup_map_value f row j
  have hdata : (A.map f).data.getD i [] = (A.data.getD i []).map fun e => (e.1, f e.2) := by
    by_cases hi : i < A.data.size <;> simp [map, hi]
  rw [entry, entry, stored?, stored?, hdata, hrow]
  cases (A.data.getD i []).lookup j with
  | none => exact h0.symm
  | some v => rfl

/-- Combining two matrices combines their entries. -/
theorem entry_combineBy {isZero : β → Bool} (hzero : ∀ v, isZero v = true → v = 0)
    {f : β → β → β} (h0 : f 0 0 = 0) (A B : SparseMatrix β) {i : ℕ} (hi : i < A.rows) (j : ℕ) :
    (combineBy isZero f A B).entry i j = f (A.entry i j) (B.entry i j) := by
  have hstored (v : β) : (unlessZero isZero v).getD 0 = v := by
    unfold unlessZero
    split_ifs with h
    · exact (hzero v h).symm
    · rfl
  have hrow : (combineBy isZero f A B).data.getD i [] =
      SparseRow.tabulate ((A.data.getD i []).columns ++ (B.data.getD i []).columns) fun j =>
        unlessZero isZero (f (A.entry i j) (B.entry i j)) := by
    simp [combineBy, hi]
  rw [entry, stored?, hrow, SparseRow.lookup_tabulate]
  split_ifs with hj
  · exact hstored _
  · -- neither matrix stores the entry
    rw [List.mem_append, not_or] at hj
    rw [entry, entry, stored?, stored?, SparseRow.lookup_eq_none_of_notMem hj.1,
      SparseRow.lookup_eq_none_of_notMem hj.2]
    exact h0.symm

end Entries

theorem entry_mulVec (A : SparseMatrix ℝ) (u : Array ℝ) {i : ℕ} (hi : i < A.rows) :
    (A.mulVec u).getD i 0 = ∑ j ∈ Finset.range A.cols, A.entry i j * u.getD j 0 := by
  have hrow : (A.mulVec u).getD i 0 = A.rowDot (fun j => u.getD j 0) i := by
    simp [mulVec, hi]
  rw [hrow, rowDot, sumTo_eq_sum]
  refine Finset.sum_congr rfl fun j _ => ?_
  unfold entry
  cases A.stored? i j <;> simp

end SparseMatrix

namespace NumberMatrix

/-- A real entry of a matrix; of a complex one the real part. -/
noncomputable def value (A : NumberMatrix ℝ) (i j : ℕ) : ℝ := A.toReals.entry i j

/-- A row of the product of a matrix with a vector. -/
noncomputable def rowProduct (A : NumberMatrix ℝ) (u : Array ℝ) (i : ℕ) : ℝ :=
  ∑ j ∈ Finset.range A.cols, A.value i j * u.getD j 0

variable {A B C : NumberMatrix ℝ}

theorem rows_toReals (A : NumberMatrix ℝ) : A.toReals.rows = A.rows := by cases A <;> rfl

theorem cols_toReals (A : NumberMatrix ℝ) : A.toReals.cols = A.cols := by cases A <;> rfl

section Casts

theorem toReals_flags (A : SparseMatrix Truth) :
    (flags A : NumberMatrix ℝ).toReals = A.map Truth.cast := by
  simp only [toReals, numbers, SparseMatrix.map_map]
  rfl

theorem toReals_wholes (A : SparseMatrix (Whole ℝ)) : (wholes A).toReals = A.map Whole.cast := by
  simp only [toReals, numbers, SparseMatrix.map_map]
  rfl

theorem toReals_naturals (A : SparseMatrix (Natural ℝ)) :
    (naturals A).toReals = A.map Natural.cast := by
  simp only [toReals, numbers, SparseMatrix.map_map]
  rfl

theorem value_wholes (A : SparseMatrix (Whole ℝ)) (i j : ℕ) :
    (wholes A).value i j = (A.entry i j).cast := by
  rw [value, toReals_wholes, SparseMatrix.entry_map Whole.respectsSums_cast.map_zero]

theorem value_naturals (A : SparseMatrix (Natural ℝ)) (i j : ℕ) :
    (naturals A).value i j = (A.entry i j).cast := by
  rw [value, toReals_naturals, SparseMatrix.entry_map (f := Natural.cast) Int.cast_zero]

/-- Truth values and whole numbers as whole numbers. -/
theorem value_toWholes (hA : A.kind = .flag ∨ A.kind = .integer) (i j : ℕ) :
    (A.toWholes.entry i j).cast = A.value i j := by
  rw [← value_wholes]
  cases A with
  | flags A =>
    rw [value, value, toReals_wholes, toReals_flags]
    simp only [toWholes, numbers, SparseMatrix.map_map]
    rfl
  | wholes A => rfl
  | naturals A => simp [kind] at hA
  | reals A => simp [kind] at hA
  | complexes A => simp [kind] at hA

/-- Truth values and whole numbers without sign as such numbers. -/
theorem value_toNaturals (hA : A.kind = .flag ∨ A.kind = .natural) (i j : ℕ) :
    (A.toNaturals.entry i j).cast = A.value i j := by
  rw [← value_naturals]
  cases A with
  | flags A =>
    rw [value, value, toReals_naturals, toReals_flags]
    simp only [toNaturals, numbers, SparseMatrix.map_map]
    rfl
  | naturals A => rfl
  | wholes A => simp [kind] at hA
  | reals A => simp [kind] at hA
  | complexes A => simp [kind] at hA

end Casts

/-- A real matrix of the given size with the given entries. -/
structure HasValues (A : NumberMatrix ℝ) (rows cols : ℕ) (f : ℕ → ℕ → ℝ) : Prop where
  isReal : A.kind ≠ .complex
  rows_eq : A.rows = rows
  cols_eq : A.cols = cols
  value_eq : ∀ i j, i < rows → A.value i j = f i j

section Scaling

theorem value_reals_scale (c : ℝ) (A : SparseMatrix ℝ) (i j : ℕ) :
    (reals (A.scale c)).value i j = c * A.entry i j :=
  SparseMatrix.entry_map (f := (c * ·)) (mul_zero c) A i j

theorem value_wholes_scale (n : ℤ) (A : SparseMatrix (Whole ℝ)) (i j : ℕ) :
    (wholes (A.map fun e => .wrap (n * e.value))).value i j = n * (A.entry i j).cast := by
  rw [value_wholes, SparseMatrix.entry_map (congrArg Whole.wrap (mul_zero n))]
  exact Int.cast_mul n _

theorem value_naturals_scale (n : ℤ) (A : SparseMatrix (Natural ℝ)) (i j : ℕ) :
    (naturals (A.map fun e => .wrap (n * e.value))).value i j = n * (A.entry i j).cast := by
  rw [value_naturals, SparseMatrix.entry_map (congrArg Natural.wrap (mul_zero n))]
  exact Int.cast_mul n _

theorem scale_hasValues {w : Number ℝ} (hw : w.IsReal) (hA : A.kind ≠ .complex)
    (h : A.scale w = .ok B) :
    B.HasValues A.rows A.cols fun i j => w.value * A.value i j := by
  have hword (n : ℤ) : Scalar.isWord ℝ n = true := by simp [Scalar.isWord, Scalar.word]
  have hnatural (n : ℤ) : Scalar.isNaturalWord ℝ n = true := by
    simp [Scalar.isNaturalWord, Scalar.naturalWord]
  unfold scale at h
  rcases Number.counted_cases hw with ⟨n, hn, hvalue⟩ | ⟨x, hx, hvalue⟩
  · rw [hn] at h
    cases A with
    | flags A =>
      simp only [hword, if_true, Except.ok.injEq] at h
      subst h
      refine ⟨by simp [kind], rfl, rfl, fun i j _ => ?_⟩
      rw [value_wholes_scale, value_toWholes (.inl rfl), hvalue]
    | wholes A =>
      simp only [hword, if_true, Except.ok.injEq] at h
      subst h
      refine ⟨by simp [kind], rfl, rfl, fun i j _ => ?_⟩
      rw [value_wholes_scale, value_toWholes (.inr rfl), hvalue]
    | naturals A =>
      simp only [hnatural, if_true, Except.ok.injEq] at h
      subst h
      refine ⟨by simp [kind], rfl, rfl, fun i j _ => ?_⟩
      rw [value_naturals_scale, value_naturals, hvalue]
    | reals A =>
      cases h
      exact ⟨by simp [kind], rfl, rfl, fun i j _ => by rw [value_reals_scale, hvalue]; rfl⟩
    | complexes A => simp [kind] at hA
  · rw [hx] at h
    have hB : B = reals (A.toReals.scale x) := by
      have hreal : (Number.real x).toReal = .ok x := rfl
      cases A with
      | complexes A => simp [kind] at hA
      | _ =>
        simp only [hreal, Except.map, Except.ok.injEq] at h
        exact h.symm
    subst hB
    refine ⟨by simp [kind], ?_, cols_toReals A, fun i j _ => by rw [value_reals_scale, hvalue]; rfl⟩
    exact rows_toReals A

end Scaling

section Combining

/-- Where two kinds that are not complex meet. -/
theorem wider_cases (k l : NumberKind) (hk : k ≠ .complex) (hl : l ≠ .complex) :
    ((k.wider l = .flag ∨ k.wider l = .integer) ∧ (k = .flag ∨ k = .integer) ∧
        (l = .flag ∨ l = .integer)) ∨
      (k.wider l = .natural ∧ (k = .flag ∨ k = .natural) ∧ (l = .flag ∨ l = .natural)) ∨
      k.wider l = .real ∨ k.wider l = .mixed := by
  cases k <;> cases l <;> simp [NumberKind.wider, NumberKind.rank] at hk hl ⊢

variable {f : {β : Type} → [Add β] → [Sub β] → β → β → β}

theorem combineBy_wholes (hreal : f (0 : ℝ) 0 = 0)
    (hwhole : ∀ m n : Whole ℝ, (f m n).cast = f m.cast n.cast) (M N : SparseMatrix (Whole ℝ))
    {i : ℕ} (hi : i < M.rows) (j : ℕ) :
    (wholes (.combineBy (fun n => n.value == 0) f M N)).value i j =
      f (M.entry i j).cast (N.entry i j).cast := by
  have hzero (n : Whole ℝ) (hn : (n.value == 0) = true) : n = 0 :=
    congrArg Whole.mk (eq_of_beq hn)
  have hcast : (f (0 : Whole ℝ) 0).cast = 0 := by
    rw [hwhole, Whole.respectsSums_cast.map_zero, hreal]
  have h0 : f (0 : Whole ℝ) 0 = 0 := hzero _ (beq_iff_eq.mpr (Int.cast_eq_zero.mp hcast))
  rw [value_wholes, SparseMatrix.entry_combineBy hzero h0 M N hi, hwhole]

theorem combineBy_naturals (hreal : f (0 : ℝ) 0 = 0)
    (hnatural : ∀ m n : Natural ℝ, (f m n).cast = f m.cast n.cast)
    (M N : SparseMatrix (Natural ℝ)) {i : ℕ} (hi : i < M.rows) (j : ℕ) :
    (naturals (.combineBy (fun n => n.value == 0) f M N)).value i j =
      f (M.entry i j).cast (N.entry i j).cast := by
  have hzero (n : Natural ℝ) (hn : (n.value == 0) = true) : n = 0 :=
    congrArg Natural.mk (eq_of_beq hn)
  have hcast : (f (0 : Natural ℝ) 0).cast = 0 := by
    rw [hnatural, show (0 : Natural ℝ).cast = 0 from Int.cast_zero, hreal]
  have h0 : f (0 : Natural ℝ) 0 = 0 := hzero _ (beq_iff_eq.mpr (Int.cast_eq_zero.mp hcast))
  rw [value_naturals, SparseMatrix.entry_combineBy hzero h0 M N hi, hnatural]

/-- Matrices are combined entry by entry. -/
theorem combine_hasValues (hreal : f (0 : ℝ) 0 = 0)
    (hwhole : ∀ m n : Whole ℝ, (f m n).cast = f m.cast n.cast)
    (hnatural : ∀ m n : Natural ℝ, (f m n).cast = f m.cast n.cast) (hA : A.kind ≠ .complex)
    (hB : B.kind ≠ .complex) (h : combine f A B = .ok C) :
    A.rows = B.rows ∧ A.cols = B.cols ∧
      C.HasValues A.rows A.cols fun i j => f (A.value i j) (B.value i j) := by
  unfold combine at h
  split_ifs at h with hsize
  rw [Except.ok.injEq] at h
  refine ⟨hsize.1, hsize.2, ?_⟩
  rcases wider_cases A.kind B.kind hA hB with ⟨hk, hkA, hkB⟩ | ⟨hk, hkA, hkB⟩ | hk
  · have hC : C = wholes (.combineBy (fun n => n.value == 0) f A.toWholes B.toWholes) := by
      rw [← h]
      rcases hk with hk | hk <;> rw [hk]
    have hrows : A.toWholes.rows = A.rows := by cases A <;> rfl
    have hcols : A.toWholes.cols = A.cols := by cases A <;> rfl
    subst hC
    refine ⟨by simp [kind], hrows, hcols, fun i j hi => ?_⟩
    rw [combineBy_wholes hreal hwhole _ _ (hrows ▸ hi), value_toWholes hkA, value_toWholes hkB]
  · have hC : C = naturals (.combineBy (fun n => n.value == 0) f A.toNaturals B.toNaturals) := by
      rw [← h, hk]
    have hrows : A.toNaturals.rows = A.rows := by cases A <;> rfl
    have hcols : A.toNaturals.cols = A.cols := by cases A <;> rfl
    subst hC
    refine ⟨by simp [kind], hrows, hcols, fun i j hi => ?_⟩
    rw [combineBy_naturals hreal hnatural _ _ (hrows ▸ hi), value_toNaturals hkA,
      value_toNaturals hkB]
  · have hC : C = reals (.combine f A.toReals B.toReals) := by
      rw [← h]
      rcases hk with hk | hk <;> rw [hk]
    subst hC
    refine ⟨by simp [kind], rows_toReals A, cols_toReals A, fun i j hi => ?_⟩
    exact SparseMatrix.entry_combineBy (fun v hv => by simpa using hv) hreal _ _
      (by rwa [rows_toReals]) j

theorem add_hasValues (hA : A.kind ≠ .complex) (hB : B.kind ≠ .complex) (h : A.add B = .ok C) :
    A.rows = B.rows ∧ A.cols = B.cols ∧
      C.HasValues A.rows A.cols fun i j => A.value i j + B.value i j :=
  combine_hasValues (add_zero 0) (fun m n => Int.cast_add m.value n.value)
    (fun m n => Int.cast_add m.value n.value) hA hB h

theorem sub_hasValues (hA : A.kind ≠ .complex) (hB : B.kind ≠ .complex) (h : A.sub B = .ok C) :
    A.rows = B.rows ∧ A.cols = B.cols ∧
      C.HasValues A.rows A.cols fun i j => A.value i j - B.value i j :=
  combine_hasValues (sub_zero 0) (fun m n => Int.cast_sub m.value n.value)
    (fun m n => Int.cast_sub m.value n.value) hA hB h

end Combining

section Products

/-- The product with a vector is made of the rows of the product. -/
theorem apply_spec (hA : A.kind ≠ .complex) {u : Array ℝ} {v : NumberArray ℝ}
    (h : A.apply u = .ok v) :
    A.cols = u.size ∧ ∃ w : Array ℝ, v = .ofVector w ∧ w.size = A.rows ∧
      ∀ i, i < A.rows → w.getD i 0 = A.rowProduct u i := by
  unfold apply at h
  split_ifs at h with hsize
  rw [not_not] at hsize
  have hv : v = .ofVector (A.toReals.mulVec u) := by
    cases A with
    | complexes A => simp [kind] at hA
    | _ =>
      cases h
      rfl
  refine ⟨hsize, A.toReals.mulVec u, hv, ?_, fun i hi => ?_⟩
  · rw [SparseMatrix.mulVec, Array.size_ofFn, rows_toReals]
  · rw [SparseMatrix.entry_mulVec _ _ (by rwa [rows_toReals]), cols_toReals]
    rfl

end Products

end NumberMatrix
end WeakForm
