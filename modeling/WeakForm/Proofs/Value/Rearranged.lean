import WeakForm.Proofs.RealScalar
import WeakForm.Proofs.Tensor.Broadcasting
import WeakForm.Proofs.Value.ComplexParts

/-!
# Rearranged arrays

An array may take its entries from other places of its own. No function of the single entries sees
this, so numbers of all kinds are rearranged alike. If the rows of a left factor and the columns of a
right one are rearranged, so are the rows and columns of the product. A matrix with rearranged columns
on both sides of any value then gives the rearranged product, and it gives one wherever the matrix
itself does.
-/

namespace WeakForm

/-- The place in a matrix with `n` columns from which place `k` is taken, when row `i` is taken from
row `σ i` and column `j` from column `τ j`. -/
def placeIn (n : ℕ) (σ τ : ℕ → ℕ) (k : ℕ) : ℕ := σ (k / n) * n + τ (k % n)

theorem placeIn_id (n k : ℕ) : placeIn n id id k = k := Nat.div_add_mod' k n

theorem sumTo_congr {β : Type} [Zero β] [Add β] {n : ℕ} {f g : ℕ → β} (h : ∀ k < n, f k = g k) :
    sumTo n f = sumTo n g := by
  induction n with
  | zero => rfl
  | succ n ih => rw [sumTo, sumTo, ih fun k hk => h k (Nat.lt_succ_of_lt hk), h n n.lt_succ_self]

namespace DenseMatrix

variable {β : Type} [Zero β] {σ τ : ℕ → ℕ}

/-- The matrix whose row `i` and column `j` are row `σ i` and column `τ j`. -/
def rearranged (σ τ : ℕ → ℕ) (A : DenseMatrix β) : DenseMatrix β :=
  .ofFn A.rows A.cols fun i j => A.entry (σ i) (τ j)

theorem entry_rearranged (A : DenseMatrix β) {i j : ℕ} (hi : i < A.rows) (hj : j < A.cols) :
    (A.rearranged σ τ).entry i j = A.entry (σ i) (τ j) := entry_ofFn _ hi hj

theorem transpose_rearranged {A : DenseMatrix β} (hσ : ∀ i < A.rows, σ i < A.rows)
    (hτ : ∀ j < A.cols, τ j < A.cols) :
    (A.rearranged σ τ).transpose = A.transpose.rearranged τ σ := by
  refine ext rfl rfl fun j i hj hi => ?_
  calc (A.rearranged σ τ).transpose.entry j i
      = (A.rearranged σ τ).entry i j := entry_ofFn _ hj hi
    _ = A.entry (σ i) (τ j) := A.entry_rearranged hi hj
    _ = A.transpose.entry (τ j) (σ i) := by rw [transpose, entry_ofFn _ (hτ j hj) (hσ i hi)]
    _ = (A.transpose.rearranged τ σ).entry j i := (A.transpose.entry_rearranged hj hi).symm

theorem mul_rearranged [Add β] [Mul β] {A B : DenseMatrix β} (hσ : ∀ i < A.rows, σ i < A.rows)
    (hτ : ∀ j < B.cols, τ j < B.cols) (hAB : A.cols = B.rows) :
    (A.rearranged σ id).mul (B.rearranged id τ) = (A.mul B).rearranged σ τ := by
  refine ext rfl rfl fun i j hi hj => ?_
  calc ((A.rearranged σ id).mul (B.rearranged id τ)).entry i j
      = sumTo A.cols fun k => (A.rearranged σ id).entry i k * (B.rearranged id τ).entry k j :=
        entry_ofFn _ hi hj
    _ = sumTo A.cols fun k => A.entry (σ i) k * B.entry k (τ j) := by
        refine sumTo_congr fun k hk => ?_
        rw [A.entry_rearranged hi hk, B.entry_rearranged (hAB ▸ hk) hj]
        rfl
    _ = (A.mul B).entry (σ i) (τ j) := by rw [mul, entry_ofFn _ (hσ i hi) (hτ j hj)]
    _ = ((A.mul B).rearranged σ τ).entry i j := ((A.mul B).entry_rearranged hi hj).symm

end DenseMatrix

namespace Tensor

variable {β γ : Type}

/-- The array with entry number `π k` in place `k`; a place for which there is none keeps its own. -/
def rearrange (π : ℕ → ℕ) (t : Tensor β) : Tensor β :=
  ⟨t.shape, Array.ofFn fun k : Fin t.data.size => t.data.getD (π k) t.data[k], by
    rw [Array.size_ofFn, t.size_data]⟩

variable {π : ℕ → ℕ} {σ τ : ℕ → ℕ}

@[simp] theorem shape_rearrange (π : ℕ → ℕ) (t : Tensor β) : (t.rearrange π).shape = t.shape := rfl

theorem rearrange_map (φ : β → γ) (t : Tensor β) :
    (t.map φ).rearrange π = (t.rearrange π).map φ := by
  refine ext rfl (Array.ext (by simp [rearrange]) fun k _ _ => ?_)
  by_cases hπ : π k < t.data.size <;> simp [rearrange, hπ]

theorem rearrange_of_eq (hπ : ∀ k, π k = k) (t : Tensor β) : t.rearrange π = t := by
  refine ext rfl (Array.ext (by simp [rearrange]) fun k _ _ => ?_)
  simp [rearrange, hπ]

theorem rearrange_ofMatrix [Zero β] (A : DenseMatrix β) (hσ : ∀ i < A.rows, σ i < A.rows)
    (hτ : ∀ j < A.cols, τ j < A.cols) :
    (ofMatrix A).rearrange (placeIn A.cols σ τ) = ofMatrix (A.rearranged σ τ) := by
  have hsize : A.data.size = A.rows * A.cols := A.size_data
  refine ext rfl (Array.ext (by simp [rearrange, ofMatrix, DenseMatrix.rearranged, DenseMatrix.ofFn, hsize])
    fun k hk _ => ?_)
  have hk : k < A.rows * A.cols := by simpa [rearrange, ofMatrix, hsize] using hk
  have hcols : 0 < A.cols := Nat.pos_of_ne_zero fun h0 => by simp [h0] at hk
  have hplace : σ (k / A.cols) * A.cols + τ (k % A.cols) < A.data.size :=
    hsize ▸ DenseMatrix.index_lt (hσ _ ((Nat.div_lt_iff_lt_mul hcols).mpr hk))
      (hτ _ (Nat.mod_lt _ hcols))
  simp [rearrange, ofMatrix, DenseMatrix.rearranged, DenseMatrix.ofFn, DenseMatrix.entry, placeIn,
    hplace, hτ _ (Nat.mod_lt k hcols)]

theorem mul?_rearrange [Zero β] [Add β] [Mul β] {s t : Tensor β} {m k l n : ℕ}
    (hs : s.shape = [m, k]) (ht : t.shape = [l, n]) (hσ : ∀ i < m, σ i < m) (hτ : ∀ j < n, τ j < n) :
    (s.rearrange (placeIn k σ id)).mul? (t.rearrange (placeIn n id τ)) =
      (s.mul? t).map (rearrange (placeIn n σ τ)) := by
  obtain ⟨A, rfl⟩ := exists_ofMatrix (t := s) (by rw [hs]; rfl)
  obtain ⟨B, rfl⟩ := exists_ofMatrix (t := t) (by rw [ht]; rfl)
  obtain ⟨rfl, rfl⟩ : A.rows = m ∧ A.cols = k := by simpa [ofMatrix] using hs
  obtain ⟨rfl, rfl⟩ : B.rows = l ∧ B.cols = n := by simpa [ofMatrix] using ht
  rw [rearrange_ofMatrix (τ := id) A hσ fun _ h => h,
    rearrange_ofMatrix (σ := id) B (fun _ h => h) hτ, mul?_ofMatrix, mul?_ofMatrix]
  by_cases hAB : A.cols = B.rows
  · have hsame : (A.rearranged σ id).cols = (B.rearranged id τ).rows := hAB
    rw [if_pos hsame, if_pos hAB, Option.map_some, DenseMatrix.mul_rearranged hσ hτ hAB]
    exact congrArg some (rearrange_ofMatrix (A.mul B) hσ hτ).symm
  · have hne : (A.rearranged σ id).cols ≠ (B.rearranged id τ).rows := hAB
    rw [if_neg hne, if_neg hAB]
    rfl

theorem exists_scalar {t : Tensor β} (h : t.shape = []) : ∃ x, t = scalar x := by
  have hsize : t.data.size = 1 := by rw [t.size_data, h]; rfl
  obtain ⟨x, hx⟩ := Array.size_eq_one_iff.mp hsize
  exact ⟨x, ext h hx⟩

/-- If no entry of an array of results is an error, none is after they are rearranged. -/
theorem collect_rearrange {t : Tensor (Except (Error ℝ) β)} {s : Tensor β} (h : t.collect = .ok s) :
    (t.rearrange π).collect = .ok (s.rearrange π) := by
  have hall (s : Tensor β) : (s.map (Except.ok (ε := Error ℝ))).collect = .ok s := by
    have hentries : ((s.map (Except.ok (ε := Error ℝ))).data.toList.mapM id) = .ok s.data.toList := by
      rw [mapM_eq_ok_iff, data_map, Array.toList_map, List.forall₂_map_left_iff]
      exact List.forall₂_same.mpr fun _ _ => rfl
    rw [collect, hentries, ok_bind]
    refine orShapeMismatch_eq_ok.mpr ?_
    exact dif_pos s.size_data
  rw [collect_eq_ok h, rearrange_map]
  exact hall _

end Tensor

namespace NumberArray

variable {a b c : NumberArray ℝ} {π π₁ π₂ : ℕ → ℕ}

theorem shape_numbers (a : NumberArray ℝ) : a.numbers.shape = a.shape := by cases a <;> rfl

theorem shape_toComplexes (a : NumberArray ℝ) : a.toComplexes.shape = a.shape := by cases a <;> rfl

/-- The array with entry number `π k` in place `k`. -/
noncomputable def moved (π : ℕ → ℕ) (a : NumberArray ℝ) : NumberArray ℝ :=
  a.rearrange fun t => t.rearrange π

@[simp] theorem shape_moved (π : ℕ → ℕ) (a : NumberArray ℝ) : (a.moved π).shape = a.shape := by
  cases a <;> rfl

@[simp] theorem kind_moved (π : ℕ → ℕ) (a : NumberArray ℝ) : (a.moved π).kind = a.kind := by
  cases a <;> rfl

theorem numbers_moved (π : ℕ → ℕ) (a : NumberArray ℝ) : (a.moved π).numbers = a.numbers.rearrange π := by
  cases a <;> simp only [moved, NumberArray.rearrange, numbers, Tensor.rearrange_map]

theorem realParts_moved (π : ℕ → ℕ) (a : NumberArray ℝ) :
    (a.moved π).realParts = a.realParts.rearrange π := by
  cases a <;> simp only [moved, NumberArray.rearrange, realParts, numbers, Tensor.rearrange_map]

theorem toComplexes_moved (π : ℕ → ℕ) (a : NumberArray ℝ) :
    (a.moved π).toComplexes = a.toComplexes.rearrange π := by
  cases a <;> simp only [moved, NumberArray.rearrange, toComplexes, numbers, Tensor.rearrange_map]

theorem outcomes_moved (π : ℕ → ℕ) (a : NumberArray ℝ) :
    (a.moved π).outcomes = a.outcomes.rearrange π := by
  rw [outcomes, numbers_moved]
  exact (Tensor.rearrange_map _ a.numbers).symm

theorem moved_of_eq (hπ : ∀ k, π k = k) (a : NumberArray ℝ) : a.moved π = a := by
  cases a <;> simp only [moved, NumberArray.rearrange, Tensor.rearrange_of_eq hπ]

/-- An operation that rearranges its result when its arguments are rearranged does so for arrays of
numbers of all kinds. -/
theorem combine_moved
    {f : {β : Type} → [Zero β] → [Add β] → [Mul β] → Tensor β → Tensor β → Option (Tensor β)}
    (hf : ∀ {β : Type} [Zero β] [Add β] [Mul β] (s t : Tensor β), s.shape = a.shape →
      t.shape = b.shape → f (s.rearrange π₁) (t.rearrange π₂) = (f s t).map (Tensor.rearrange π))
    (hwide : (a.kind.wider b.kind).HoldsFractions) (h : combine f a b = .ok c) :
    combine f (a.moved π₁) (b.moved π₂) = .ok (c.moved π) := by
  unfold combine at h ⊢
  rw [kind_moved, kind_moved]
  rcases hwide with hkind | hkind | hkind
  · rw [hkind] at h ⊢
    obtain ⟨t, ht, rfl⟩ := Option.map_eq_some_iff.mp (orShapeMismatch_eq_ok.mp h)
    have hmoved := hf a.realParts b.realParts a.shape_realParts b.shape_realParts
    rw [← realParts_moved, ← realParts_moved, show f a.realParts b.realParts = some t from ht] at hmoved
    exact orShapeMismatch_eq_ok.mpr (congrArg (Option.map reals) hmoved)
  · rw [hkind] at h ⊢
    obtain ⟨t, ht, rfl⟩ := Option.map_eq_some_iff.mp (orShapeMismatch_eq_ok.mp h)
    have hmoved := hf a.toComplexes b.toComplexes a.shape_toComplexes b.shape_toComplexes
    rw [← toComplexes_moved, ← toComplexes_moved,
      show f a.toComplexes b.toComplexes = some t from ht] at hmoved
    exact orShapeMismatch_eq_ok.mpr (congrArg (Option.map complexes) hmoved)
  · rw [hkind] at h ⊢
    obtain ⟨t, ht, h⟩ := bind_eq_ok.mp h
    obtain ⟨entries, hentries, h⟩ := bind_eq_ok.mp h
    cases h
    have hmoved := hf a.outcomes b.outcomes a.shape_numbers b.shape_numbers
    rw [← outcomes_moved, ← outcomes_moved,
      show f a.outcomes b.outcomes = some t from orShapeMismatch_eq_ok.mp ht] at hmoved
    refine bind_eq_ok.mpr ⟨_, orShapeMismatch_eq_ok.mpr hmoved, ?_⟩
    exact bind_eq_ok.mpr ⟨_, Tensor.collect_rearrange hentries, rfl⟩

/-- Rows and columns of the factors are rows and columns of the product. -/
theorem mul_moved {m k l n : ℕ} {σ τ : ℕ → ℕ} (ha : a.shape = [m, k]) (hb : b.shape = [l, n])
    (hσ : ∀ i < m, σ i < m) (hτ : ∀ j < n, τ j < n) (hwide : (a.kind.wider b.kind).HoldsFractions)
    (h : a.mul b = .ok c) :
    (a.moved (placeIn k σ id)).mul (b.moved (placeIn n id τ)) = .ok (c.moved (placeIn n σ τ)) :=
  combine_moved (f := fun s t => s.mul? t)
    (fun _ _ hs ht => Tensor.mul?_rearrange (hs.trans ha) (ht.trans hb) hσ hτ) hwide h

theorem shape_mul {m k l n : ℕ} (ha : a.shape = [m, k]) (hb : b.shape = [l, n])
    (hwide : (a.kind.wider b.kind).HoldsFractions) (h : a.mul b = .ok c) : c.shape = [m, n] := by
  have hproduct := (mul_eq_ok hwide h).1
  have hA : a.complexParts.shape = [m, k] := a.shape_numbers.trans ha
  have hB : b.complexParts.shape = [l, n] := b.shape_numbers.trans hb
  rw [← c.shape_numbers]
  change c.complexParts.shape = _
  obtain ⟨A, hA'⟩ := Tensor.exists_ofMatrix (t := a.complexParts) (by rw [hA]; rfl)
  obtain ⟨B, hB'⟩ := Tensor.exists_ofMatrix (t := b.complexParts) (by rw [hB]; rfl)
  rw [hA', hB', Tensor.mul?_ofMatrix] at hproduct
  rw [hA'] at hA
  rw [hB'] at hB
  split_ifs at hproduct
  rw [← Option.some.inj hproduct]
  have hrows : A.rows = m := (List.cons.inj hA).1
  have hcols : B.cols = n := (List.cons.inj (List.cons.inj hB).2).1
  exact congrArg₂ (fun m n => [m, n]) hrows hcols

/-- The entries of an array may be multiplied with a number before or after they are rearranged. -/
theorem times_moved (hb : b.shape = []) (hwide : (a.kind.wider b.kind).HoldsFractions)
    (h : a.times b = .ok c) : (a.moved π).times b = .ok (c.moved π) ∧ c.shape = a.shape := by
  constructor
  · rw [← b.moved_of_eq fun _ => rfl]
    refine combine_moved (f := fun s t => Tensor.zipWith (· * ·) s t) (fun s t _ ht => ?_) hwide h
    obtain ⟨y, rfl⟩ := Tensor.exists_scalar (ht.trans hb)
    rw [Tensor.rearrange_of_eq (fun _ => rfl), Tensor.zipWith_scalar, Tensor.zipWith_scalar,
      Option.map_some, Tensor.rearrange_map]
  · obtain ⟨y, hy⟩ := Tensor.exists_scalar (b.shape_numbers.trans hb)
    have hproduct := (times_eq_ok hwide h).1
    rw [complexParts, complexParts, hy, Tensor.map_scalar, Tensor.zipWith_scalar] at hproduct
    rw [← c.shape_numbers, ← a.shape_numbers]
    exact (congrArg Tensor.shape (Option.some.inj hproduct)).symm

theorem moved_times (ha : a.shape = []) (hwide : (a.kind.wider b.kind).HoldsFractions)
    (h : a.times b = .ok c) : a.times (b.moved π) = .ok (c.moved π) ∧ c.shape = b.shape := by
  constructor
  · rw [← a.moved_of_eq fun _ => rfl]
    refine combine_moved (f := fun s t => Tensor.zipWith (· * ·) s t) (fun s t hs _ => ?_) hwide h
    obtain ⟨x, rfl⟩ := Tensor.exists_scalar (hs.trans ha)
    rw [Tensor.rearrange_of_eq (fun _ => rfl), Tensor.scalar_zipWith, Tensor.scalar_zipWith,
      Option.map_some, Tensor.rearrange_map]
  · obtain ⟨x, hx⟩ := Tensor.exists_scalar (a.shape_numbers.trans ha)
    have hproduct := (times_eq_ok hwide h).1
    rw [complexParts, complexParts, hx, Tensor.map_scalar, Tensor.scalar_zipWith] at hproduct
    rw [← c.shape_numbers, ← b.shape_numbers]
    exact (congrArg Tensor.shape (Option.some.inj hproduct)).symm

theorem toReals_moved {t : Tensor ℝ} (h : a.toReals = .ok t) :
    (a.moved π).toReals = .ok (t.rearrange π) := by
  cases a with
  | mixed s =>
    have hs : (s.map Number.toReal).collect = .ok t := h
    have hmoved := Tensor.collect_rearrange (π := π) hs
    rw [Tensor.rearrange_map] at hmoved
    exact hmoved
  | _ =>
    cases h
    exact congrArg Except.ok (realParts_moved π _)

end NumberArray

namespace Value

variable {A : DenseMatrix ℝ} {w u : Value ℝ} {σ : ℕ → ℕ}

theorem ofArray_eq {a : NumberArray ℝ} (h : a.shape ≠ []) : ofArray a = array a := if_pos h

theorem scalar?_array {a : NumberArray ℝ} {n : ℕ} (h : n ∈ a.shape) (hn : n ≠ 1) (π : ℕ → ℕ) :
    (array a).scalar? = none ∧ (array (a.moved π)).scalar? = none := by
  refine ⟨Tensor.item?_eq_none (a.shape_numbers ▸ h) hn, Tensor.item?_eq_none (n := n) ?_ hn⟩
  rwa [NumberArray.shape_numbers, NumberArray.shape_moved]

/-- A value that is no plain number is multiplied like an array. -/
theorem onArrays_mul {a : NumberArray ℝ} (hw : w.scalar? = none) :
    onArrays NumberArray.mul (array a) w = (a.mul w.toArray).map ofArray := by
  cases w with
  | plain x => cases hw
  | single b => rfl
  | array b => rfl

/-- An array with rearranged rows has the rearranged product with a value that is a number or a matrix. -/
theorem mul_moved_rows {a : NumberArray ℝ} {m k : ℕ} (hkind : a.kind.HoldsFractions)
    (ha : a.shape = [m, k]) (hm : m ≠ 1) (hσ : ∀ i < m, σ i < m)
    (haxes : w.scalar? = none → w.toArray.shape.length = 2) (h : (array a).mul w = .ok u) :
    ∃ c n, u = array c ∧ c.kind.HoldsFractions ∧ c.shape = [m, n] ∧
      (array (a.moved (placeIn k σ id))).mul w = .ok (array (c.moved (placeIn n σ id))) := by
  obtain ⟨hnone, hnone'⟩ := scalar?_array (ha ▸ List.mem_cons_self) hm (placeIn k σ id)
  have hresult {c : NumberArray ℝ} {n : ℕ} (hc : c.shape = [m, n]) (π : ℕ → ℕ) :
      ofArray c = array c ∧ ofArray (c.moved π) = array (c.moved π) :=
    ⟨ofArray_eq (by simp [hc]), ofArray_eq (by simp [hc])⟩
  rw [mul, hnone] at h
  rw [mul, hnone']
  cases hw : w.scalar? with
  | some x =>
    rw [hw] at h
    obtain ⟨b, hb, h⟩ := bind_eq_ok.mp (show NumberArray.ofNumberBeside a.kind x >>= (fun b =>
      (a.times b).map ofArray) = .ok u from h)
    obtain ⟨c, hc, rfl⟩ := map_eq_ok.mp h
    have hwide := hkind.wider_left b.kind
    have hscalar : b.shape = [] := by
      rw [← b.shape_numbers]
      exact congrArg Tensor.shape (NumberArray.ofNumberBeside_eq_ok hkind hb)
    obtain ⟨hmoved, hshape⟩ := NumberArray.times_moved hscalar hwide hc
    obtain ⟨heq, heq'⟩ := hresult (hshape.trans ha) (placeIn k σ id)
    refine ⟨c, k, heq, (NumberArray.times_eq_ok hwide hc).2, hshape.trans ha, ?_⟩
    change NumberArray.ofNumberBeside (a.moved _).kind x >>= (fun b =>
      ((a.moved _).times b).map ofArray) = _
    rw [NumberArray.kind_moved, hb, ok_bind, hmoved]
    exact congrArg Except.ok heq'
  | none =>
    rw [hw] at h
    dsimp only at h ⊢
    rw [onArrays_mul hw] at h ⊢
    obtain ⟨l, n, hb⟩ := List.length_eq_two.mp (haxes hw)
    obtain ⟨c, hc, rfl⟩ := map_eq_ok.mp h
    have hwide := hkind.wider_left w.toArray.kind
    have hshape := NumberArray.shape_mul ha hb hwide hc
    have hmoved := NumberArray.mul_moved (τ := id) ha hb hσ (fun _ h => h) hwide hc
    rw [NumberArray.moved_of_eq (placeIn_id n)] at hmoved
    obtain ⟨heq, heq'⟩ := hresult hshape (placeIn n σ id)
    refine ⟨c, n, heq, (NumberArray.mul_eq_ok hwide hc).2, hshape, ?_⟩
    rw [hmoved]
    exact congrArg Except.ok heq'

theorem ofTensor_rearranged {τ : ℕ → ℕ} (hσ : ∀ i < A.rows, σ i < A.rows)
    (hτ : ∀ j < A.cols, τ j < A.cols) : ofTensor (.ofMatrix (A.rearranged σ τ)) =
      array ((NumberArray.reals (.ofMatrix A)).moved (placeIn A.cols σ τ)) := by
  rw [← Tensor.rearrange_ofMatrix A hσ hτ]
  rfl

theorem ofTensor_transpose_rearranged (hσ : ∀ j < A.cols, σ j < A.cols) :
    ofTensor (.ofMatrix (A.rearranged id σ).transpose) =
      array ((NumberArray.reals (.ofMatrix A.transpose)).moved (placeIn A.rows σ id)) := by
  rw [DenseMatrix.transpose_rearranged (σ := id) (fun _ h => h) hσ]
  exact ofTensor_rearranged (τ := id) hσ fun _ h => h

/-- A matrix with rearranged columns has the rearranged product with an array whose rows are rearranged. -/
theorem moved_rows_mul {a : NumberArray ℝ} {m k : ℕ} (hkind : a.kind.HoldsFractions)
    (ha : a.shape = [m, k]) (hm : m ≠ 1) (hσ : ∀ i < m, σ i < m) (hA : A.cols = m)
    (h : (array a).mul (ofTensor (.ofMatrix A)) = .ok u) : ∃ c, u = array c ∧ c.shape = [m, m] ∧
      (array (a.moved (placeIn k σ id))).mul (ofTensor (.ofMatrix (A.rearranged id σ))) =
        .ok (array (c.moved (placeIn m σ σ))) := by
  subst hA
  have hb : (NumberArray.reals (.ofMatrix A)).shape = [A.rows, A.cols] := rfl
  obtain ⟨hnone, hnone'⟩ := scalar?_array (ha ▸ List.mem_cons_self) hm (placeIn k σ id)
  obtain ⟨hmatrix, hmatrix'⟩ := scalar?_array (hb ▸ List.mem_cons_of_mem _ List.mem_cons_self) hm
    (placeIn A.cols id σ)
  rw [ofTensor, mul, hnone, hmatrix] at h
  rw [ofTensor_rearranged (σ := id) (fun _ h => h) hσ, mul, hnone', hmatrix']
  dsimp only at h ⊢
  rw [onArrays_mul hmatrix] at h
  rw [onArrays_mul hmatrix']
  obtain ⟨c, hc, rfl⟩ := map_eq_ok.mp h
  have hwide := hkind.wider_left (NumberArray.reals (.ofMatrix A)).kind
  have hshape := NumberArray.shape_mul ha hb hwide hc
  have hmoved := NumberArray.mul_moved ha hb hσ hσ hwide hc
  refine ⟨c, ofArray_eq (by simp [hshape]), hshape, ?_⟩
  change Except.map ofArray ((a.moved _).mul ((NumberArray.reals (.ofMatrix A)).moved _)) = _
  rw [hmoved]
  exact congrArg Except.ok (ofArray_eq (by simp [hshape]))

/-- The entries of a value between the transpose of a matrix and the matrix. -/
noncomputable def between (A : DenseMatrix ℝ) (w : Value ℝ) : Except (Error ℝ) (Tensor ℝ) :=
  mul (ofTensor (.ofMatrix A.transpose)) w >>= fun u =>
    u.mul (ofTensor (.ofMatrix A)) >>= toReals

theorem between_rearranged (hcols : A.cols ≠ 1) (hσ : ∀ j < A.cols, σ j < A.cols) {t : Tensor ℝ}
    (h : between A w = .ok t) (haxes : w.scalar? = none → w.toArray.shape.length = 2) :
    t.shape = [A.cols, A.cols] ∧
      between (A.rearranged id σ) w = .ok (t.rearrange (placeIn A.cols σ σ)) := by
  obtain ⟨u, hu, h⟩ := bind_eq_ok.mp h
  obtain ⟨v, hv, ht⟩ := bind_eq_ok.mp h
  obtain ⟨c, n, rfl, hkind, hc, hmoved⟩ := mul_moved_rows (a := .reals (.ofMatrix A.transpose))
    (.inl rfl) rfl hcols hσ haxes hu
  obtain ⟨d, rfl, hd, hproduct⟩ := moved_rows_mul hkind hc hcols hσ rfl hv
  have hreals := NumberArray.toReals_moved (π := placeIn A.cols σ σ) ht
  constructor
  · have hparts := NumberArray.toReals_eq_ok ht
    rw [hparts]
    exact d.shape_numbers.trans hd
  · rw [between, ofTensor_transpose_rearranged hσ]
    exact bind_eq_ok.mpr ⟨_, hmoved, bind_eq_ok.mpr ⟨_, hproduct, hreals⟩⟩

/-- A number times a column. -/
theorem mul_transpose_rearranged {x : Number ℝ} (hw : w.scalar? = some x)
    (hσ : ∀ j < A.cols, σ j < A.cols) {t : Tensor ℝ}
    (h : w.mul (ofTensor (.ofMatrix A.transpose)) >>= toReals = .ok t) : t.shape = [A.cols, A.rows] ∧
      w.mul (ofTensor (.ofMatrix (A.rearranged id σ).transpose)) >>= toReals =
        .ok (t.rearrange (placeIn A.rows σ id)) := by
  have hmul {b : NumberArray ℝ} (hb : b.kind = .real) : w.mul (array b) =
      NumberArray.ofNumberBeside .real x >>= fun a => (a.times b).map ofArray := by
    rw [mul, hw, ← hb]
    rfl
  have hshape : (NumberArray.reals (.ofMatrix A.transpose)).shape = [A.cols, A.rows] := rfl
  obtain ⟨u, hu, ht⟩ := bind_eq_ok.mp h
  rw [ofTensor, hmul rfl] at hu
  obtain ⟨a, ha, hu⟩ := bind_eq_ok.mp hu
  obtain ⟨c, hc, rfl⟩ := map_eq_ok.mp hu
  have hscalar : a.shape = [] := by
    rw [← a.shape_numbers]
    exact congrArg Tensor.shape (NumberArray.ofNumberBeside_eq_ok (.inl rfl) ha)
  have hwide : (a.kind.wider (NumberArray.reals (.ofMatrix A.transpose)).kind).HoldsFractions := by
    change (a.kind.wider .real).HoldsFractions
    cases a.kind <;> simp [NumberKind.wider, NumberKind.rank, NumberKind.HoldsFractions]
  obtain ⟨hmoved, hcshape⟩ := NumberArray.moved_times (π := placeIn A.rows σ id) hscalar hwide hc
  have hresult (π : ℕ → ℕ) : ofArray (c.moved π) = array (c.moved π) :=
    ofArray_eq (by simp [hcshape, hshape])
  rw [ofArray_eq (by simp [hcshape, hshape])] at ht
  constructor
  · rw [NumberArray.toReals_eq_ok ht]
    exact c.shape_numbers.trans (hcshape.trans hshape)
  · rw [ofTensor_transpose_rearranged hσ, hmul (NumberArray.kind_moved _ _), ha, ok_bind, hmoved]
    change (ofArray _).toReals = _
    rw [hresult]
    exact NumberArray.toReals_moved ht

end Value
end WeakForm
