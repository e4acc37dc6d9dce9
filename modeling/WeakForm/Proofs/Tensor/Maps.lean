import Mathlib.Tactic
import WeakForm.Tensor

/-!
# Maps of arrays

What is done to the places of entries does not depend on the entries, so it commutes with a map of
the entries. Sums and products of arrays commute with maps that respect sums and products.
-/

namespace WeakForm

variable {β γ : Type}

/-- A map that respects sums and products, zero being the empty sum. -/
structure RespectsSums [Zero β] [Zero γ] [Add β] [Add γ] [Mul β] [Mul γ] (φ : β → γ) : Prop where
  map_zero : φ 0 = 0
  map_add : ∀ x y, φ (x + y) = φ x + φ y
  map_mul : ∀ x y, φ (x * y) = φ x * φ y

theorem sumTo_map [Zero β] [Zero γ] [Add β] [Add γ] [Mul β] [Mul γ] {φ : β → γ}
    (h : RespectsSums φ) (n : ℕ) (f : ℕ → β) : sumTo n (fun k => φ (f k)) = φ (sumTo n f) := by
  induction n with
  | zero => exact h.map_zero.symm
  | succ n ih => rw [sumTo, sumTo, ih, h.map_add]

/-- An entry of a list of mapped entries, zero beyond its end. -/
theorem getD_map [Zero β] [Zero γ] {φ : β → γ} (h0 : φ 0 = 0) (data : Array β) (k : ℕ) :
    (data.map φ).getD k 0 = φ (data.getD k 0) := by
  rw [Array.getD_eq_getD_getElem?, Array.getD_eq_getD_getElem?, Array.getElem?_map]
  cases data[k]? with
  | none => exact h0.symm
  | some x => rfl

namespace DenseMatrix

theorem map_ofFn (φ : β → γ) (m n : ℕ) (f : ℕ → ℕ → β) :
    (ofFn m n f).map φ = ofFn m n fun i j => φ (f i j) := by
  simp only [ofFn, map, Array.map_ofFn]
  rfl

theorem toList_ofFn (m n : ℕ) (f : ℕ → ℕ → β) :
    (ofFn m n f).data.toList = (List.range m).flatMap fun i => (List.range n).map (f i) := by
  have hrange {γ : Type} (k : ℕ) (g : ℕ → γ) :
      (List.ofFn fun i : Fin k => g i) = (List.range k).map g := by
    rw [List.ofFn_eq_map, ← List.map_coe_finRange_eq_range, List.map_map]
    rfl
  have hentry (i : ℕ) (j : Fin n) : f ((i * n + j) / n) ((i * n + j) % n) = f i j := by
    rw [(index_div_mod j.isLt i).1, (index_div_mod j.isLt i).2]
  change (Array.ofFn fun k : Fin (m * n) => f (k / n) (k % n)).toList = _
  rw [Array.toList_ofFn, List.ofFn_mul, List.flatMap_def]
  simp only [hentry]
  rw [← hrange m]
  simp only [hrange]

/-- A matrix is stored row by row. -/
theorem toList_data [Zero β] (A : DenseMatrix β) :
    A.data.toList = (List.range A.rows).flatMap A.row := by
  have hA : A = ofFn A.rows A.cols A.entry :=
    ext rfl rfl fun _ _ hi hj => (entry_ofFn _ hi hj).symm
  exact (congrArg (fun B : DenseMatrix β => B.data.toList) hA).trans (toList_ofFn _ _ _)

theorem entry_map [Zero β] [Zero γ] {φ : β → γ} (h0 : φ 0 = 0) (A : DenseMatrix β) (i j : ℕ) :
    (A.map φ).entry i j = φ (A.entry i j) := by
  change (if j < A.cols then (A.data.map φ).getD (i * A.cols + j) 0 else 0) = _
  unfold entry
  split_ifs
  · exact getD_map h0 _ _
  · exact h0.symm

theorem mul_map [Zero β] [Zero γ] [Add β] [Add γ] [Mul β] [Mul γ] {φ : β → γ}
    (h : RespectsSums φ) (A B : DenseMatrix β) : (A.map φ).mul (B.map φ) = (A.mul B).map φ := by
  unfold mul
  simp only [map_ofFn, ← sumTo_map h, h.map_mul, entry_map h.map_zero]
  rfl

theorem identity_map [Zero β] [Zero γ] [One β] [One γ] {φ : β → γ} (h0 : φ 0 = 0) (h1 : φ 1 = 1)
    (n : ℕ) : (identity n : DenseMatrix β).map φ = identity n := by
  simp only [identity, map_ofFn, apply_ite φ, h0, h1]

end DenseMatrix

namespace Tensor

theorem ext {t u : Tensor β} (hs : t.shape = u.shape) (hd : t.data = u.data) : t = u := by
  cases t
  cases u
  simp only at hs hd
  subst hs hd
  rfl

section Places

variable (φ : β → γ) (t : Tensor β)

@[simp] theorem shape_map : (t.map φ).shape = t.shape := rfl

@[simp] theorem data_map : (t.map φ).data = t.data.map φ := rfl

theorem map_id : t.map (fun x => x) = t := by
  apply ext
  · rfl
  · simp

theorem map_map {δ : Type} (ψ : γ → δ) : (t.map φ).map ψ = t.map (ψ ∘ φ) := by
  apply ext
  · rfl
  · simp

theorem map_ofFn (shape : List ℕ) (f : List ℕ → β) :
    (ofFn shape f).map φ = ofFn shape fun is => φ (f is) := by
  simp only [ofFn, map, Array.map_ofFn]
  rfl

theorem map_scalar (x : β) : (scalar x).map φ = scalar (φ x) := by simp [scalar, map]

theorem map_ofArray (data : Array β) : (ofArray data).map φ = ofArray (data.map φ) := by
  apply ext
  · simp [ofArray]
  · rfl

theorem item?_map : (t.map φ).item? = t.item?.map φ := by
  rw [item?, item?, data_map, Array.size_map]
  split_ifs
  · rw [Array.getElem?_map]
  · rfl

theorem reshape?_map (shape : List ℕ) :
    (t.map φ).reshape? shape = (t.reshape? shape).map (map φ) := by
  have hsize : (t.map φ).data.size = t.data.size := by simp
  by_cases h : t.data.size = volume shape
  · rw [reshape?, reshape?, dif_pos h, dif_pos (hsize.trans h)]
    rfl
  · rw [reshape?, reshape?, dif_neg h, dif_neg (hsize ▸ h)]
    rfl

theorem atLeast2_map : (t.map φ).atLeast2 = t.atLeast2.map φ := by
  obtain ⟨shape, data, hsize⟩ := t
  match shape with
  | [] => rfl
  | [n] => rfl
  | m :: n :: shape => rfl

theorem toMatrix?_map : (t.map φ).toMatrix? = t.toMatrix?.map (DenseMatrix.map φ) := by
  obtain ⟨shape, data, hsize⟩ := t
  match shape with
  | [] => rfl
  | [n] => rfl
  | [m, n] => rfl
  | l :: m :: n :: shape => rfl

theorem ofMatrix_map (A : DenseMatrix β) : ofMatrix (A.map φ) = (ofMatrix A).map φ := rfl

theorem padTo?_map (k : ℕ) : (t.map φ).padTo? k = (t.padTo? k).map (map φ) :=
  reshape?_map φ t _

variable {φ} [Zero β] [Zero γ] (h0 : φ 0 = 0)
include h0

theorem get_map (is : List ℕ) : (t.map φ).get is = φ (t.get is) := getD_map h0 _ _

theorem transpose_map : (t.map φ).transpose = t.transpose.map φ := by
  unfold transpose
  rw [shape_map]
  split <;> simp only [map_ofFn, get_map t h0]

theorem matrixAt_map (m n s : ℕ) : (t.map φ).matrixAt m n s = (t.matrixAt m n s).map φ := by
  unfold matrixAt
  simp only [DenseMatrix.map_ofFn, data_map, getD_map h0]

end Places

/-- A left factor with one axis is a row. -/
def asRow? (t : Tensor β) : Option (Tensor β) :=
  if t.shape.length = 1 then t.reshape? (1 :: t.shape) else some t

/-- A right factor with one axis is a column. -/
def asColumn? (t : Tensor β) : Option (Tensor β) :=
  if t.shape.length = 1 then t.reshape? (t.shape ++ [1]) else some t

theorem asRow?_map (φ : β → γ) (t : Tensor β) : (t.map φ).asRow? = t.asRow?.map (map φ) := by
  unfold asRow?
  rw [shape_map, reshape?_map]
  split_ifs <;> rfl

theorem asColumn?_map (φ : β → γ) (t : Tensor β) :
    (t.map φ).asColumn? = t.asColumn?.map (map φ) := by
  unfold asColumn?
  rw [shape_map, reshape?_map]
  split_ifs <;> rfl

/-- The product of two tensors of which one is no matrix. -/
def mulAsStacks [Zero β] [Add β] [Mul β] (a b : Tensor β) : Option (Tensor β) :=
  match a.asRow?, b.asColumn? with
  | some a', some b' => do
    let p ← mulStacks a' b'
    let (lead, m, n) ← lastTwo? p.shape
    p.reshape? (lead ++ (if a.shape.length = 1 then [] else [m]) ++
      (if b.shape.length = 1 then [] else [n]))
  | _, _ => none

theorem mul?_eq_mulAsStacks [Zero β] [Add β] [Mul β] {a b : Tensor β}
    (h : a.toMatrix? = none ∨ b.toMatrix? = none) : a.mul? b = a.mulAsStacks b := by
  unfold mul?
  split
  · rename_i hA hB
    rw [hA, hB] at h
    simp at h
  · rfl

section Pairs

variable {φ : β → γ} (a b : Tensor β) [Zero β] [Zero γ]

/-- Entries that are combined alike before and after a map. -/
theorem zipWith_map (h0 : φ 0 = 0) {f : β → β → β} {g : γ → γ → γ}
    (h : ∀ x y, g (φ x) (φ y) = φ (f x y)) :
    zipWith g (a.map φ) (b.map φ) = (zipWith f a b).map (map φ) := by
  by_cases hshape : a.shape = b.shape
  · rw [zipWith, zipWith, dif_pos hshape, dif_pos (by exact hshape), Option.map_some]
    congr 1
    apply ext
    · rfl
    · simp [Array.zipWith_map, Array.map_zipWith, h]
  · rw [zipWith, zipWith, dif_neg hshape, dif_neg (by exact hshape), Option.map_map]
    simp only [shape_map, get_map _ h0, h, Function.comp_def, map_ofFn]

variable [Add β] [Add γ] [Mul β] [Mul γ] (h : RespectsSums φ)
include h

theorem mulStacks_map :
    mulStacks (a.map φ) (b.map φ) = (mulStacks a b).map (map φ) := by
  unfold mulStacks
  rw [shape_map, shape_map]
  cases lastTwo? a.shape with
  | none => rfl
  | some sizes =>
    cases lastTwo? b.shape with
    | none => rfl
    | some sizes' =>
      simp only [Option.bind_eq_bind, Option.bind_some]
      split_ifs
      · cases broadcastShape sizes.1 sizes'.1 with
        | none => rfl
        | some lead =>
          simp only [Option.bind_some, Option.map_some, map_ofFn, ← sumTo_map h, h.map_mul,
            get_map _ h.map_zero]
      · rfl

theorem mulAsStacks_map :
    (a.map φ).mulAsStacks (b.map φ) = (a.mulAsStacks b).map (map φ) := by
  unfold mulAsStacks
  rw [asRow?_map, asColumn?_map]
  match a.asRow?, b.asColumn? with
  | none, _ => rfl
  | some a', none => rfl
  | some a', some b' =>
    simp only [Option.map_some, mulStacks_map a' b' h]
    cases mulStacks a' b' with
    | none => rfl
    | some p =>
      simp only [Option.map_some, Option.bind_eq_bind, Option.bind_some, shape_map]
      cases lastTwo? p.shape with
      | none => rfl
      | some sizes => exact reshape?_map φ p _

theorem mul?_map : (a.map φ).mul? (b.map φ) = (a.mul? b).map (map φ) := by
  cases hA : a.toMatrix? with
  | none =>
    rw [mul?_eq_mulAsStacks (.inl hA), mul?_eq_mulAsStacks (.inl (by rw [toMatrix?_map, hA]; rfl)),
      mulAsStacks_map a b h]
  | some A =>
    cases hB : b.toMatrix? with
    | none =>
      rw [mul?_eq_mulAsStacks (.inr hB),
        mul?_eq_mulAsStacks (.inr (by rw [toMatrix?_map, hB]; rfl)), mulAsStacks_map a b h]
    | some B =>
      simp only [mul?, toMatrix?_map, hA, hB, Option.map_some]
      change (if A.cols = B.rows then _ else _) = _
      split_ifs
      · rw [DenseMatrix.mul_map h, ofMatrix_map, Option.map_some]
      · rfl

end Pairs

section Blocks

variable {φ : β → γ} (a b : Tensor β) [Zero β] [Zero γ] (h0 : φ 0 = 0)
include h0

theorem beside?_map : (a.map φ).beside? (b.map φ) = (a.beside? b).map (map φ) := by
  unfold beside?
  rw [shape_map, shape_map]
  cases lastTwo? a.shape with
  | none => rfl
  | some sizes =>
    cases lastTwo? b.shape with
    | none => rfl
    | some sizes' =>
      simp only [Option.bind_eq_bind, Option.bind_some]
      split_ifs
      · simp only [Option.map_some, map_ofFn, get_map _ h0, apply_ite φ]
      · rfl

theorem above?_map : (a.map φ).above? (b.map φ) = (a.above? b).map (map φ) := by
  unfold above?
  rw [shape_map, shape_map]
  cases lastTwo? a.shape with
  | none => rfl
  | some sizes =>
    cases lastTwo? b.shape with
    | none => rfl
    | some sizes' =>
      simp only [Option.bind_eq_bind, Option.bind_some]
      split_ifs
      · simp only [Option.map_some, map_ofFn, get_map _ h0, apply_ite φ]
      · rfl

omit h0 [Zero β] [Zero γ] in
theorem joinWith_map {f : Tensor β → Tensor β → Option (Tensor β)}
    {g : Tensor γ → Tensor γ → Option (Tensor γ)}
    (h : ∀ a b, g (a.map φ) (b.map φ) = (f a b).map (map φ)) (ts : List (Tensor β)) :
    joinWith g (ts.map (map φ)) = (joinWith f ts).map (map φ) := by
  cases ts with
  | nil => rfl
  | cons t ts =>
    change (ts.map (map φ)).foldlM g (t.map φ) = (ts.foldlM f t).map (map φ)
    induction ts generalizing t with
    | nil => rfl
    | cons u ts ih =>
      rw [List.map_cons, List.foldlM_cons, List.foldlM_cons, h]
      cases f t u with
      | none => rfl
      | some v => exact ih v

omit h0 [Zero β] [Zero γ] in
theorem mapM_map {ι κ ι' κ' : Type} {f : ι → Option κ} {g : ι' → Option κ'} {k : ι → ι'}
    {m : κ → κ'} (h : ∀ x, g (k x) = (f x).map m) (xs : List ι) :
    (xs.map k).mapM g = (xs.mapM f).map (List.map m) := by
  induction xs with
  | nil => rfl
  | cons x xs ih =>
    rw [List.map_cons, List.mapM_cons, List.mapM_cons, h, ih]
    cases f x with
    | none => rfl
    | some y =>
      cases xs.mapM f with
      | none => rfl
      | some ys => rfl

theorem blocks?_map (rows : List (List (Tensor β))) :
    blocks? (rows.map fun row => row.map (map φ)) = (blocks? rows).map (map φ) := by
  have haxes : (rows.map fun row => row.map (map φ)).flatten.map (fun t => t.shape.length) =
      rows.flatten.map fun t => t.shape.length := by
    rw [← List.map_flatten, List.map_map]
    rfl
  unfold blocks?
  rw [haxes]
  dsimp only
  generalize (rows.flatten.map fun t => t.shape.length).foldl max 2 = axes
  have hrow (row : List (Tensor β)) :
      ((row.map (map φ)).mapM (padTo? axes) >>= joinWith beside?) =
        (row.mapM (padTo? axes) >>= joinWith beside?).map (map φ) := by
    rw [mapM_map (f := padTo? axes) (m := map φ) (fun t => padTo?_map φ t axes)]
    cases row.mapM (padTo? axes) with
    | none => rfl
    | some row => exact joinWith_map (fun a b => beside?_map a b h0) row
  rw [mapM_map (f := fun row => row.mapM (padTo? axes) >>= joinWith beside?) (m := map φ) hrow]
  cases rows.mapM fun row => row.mapM (padTo? axes) >>= joinWith beside? with
  | none => rfl
  | some rows => exact joinWith_map (fun a b => above?_map a b h0) rows

/-- A function of matrices that is the same one before and after a map. -/
theorem mapMatrices?_map (t : Tensor β) {f : DenseMatrix β → Option (DenseMatrix β)}
    {g : DenseMatrix γ → Option (DenseMatrix γ)}
    (h : ∀ A, g (A.map φ) = (f A).map (DenseMatrix.map φ)) :
    (t.map φ).mapMatrices? g = (t.mapMatrices? f).map (map φ) := by
  unfold mapMatrices?
  rw [shape_map]
  cases lastTwo? t.shape with
  | none => rfl
  | some sizes =>
    have himages : (List.range (volume sizes.1)).mapM
        (fun s => g ((t.map φ).matrixAt sizes.2.1 sizes.2.2 s)) =
          ((List.range (volume sizes.1)).mapM fun s => f (t.matrixAt sizes.2.1 sizes.2.2 s)).map
            (List.map (DenseMatrix.map φ)) := by
      have hstep (s : ℕ) : g ((t.map φ).matrixAt sizes.2.1 sizes.2.2 s) =
          (f (t.matrixAt sizes.2.1 sizes.2.2 s)).map (DenseMatrix.map φ) := by
        rw [matrixAt_map t h0, h]
      have hmapM := mapM_map (k := fun s : ℕ => s) hstep (List.range (volume sizes.1))
      rwa [List.map_id'] at hmapM
    simp only [Option.bind_eq_bind, Option.bind_some, himages]
    cases (List.range (volume sizes.1)).mapM fun s => f (t.matrixAt sizes.2.1 sizes.2.2 s) with
    | none => rfl
    | some images =>
      rw [Option.map_some, Option.bind_some, Option.bind_some, ← reshape?_map, map_ofArray]
      congr 2
      simp [List.flatMap_map, List.map_flatMap, DenseMatrix.map]

end Blocks

end Tensor
end WeakForm
