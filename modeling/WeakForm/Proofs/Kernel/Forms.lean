import WeakForm.Proofs.RealScalar
import WeakForm.Proofs.Expression.Binding
import WeakForm.Proofs.Tensor.Products
import WeakForm.Proofs.Value.RealValues

/-!
# Values of weak forms

What the kernels of the usual forms are at a point of an element: `B'*B` and `B'*D*B`, where `D` is
a scalar or a square matrix, are the congruence of a weight by the derivative matrix, and `c*N'` and
`N'*[P; Q]` are columns made of the shape functions. A kernel has a value wherever its element has
these matrices.
-/

namespace WeakForm

open Finset

namespace DenseMatrix

/-- The matrix `B' W B` of a weight `W`, which is given by its entries. -/
noncomputable def congruence (W : ℕ → ℕ → ℝ) (B : DenseMatrix ℝ) : DenseMatrix ℝ :=
  .ofFn B.cols B.cols fun i j =>
    ∑ k ∈ range B.rows, ∑ l ∈ range B.rows, B.entry k i * W k l * B.entry l j

/-- The weight that is a scalar. -/
noncomputable def scalarWeight (x : ℝ) (k l : ℕ) : ℝ := if k = l then x else 0

variable {B : DenseMatrix ℝ}

theorem entry_congruence (W : ℕ → ℕ → ℝ) (B : DenseMatrix ℝ) (i j : ℕ) :
    (congruence W B).entry i j =
      ∑ k ∈ range B.rows, ∑ l ∈ range B.rows, B.entry k i * W k l * B.entry l j := by
  rw [congruence, entry_ofFn_eq]
  split_ifs with h
  · rfl
  · refine (sum_eq_zero fun k _ => sum_eq_zero fun l _ => ?_).symm
    by_cases hi : i < B.cols
    · rw [B.entry_of_cols_le (not_lt.mp fun hj => h ⟨hi, hj⟩), mul_zero]
    · rw [B.entry_of_cols_le (not_lt.mp hi), zero_mul, zero_mul]

theorem entry_transpose (A : DenseMatrix ℝ) (i j : ℕ) : A.transpose.entry i j = A.entry j i := by
  rw [transpose, entry_ofFn_eq]
  split_ifs with h
  · rfl
  · by_cases hi : i < A.cols
    · exact (A.entry_of_rows_le (not_lt.mp fun hj => h ⟨hi, hj⟩)).symm
    · exact (A.entry_of_cols_le (not_lt.mp hi)).symm

theorem mul_eq_congruence (B : DenseMatrix ℝ) :
    B.transpose.mul B = congruence (scalarWeight 1) B := by
  refine ext rfl rfl fun i j _ _ => ?_
  rw [entry_mul, entry_congruence]
  refine sum_congr rfl fun k hk => ?_
  simp [entry_transpose, scalarWeight, mem_range.mp hk]

theorem scaled_mul_eq_congruence (x : ℝ) (B : DenseMatrix ℝ) :
    (B.transpose.map (· * x)).mul B = congruence (scalarWeight x) B := by
  refine ext rfl rfl fun i j _ _ => ?_
  rw [entry_mul, entry_congruence]
  refine sum_congr rfl fun k hk => ?_
  rw [entry_map (φ := (· * x)) (zero_mul x)]
  simp [entry_transpose, scalarWeight, mem_range.mp hk]

theorem mul_mul_eq_congruence {M : DenseMatrix ℝ} (hcols : M.cols = B.rows) :
    (B.transpose.mul M).mul B = congruence M.entry B := by
  refine ext rfl rfl fun i j _ _ => ?_
  have hmiddle : (B.transpose.mul M).cols = B.rows := hcols
  have hrows : B.transpose.cols = B.rows := rfl
  rw [entry_mul, entry_congruence, hmiddle, sum_comm]
  refine sum_congr rfl fun l _ => ?_
  rw [entry_mul, hrows, sum_mul]
  simp only [entry_transpose]

end DenseMatrix

namespace Value

/-- A value that stands for a matrix of real numbers. -/
structure IsMatrix (v : Value ℝ) (A : DenseMatrix ℝ) : Prop where
  isReal : v.IsReal
  tensor_eq : v.tensor = .ofMatrix A

variable {v w : Value ℝ} {A B : DenseMatrix ℝ}

theorem isMatrix_ofTensor (A : DenseMatrix ℝ) : (ofTensor (.ofMatrix A)).IsMatrix A :=
  ⟨.inr rfl, rfl⟩

theorem item?_ofMatrix_eq_none (h : A.rows ≠ 1 ∨ A.cols ≠ 1) : (Tensor.ofMatrix A).item? = none := by
  rcases h with h | h
  · exact Tensor.item?_eq_none List.mem_cons_self h
  · exact Tensor.item?_eq_none (List.mem_cons_of_mem _ List.mem_cons_self) h

/-- The product of two matrices, neither of which has a single entry. -/
theorem IsMatrix.mul (hv : v.IsMatrix A) (hw : w.IsMatrix B) (hA : A.rows ≠ 1 ∨ A.cols ≠ 1)
    (hB : B.rows ≠ 1 ∨ B.cols ≠ 1) (hAB : A.cols = B.rows) :
    ∃ u, v.mul w = .ok u ∧ u.IsMatrix (A.mul B) := by
  have h := yields_mul hv.isReal hw.isReal
  rw [hv.tensor_eq, hw.tensor_eq, item?_ofMatrix_eq_none hA, item?_ofMatrix_eq_none hB] at h
  simp only [Tensor.mul?_ofMatrix, if_pos hAB] at h
  obtain ⟨u, hu, hnumeric, htensor⟩ := h
  exact ⟨u, hu, hnumeric.isReal, htensor⟩

/-- A value of real numbers with a single entry, as which it acts in products. -/
structure IsScalar (v : Value ℝ) (x : ℝ) : Prop where
  isReal : v.IsReal
  item?_eq : v.tensor.item? = some x

theorem isScalar_plain {x : Number ℝ} (hx : x.IsReal) : (plain x).IsScalar x.value :=
  ⟨hx, by rw [tensor_plain hx]; rfl⟩

/-- The product of a matrix and a number. -/
theorem IsMatrix.mul_scalar (hv : v.IsMatrix A) {x : ℝ} (hw : w.IsScalar x)
    (hA : A.rows ≠ 1 ∨ A.cols ≠ 1) : ∃ u, v.mul w = .ok u ∧ u.IsMatrix (A.map (· * x)) := by
  have h := yields_mul hv.isReal hw.isReal
  rw [hv.tensor_eq, hw.item?_eq, item?_ofMatrix_eq_none hA] at h
  have hproduct := Tensor.times_scalar A x
  obtain ⟨u, hu, hnumeric, htensor⟩ : Yields (v.mul w) (some (.ofMatrix (A.map (· * x)))) := by
    rw [← hproduct]
    exact h
  exact ⟨u, hu, hnumeric.isReal, htensor⟩

theorem IsMatrix.mul_plain (hv : v.IsMatrix A) {x : Number ℝ} (hx : x.IsReal)
    (hA : A.rows ≠ 1 ∨ A.cols ≠ 1) :
    ∃ u, v.mul (.plain x) = .ok u ∧ u.IsMatrix (A.map (· * x.value)) :=
  hv.mul_scalar (isScalar_plain hx) hA

/-- The product of a number and a matrix. -/
theorem IsMatrix.scalar_mul (hv : v.IsMatrix A) {x : ℝ} (hw : w.IsScalar x) :
    ∃ u, w.mul v = .ok u ∧ u.IsMatrix (A.map (x * ·)) := by
  have h := yields_mul hw.isReal hv.isReal
  rw [hv.tensor_eq, hw.item?_eq] at h
  have hproduct := Tensor.scalar_times A x
  obtain ⟨u, hu, hnumeric, htensor⟩ : Yields (w.mul v) (some (.ofMatrix (A.map (x * ·)))) := by
    rw [← hproduct]
    exact h
  exact ⟨u, hu, hnumeric.isReal, htensor⟩

theorem IsMatrix.plain_mul (hv : v.IsMatrix A) {x : Number ℝ} (hx : x.IsReal) :
    ∃ u, Value.mul (.plain x) v = .ok u ∧ u.IsMatrix (A.map (x.value * ·)) :=
  hv.scalar_mul (isScalar_plain hx)

theorem IsMatrix.toReals (hv : v.IsMatrix A) : v.toReals = .ok (.ofMatrix A) := by
  rw [toReals_eq hv.isReal, hv.tensor_eq]

end Value

namespace Kernel

section Evaluation

variable {α : Type} [Scalar α] {defs : Definitions α} {label text : String} {k : Kernel α}
  {tree : Expr}

/-- The value of a compiled kernel is that of its expression, every name of which has the meaning that
its definition gives it. -/
theorem integrand_of_compile (hk : compile label text defs = .ok k)
    (hparse : Expr.parse text = .ok tree) (site : Site α) :
    k.integrand site =
      tree.eval (defs.meaning (fun name => .error (.unboundName name)) site) >>= Value.toReals := by
  rw [compile_of_parse label defs hparse] at hk
  obtain ⟨bound, hbound, rfl⟩ := map_eq_ok.mp hk
  unfold bind at hbound
  dsimp only at hbound
  split_ifs at hbound
  cases hbound
  refine congrArg (· >>= Value.toReals) (Expr.eval_congr fun name hname => ?_)
  have hvalid := Expr.isValid_of_mem_names (Expr.isWellFormed_of_parse hparse) hname
  have hfound := (Expr.references_iff_mem_symbols hparse hvalid).mpr (Expr.mem_symbols.mpr hname)
  rw [Definitions.resolve_eq_meaning]
  exact Definitions.meaning_congr (Definitions.lookup_filter hfound) _ site

/-- A text is compiled if all its names are defined. -/
theorem exists_compile (hparse : Expr.parse text = .ok tree) (hdefs : defs.AreNamed)
    (hnames : ∀ name ∈ tree.names, Names.isReserved name = true ∨ name ∈ defs.map Prod.fst)
    (label : String) : ∃ k, compile label text defs = .ok k := by
  have hcovers : defs.Covers tree := fun name hname hreserved =>
    (hnames name (Expr.mem_symbols.mp hname)).resolve_left (by simp [hreserved])
  rw [compile_eq hparse hdefs label fun _ => .error .notText,
    if_pos (Definitions.missing_eq_nil.mpr hcovers)]
  exact ⟨_, rfl⟩

end Evaluation

/-- The forms such as `N'*N`, products of the transpose of a matrix of the site with the matrix. -/
def square (factor : String) : Expr :=
  .binary .mul (.transpose (.symbol factor)) (.symbol factor)

/-- The form `B'*B`. -/
def grammian : Expr := .binary .mul (.transpose (.symbol "B")) (.symbol "B")

/-- The forms such as `B'*D*B` and `N'*c*N`, which multiply a constant with a matrix of the site from
both sides. -/
def sandwich (factor constant : String) : Expr :=
  .binary .mul (.binary .mul (.transpose (.symbol factor)) (.symbol constant)) (.symbol factor)

/-- The forms such as `c*N'*N`, which multiply the product of a matrix of the site with a constant. -/
def scaledSquare (constant factor : String) : Expr :=
  .binary .mul (.binary .mul (.symbol constant) (.transpose (.symbol factor))) (.symbol factor)

/-- The form `c*N'` for a constant of the given name. -/
def loaded (name : String) : Expr := .binary .mul (.symbol name) (.transpose (.symbol "N"))

/-- The form `N'*[p; q]` for two constants of the given names. -/
def pairLoaded (first second : String) : Expr :=
  .binary .mul (.transpose (.symbol "N")) (.array [[.symbol first], [.symbol second]])

/-- The usual forms with their texts. -/
def usualForms : List (String × Expr) :=
  [("B'*B", grammian), ("N'*N", square "N"), ("N'", .transpose (.symbol "N")),
    ("B'*D*B", sandwich "B" "D"), ("B'*EI*B", sandwich "B" "EI"), ("N'*c*N", sandwich "N" "c"),
    ("c*B'*B", scaledSquare "c" "B"), ("c*N'*N", scaledSquare "c" "N"), ("c*N'", loaded "c")]

/-- The usual forms are read from their texts. -/
theorem parse_of_mem_usualForms {text : String} {e : Expr} (h : (text, e) ∈ usualForms) :
    Expr.parse text = .ok e := by
  have hforms : ∀ form ∈ usualForms,
      Expr.write .whereNeeded form.2 = form.1 ∧ form.2.isWellFormed = true := by decide
  obtain ⟨htext, hform⟩ := hforms _ h
  exact Expr.parse_of_write .whereNeeded htext hform

theorem parse_grammian : Expr.parse "B'*B" = .ok grammian :=
  parse_of_mem_usualForms (by simp [usualForms])

theorem parse_square : Expr.parse "N'*N" = .ok (square "N") :=
  parse_of_mem_usualForms (by simp [usualForms])

theorem parse_transpose : Expr.parse "N'" = .ok (.transpose (.symbol "N")) :=
  parse_of_mem_usualForms (by simp [usualForms])

theorem parse_diffusion : Expr.parse "B'*D*B" = .ok (sandwich "B" "D") :=
  parse_of_mem_usualForms (by simp [usualForms])

theorem parse_bending : Expr.parse "B'*EI*B" = .ok (sandwich "B" "EI") :=
  parse_of_mem_usualForms (by simp [usualForms])

theorem parse_mass : Expr.parse "N'*c*N" = .ok (sandwich "N" "c") :=
  parse_of_mem_usualForms (by simp [usualForms])

theorem parse_scaledGrammian : Expr.parse "c*B'*B" = .ok (scaledSquare "c" "B") :=
  parse_of_mem_usualForms (by simp [usualForms])

theorem parse_scaledMass : Expr.parse "c*N'*N" = .ok (scaledSquare "c" "N") :=
  parse_of_mem_usualForms (by simp [usualForms])

theorem parse_loaded : Expr.parse "c*N'" = .ok (loaded "c") :=
  parse_of_mem_usualForms (by simp [usualForms])

theorem parse_pairLoaded : Expr.parse "N'*[P; Q]" = .ok (pairLoaded "P" "Q") := by cbv

section Values

variable {defs : Definitions ℝ} {label text name first second : String} {k : Kernel ℝ}
  {e : Element ℝ}

/-- The values of the kernel on an element are the congruence of a weight by its derivative matrix. -/
def IsCongruence (k : Kernel ℝ) (e : Element ℝ) (W : ℕ → ℕ → ℝ) : Prop :=
  ∀ ξ : Option (List ℝ), k.integrand (.regular e ξ) =
    (e.shapeDerivative (ξ.getD [])).map fun B => .ofMatrix (B.congruence W)

/-- The values of the kernel on an element are those of a constant between a matrix of the element and
its transpose. -/
def IsSandwich (k : Kernel ℝ) (e : Element ℝ) (v : Value ℝ)
    (matrixAt : List ℝ → Except (Error ℝ) (DenseMatrix ℝ)) : Prop :=
  ∀ ξ : Option (List ℝ), k.integrand (.regular e ξ) = matrixAt (ξ.getD []) >>= fun A =>
    Value.mul (.ofTensor (.ofMatrix A.transpose)) v >>= fun u =>
      u.mul (.ofTensor (.ofMatrix A)) >>= Value.toReals

/-- The values of the kernel on an element are columns made of its shape matrix. -/
def IsColumn (k : Kernel ℝ) (e : Element ℝ) (f : DenseMatrix ℝ → ℕ → ℝ) : Prop :=
  ∀ ξ : Option (List ℝ), k.integrand (.regular e ξ) =
    (e.shape (ξ.getD [])).map fun N => .ofMatrix (.ofFn N.cols 1 fun i _ => f N i)

section Names

variable {fallback : String → Except (Error ℝ) (Value ℝ)}

theorem meaning_derivative (ξ : Option (List ℝ)) :
    defs.meaning fallback (.regular e ξ) "B" =
      (e.shapeDerivative (ξ.getD [])).map fun B => .ofTensor (.ofMatrix B) := by
  have hreserved : Names.isReserved "B" = true := by decide
  rw [Definitions.meaning, hreserved]
  change ((e.shapeDerivative _).map Tensor.ofMatrix).map Value.ofTensor = _
  cases e.shapeDerivative (ξ.getD []) <;> rfl

theorem meaning_shape (ξ : Option (List ℝ)) :
    defs.meaning fallback (.regular e ξ) "N" =
      (e.shape (ξ.getD [])).map fun N => .ofTensor (.ofMatrix N) := by
  have hreserved : Names.isReserved "N" = true := by decide
  rw [Definitions.meaning, hreserved]
  change (checkCapacity 8 (e.dofsPerNode * e.dofs) >>= fun _ => e.shape _ >>= fun N =>
    pure (Tensor.ofMatrix N)).map Value.ofTensor = _
  rw [checkCapacity_real, ok_bind]
  cases e.shape (ξ.getD []) <;> rfl

theorem meaning_constant (hreserved : Names.isReserved name = false) {v : Value ℝ}
    (hname : defs.lookup name = some (.constant v)) (site : Site ℝ) :
    defs.meaning fallback site name = .ok v := by
  rw [Definitions.meaning, hreserved, hname]
  rfl

theorem transpose_ofMatrix (A : DenseMatrix ℝ) :
    (Value.ofTensor (.ofMatrix A)).transpose = .ofTensor (.ofMatrix A.transpose) :=
  congrArg Value.ofTensor (Tensor.transpose_ofMatrix A)

end Names

/-- The product of the transpose of a matrix with the matrix is the congruence of a weight. -/
theorem integrand_square {factor : String} {matrixAt : List ℝ → Except (Error ℝ) (DenseMatrix ℝ)}
    (hk : compile label text defs = .ok k) (hparse : Expr.parse text = .ok (square factor))
    (hfactor : ∀ fallback ξ, defs.meaning fallback (.regular e ξ) factor =
      (matrixAt (ξ.getD [])).map fun A => .ofTensor (.ofMatrix A))
    (he : ∀ ξ A, matrixAt ξ = .ok A → A.cols ≠ 1) (ξ : Option (List ℝ)) :
    k.integrand (.regular e ξ) = (matrixAt (ξ.getD [])).map fun A =>
      .ofMatrix (A.congruence (DenseMatrix.scalarWeight 1)) := by
  rw [integrand_of_compile hk hparse]
  simp only [square, Expr.eval, hfactor]
  cases hA : matrixAt (ξ.getD []) with
  | error err => rfl
  | ok A =>
    have hne := he _ A hA
    obtain ⟨u, hu, hmatrix⟩ := (Value.isMatrix_ofTensor A.transpose).mul (Value.isMatrix_ofTensor A)
      (.inl hne) (.inr hne) rfl
    simp only [Except.map, ok_bind, pure, Except.pure, transpose_ofMatrix, Operation.apply, hu,
      hmatrix.toReals, DenseMatrix.mul_eq_congruence]

/-- A number in front of the product is the weight. -/
theorem integrand_scaledSquare {factor : String}
    {matrixAt : List ℝ → Except (Error ℝ) (DenseMatrix ℝ)} {v : Value ℝ} {x : ℝ}
    (hk : compile label text defs = .ok k) (hparse : Expr.parse text = .ok (scaledSquare name factor))
    (hreserved : Names.isReserved name = false) (hv : v.IsScalar x)
    (hname : defs.lookup name = some (.constant v))
    (hfactor : ∀ fallback ξ, defs.meaning fallback (.regular e ξ) factor =
      (matrixAt (ξ.getD [])).map fun A => .ofTensor (.ofMatrix A))
    (he : ∀ ξ A, matrixAt ξ = .ok A → A.cols ≠ 1) (ξ : Option (List ℝ)) :
    k.integrand (.regular e ξ) = (matrixAt (ξ.getD [])).map fun A =>
      .ofMatrix (A.congruence (DenseMatrix.scalarWeight x)) := by
  rw [integrand_of_compile hk hparse]
  simp only [scaledSquare, Expr.eval, hfactor, meaning_constant hreserved hname, ok_bind]
  cases hA : matrixAt (ξ.getD []) with
  | error err => rfl
  | ok A =>
    have hne := he _ A hA
    obtain ⟨u, hu, hscaled⟩ := (Value.isMatrix_ofTensor A.transpose).scalar_mul hv
    obtain ⟨w, hw, hmatrix⟩ := hscaled.mul (Value.isMatrix_ofTensor A) (.inl hne) (.inr hne) rfl
    have hproduct : (A.transpose.map (x * ·)).mul A = A.congruence (DenseMatrix.scalarWeight x) := by
      simp only [mul_comm x]
      exact DenseMatrix.scaled_mul_eq_congruence x A
    simp only [Except.map, ok_bind, pure, Except.pure, transpose_ofMatrix, Operation.apply, hu, hw,
      hmatrix.toReals, hproduct]

theorem isCongruence_grammian (hk : compile label "B'*B" defs = .ok k)
    (he : ∀ ξ B, e.shapeDerivative ξ = .ok B → B.cols ≠ 1) :
    k.IsCongruence e (DenseMatrix.scalarWeight 1) :=
  integrand_square hk parse_grammian (fun _ => meaning_derivative) he

section Sandwiches

variable {v : Value ℝ}

theorem isSandwich {factor : String} {matrixAt : List ℝ → Except (Error ℝ) (DenseMatrix ℝ)}
    (hk : compile label text defs = .ok k) (hparse : Expr.parse text = .ok (sandwich factor name))
    (hreserved : Names.isReserved name = false) (hname : defs.lookup name = some (.constant v))
    (hfactor : ∀ fallback ξ, defs.meaning fallback (.regular e ξ) factor =
      (matrixAt (ξ.getD [])).map fun A => .ofTensor (.ofMatrix A)) : k.IsSandwich e v matrixAt := by
  intro ξ
  rw [integrand_of_compile hk hparse]
  simp only [sandwich, Expr.eval, hfactor, meaning_constant hreserved hname]
  cases matrixAt (ξ.getD []) with
  | error err => rfl
  | ok A =>
    simp only [Except.map, ok_bind, pure, Except.pure, transpose_ofMatrix]
    exact bind_assoc _ _ _

theorem isSandwich_derivative (hk : compile label text defs = .ok k)
    (hparse : Expr.parse text = .ok (sandwich "B" name)) (hreserved : Names.isReserved name = false)
    (hname : defs.lookup name = some (.constant v)) : k.IsSandwich e v e.shapeDerivative :=
  isSandwich hk hparse hreserved hname fun _ => meaning_derivative

theorem isSandwich_shape (hk : compile label text defs = .ok k)
    (hparse : Expr.parse text = .ok (sandwich "N" name)) (hreserved : Names.isReserved name = false)
    (hname : defs.lookup name = some (.constant v)) : k.IsSandwich e v e.shape :=
  isSandwich hk hparse hreserved hname fun _ => meaning_shape

/-- The product with the constant is the congruence of a weight. -/
theorem IsSandwich.isCongruence (hk : k.IsSandwich e v e.shapeDerivative) {W : ℕ → ℕ → ℝ}
    (he : ∀ ξ B, e.shapeDerivative ξ = .ok B → B.cols ≠ 1 ∧
      ∃ u A, (Value.ofTensor (.ofMatrix B.transpose)).mul v = .ok u ∧ u.IsMatrix A ∧
        A.rows = B.cols ∧ A.cols = B.rows ∧ A.mul B = B.congruence W) :
    k.IsCongruence e W := by
  intro ξ
  rw [hk]
  cases hB : e.shapeDerivative (ξ.getD []) with
  | error err => rfl
  | ok B =>
    obtain ⟨hne, u, A, hu, hA, hrows, hcols, hproduct⟩ := he _ B hB
    obtain ⟨w, hw, hmatrix⟩ := hA.mul (Value.isMatrix_ofTensor B) (.inl (hrows.trans_ne hne))
      (.inr hne) hcols
    simp only [Except.map, ok_bind, hu, hw, hmatrix.toReals, hproduct]

end Sandwiches

/-- With a number in the middle. -/
theorem isCongruence_scalar (hk : compile label text defs = .ok k)
    (hparse : Expr.parse text = .ok (sandwich "B" name)) (hreserved : Names.isReserved name = false)
    {v : Value ℝ} {x : ℝ} (hv : v.IsScalar x) (hname : defs.lookup name = some (.constant v))
    (he : ∀ ξ B, e.shapeDerivative ξ = .ok B → B.cols ≠ 1) :
    k.IsCongruence e (DenseMatrix.scalarWeight x) := by
  refine (isSandwich_derivative hk hparse hreserved hname).isCongruence fun ξ B hB => ⟨he ξ B hB, ?_⟩
  obtain ⟨u, hu, hmatrix⟩ := (Value.isMatrix_ofTensor B.transpose).mul_scalar hv (.inl (he ξ B hB))
  exact ⟨u, _, hu, hmatrix, rfl, rfl, DenseMatrix.scaled_mul_eq_congruence x B⟩

/-- With a square matrix in the middle. -/
theorem isCongruence_matrix (hk : compile label text defs = .ok k)
    (hparse : Expr.parse text = .ok (sandwich "B" name)) (hreserved : Names.isReserved name = false)
    {v : Value ℝ} {D : DenseMatrix ℝ} (hv : v.IsMatrix D) (hsize : D.rows = D.cols) (hne : D.rows ≠ 1)
    (hname : defs.lookup name = some (.constant v))
    (he : ∀ ξ B, e.shapeDerivative ξ = .ok B → B.cols ≠ 1 ∧ B.rows = D.rows) :
    k.IsCongruence e D.entry := by
  refine (isSandwich_derivative hk hparse hreserved hname).isCongruence fun ξ B hB => ?_
  obtain ⟨hcols, hrows⟩ := he ξ B hB
  obtain ⟨u, hu, hmatrix⟩ := (Value.isMatrix_ofTensor B.transpose).mul hv (.inl hcols) (.inl hne) hrows
  exact ⟨hcols, u, _, hu, hmatrix, rfl, hsize.symm.trans hrows.symm,
    DenseMatrix.mul_mul_eq_congruence (hsize.symm.trans hrows.symm)⟩

/-- A row of shape functions as a column. -/
theorem isColumn_transpose (hk : compile label "N'" defs = .ok k)
    (he : ∀ ξ N, e.shape ξ = .ok N → N.rows = 1) : k.IsColumn e fun N i => N.entry 0 i := by
  intro ξ
  rw [integrand_of_compile hk parse_transpose]
  simp only [Expr.eval, meaning_shape]
  cases hN : e.shape (ξ.getD []) with
  | error err => rfl
  | ok N =>
    have hrows := he _ N hN
    have hcolumn : N.transpose = .ofFn N.cols 1 fun i _ => N.entry 0 i := by
      refine DenseMatrix.ext rfl hrows fun i j hi hj => ?_
      obtain rfl : j = 0 := Nat.lt_one_iff.mp (hrows ▸ hj)
      rw [DenseMatrix.entry_transpose]
      exact (DenseMatrix.entry_ofFn (fun i _ => N.entry 0 i) hi Nat.one_pos).symm
    simp only [Except.map, ok_bind, pure, Except.pure, transpose_ofMatrix, hcolumn]
    exact (Value.isMatrix_ofTensor _).toReals

theorem isColumn_loaded (hk : compile label "c*N'" defs = .ok k) {x : Number ℝ} (hx : x.IsReal)
    (hname : defs.lookup "c" = some (.constant (.plain x)))
    (he : ∀ ξ N, e.shape ξ = .ok N → N.rows = 1) :
    k.IsColumn e fun N i => x.value * N.entry 0 i := by
  intro ξ
  have hreserved : Names.isReserved "c" = false := by decide
  rw [integrand_of_compile hk parse_loaded]
  simp only [loaded, Expr.eval, meaning_shape, meaning_constant hreserved hname, ok_bind]
  cases hN : e.shape (ξ.getD []) with
  | error err => rfl
  | ok N =>
    have hrows := he _ N hN
    obtain ⟨u, hu, hmatrix⟩ := (Value.isMatrix_ofTensor N.transpose).plain_mul hx
    have hcolumn : N.transpose.map (x.value * ·) =
        .ofFn N.cols 1 fun i _ => x.value * N.entry 0 i := by
      refine DenseMatrix.ext rfl hrows fun i j hi hj => ?_
      obtain rfl : j = 0 := Nat.lt_one_iff.mp (hrows ▸ hj)
      rw [DenseMatrix.entry_map (φ := (x.value * ·)) (mul_zero _), DenseMatrix.entry_transpose]
      exact (DenseMatrix.entry_ofFn (fun i _ => x.value * N.entry 0 i) hi Nat.one_pos).symm
    simp only [Except.map, ok_bind, pure, Except.pure, transpose_ofMatrix, Operation.apply, hu,
      hmatrix.toReals, hcolumn]

theorem blocks?_pair (p q : ℝ) :
    Tensor.blocks? [[(Tensor.scalar p).atLeast2], [(Tensor.scalar q).atLeast2]] =
      some (.ofMatrix (.ofFn 2 1 fun i _ => if i = 0 then p else q)) := by
  rfl

/-- Two numbers on top of each other. -/
theorem block_pair (p q : ℝ) :
    ∃ v, Value.block [[.plain (.real p)], [.plain (.real q)]] = .ok v ∧
      v.IsMatrix (.ofFn 2 1 fun i _ => if i = 0 then p else q) := by
  have hreal : ∀ row ∈ [[Value.plain (.real p)], [.plain (.real q)]], ∀ v ∈ row, v.IsReal := by
    simp [Value.IsReal, Number.IsReal]
  have h := Value.block_spec hreal
  have hparts (x : ℝ) : (Value.plain (.real x)).tensor = .scalar x := Value.tensor_plain trivial
  simp only [List.map_cons, List.map_nil, hparts, blocks?_pair] at h
  obtain ⟨c, hc, htensor, hkind⟩ := h
  have hnumeric : c.kind.IsNumeric :=
    hkind.mpr ⟨_, List.mem_cons_self, _, List.mem_cons_self, trivial⟩
  exact ⟨_, hc, hnumeric, htensor⟩

theorem isColumn_pairLoaded (hk : compile label text defs = .ok k)
    (hparse : Expr.parse text = .ok (pairLoaded first second))
    (hfirst : Names.isReserved first = false) (hsecond : Names.isReserved second = false) {p q : ℝ}
    (hp : defs.lookup first = some (.constant (.plain (.real p))))
    (hq : defs.lookup second = some (.constant (.plain (.real q))))
    (he : ∀ ξ N, e.shape ξ = .ok N → N.rows = 2) :
    k.IsColumn e fun N i => N.entry 0 i * p + N.entry 1 i * q := by
  intro ξ
  rw [integrand_of_compile hk hparse]
  simp only [pairLoaded, Expr.eval, Expr.evalRows, Expr.evalRow, meaning_shape,
    meaning_constant hfirst hp, meaning_constant hsecond hq, ok_bind]
  obtain ⟨v, hv, hblock⟩ := block_pair p q
  cases hN : e.shape (ξ.getD []) with
  | error err => rfl
  | ok N =>
    have hrows := he _ N hN
    have htwo : N.transpose.cols ≠ 1 := by
      change N.rows ≠ 1
      omega
    obtain ⟨u, hu, hmatrix⟩ := (Value.isMatrix_ofTensor N.transpose).mul hblock (.inr htwo)
      (.inl (show 2 ≠ 1 by decide)) hrows
    have hcolumn : N.transpose.mul (.ofFn 2 1 fun i _ => if i = 0 then p else q) =
        .ofFn N.cols 1 fun i _ => N.entry 0 i * p + N.entry 1 i * q := by
      refine DenseMatrix.ext rfl rfl fun i j hi hj => ?_
      obtain rfl : j = 0 := Nat.lt_one_iff.mp hj
      have hinner : N.transpose.cols = 2 := hrows
      rw [DenseMatrix.entry_mul, hinner, sum_range_succ, sum_range_one,
        DenseMatrix.entry_ofFn _ Nat.two_pos Nat.one_pos,
        DenseMatrix.entry_ofFn _ Nat.one_lt_two Nat.one_pos, DenseMatrix.entry_transpose,
        DenseMatrix.entry_transpose]
      exact (DenseMatrix.entry_ofFn (fun i _ => N.entry 0 i * p + N.entry 1 i * q) hi hj).symm
    simp only [Except.map, ok_bind, pure, Except.pure, transpose_ofMatrix, Operation.apply, hv, hu,
      hmatrix.toReals, hcolumn]

end Values

end Kernel
end WeakForm
