import Mathlib.LinearAlgebra.Matrix.NonsingularInverse
import WeakForm.Proofs.Solver.Partition
import WeakForm.Proofs.Solver.Prescribed
import WeakForm.Proofs.Value.SquareMatrices

/-!
# Solutions of partitioned systems

Some unknowns of a system are fixed, the others are to balance their own equations. If the rows and
columns of these others make a nonsingular matrix, there is exactly one such vector, and the
partitioned system finds it.
-/

namespace WeakForm
namespace Partition

open Matrix

variable {n : ℕ} {X : Matrix (Fin n) (Fin n) ℝ} {fixed : Fin n → Prop} {b g u v : Fin n → ℝ}

open scoped Classical in
/-- The rows and columns of the unknowns that are not fixed make a nonsingular matrix. -/
def IsRegular (X : Matrix (Fin n) (Fin n) ℝ) (fixed : Fin n → Prop) : Prop :=
  IsUnit (X.toBlock (¬ fixed ·) (¬ fixed ·))

/-- The vector has the given values where it is fixed and balances all other equations. -/
structure IsSolution (X : Matrix (Fin n) (Fin n) ℝ) (b g : Fin n → ℝ) (fixed : Fin n → Prop)
    (u : Fin n → ℝ) : Prop where
  fixed_eq : ∀ i, fixed i → u i = g i
  balance : ∀ i, ¬ fixed i → (X *ᵥ u) i = b i

section Regular

open scoped Classical in
/-- A vector that is zero where it is fixed takes part with its other entries only. -/
theorem mulVec_eq_toBlock (X : Matrix (Fin n) (Fin n) ℝ) (hu : ∀ i, fixed i → u i = 0)
    (i : {i // ¬ fixed i}) :
    (X *ᵥ u) i = (X.toBlock (¬ fixed ·) (¬ fixed ·) *ᵥ fun j => u j) i := by
  have hfixed : ∑ j : {j // fixed j}, X i j * u j = 0 :=
    Finset.sum_eq_zero fun j _ => by rw [hu j j.property, mul_zero]
  have hsplit := Fintype.sum_subtype_add_sum_subtype fixed fun j => X i j * u j
  rw [hfixed, zero_add] at hsplit
  exact hsplit.symm

/-- The matrix is regular if, of the vectors that are zero where they are fixed, it takes only zero
to a vector that is zero elsewhere. -/
theorem isRegular_iff : IsRegular X fixed ↔
    ∀ w : Fin n → ℝ, (∀ i, fixed i → w i = 0) → (∀ i, ¬ fixed i → (X *ᵥ w) i = 0) → w = 0 := by
  classical
  have hkernel := injective_iff_map_eq_zero (X.toBlock (¬ fixed ·) (¬ fixed ·)).mulVecLin
  rw [Matrix.coe_mulVecLin] at hkernel
  rw [IsRegular, ← mulVec_injective_iff_isUnit, hkernel]
  constructor
  · intro h w hfixed hfree
    have hzero := h (fun j => w j) (funext fun i =>
      (mulVec_eq_toBlock X hfixed i).symm.trans (hfree i i.property))
    funext i
    by_cases hi : fixed i
    · exact hfixed i hi
    · exact congrFun hzero ⟨i, hi⟩
  · intro h w hw
    let extended : Fin n → ℝ := fun i => if hi : ¬ fixed i then w ⟨i, hi⟩ else 0
    have hfixed (i : Fin n) (hi : fixed i) : extended i = 0 := dif_neg (not_not.mpr hi)
    have hrestrict : (fun j : {j // ¬ fixed j} => extended j) = w :=
      funext fun j => dif_pos j.property
    have hzero := h extended hfixed fun i hi => by
      rw [mulVec_eq_toBlock X hfixed ⟨i, hi⟩, hrestrict]
      exact congrFun hw ⟨i, hi⟩
    rw [← hrestrict, hzero]
    rfl

theorem IsSolution.unique (hX : IsRegular X fixed) (hu : IsSolution X b g fixed u)
    (hv : IsSolution X b g fixed v) : u = v := by
  have hzero : u - v = 0 := by
    apply isRegular_iff.mp hX
    · intro i hi
      rw [Pi.sub_apply, hu.fixed_eq i hi, hv.fixed_eq i hi, sub_self]
    · intro i hi
      rw [mulVec_sub, Pi.sub_apply, hu.balance i hi, hv.balance i hi, sub_self]
  exact sub_eq_zero.mp hzero

/-- The equations of what is fixed do not matter. -/
theorem IsSolution.congr {Y : Matrix (Fin n) (Fin n) ℝ} {c : Fin n → ℝ}
    (h : IsSolution X b g fixed u) (hXY : ∀ i, ¬ fixed i → X i = Y i)
    (hbc : ∀ i, ¬ fixed i → b i = c i) : IsSolution Y c g fixed u := by
  refine ⟨h.fixed_eq, fun i hi => ?_⟩
  rw [← hbc i hi, ← h.balance i hi, mulVec, mulVec, hXY i hi]

theorem IsRegular.congr {Y : Matrix (Fin n) (Fin n) ℝ} (h : IsRegular X fixed)
    (hXY : ∀ i, ¬ fixed i → X i = Y i) : IsRegular Y fixed := by
  refine isRegular_iff.mpr fun w hfixed hfree => isRegular_iff.mp h w hfixed fun i hi => ?_
  rw [← hfree i hi, mulVec, mulVec, hXY i hi]

end Regular

/-- Marks on what is fixed. -/
structure IsMarking (marks : List Bool) (fixed : Fin n → Prop) : Prop where
  length_eq : marks.length = n
  marked_iff : ∀ i : Fin n, marks[(i : ℕ)]? = some true ↔ fixed i

section Solving

variable {A : NumberMatrix ℝ} {marks : List Bool} {p : Condition.Prescribed ℝ}

theorem ofFn_getD {w : Array ℝ} (h : w.size = n) : Array.ofFn (fun i : Fin n => w.getD i 0) = w := by
  subst h
  apply Array.ext
  · simp
  · intro i hi _
    simp

theorem IsMarking.unmarked (h : IsMarking marks fixed) {i : Fin n} (hi : ¬ fixed i) :
    marks[(i : ℕ)]? = some false := by
  have hlt : (i : ℕ) < marks.length := h.length_eq ▸ i.isLt
  rw [← h.marked_iff, List.getElem?_eq_getElem hlt, Option.some.injEq, Bool.not_eq_true] at hi
  rw [List.getElem?_eq_getElem hlt, hi]

theorem IsMarking.lt_of_mem_indices (h : IsMarking marks fixed) {mark : Bool} {i : ℕ}
    (hi : i ∈ indices marks mark) : i < n :=
  h.length_eq ▸ (List.getElem?_eq_some_iff.mp (mem_indices.mp hi)).1

theorem IsMarking.determines (h : IsMarking marks fixed) (hA : A.Represents X)
    (hX : IsRegular X fixed) : Determines A.toReals marks := by
  intro w hw hfixed hfree i hi
  rw [h.length_eq] at hw
  have hzero := isRegular_iff.mp hX (fun i => w.getD i 0)
    (fun i hi => hfixed i ((h.marked_iff i).mpr hi)) fun i hi => by
      rw [← hA.rowProduct_eq, ofFn_getD hw, NumberMatrix.rowProduct, ← A.cols_toReals]
      exact hfree i (h.unmarked hi)
  exact congrFun hzero ⟨i, h.lt_of_mem_indices (mem_indices.mpr hi)⟩

theorem exists_solve (hA : A.Represents X) (b : Fin n → ℝ) (hp : IsMarking p.marks fixed) :
    ∃ u, solve A (.ofVector (Array.ofFn b)) p = .ok u := by
  have hvolume : volume (NumberArray.ofVector (Array.ofFn b)).shape = n := by
    simp [NumberArray.ofVector, NumberArray.shape, Tensor.ofArray, volume]
  unfold solve
  dsimp only
  split_ifs with hempty hrange
  · exact ⟨_, rfl⟩
  · exact ⟨_, rfl⟩
  · refine absurd ?_ hrange
    simp only [Bool.and_eq_true, List.all_eq_true, decide_eq_true_eq, hvolume, hA.rows_eq,
      hA.cols_eq]
    exact ⟨fun i hi => ⟨⟨hp.lt_of_mem_indices hi, hp.lt_of_mem_indices hi⟩,
      hp.lt_of_mem_indices hi⟩, fun i hi => hp.lt_of_mem_indices hi⟩

/-- A regular partitioned system is solved. -/
theorem solve_isSolution (hA : A.Represents X) (hX : IsRegular X fixed) (b : Fin n → ℝ)
    (hp : IsMarking p.marks fixed) (hvalues : p.values.size = n) :
    ∃ u, solve A (.ofVector (Array.ofFn b)) p = .ok (Array.ofFn u) ∧
      IsSolution X b (fun i => p.values.getD i 0) fixed u := by
  obtain ⟨w, hw⟩ := exists_solve hA b hp
  have hb : (NumberArray.ofVector (Array.ofFn b)).kind ≠ .complex := by
    simp [NumberArray.ofVector, NumberArray.kind]
  obtain ⟨hsize, hkept, hfree⟩ := solve_spec hA.isReal hb (hvalues.trans hp.length_eq.symm) hw
  have hw' := ofFn_getD (hsize.trans hvalues)
  refine ⟨fun i => w.getD i 0, by rw [hw, hw'], fun i hi => hkept i ((hp.marked_iff i).mpr hi),
    fun i hi => ?_⟩
  obtain ⟨-, -, hrow⟩ := hfree i (hp.unmarked hi)
  rw [← hA.rowProduct_eq, hw', hrow (hp.determines hA hX)]
  simp [NumberArray.ofVector, NumberArray.realParts, Tensor.ofArray]

end Solving

end Partition

theorem Mesh.zeroVector_eq (m : Mesh ℝ) :
    m.zeroVector = .ok (Array.ofFn fun _ : Fin m.dofs => (0 : ℝ)) := by
  have hzeros : Array.replicate m.dofs (0 : ℝ) = Array.ofFn fun _ : Fin m.dofs => (0 : ℝ) := by
    apply Array.ext
    · simp
    · intro i _ _
      simp
  rw [Mesh.zeroVector, checkCapacity_real, hzeros]
  rfl

namespace Condition

open WeakForm.Partition

variable {m : Mesh ℝ} {time : Option (Datum ℝ)} {conditions : List (Condition ℝ)}
  {g : Fin m.dofs → ℝ}

/-- At the given time all conditions have their values, which are those of `g`. -/
structure Prescribe (m : Mesh ℝ) (time : Option (Datum ℝ)) (conditions : List (Condition ℝ))
    (g : Fin m.dofs → ℝ) : Prop where
  applicable : ∀ c ∈ conditions, c.Applicable m time
  value_eq : ∀ d : Fin m.dofs, IsEssential m conditions d →
    prescribedValue m time conditions d = g d

open scoped Classical in
/-- The vector with the values of `g` where it is fixed and those of `x` elsewhere. -/
noncomputable def override {n : ℕ} (fixed : Fin n → Prop) (g x : Fin n → ℝ) : Fin n → ℝ :=
  fun i => if fixed i then g i else x i

theorem Prescribe.exists_applyAll (h : Prescribe m time conditions g) (hm : m.WellFormed)
    (hfrozen : m.frozen = true) (x : Fin m.dofs → ℝ) :
    ∃ p, applyAll m (Array.ofFn x) conditions time = .ok p ∧
      p.values = Array.ofFn (override (fun d => IsEssential m conditions d) g x) ∧
      IsMarking p.marks fun d : Fin m.dofs => IsEssential m conditions d := by
  obtain ⟨p, hp⟩ := Condition.exists_applyAll hfrozen (u := Array.ofFn x) (by simp) h.applicable
  obtain ⟨hsized, hall⟩ := applyAll_spec hm h.applicable hp
  refine ⟨p, hp, ?_, hsized.marks, fun d => (hall d d.isLt).2.2⟩
  rw [← ofFn_getD hsized.values]
  congr 1
  funext d
  obtain ⟨hessential, hfree, -⟩ := hall d d.isLt
  by_cases hd : IsEssential m conditions d
  · rw [hessential hd, h.value_eq d hd, override, if_pos hd]
  · rw [hfree hd, override, if_neg hd]
    simp

/-- With conditions that have their values a regular system is solved. -/
theorem Prescribe.exists_solution (h : Prescribe m time conditions g) (hm : m.WellFormed)
    (hfrozen : m.frozen = true) {A : NumberMatrix ℝ} {X : Matrix (Fin m.dofs) (Fin m.dofs) ℝ}
    (hA : A.Represents X) (hX : IsRegular X fun d => IsEssential m conditions d)
    (b : Fin m.dofs → ℝ) :
    ∃ zero p u, m.zeroVector = .ok zero ∧ applyAll m zero conditions time = .ok p ∧
      solve A (.ofVector (Array.ofFn b)) p = .ok (Array.ofFn u) ∧
      IsSolution X b g (fun d => IsEssential m conditions d) u := by
  obtain ⟨p, hp, hvalues, hmarks⟩ := h.exists_applyAll hm hfrozen fun _ => 0
  obtain ⟨u, hu, hsolution⟩ := solve_isSolution hA hX b hmarks (by rw [hvalues]; simp)
  refine ⟨_, p, u, m.zeroVector_eq, hp, hu, fun d hd => ?_, hsolution.balance⟩
  rw [hsolution.fixed_eq d hd, hvalues]
  simp [override, hd]

end Condition
end WeakForm
