import Mathlib.Algebra.Order.Star.Real
import Mathlib.LinearAlgebra.Matrix.PosDef
import WeakForm.Proofs.Solver.Courses
import WeakForm.Proofs.Solver.Steady

/-!
# Motions of the theta scheme

A vector that changes at a constant rate is followed exactly, whatever the weight and the length of
the steps are, if the force and the prescribed values are those that go with it. A steady solution
stays as it is.

Without force and with zeros prescribed the energy `u' M u` never increases from one step to the
next, however long the steps are, if their weights are at least one half. To see this, the equation
of a step is tested with the mean `theta v + (1 - theta) u` of the new and the old vector, which is
zero where the equation does not hold.
-/

namespace WeakForm
namespace Simulation

open Matrix Condition WeakForm.Partition

section Motions

variable {n : ℕ} {d : StartData n} {steps : ℕ → StepData n} {fixed : Fin n → Prop} {k : ℕ}
  {u : ℕ → Fin n → ℝ} {a b : Fin n → ℝ}

/-- A step takes an affine motion from its old to its new time. -/
theorem isSolution_affine {e : StepData n} {f : Fin n → ℝ} {t : ℝ}
    (hvalues : ∀ i, fixed i → e.values i = (a + (t + e.dt) • b) i)
    (hforce : ∀ i, ¬ fixed i →
      e.force i = (e.mass *ᵥ b + e.stiffness *ᵥ (a + (t + e.dt) • b)) i)
    (hold : ∀ i, ¬ fixed i → f i = (e.mass *ᵥ b + e.stiffness *ᵥ (a + t • b)) i) :
    IsSolution e.matrix (e.load f (a + t • b)) e.values fixed (a + (t + e.dt) • b) := by
  refine ⟨fun i hi => (hvalues i hi).symm, fun i hi => ?_⟩
  rw [e.matrix_mulVec, e.load_apply, hforce i hi, hold i hi]
  simp only [mulVec_add, mulVec_smul, Pi.add_apply, Pi.smul_apply, smul_eq_mul]
  ring

/-- If all data go with an affine motion, the vectors do so. -/
theorem IsMotion.eq_affine (h : IsMotion d steps fixed k u)
    (hregular : ∀ j, IsRegular (steps j).matrix fixed) (hinitial : d.initial = a + d.time • b)
    (hstart : ∀ i, fixed i → d.values i = (a + d.time • b) i)
    (hvalues : ∀ j i, fixed i → (steps j).values i = (a + timeAt d steps (j + 1) • b) i)
    (hforce : ∀ j i, ¬ fixed i → (steps j).force i =
      ((steps j).mass *ᵥ b + (steps j).stiffness *ᵥ (a + timeAt d steps (j + 1) • b)) i)
    (hold : ∀ j i, ¬ fixed i → forceAt d steps j i =
      ((steps j).mass *ᵥ b + (steps j).stiffness *ᵥ (a + timeAt d steps j • b)) i) {j : ℕ}
    (hj : j ≤ k) : u j = a + timeAt d steps j • b := by
  induction j with
  | zero =>
    rw [h.initial]
    funext i
    rw [override]
    split_ifs with hi
    · exact hstart i hi
    · exact congrFun hinitial i
  | succ j ih =>
    have hstep := h.step j hj
    rw [ih (Nat.le_of_succ_le hj)] at hstep
    exact hstep.unique (hregular j) (isSolution_affine (hvalues j) (hforce j) (hold j))

/-- If all data stay those of a steady solution, so do the vectors. -/
theorem IsMotion.eq_steady (h : IsMotion d steps fixed k u)
    (hregular : ∀ j, IsRegular (steps j).matrix fixed) {K : Matrix (Fin n) (Fin n) ℝ}
    (hsteady : IsSolution K d.force d.values fixed d.initial)
    (hsteps : ∀ j, (steps j).stiffness = K ∧ (steps j).force = d.force ∧
      (steps j).values = d.values) {j : ℕ} (hj : j ≤ k) : u j = d.initial := by
  have hstay (t : ℝ) : d.initial + t • (0 : Fin n → ℝ) = d.initial := by
    rw [smul_zero, add_zero]
  have hforceAt (j : ℕ) : forceAt d steps j = d.force := by
    cases j with
    | zero => rfl
    | succ j => exact (hsteps j).2.1
  have hbalance (j : ℕ) (i : Fin n) (hi : ¬ fixed i) : d.force i =
      ((steps j).mass *ᵥ 0 + (steps j).stiffness *ᵥ d.initial) i := by
    rw [mulVec_zero, zero_add, (hsteps j).1, hsteady.balance i hi]
  rw [h.eq_affine (a := d.initial) (b := 0) hregular, hstay]
  · rw [hstay]
  · intro i hi
    rw [hstay, hsteady.fixed_eq i hi]
  · intro j i hi
    rw [hstay, (hsteps j).2.2, hsteady.fixed_eq i hi]
  · intro j i hi
    rw [hstay, (hsteps j).2.1, hbalance j i hi]
  · intro j i hi
    rw [hstay, hforceAt, hbalance j i hi]
  · exact hj

end Motions

variable {m : Mesh ℝ}

theorem timeAt_of_dt_eq {n : ℕ} (d : StartData n) {steps : ℕ → StepData n} {dt : ℝ}
    (h : ∀ j, (steps j).dt = dt) (j : ℕ) : timeAt d steps j = d.time + j * dt := by
  induction j with
  | zero => simp [timeAt]
  | succ j ih =>
    rw [timeAt, ih, h]
    push_cast
    ring

/-- The theta scheme follows an affine motion `a + t b` exactly, if the force at each call makes
it a solution of `M u' + K u = f` on the free degrees of freedom and the prescribed values are those
of the motion. In particular it stays at a steady solution, whatever the mass matrix, the weights
and the lengths of the steps are, if the force and the prescribed values stay the same. -/
theorem courses_follow_affine_motions (hm : m.Reachable) (hfrozen : m.frozen = true)
    (fixed : Fin m.dofs → Prop) :
    (∀ (theta dt t0 : ℝ) (M K : Matrix (Fin m.dofs) (Fin m.dofs) ℝ) (a b : Fin m.dofs → ℝ)
      (f : ℕ → Fin m.dofs → ℝ), 0 ≤ theta → theta ≤ 1 → 0 < dt →
      IsRegular (M + (theta * dt) • K) fixed →
      (∀ j i, ¬ fixed i → f j i = (M *ᵥ b + K *ᵥ (a + (t0 + j * dt) • b)) i) →
      ∀ k outcomes s, Course m fixed ⟨t0, a + t0 • b, f 0, a + t0 • b⟩
        (fun j => ⟨theta, dt, M, K, f (j + 1), a + (t0 + (j + 1 : ℕ) * dt) • b⟩) k outcomes s →
      outcomes = (List.range (k + 1)).map fun j : ℕ =>
        .ok (Array.ofFn (a + (t0 + j * dt) • b))) ∧
    ∀ (r : Simulation ℝ) (conditions : List (Condition ℝ))
      (K : Matrix (Fin m.dofs) (Fin m.dofs) ℝ) (f g u : Fin m.dofs → ℝ),
      (∀ i : Fin m.dofs, IsEssential m conditions i ↔ fixed i) →
      r.PosesSteady m conditions K f → Prescribe m none conditions g → IsRegular K fixed →
      r.solveSteady.1 = .ok (Array.ofFn u) →
      ∀ (t0 : ℝ) (steps : ℕ → StepData m.dofs),
      (∀ j, (steps j).Valid fixed ∧ (steps j).stiffness = K ∧ (steps j).force = f ∧
        (steps j).values = g) →
      ∀ k outcomes s, Course m fixed ⟨t0, u, f, g⟩ steps k outcomes s →
        outcomes = (List.range (k + 1)).map fun _ => .ok (Array.ofFn u) := by
  constructor
  · intro theta dt t0 M K a b f htheta htheta' hdt hregular hf k outcomes s hcourse
    let d : StartData m.dofs := ⟨t0, a + t0 • b, f 0, a + t0 • b⟩
    let steps (j : ℕ) : StepData m.dofs :=
      ⟨theta, dt, M, K, f (j + 1), a + (t0 + (j + 1 : ℕ) * dt) • b⟩
    have htime (j : ℕ) : timeAt d steps j = t0 + j * dt :=
      timeAt_of_dt_eq d (fun j => show (steps j).dt = dt from rfl) j
    have hforceAt (j : ℕ) : forceAt d steps j = f j := by cases j <;> rfl
    obtain ⟨u, hmotion, rfl, -⟩ :=
      hcourse.exists_motion hm hfrozen fun _ => ⟨htheta, htheta', hdt, hregular⟩
    refine List.map_congr_left fun j hj => ?_
    rw [hmotion.eq_affine (a := a) (b := b) (fun _ => hregular) rfl (fun _ _ => rfl),
      htime]
    · intro j i _
      rw [htime]
    · intro j i hi
      rw [htime]
      exact hf (j + 1) i hi
    · intro j i hi
      rw [htime, hforceAt]
      exact hf j i hi
    · exact Nat.lt_succ_iff.mp (List.mem_range.mp hj)
  · intro r conditions K f g u hfixed hr hg hK hu t0 steps hsteps k outcomes s hcourse
    obtain rfl : fixed = fun i : Fin m.dofs => IsEssential m conditions i :=
      funext fun i => propext (hfixed i).symm
    obtain ⟨v, r', hv, -, -, hsolution⟩ := hr.exists_solution hm hfrozen hg.applicable hK
    rw [hv, Except.ok.injEq] at hu
    obtain rfl := ofFn_injective hu
    obtain ⟨u, hmotion, rfl, -⟩ := hcourse.exists_motion hm hfrozen fun j => (hsteps j).1
    refine List.map_congr_left fun j hj => ?_
    have hsteady : IsSolution K f g (fun i => IsEssential m conditions i) v :=
      ⟨fun i hi => (hsolution.fixed_eq i hi).trans (hg.value_eq i hi), hsolution.balance⟩
    rw [hmotion.eq_steady (fun j => (hsteps j).1.regular) hsteady fun j => (hsteps j).2]
    exact Nat.lt_succ_iff.mp (List.mem_range.mp hj)

/-- Courses of solvers for the point with two degrees of freedom, the first of which is given. -/
theorem exists_course_doublePoint (d : StartData 2) (steps : ℕ → StepData 2) {c : ℝ}
    (hstart : d.values 0 = c) (hsteps : ∀ j, (steps j).values 0 = c) (k : ℕ) :
    ∃ outcomes s, Course doublePoint (fun i : Fin 2 => i = 0) d steps k outcomes s :=
  exists_course (isEssential_firstIs c) (fun time => prescribe_firstIs time hstart)
    (fun j time => prescribe_firstIs time (hsteps j))
    (fun j => NumberMatrix.represents_ofMatrix (steps j).mass)
    (fun j => NumberMatrix.represents_ofMatrix (steps j).stiffness) k

theorem courses_of_doublePoint_follow_affine_motions :
    (∃ f h : ℕ → Fin 2 → ℝ, ∃ outcomes s, Course doublePoint (fun i : Fin 2 => i = 0)
        ⟨0, ![3, 1] + (0 : ℝ) • ![0, 1], f 0, ![3, 1] + (0 : ℝ) • ![0, 1]⟩
        (fun j => ⟨1, 2, 1, !![2, 1; 1, 2], f (j + 1), h j⟩) 1 outcomes s ∧
      outcomes = (List.range 2).map fun j : ℕ =>
        .ok (Array.ofFn (![3, 1] + (0 + j * 2 : ℝ) • ![0, 1]))) ∧
    ∃ outcomes s, Course doublePoint (fun i : Fin 2 => i = 0) ⟨0, ![3, 1], ![1, 5], ![3, 1]⟩
        (fun _ => ⟨1, 2, 1, !![2, 1; 1, 2], ![1, 5], ![3, 1]⟩) 1 outcomes s ∧
      outcomes = (List.range 2).map fun _ => .ok (Array.ofFn ![3, 1]) := by
  obtain ⟨haffine, hsteady⟩ := courses_follow_affine_motions reachable_doublePoint rfl
    fun i : Fin 2 => i = 0
  have hregular : IsRegular ((1 : Matrix (Fin 2) (Fin 2) ℝ) + ((1 : ℝ) * 2) • !![2, 1; 1, 2])
      fun i => i = 0 := isRegular_of_apply_ne_zero (by norm_num)
  constructor
  · let f (j : ℕ) : Fin 2 → ℝ := (1 : Matrix (Fin 2) (Fin 2) ℝ) *ᵥ ![0, 1] +
      !![2, 1; 1, 2] *ᵥ (![3, 1] + (0 + j * 2 : ℝ) • ![0, 1])
    let h (j : ℕ) : Fin 2 → ℝ := ![3, 1] + (0 + (j + 1 : ℕ) * 2 : ℝ) • ![0, 1]
    obtain ⟨outcomes, s, hcourse⟩ := exists_course_doublePoint
      ⟨0, ![3, 1] + (0 : ℝ) • ![0, 1], f 0, ![3, 1] + (0 : ℝ) • ![0, 1]⟩
      (fun j => ⟨1, 2, 1, !![2, 1; 1, 2], f (j + 1), h j⟩) (c := 3) (by simp) (by simp [h]) 1
    exact ⟨f, h, outcomes, s, hcourse, haffine 1 2 0 1 _ _ _ f zero_le_one le_rfl two_pos hregular
      (fun _ _ _ => rfl) 1 outcomes s hcourse⟩
  · let e : StepData 2 := ⟨1, 2, 1, !![2, 1; 1, 2], ![1, 5], ![3, 1]⟩
    have hvalid : e.Valid fun i => i = 0 := ⟨zero_le_one, le_rfl, two_pos, hregular⟩
    obtain ⟨outcomes, s, hcourse⟩ := exists_course_doublePoint ⟨0, ![3, 1], ![1, 5], ![3, 1]⟩
      (fun _ => e) rfl (fun _ => rfl) 1
    have hfixed : IsRegular (!![2, 1; 1, 2] : Matrix (Fin 2) (Fin 2) ℝ) fun i => i = 0 :=
      isRegular_of_apply_ne_zero (by simp)
    exact ⟨outcomes, s, hcourse, hsteady coupledSolver [firstIs 3] _ _ _ _
      (isEssential_firstIs 3) poses_coupledSolver (prescribe_firstIs none rfl) hfixed
      solveSteady_coupledSolver 0 (fun _ => e) (fun _ => ⟨hvalid, rfl, rfl, rfl⟩) 1 outcomes s
      hcourse⟩

section Energy

variable {n : ℕ} {d : StartData n} {steps : ℕ → StepData n} {fixed : Fin n → Prop} {k : ℕ}
  {e : StepData n} {u v : Fin n → ℝ} {M K : Matrix (Fin n) (Fin n) ℝ}

/-- The energy of a vector. -/
def energy (M : Matrix (Fin n) (Fin n) ℝ) (u : Fin n → ℝ) : ℝ := u ⬝ᵥ M *ᵥ u

theorem energy_nonneg (hM : M.PosSemidef) (u : Fin n → ℝ) : 0 ≤ energy M u :=
  hM.dotProduct_mulVec_nonneg u

theorem dotProduct_mulVec_comm (hM : M.PosSemidef) (u v : Fin n → ℝ) :
    u ⬝ᵥ M *ᵥ v = v ⬝ᵥ M *ᵥ u := by
  have hsymm : Mᵀ = M := hM.isHermitian
  rw [dotProduct_mulVec, ← mulVec_transpose, hsymm, dotProduct_comm]

/-- By how much the energy changes from `u` to `v`, in terms of their mean. -/
theorem energy_sub_energy (hM : M.PosSemidef) (theta : ℝ) (u v : Fin n → ℝ) :
    energy M v - energy M u = 2 * ((theta • v + (1 - theta) • u) ⬝ᵥ M *ᵥ (v - u)) -
      (2 * theta - 1) * energy M (v - u) := by
  have hsymm := dotProduct_mulVec_comm hM u v
  simp only [energy, mulVec_sub, add_dotProduct, sub_dotProduct, smul_dotProduct, dotProduct_sub,
    smul_eq_mul]
  rw [hsymm]
  ring

/-- The equation of a step without force, tested with a vector that is zero where it does not
hold. -/
theorem dotProduct_of_isSolution (hv : IsSolution e.matrix (e.load 0 u) e.values fixed v)
    (hforce : e.force = 0) {w : Fin n → ℝ} (hw : ∀ i, fixed i → w i = 0) :
    w ⬝ᵥ e.mass *ᵥ (v - u) =
      -e.dt * (w ⬝ᵥ e.stiffness *ᵥ (e.theta • v + (1 - e.theta) • u)) := by
  simp only [dotProduct, Finset.mul_sum]
  refine Finset.sum_congr rfl fun i _ => ?_
  by_cases hi : fixed i
  · rw [hw i hi]
    ring
  · have hrow := hv.balance i hi
    rw [e.matrix_mulVec, e.load_apply, hforce] at hrow
    simp only [Pi.zero_apply, mul_zero, add_zero, zero_add] at hrow
    simp only [mulVec_sub, mulVec_add, mulVec_smul, Pi.sub_apply, Pi.add_apply, Pi.smul_apply,
      smul_eq_mul]
    linear_combination w i * hrow

/-- A step does not increase the energy. -/
theorem energy_le_of_isSolution (hM : e.mass.PosSemidef) (hK : e.stiffness.PosSemidef)
    (htheta : 1 / 2 ≤ e.theta) (hdt : 0 < e.dt) (hforce : e.force = 0) (hvalues : e.values = 0)
    (hu : ∀ i, fixed i → u i = 0)
    (hv : IsSolution e.matrix (e.load 0 u) e.values fixed v) :
    energy e.mass v ≤ energy e.mass u := by
  let w := e.theta • v + (1 - e.theta) • u
  have hw : ∀ i, fixed i → w i = 0 := by
    intro i hi
    have hvi := hv.fixed_eq i hi
    rw [hvalues] at hvi
    simp [w, hvi, hu i hi]
  have hchange := energy_sub_energy hM e.theta u v
  rw [dotProduct_of_isSolution hv hforce hw] at hchange
  have hdissipated : 0 ≤ e.dt * energy e.stiffness w := mul_nonneg hdt.le (energy_nonneg hK w)
  have hdamped : 0 ≤ (2 * e.theta - 1) * energy e.mass (v - u) :=
    mul_nonneg (by linarith) (energy_nonneg hM _)
  have hw' : w ⬝ᵥ e.stiffness *ᵥ w = energy e.stiffness w := rfl
  rw [hw'] at hchange
  linarith

/-- The vectors of a motion with zeros prescribed are zero where they are fixed. -/
theorem IsMotion.eq_zero {u : ℕ → Fin n → ℝ} (h : IsMotion d steps fixed k u) (hstart : d.values = 0)
    (hvalues : ∀ j, (steps j).values = 0) {j : ℕ} (hj : j ≤ k) {i : Fin n} (hi : fixed i) :
    u j i = 0 := by
  cases j with
  | zero => rw [h.initial, override, if_pos hi, hstart, Pi.zero_apply]
  | succ j => rw [(h.step j hj).fixed_eq i hi, hvalues, Pi.zero_apply]

/-- Along a motion the energy does not increase. -/
theorem IsMotion.energy_le {u : ℕ → Fin n → ℝ} (h : IsMotion d steps fixed k u)
    (hM : M.PosSemidef) (hK : K.PosSemidef) (hforce : d.force = 0) (hvalues : d.values = 0)
    (hsteps : ∀ j, 1 / 2 ≤ (steps j).theta ∧ 0 < (steps j).dt ∧ (steps j).mass = M ∧
      (steps j).stiffness = K ∧ (steps j).force = 0 ∧ (steps j).values = 0) {i j : ℕ} (hij : i ≤ j)
    (hj : j ≤ k) : energy M (u j) ≤ energy M (u i) := by
  have hforceAt (j : ℕ) : forceAt d steps j = 0 := by
    cases j with
    | zero => exact hforce
    | succ j => exact (hsteps j).2.2.2.2.1
  induction j, hij using Nat.le_induction with
  | base => exact le_rfl
  | succ j hij ih =>
    obtain ⟨htheta, hdt, rfl, rfl, hforce, hzero⟩ := hsteps j
    have hstep := h.step j hj
    rw [hforceAt] at hstep
    have hfixed : ∀ i, fixed i → u j i = 0 := fun i hi =>
      h.eq_zero hvalues (fun j => (hsteps j).2.2.2.2.2) (Nat.le_of_succ_le hj) hi
    exact (energy_le_of_isSolution hM hK htheta hdt hforce hzero hfixed hstep).trans
      (ih (Nat.le_of_succ_le hj))

end Energy

/-- Over a course of any length, from any initial vector, with symmetric positive semidefinite
matrices, without force and with zeros prescribed on the essential degrees of freedom, `u' M u`
never increases from a call to a later one. Weights from one half and lengths may change from step
to step. -/
theorem energy_never_increases (hm : m.Reachable) (hfrozen : m.frozen = true)
    (fixed : Fin m.dofs → Prop) {M K : Matrix (Fin m.dofs) (Fin m.dofs) ℝ} (hM : M.PosSemidef)
    (hK : K.PosSemidef) (t0 : ℝ) (x : Fin m.dofs → ℝ) (theta dt : ℕ → ℝ)
    (htheta : ∀ j, 1 / 2 ≤ theta j ∧ theta j ≤ 1) (hdt : ∀ j, 0 < dt j)
    (hregular : ∀ j, IsRegular (M + (theta j * dt j) • K) fixed) {k : ℕ}
    {outcomes : List (Except (Error ℝ) (Array ℝ))} {s : Simulation ℝ}
    (h : Course m fixed ⟨t0, x, 0, 0⟩ (fun j => ⟨theta j, dt j, M, K, 0, 0⟩) k outcomes s) :
    ∃ us : List (Fin m.dofs → ℝ), outcomes = us.map (fun u => .ok (Array.ofFn u)) ∧
      us.Pairwise fun u v => v ⬝ᵥ M *ᵥ v ≤ u ⬝ᵥ M *ᵥ u := by
  obtain ⟨u, hmotion, rfl, -⟩ := h.exists_motion hm hfrozen fun j =>
    ⟨one_half_pos.le.trans (htheta j).1, (htheta j).2, hdt j, hregular j⟩
  refine ⟨(List.range (k + 1)).map u, by simp, ?_⟩
  rw [List.pairwise_map]
  refine (List.pairwise_lt_range).imp_of_mem fun {i j} _ hj hij => ?_
  exact hmotion.energy_le hM hK rfl rfl (fun j => ⟨(htheta j).1, hdt j, rfl, rfl, rfl, rfl⟩) hij.le
    (Nat.lt_succ_iff.mp (List.mem_range.mp hj))

theorem posSemidef_coupled : (!![2, 1; 1, 2] : Matrix (Fin 2) (Fin 2) ℝ).PosSemidef := by
  refine .of_dotProduct_mulVec_nonneg ?_ fun x => ?_
  · ext i j
    fin_cases i <;> fin_cases j <;> simp
  · simp only [mulVec, dotProduct, Fin.sum_univ_two, Pi.star_apply, star_trivial]
    norm_num
    nlinarith [sq_nonneg (x 0 + x 1), sq_nonneg (x 0), sq_nonneg (x 1)]

theorem energy_of_doublePoint_never_increases :
    ∃ us : List (Fin 2 → ℝ), ∃ s, Course doublePoint (fun i : Fin 2 => i = 0) ⟨0, ![7, 5], 0, 0⟩
        (fun _ => ⟨1, 2, 1, !![2, 1; 1, 2], 0, 0⟩) 1 (us.map fun u => .ok (Array.ofFn u)) s ∧
      us.Pairwise fun u v =>
        v ⬝ᵥ (1 : Matrix (Fin 2) (Fin 2) ℝ) *ᵥ v ≤ u ⬝ᵥ (1 : Matrix (Fin 2) (Fin 2) ℝ) *ᵥ u := by
  obtain ⟨outcomes, s, hcourse⟩ := exists_course_doublePoint ⟨0, ![7, 5], 0, 0⟩
    (fun _ => ⟨1, 2, 1, !![2, 1; 1, 2], 0, 0⟩) rfl (fun _ => rfl) 1
  have hregular : IsRegular ((1 : Matrix (Fin 2) (Fin 2) ℝ) + ((1 : ℝ) * 2) • !![2, 1; 1, 2])
      fun i => i = 0 := isRegular_of_apply_ne_zero (by norm_num)
  obtain ⟨us, rfl, hus⟩ := energy_never_increases reachable_doublePoint rfl (fun i : Fin 2 => i = 0)
    PosSemidef.one posSemidef_coupled 0 ![7, 5] (fun _ => 1) (fun _ => 2)
    (fun _ => ⟨by norm_num, le_rfl⟩) (fun _ => two_pos) (fun _ => hregular) hcourse
  exact ⟨us, s, hcourse, hus⟩

end Simulation
end WeakForm
