import WeakForm.Proofs.Mesh.Reachable
import WeakForm.Proofs.Solver.Components
import WeakForm.Proofs.Solver.Solutions
import WeakForm.Solver.Steady

/-!
# The steady solution

If the free degrees of freedom are determined by their equations, the steady solver finds the one
vector that has the prescribed values and balances these equations. The equations of the essential
degrees of freedom do not matter to it; what they are missed by are the reactions.
-/

namespace WeakForm
namespace Simulation

open Matrix WeakForm.Partition Condition

variable {s : Simulation ℝ} {m : Mesh ℝ} {conditions : List (Condition ℝ)}
  {K : Matrix (Fin m.dofs) (Fin m.dofs) ℝ} {f u : Fin m.dofs → ℝ}

/-- The solver has the given mesh, conditions, stiffness matrix and force, wherever it takes the
matrix and the force from. -/
structure PosesSteady (s : Simulation ℝ) (m : Mesh ℝ) (conditions : List (Condition ℝ))
    (K : Matrix (Fin m.dofs) (Fin m.dofs) ℝ) (f : Fin m.dofs → ℝ) : Prop where
  mesh_eq : s.mesh = m
  conditions_eq : s.conditions = conditions
  components : ∃ A s₁ s₂, s.matrix "stiffness" = (.ok A, s₁) ∧ A.Represents K ∧
    s₁.force = (.ok (Array.ofFn f), s₂)

theorem reactions_eq {A : NumberMatrix ℝ} (hA : A.Represents K) (f u : Fin m.dofs → ℝ) :
    reactions A (Array.ofFn f) (Array.ofFn u) = .ok (.ofVector (Array.ofFn (K *ᵥ u - f))) := by
  rw [reactions, hA.apply, ok_bind, NumberArray.sub_ofVector]

/-- Looking for the components leaves the mesh and the conditions alone. -/
theorem PosesSteady.exists_components (hs : s.PosesSteady m conditions K f) :
    ∃ A s₁ s₂, s.matrix "stiffness" = (.ok A, s₁) ∧ A.Represents K ∧
      s₁.force = (.ok (Array.ofFn f), s₂) ∧ s₂.mesh = m ∧ s₂.conditions = conditions := by
  obtain ⟨A, s₁, s₂, hA, hrepresents, hf⟩ := hs.components
  have hmatrix := s.keeps_matrix "stiffness"
  have hforce := s₁.keeps_force
  rw [hA] at hmatrix
  rw [hf] at hforce
  have hkept := hmatrix.trans hforce
  exact ⟨A, s₁, s₂, hA, hrepresents, hf, hkept.mesh_eq.trans hs.mesh_eq,
    hkept.conditions_eq.trans hs.conditions_eq⟩

/-- A well-posed steady problem is solved, and its reactions are kept. -/
theorem PosesSteady.exists_solution (hs : s.PosesSteady m conditions K f) (hm : m.Reachable)
    (hfrozen : m.frozen = true) (hconditions : ∀ c ∈ conditions, c.Applicable m none)
    (hK : IsRegular K fun d => IsEssential m conditions d) :
    ∃ u s', s.solveSteady = (.ok (Array.ofFn u), s') ∧
      s'.solution = some (Array.ofFn u) ∧
      s'.scheme = .steady (some (.ofVector (Array.ofFn (K *ᵥ u - f)))) ∧
      IsSolution K f (fun d => prescribedValue m none conditions d)
        (fun d => IsEssential m conditions d) u := by
  obtain ⟨A, s₁, s₂, hA, hrepresents, hf, hmesh, hgiven⟩ := hs.exists_components
  have hprescribe : Prescribe m none conditions fun d => prescribedValue m none conditions d :=
    ⟨hconditions, fun _ _ => rfl⟩
  obtain ⟨zero, p, u, hzero, hp, hu, hsolution⟩ :=
    hprescribe.exists_solution hm.wellFormed hfrozen hrepresents hK f
  have hsteady : s₂.steadySolution A (Array.ofFn f) = .ok (Array.ofFn u) := by
    rw [steadySolution, hmesh, hgiven, hzero,
      ok_bind, hp, ok_bind, hu]
  let r : NumberArray ℝ := .ofVector (Array.ofFn (K *ᵥ u - f))
  let s' := { s₂ with solution := some (Array.ofFn u), scheme := .steady (some r) }
  refine ⟨u, s', ?_, rfl, rfl, hsolution⟩
  unfold solveSteady
  simp only [hA, hf, hsteady, reactions_eq hrepresents]
  rfl

/-- Whatever the solver returns, it keeps the reactions of that vector. -/
theorem PosesSteady.reactions_of_solveSteady (hs : s.PosesSteady m conditions K f) (hm : m.Reachable)
    {w : Array ℝ} {s' : Simulation ℝ} (h : s.solveSteady = (.ok w, s')) :
    ∃ u : Fin m.dofs → ℝ, w = Array.ofFn u ∧
      s'.scheme = .steady (some (.ofVector (Array.ofFn (K *ᵥ u - f)))) := by
  obtain ⟨A, s₁, s₂, hA, hrepresents, hf, hmesh, hgiven⟩ := hs.exists_components
  unfold solveSteady at h
  simp only [hA, hf] at h
  cases hw : s₂.steadySolution A (Array.ofFn f) with
  | error err =>
    rw [hw] at h
    cases h
  | ok v =>
    obtain ⟨zero, -, hv⟩ := bind_eq_ok.mp hw
    obtain ⟨p, hp, hv⟩ := bind_eq_ok.mp hv
    rw [hmesh] at hp
    have hsize : v.size = m.dofs :=
      (size_of_solve hv).trans (sized_of_applyAll hm.wellFormed hp).values
    obtain ⟨u, rfl⟩ : ∃ u : Fin m.dofs → ℝ, v = Array.ofFn u := ⟨_, (ofFn_getD hsize).symm⟩
    simp only [hw, reactions_eq hrepresents] at h
    cases h
    exact ⟨u, rfl, rfl⟩

/-- For a well-posed steady problem the solver returns any vector that is a solution. -/
theorem PosesSteady.solveSteady_eq (hs : s.PosesSteady m conditions K f) (hm : m.Reachable)
    (hfrozen : m.frozen = true) (hconditions : ∀ c ∈ conditions, c.Applicable m none)
    (hK : IsRegular K fun d => IsEssential m conditions d)
    (hu : IsSolution K f (fun d => prescribedValue m none conditions d)
      (fun d => IsEssential m conditions d) u) :
    s.solveSteady.1 = .ok (Array.ofFn u) := by
  obtain ⟨v, s', hv, -, -, hsolution⟩ := hs.exists_solution hm hfrozen hconditions hK
  rw [hu.unique hK hsolution]
  exact congrArg Prod.fst hv

/-- For a well-posed steady problem the solver returns the one vector that has the prescribed value
on every essential degree of freedom and balances the equation of every other one, where also the
reactions vanish. Any solver whose matrix and force agree with these in the equations of the free
degrees of freedom returns the same vector. -/
theorem solveSteady_eq_unique_solution (hm : m.Reachable) (hfrozen : m.frozen = true)
    (hconditions : ∀ c ∈ conditions, c.Applicable m none)
    (hs : s.PosesSteady m conditions K f)
    (hK : IsRegular K fun d => IsEssential m conditions d) :
    ∃ u s', s.solveSteady = (.ok (Array.ofFn u), s') ∧
      (∀ v : Fin m.dofs → ℝ, v = u ↔
        (∀ d : Fin m.dofs, IsEssential m conditions d →
          v d = prescribedValue m none conditions d) ∧
        ∀ d : Fin m.dofs, ¬ IsEssential m conditions d → (K *ᵥ v - f) d = 0) ∧
      s'.scheme = .steady (some (.ofVector (Array.ofFn (K *ᵥ u - f)))) ∧
      (∀ (r : Simulation ℝ) (L : Matrix (Fin m.dofs) (Fin m.dofs) ℝ) (g : Fin m.dofs → ℝ),
        r.PosesSteady m conditions L g →
        (∀ d : Fin m.dofs, ¬ IsEssential m conditions d → K d = L d ∧ f d = g d) →
        r.solveSteady.1 = .ok (Array.ofFn u)) ∧
      ((∀ d : Fin m.dofs, IsEssential m conditions d) →
        u = fun d : Fin m.dofs => prescribedValue m none conditions d) := by
  obtain ⟨u, s', hu, -, hreactions, hsolution⟩ := hs.exists_solution hm hfrozen hconditions hK
  refine ⟨u, s', hu, fun v => ⟨?_, ?_⟩, hreactions, fun r L g hr hagree => ?_, fun hall => ?_⟩
  · rintro rfl
    exact ⟨hsolution.fixed_eq, fun d hd => sub_eq_zero.mpr (hsolution.balance d hd)⟩
  · rintro ⟨hvalues, hbalance⟩
    have hv : IsSolution K f (fun d => prescribedValue m none conditions d)
        (fun d => IsEssential m conditions d) v :=
      ⟨hvalues, fun d hd => sub_eq_zero.mp (hbalance d hd)⟩
    exact hv.unique hK hsolution
  · have hL := hK.congr fun d hd => (hagree d hd).1
    obtain ⟨w, r', hw, -, -, hother⟩ := hr.exists_solution hm hfrozen hconditions hL
    have hsame := hsolution.congr (fun d hd => (hagree d hd).1) fun d hd => (hagree d hd).2
    rw [hw, hother.unique hL hsame]
  · exact funext fun d => hsolution.fixed_eq d (hall d)

/-- A point with two degrees of freedom. -/
noncomputable def doublePoint : Mesh ℝ :=
  (Mesh.ofLists (.integer 2) [[0]] [(.point, [1])]).freeze.2

theorem reachable_doublePoint : doublePoint.Reachable :=
  .step (Mesh.reachable_ofLists _ (by simp) (by simp [Family.nodeCount])) (.freeze _)

/-- The first component of the point has the given value. -/
def firstIs (x : ℝ) : Condition ℝ := ⟨none, .data (.real x), .integer 0⟩

theorem isEssential_firstIs (x : ℝ) (i : Fin 2) : IsEssential doublePoint [firstIs x] i ↔ i = 0 := by
  have hregions : doublePoint.essentialDofs = [] := rfl
  have hdofs : (firstIs x).dofs doublePoint = [0] := rfl
  fin_cases i <;> simp [IsEssential, hregions, hdofs]

theorem prescribe_firstIs {x : ℝ} (time : Option (Datum ℝ)) {g : Fin 2 → ℝ} (hg : g 0 = x) :
    Prescribe doublePoint time [firstIs x] g := by
  have happlicable : (firstIs x).Applicable doublePoint time := ⟨⟨_, rfl⟩, fun _ h => nomatch h⟩
  refine ⟨by simpa using happlicable, fun d hd => ?_⟩
  obtain rfl := (isEssential_firstIs x d).mp hd
  rw [hg]
  rfl

/-- A solver for the other component, which hangs on the first one. -/
noncomputable def coupledSolver : Simulation ℝ where
  settings := []
  conditions := [firstIs 3]
  components :=
    [("stiffness", .matrix (.ofMatrix !![2, 1; 1, 2])), ("force", .vector (Array.ofFn ![1, 5]))]
  solution := none
  scheme := .steady none
  mesh := doublePoint
  formulation := none

theorem isRegular_of_apply_ne_zero {X : Matrix (Fin 2) (Fin 2) ℝ} (h : X 1 1 ≠ 0) :
    IsRegular X fun i => i = 0 := by
  refine isRegular_iff.mpr fun w hfixed hfree => ?_
  have hzero : w 0 = 0 := hfixed 0 rfl
  have hrow := hfree 1 one_ne_zero
  simp only [mulVec, dotProduct, Fin.sum_univ_two, hzero, mul_zero, zero_add] at hrow
  funext i
  fin_cases i
  · exact hzero
  · exact (mul_eq_zero.mp hrow).resolve_left h

theorem poses_coupledSolver :
    coupledSolver.PosesSteady doublePoint [firstIs 3] !![2, 1; 1, 2] ![1, 5] :=
  ⟨rfl, rfl, _, coupledSolver, coupledSolver, rfl, NumberMatrix.represents_ofMatrix _, rfl⟩

theorem isRegular_coupledSolver : IsRegular (!![2, 1; 1, 2] : Matrix (Fin 2) (Fin 2) ℝ)
    fun i => IsEssential doublePoint [firstIs 3] i := by
  simp only [isEssential_firstIs]
  exact isRegular_of_apply_ne_zero (by simp)

theorem solveSteady_coupledSolver : coupledSolver.solveSteady.1 = .ok (Array.ofFn ![3, 1]) := by
  have hprescribe : Prescribe doublePoint none [firstIs 3] ![3, 1] := prescribe_firstIs none rfl
  have hvalue : IsSolution (!![2, 1; 1, 2] : Matrix (Fin 2) (Fin 2) ℝ) ![1, 5]
      (fun d => prescribedValue doublePoint none [firstIs 3] d)
      (fun d => IsEssential doublePoint [firstIs 3] d) ![3, 1] := by
    simp only [isEssential_firstIs]
    refine ⟨fun i hi => ?_, fun i hi => ?_⟩
    · exact (hprescribe.value_eq i ((isEssential_firstIs 3 i).mpr hi)).symm
    · obtain rfl : i = 1 := by omega
      norm_num [mulVec, dotProduct, Fin.sum_univ_two]
  exact poses_coupledSolver.solveSteady_eq reachable_doublePoint rfl hprescribe.applicable
    isRegular_coupledSolver hvalue

theorem solveSteady_of_coupledSolver :
    ∃ u s', coupledSolver.solveSteady = (.ok (Array.ofFn u), s') ∧
      s'.scheme = .steady (some (.ofVector (Array.ofFn (!![2, 1; 1, 2] *ᵥ u - ![1, 5])))) := by
  obtain ⟨u, s', hu, -, hreactions, -⟩ := solveSteady_eq_unique_solution reachable_doublePoint rfl
    (prescribe_firstIs none (g := ![3, 1]) rfl).applicable poses_coupledSolver isRegular_coupledSolver
  exact ⟨u, s', hu, hreactions⟩

end Simulation
end WeakForm
