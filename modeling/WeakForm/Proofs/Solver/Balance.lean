import WeakForm.Proofs.RealScalar
import WeakForm.Proofs.Assembly.Diffusion
import WeakForm.Proofs.Assembly.OverCells
import WeakForm.Proofs.Solver.Courses

/-!
# Balance of the theta scheme

Where nothing is fixed and the columns of the stiffness matrix add up to zero, the sum of all
equations of a step has no stiffness in it: the total `1' M u` changes by what the forces bring in.
Such is the matrix of the diffusion form over any mesh of Lagrange elements.
-/

namespace WeakForm
namespace Simulation

open Matrix Condition WeakForm.Partition

section Motions

variable {n : ℕ} {d : StartData n} {steps : ℕ → StepData n} {k : ℕ} {e : StepData n}
  {f u v : Fin n → ℝ}

/-- The sum of all equations of a step. -/
theorem total_of_isSolution (hK : 1 ᵥ* e.stiffness = 0)
    (hv : IsSolution e.matrix (e.load f u) e.values (fun _ => False) v) :
    1 ⬝ᵥ e.mass *ᵥ v = 1 ⬝ᵥ e.mass *ᵥ u +
      e.dt * (e.theta * (1 ⬝ᵥ e.force) + (1 - e.theta) * (1 ⬝ᵥ f)) := by
  have hstiffness (w : Fin n → ℝ) : 1 ⬝ᵥ e.stiffness *ᵥ w = 0 := by
    rw [dotProduct_mulVec, hK, zero_dotProduct]
  have hsystem : e.matrix *ᵥ v = e.load f u := funext fun i => hv.balance i not_false
  have hsum := congrArg (1 ⬝ᵥ ·) hsystem
  simp only [StepData.matrix, StepData.load, add_mulVec, sub_mulVec, smul_mulVec, dotProduct_add,
    dotProduct_sub, dotProduct_smul, hstiffness, smul_eq_mul, mul_zero, add_zero, sub_zero] at hsum
  rw [hsum, add_comm]

end Motions

variable {m : Mesh ℝ} {defs : Definitions ℝ} {name : String} {kernel : Kernel ℝ} {D : Value ℝ}
  {K : SparseMatrix ℝ}

/-- Over a mesh of Lagrange elements with one degree of freedom per node, none of which is
essential, with the stiffness matrix of the diffusion form and any mass matrix, be it that of
`N'*c*N` or another one, every step changes the total `1' M u` by the weighted mean of the total old
and new forces times its length. Without forces the total stays the same, however many steps there
are. Weights and lengths may change from step to step. -/
theorem total_follows_forces (hm : m.Reachable) (hfrozen : m.frozen = true)
    (hscalar : m.dofsPerNode = 1) (hfamilies : ∀ c ∈ m.cells, c.element.family.IsLagrange)
    (hkernel : Kernel.compile name "B'*D*B" defs = .ok kernel)
    (hD : defs.lookup "D" = some (.constant D))
    (hK : Assembly.matrix m kernel none .triplet = .ok K) (M : Matrix (Fin m.dofs) (Fin m.dofs) ℝ)
    (t0 : ℝ) (x : Fin m.dofs → ℝ) (f : ℕ → Fin m.dofs → ℝ) (theta dt : ℕ → ℝ)
    (htheta : ∀ j, 0 ≤ theta j ∧ theta j ≤ 1) (hdt : ∀ j, 0 < dt j)
    (hregular : ∀ j, IsRegular (M + (theta j * dt j) • K.matrix m.dofs) fun _ => False) {k : ℕ}
    {outcomes : List (Except (Error ℝ) (Array ℝ))} {s : Simulation ℝ}
    (h : Course m (fun _ => False) ⟨t0, x, f 0, 0⟩
      (fun j => ⟨theta j, dt j, M, K.matrix m.dofs, f (j + 1), 0⟩) k outcomes s) :
    ∃ u : ℕ → Fin m.dofs → ℝ, u 0 = x ∧
      outcomes = (List.range (k + 1)).map (fun j => .ok (Array.ofFn (u j))) ∧
      (∀ j < k, 1 ⬝ᵥ M *ᵥ u (j + 1) = 1 ⬝ᵥ M *ᵥ u j +
        dt j * (theta j * (1 ⬝ᵥ f (j + 1)) + (1 - theta j) * (1 ⬝ᵥ f j))) ∧
      ((∀ j, f j = 0) → ∀ j ≤ k, 1 ⬝ᵥ M *ᵥ u j = 1 ⬝ᵥ M *ᵥ x) := by
  obtain ⟨u, hmotion, houtcomes, -⟩ := h.exists_motion hm hfrozen fun j =>
    ⟨(htheta j).1, (htheta j).2, hdt j, hregular j⟩
  have hzero := (Assembly.ones_of_derivatives hm hfrozen hscalar hfamilies hkernel hD hK).2
  have hstart : u 0 = x := hmotion.initial.trans (funext fun i => if_neg not_false)
  have hstep (j : ℕ) (hj : j < k) : 1 ⬝ᵥ M *ᵥ u (j + 1) = 1 ⬝ᵥ M *ᵥ u j +
      dt j * (theta j * (1 ⬝ᵥ f (j + 1)) + (1 - theta j) * (1 ⬝ᵥ f j)) := by
    have hforce : forceAt ⟨t0, x, f 0, 0⟩
        (fun j => ⟨theta j, dt j, M, K.matrix m.dofs, f (j + 1), 0⟩) j = f j := by cases j <;> rfl
    have hsolution := hmotion.step j hj
    rw [hforce] at hsolution
    exact total_of_isSolution hzero hsolution
  refine ⟨u, hstart, houtcomes, hstep, fun hf j hj => ?_⟩
  induction j with
  | zero => rw [hstart]
  | succ j ih =>
    rw [hstep j hj, hf, hf, dotProduct_zero, mul_zero, mul_zero, add_zero, mul_zero, add_zero]
    exact ih (Nat.le_of_succ_le hj)

theorem isEssential_bar (i : Fin 3) : IsEssential Mesh.bar ([] : List (Condition ℝ)) i ↔ False := by
  have hregions : Mesh.bar.essentialDofs = [] := rfl
  simp [IsEssential, hregions]

theorem prescribe_bar (time : Option (Datum ℝ)) (g : Fin 3 → ℝ) :
    Prescribe Mesh.bar time ([] : List (Condition ℝ)) g :=
  ⟨fun _ h => (List.not_mem_nil h).elim, fun i hi => ((isEssential_bar i).mp hi).elim⟩

/-- The mass matrix of a bar, all of whose elements have the mass six. -/
noncomputable def barMass : Matrix (Fin 3) (Fin 3) ℝ := !![2, 1, 0; 1, 2 + 2, 1; 0, 1, 2]

theorem total_of_bar_follows_forces :
    ∃ (kernel : Kernel ℝ) (K : SparseMatrix ℝ) (u : ℕ → Fin 3 → ℝ) (s : Simulation ℝ),
      Kernel.compile "K" "B'*D*B" Assembly.barConstants = .ok kernel ∧
      Assembly.matrix Mesh.bar kernel none .triplet = .ok K ∧
      K.matrix 3 = !![3, -3, 0; -3, 3 + 3, -3; 0, -3, 3] ∧
      Course Mesh.bar (fun _ => False) ⟨0, ![5, 1, 0], ![1, 0, 2], 0⟩
        (fun _ => ⟨1 / 2, 1, barMass, K.matrix 3, ![1, 0, 2], 0⟩) 1
        ((List.range 2).map fun j => .ok (Array.ofFn (u j))) s ∧
      1 ⬝ᵥ barMass *ᵥ u 1 = 1 ⬝ᵥ barMass *ᵥ ![5, 1, 0] + 1 ⬝ᵥ ![1, 0, 2] := by
  obtain ⟨kernel, hkernel⟩ := Assembly.exists_compile_bar Kernel.parse_diffusion (by decide) "K"
  have hfamilies : ∀ c ∈ Mesh.bar.cells, c.element.family.IsLagrange := fun c hc =>
    (Mesh.isStraight_bar hc).isLagrange
  obtain ⟨K, hK, hentries⟩ := Assembly.exists_stiffness_bar fun c hc =>
    Kernel.isStiffness_scalar hkernel Kernel.parse_diffusion (by decide) rfl (hfamilies c hc)
      (Mesh.isStraight_bar hc).dofsPerNode_eq
  have hover := Assembly.isMatrixOver_cells (Assembly.inRange Mesh.reachable_bar rfl) hK
  obtain ⟨outcomes, s, hcourse⟩ : ∃ outcomes s, Course Mesh.bar (fun _ => False)
      ⟨0, ![5, 1, 0], ![1, 0, 2], 0⟩ (fun _ => ⟨1 / 2, 1, barMass, K.matrix 3, ![1, 0, 2], 0⟩) 1
      outcomes s :=
    exists_course isEssential_bar (fun time => prescribe_bar time 0)
      (fun _ time => prescribe_bar time 0) (fun _ => NumberMatrix.represents_ofMatrix _)
      (fun _ => NumberMatrix.represents_reals hover.rows hover.cols) 1
  have hregular : IsRegular (barMass + ((1 / 2 : ℝ) * 1) • K.matrix 3) fun _ => False := by
    refine isRegular_iff.mpr fun w _ hfree => ?_
    have hfirst := hfree 0 not_false
    have hsecond := hfree 1 not_false
    have hthird := hfree 2 not_false
    simp [hentries, barMass, mulVec, dotProduct, Fin.sum_univ_three] at hfirst hsecond hthird
    funext i
    fin_cases i
    · exact (by linarith : w 0 = 0)
    · exact (by linarith : w 1 = 0)
    · exact (by linarith : w 2 = 0)
  obtain ⟨u, hstart, rfl, hstep, -⟩ := total_follows_forces Mesh.reachable_bar rfl rfl hfamilies
    hkernel rfl hK barMass 0 ![5, 1, 0] (fun _ => ![1, 0, 2]) (fun _ => 1 / 2) (fun _ => 1)
    (fun _ => ⟨by norm_num, by norm_num⟩) (fun _ => one_pos) (fun _ => hregular) hcourse
  refine ⟨kernel, K, u, s, hkernel, hK, hentries, hcourse, ?_⟩
  have hfirst := hstep 0 Nat.one_pos
  rw [hstart] at hfirst
  have hmean (a b : ℝ) : a + 1 * (1 / 2 * b + (1 - 1 / 2) * b) = a + b := by ring
  exact hfirst.trans (hmean _ _)

end Simulation
end WeakForm
