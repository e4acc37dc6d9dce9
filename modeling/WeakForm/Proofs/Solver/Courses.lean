import WeakForm.Proofs.Solver.ThetaScheme

/-!
# Courses of a transient solver

A course is a start followed by steps. Between the calls the settings, the components and the
formulation may change, but not what the solver remembers. As long as every step has valid data, no
call of a course fails, and the vectors follow the scheme, each step from the vector, the force and
the time of the call before it. There are courses of any length for all matrices, forces and lengths
of the steps.
-/

namespace WeakForm

namespace Datum

variable {α : Type}

theorem commonShape?_map_real (xs : List α) : commonShape? (xs.map real) = some [] := by
  induction xs with
  | nil => rfl
  | cons x xs ih =>
    cases xs with
    | nil => rfl
    | cons y xs =>
      rw [List.map_cons] at ih
      rw [List.map_cons, List.map_cons, commonShape?, ih]
      · rfl
      · simp

theorem itemLeaves_map_real (xs : List α) : itemLeaves (xs.map real) = xs.map real := by
  induction xs with
  | nil => rfl
  | cons x xs ih => rw [List.map_cons, itemLeaves, ih]; rfl

/-- A list of real numbers is a vector. -/
theorem toReals_list_real [Scalar α] (xs : List α) :
    (list (xs.map real)).toReals = .ok (.ofArray xs.toArray) := by
  have hshape : (list (xs.map real)).shape? = some [xs.length] := by
    rw [shape?, commonShape?_map_real, Option.map_some, List.length_map]
  have hvalues : (xs.map real).mapM toReal = .ok xs := by
    rw [mapM_eq_ok_iff, List.forall₂_map_left_iff]
    exact List.forall₂_same.mpr fun _ _ => rfl
  have haxes : ¬ Tensor.mostAxes < [xs.length].length := by
    rw [List.length_singleton]
    decide
  unfold toReals entries
  rw [hshape]
  dsimp only
  rw [if_neg haxes, leaves, itemLeaves_map_real, hvalues, ok_bind]
  simp [Tensor.reshape?, Tensor.ofArray, volume, pure, Except.pure]

end Datum

namespace Simulation

open Condition WeakForm.Partition

section Motions

variable {n : ℕ} {d : StartData n} {steps : ℕ → StepData n} {fixed : Fin n → Prop} {k : ℕ}
  {u : ℕ → Fin n → ℝ}

/-- The force at a call; the start is the first one. -/
def forceAt (d : StartData n) (steps : ℕ → StepData n) : ℕ → Fin n → ℝ
  | 0 => d.force
  | j + 1 => (steps j).force

/-- The time at a call. -/
def timeAt (d : StartData n) (steps : ℕ → StepData n) : ℕ → ℝ
  | 0 => d.time
  | j + 1 => timeAt d steps j + (steps j).dt

/-- The first vector has the prescribed values in place, and the next `k` ones follow the scheme. -/
structure IsMotion (d : StartData n) (steps : ℕ → StepData n) (fixed : Fin n → Prop) (k : ℕ)
    (u : ℕ → Fin n → ℝ) : Prop where
  initial : u 0 = override fixed d.values d.initial
  step : ∀ j < k, IsSolution (steps j).matrix ((steps j).load (forceAt d steps j) (u j))
    (steps j).values fixed (u (j + 1))

/-- A motion goes on with a solution of its next step. -/
theorem IsMotion.extend (h : IsMotion d steps fixed k u) {v : Fin n → ℝ}
    (hv : IsSolution (steps k).matrix ((steps k).load (forceAt d steps k) (u k)) (steps k).values
      fixed v) : IsMotion d steps fixed (k + 1) (Function.update u (k + 1) v) := by
  have hold (j : ℕ) (hj : j < k + 1) : Function.update u (k + 1) v j = u j :=
    Function.update_of_ne hj.ne v u
  refine ⟨(hold 0 k.succ_pos).trans h.initial, fun j hj => ?_⟩
  rw [hold j hj]
  rcases Nat.lt_succ_iff_lt_or_eq.mp hj with hlt | rfl
  · rw [hold (j + 1) (Nat.succ_lt_succ hlt)]
    exact h.step j hlt
  · rwa [Function.update_self]

end Motions

variable {m : Mesh ℝ} {fixed : Fin m.dofs → Prop} {d : StartData m.dofs}
  {steps : ℕ → StepData m.dofs} {k : ℕ} {outcomes : List (Except (Error ℝ) (Array ℝ))}
  {s s' : Simulation ℝ}

/-- A start and `k` steps with the given data, what these calls returned, and the solver after
them. -/
inductive Course (m : Mesh ℝ) (fixed : Fin m.dofs → Prop) (d : StartData m.dofs)
    (steps : ℕ → StepData m.dofs) : ℕ → List (Except (Error ℝ) (Array ℝ)) → Simulation ℝ → Prop
  | start {s : Simulation ℝ} {u0 : Datum ℝ} (h : s.StartsWith u0 m fixed d) :
      Course m fixed d steps 0 [(s.start u0).1] (s.start u0).2
  | advance {k : ℕ} {outcomes : List (Except (Error ℝ) (Array ℝ))} {s s' : Simulation ℝ}
      (h : Course m fixed d steps k outcomes s) (hresume : s'.scheme = s.scheme)
      (hstep : s'.StepsWith m fixed (steps k)) :
      Course m fixed d steps (k + 1) (outcomes ++ [s'.advance.1]) s'.advance.2

section Changes

variable {α : Type} {s : Simulation α}

/-- Changing a setting leaves alone what a solver remembers, -/
theorem scheme_set {r r' : Solver α} {setting : String} {value : Datum α}
    (h : r.set setting value = .ok r') : r'.scheme = r.scheme := by
  unfold Solver.set at h
  split_ifs at h
  cases h
  rfl

variable [Scalar α]

/-- and so does giving components. -/
theorem scheme_setComponents (s : Simulation α) (given : List (String × Datum α)) :
    (s.setComponents given).2.scheme = s.scheme := by
  obtain ⟨components, hgiven⟩ := s.exists_setComponents_eq given
  rw [hgiven]

end Changes

theorem Remembers.congr {n : ℕ} {t : ℝ} {u f : Fin n → ℝ} (h : s.Remembers t u f)
    (hscheme : s'.scheme = s.scheme) : s'.Remembers t u f := by
  have hprogress : s'.progress? = s.progress? := by rw [progress?, progress?, hscheme]
  rwa [Remembers, hprogress]

/-- No call of a course fails, and its vectors follow the scheme. -/
theorem Course.exists_motion (h : Course m fixed d steps k outcomes s) (hm : m.Reachable)
    (hfrozen : m.frozen = true) (hvalid : ∀ j, (steps j).Valid fixed) :
    ∃ u, IsMotion d steps fixed k u ∧
      outcomes = (List.range (k + 1)).map (fun j => .ok (Array.ofFn (u j))) ∧
      s.Remembers (timeAt d steps k) (u k) (forceAt d steps k) := by
  induction h with
  | start h =>
    obtain ⟨s', hs', hremembers⟩ := h.start_eq hm hfrozen
    rw [hs']
    exact ⟨fun _ => override fixed d.values d.initial,
      ⟨rfl, fun j hj => absurd hj j.not_lt_zero⟩, rfl, hremembers⟩
  | @advance k outcomes s s' h hresume hstep ih =>
    obtain ⟨u, hmotion, rfl, hremembers⟩ := ih
    obtain ⟨v, s'', hs', hnext, hv⟩ :=
      hstep.advance_eq hm hfrozen (hvalid k) (hremembers.congr hresume)
    refine ⟨Function.update u (k + 1) v, hmotion.extend hv, ?_, ?_⟩
    · have hold : (List.range (k + 1)).map (fun j => Except.ok (Array.ofFn (u j))) =
          (List.range (k + 1)).map fun j => (Except.ok (Array.ofFn (Function.update u (k + 1) v j)) :
            Except (Error ℝ) (Array ℝ)) := by
        refine List.map_congr_left fun j hj => ?_
        rw [Function.update_of_ne (List.mem_range.mp hj).ne]
      rw [hold, hs', List.range_succ (n := k + 1), List.map_append, List.map_singleton,
        Function.update_self]
    · rw [Function.update_self, hs']
      exact hnext

section Given

/-- A transient solver to which everything is given. -/
noncomputable def given (m : Mesh ℝ) (conditions : List (Condition ℝ)) (t0 theta dt : ℝ)
    (M K : NumberMatrix ℝ) (f : Fin m.dofs → ℝ) (scheme : Scheme ℝ) : Simulation ℝ where
  settings := [("t0", .real t0), ("theta", .real theta), ("dt", .real dt)]
  conditions := conditions
  components :=
    [("mass", .matrix M), ("stiffness", .matrix K), ("force", .vector (Array.ofFn f))]
  solution := none
  scheme := scheme
  mesh := m
  formulation := none

variable {conditions : List (Condition ℝ)} {M K : NumberMatrix ℝ}

theorem given_startsWith (hfixed : ∀ i : Fin m.dofs, IsEssential m conditions i ↔ fixed i)
    (hvalues : ∀ time, Prescribe m time conditions d.values) (theta dt : ℝ) :
    (given m conditions d.time theta dt M K d.force (.transient (.initial .null))).StartsWith
      (.list ((List.ofFn d.initial).map .real)) m fixed d := by
  refine ⟨⟨_, rfl⟩, rfl, hfixed, rfl, ?_, rfl, hvalues _⟩
  unfold initialVector
  dsimp only
  rw [Datum.toReals_list_real]
  simp [given, Tensor.ofArray, Except.bind]

theorem given_stepsWith (hfixed : ∀ i : Fin m.dofs, IsEssential m conditions i ↔ fixed i)
    {e : StepData m.dofs} (hM : M.Represents e.mass) (hK : K.Represents e.stiffness)
    (hvalues : ∀ time, Prescribe m time conditions e.values) (t0 : ℝ) (scheme : Scheme ℝ) :
    (given m conditions t0 e.theta e.dt M K e.force scheme).StepsWith m fixed e :=
  ⟨rfl, hfixed, rfl, rfl, ⟨M, K, rfl, hM, hK⟩, hvalues _⟩

/-- Where the prescribed values do not depend on the time, there are courses of any length. -/
theorem exists_course (hfixed : ∀ i : Fin m.dofs, IsEssential m conditions i ↔ fixed i)
    (hstart : ∀ time, Prescribe m time conditions d.values)
    (hsteps : ∀ j time, Prescribe m time conditions (steps j).values) {M K : ℕ → NumberMatrix ℝ}
    (hM : ∀ j, (M j).Represents (steps j).mass) (hK : ∀ j, (K j).Represents (steps j).stiffness)
    (k : ℕ) : ∃ outcomes s, Course m fixed d steps k outcomes s := by
  induction k with
  | zero => exact ⟨_, _, .start (given_startsWith (M := M 0) (K := K 0) hfixed hstart 0 0)⟩
  | succ k ih =>
    obtain ⟨outcomes, s, h⟩ := ih
    let next := given m conditions 0 (steps k).theta (steps k).dt (M k) (K k) (steps k).force s.scheme
    have hresume : next.scheme = s.scheme := rfl
    exact ⟨_, _, h.advance hresume (given_stepsWith hfixed (hM k) (hK k) (hsteps k) 0 s.scheme)⟩

end Given

end Simulation
end WeakForm
