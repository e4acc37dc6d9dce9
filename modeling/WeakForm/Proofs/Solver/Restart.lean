import WeakForm.Proofs.Solver.Courses
import WeakForm.Proofs.Solver.Histories
import WeakForm.Proofs.Solver.Partition
import WeakForm.Proofs.Solver.Prescribed

/-!
# Restarts

A run is a start followed by steps. All that a step takes from the calls before it is the progress: the
time, the old solution and the old force. A start rebuilds the progress: from a vector in which the values
prescribed at the initial time are in place, it takes the time from the settings, keeps the vector and looks
the force up again. A run therefore goes on as well from a new solver that is started where a call of the run
left off, and starting a solver again repeats its run.
-/

namespace WeakForm
namespace Simulation

variable {α : Type} [Scalar α] {s s' s'' r : Simulation α} {p : Progress α} {u : Array α}

section Runs

/-- A start, which is call zero, and the steps after it: what each call returns and what it leaves. -/
def run (s : Simulation α) (u0 : Datum α) : ℕ → Except (Error α) (Array α) × Simulation α
  | 0 => s.start u0
  | k + 1 => (s.run u0 k).2.advance

theorem isSome_progress?_run (hp : s.progress?.isSome = true) (u0 : Datum α) (k : ℕ) :
    (s.run u0 k).2.progress?.isSome = true := by
  induction k with
  | zero =>
    obtain ⟨p, hp⟩ := Option.isSome_iff_exists.mp hp
    obtain ⟨-, q, -, hscheme⟩ := s.start_spec hp u0
    change (s.start u0).2.progress?.isSome = true
    rw [progress?, hscheme]
    rfl
  | succ k ih =>
    obtain ⟨p, hp⟩ := Option.isSome_iff_exists.mp ih
    obtain ⟨-, q, -, hscheme⟩ := advance_spec hp
    change (s.run u0 k).2.advance.2.progress?.isSome = true
    rw [progress?, hscheme]
    rfl

theorem solve_of_progress? (hp : s.progress? = some p) : s.solve = s.advance := by
  rw [solve, scheme_of_progress? hp]

theorem solve_run (hp : s.progress?.isSome = true) (u0 : Datum α) (k : ℕ) :
    (s.run u0 k).2.solve = s.run u0 (k + 1) := by
  obtain ⟨p, hp⟩ := Option.isSome_iff_exists.mp (isSome_progress?_run hp u0 k)
  exact solve_of_progress? hp

/-- Steps that all succeed may be taken at once. -/
theorem solveMany_run {u0 : Datum α} (hp : s.progress?.isSome = true) {k m : ℕ}
    (h : ∀ j < k, ∃ u, (s.run u0 (m + j + 1)).1 = .ok u) :
    solveMany k (s.run u0 m).2 = (.ok (s.run u0 (m + k)).2.solution, (s.run u0 (m + k)).2) := by
  induction k generalizing m with
  | zero => rfl
  | succ k ih =>
    obtain ⟨u, hu⟩ := h 0 k.succ_pos
    have hstep : (s.run u0 m).2.solve = (.ok u, (s.run u0 (m + 1)).2) := by
      rw [solve_run hp, ← hu]
    have hrest (j : ℕ) (hj : j < k) : ∃ u, (s.run u0 (m + 1 + j + 1)).1 = .ok u := by
      have hlate := h (j + 1) (Nat.succ_lt_succ hj)
      rwa [← Nat.add_assoc, Nat.add_right_comm m j 1] at hlate
    rw [solveMany, hstep]
    dsimp only
    rw [ih hrest, Nat.add_right_comm, Nat.add_assoc]

theorem consults_run (s : Simulation α) (u0 : Datum α) (k : ℕ) : s.Consults (s.run u0 k).2 := by
  induction k with
  | zero => exact s.consults_start u0
  | succ k ih => exact ih.trans (s.run u0 k).2.consults_advance

end Runs

section Attempts

/-- The components of a step are looked up one after the other, but each is the one that there is at
the beginning. -/
theorem stepComponents_fst (s : Simulation α) : s.stepComponents.1 = (do
    let M ← (s.matrix "mass").1
    let K ← (s.matrix "stiffness").1
    let f ← s.force.1
    pure (M, K, f)) := by
  have hmass := s.consults_matrix "mass"
  unfold stepComponents
  generalize s.matrix "mass" = mass at hmass ⊢
  obtain ⟨M | M, s₁⟩ := mass
  · rfl
  dsimp only at hmass ⊢
  have hstiffness : (s₁.matrix "stiffness").1 = (s.matrix "stiffness").1 := by
    simp only [matrix, hmass.component_fst]
  rw [ok_bind, ← hstiffness]
  replace hmass := hmass.trans (s₁.consults_matrix "stiffness")
  generalize s₁.matrix "stiffness" = stiffness at hmass ⊢
  obtain ⟨K | K, s₂⟩ := stiffness
  · rfl
  dsimp only at hmass ⊢
  rw [ok_bind, ← hmass.force_fst]
  generalize s₂.force = force
  obtain ⟨f | f, s₃⟩ := force <;> rfl

/-- The progress that a step makes, and its solution. -/
def attempt (s : Simulation α) (p : Progress α) : Except (Error α) (Progress α × Array α) := do
  if !p.started then .error .notStarted
  let c ← s.step
  let (M, K, f) ← s.stepComponents.1
  let time ← (Number.ofDatum p.time).bind fun t => t.add c.dt
  let u ← s.stepSolution c time M K f (p.force.getD #[]) (p.solution.getD #[])
  pure ({ p with time := time.toDatum, solution := some u, force := some f }, u)

/-- A step records what it attempts, and then it reports the time. -/
theorem advance_eq (hp : s.progress? = some p) :
    s.advance.1 = (s.attempt p >>= fun q => (checkTime q.1.time).map fun _ => q.2) ∧
      s.advance.2.progress? = some ((s.attempt p).toOption.elim p Prod.fst) ∧
      s.advance.2.solution = (s.attempt p).toOption.elim s.solution fun q => some q.2 := by
  have hscheme := scheme_of_progress? hp
  unfold advance attempt
  simp only [hp]
  by_cases hstarted : p.started = true
  swap
  · rw [if_pos (by simpa using hstarted), if_pos (by simpa using hstarted)]
    exact ⟨rfl, hp, rfl⟩
  rw [if_neg (by simp [hstarted]), if_neg (by simp [hstarted])]
  cases s.step with
  | error e => exact ⟨rfl, hp, rfl⟩
  | ok c =>
  have hkept := s.keeps_stepComponents
  generalize s.stepComponents = found at hkept ⊢
  obtain ⟨found, s₁⟩ := found
  dsimp only at hkept
  have hprogress : s₁.progress? = some p := by rw [progress?, hkept.scheme_eq, hscheme]
  have hsolution (time : Number α) (M K : NumberMatrix α) (f fOld uOld : Array α) :
      s₁.stepSolution c time M K f fOld uOld = s.stepSolution c time M K f fOld uOld := by
    simp only [stepSolution, hkept.mesh_eq, hkept.conditions_eq]
  obtain e | ⟨M, K, f⟩ := found
  · exact ⟨rfl, hprogress, hkept.solution_eq⟩
  simp only [hsolution, ok_bind]
  cases (Number.ofDatum p.time).bind fun t => t.add c.dt with
  | error e => exact ⟨rfl, hprogress, hkept.solution_eq⟩
  | ok time =>
  dsimp only [ok_bind]
  cases s.stepSolution c time M K f (p.force.getD #[]) (p.solution.getD #[]) with
  | error e => exact ⟨rfl, hprogress, hkept.solution_eq⟩
  | ok u => exact ⟨rfl, rfl, rfl⟩

end Attempts

section Following

/-- The second solver is at the same point as the first one, and its steps need the same data. -/
structure Follows (s r : Simulation α) : Prop where
  mesh_eq : r.mesh = s.mesh
  conditions_eq : r.conditions = s.conditions
  step_eq : r.step = s.step
  component_eq : ∀ which ∈ componentNames, (r.component which).1 = (s.component which).1
  progress_eq : r.progress? = s.progress?
  solution_eq : r.solution = s.solution

theorem Follows.stepComponents_eq (h : s.Follows r) : r.stepComponents.1 = s.stepComponents.1 := by
  have hcomponent (which : String) (hwhich : which ∈ componentNames) := h.component_eq which hwhich
  simp only [stepComponents_fst, matrix, force, hcomponent "mass" (by decide),
    hcomponent "stiffness" (by decide), hcomponent "force" (by decide)]

theorem Follows.attempt_eq (h : s.Follows r) (p : Progress α) : r.attempt p = s.attempt p := by
  simp only [attempt, stepSolution, h.stepComponents_eq, h.step_eq, h.mesh_eq, h.conditions_eq]

/-- The step of a solver needs no more than two of its settings. -/
theorem step_congr (htheta : r.settings.lookup "theta" = s.settings.lookup "theta")
    (hdt : r.settings.lookup "dt" = s.settings.lookup "dt") : r.step = s.step := by
  simp only [step, htheta, hdt]

theorem Consults.step_eq (h : s.Consults s') : s'.step = s.step :=
  step_congr (by rw [h.settings_eq]) (by rw [h.settings_eq])

/-- Two solvers at the same point take the same step. -/
theorem Follows.advance (h : s.Follows r) :
    r.advance.1 = s.advance.1 ∧ s.advance.2.Follows r.advance.2 := by
  have hs := s.consults_advance
  have hr := r.consults_advance
  obtain ⟨hresult, hprogress, hsolution⟩ : r.advance.1 = s.advance.1 ∧
      r.advance.2.progress? = s.advance.2.progress? ∧ r.advance.2.solution = s.advance.2.solution := by
    cases hp : s.progress? with
    | none =>
      have hp' := h.progress_eq.trans hp
      have hr'' : r.advance = (.error .steadySolver, r) := by rw [Simulation.advance, hp']
      have hs'' : s.advance = (.error .steadySolver, s) := by rw [Simulation.advance, hp]
      rw [hr'', hs'']
      exact ⟨rfl, h.progress_eq, h.solution_eq⟩
    | some p =>
      obtain ⟨h₁, h₂, h₃⟩ := advance_eq hp
      obtain ⟨h₁', h₂', h₃'⟩ := advance_eq (h.progress_eq.trans hp)
      rw [h₁, h₂, h₃, h₁', h₂', h₃', h.attempt_eq, h.solution_eq]
      exact ⟨rfl, rfl, rfl⟩
  refine ⟨hresult, ?_⟩
  exact {
    mesh_eq := by rw [hr.mesh_eq, hs.mesh_eq, h.mesh_eq]
    conditions_eq := by rw [hr.conditions_eq, hs.conditions_eq, h.conditions_eq]
    step_eq := by rw [hr.step_eq, hs.step_eq, h.step_eq]
    component_eq := fun which hwhich => by
      rw [hr.component_fst, hs.component_fst, h.component_eq which hwhich]
    progress_eq := hprogress
    solution_eq := hsolution }

/-- Two calls end alike: they return the same, and they leave the same solution and the same progress. -/
structure EndsLike (x y : Except (Error α) (Array α) × Simulation α) : Prop where
  result_eq : x.1 = y.1
  solution_eq : x.2.solution = y.2.solution
  progress_eq : x.2.progress? = y.2.progress?

/-- Two runs that are at the same point go on alike. -/
theorem endsLike_run {u0 u1 : Datum α} {m n : ℕ} (hresult : (r.run u1 n).1 = (s.run u0 m).1)
    (h : (s.run u0 m).2.Follows (r.run u1 n).2) (k : ℕ) :
    EndsLike (r.run u1 (n + k)) (s.run u0 (m + k)) ∧
      (s.run u0 (m + k)).2.Follows (r.run u1 (n + k)).2 := by
  induction k with
  | zero => exact ⟨⟨hresult, h.solution_eq, h.progress_eq⟩, h⟩
  | succ k ih =>
    obtain ⟨hnext, hfollows⟩ := ih.2.advance
    exact ⟨⟨hnext, hfollows.solution_eq, hfollows.progress_eq⟩, hfollows⟩

end Following

section Recording

open Condition

/-- A start that finds all it needs records it. -/
theorem start_of_ok {u0 : Datum α} {v f : Array α} {q : Prescribed α} (hp : s.progress?.isSome = true)
    (hv : (s.initialVector u0).1 = .ok v) (hq : s.initialValues v = .ok q) (hf : s.force.1 = .ok f) :
    (s.start u0).1 = ((checkTime s.initialTime).map fun _ => q.values) ∧
      (s.start u0).2.solution = some q.values ∧
      (s.start u0).2.progress? = some ⟨s.initialTime, some q.values, some f, true⟩ := by
  obtain ⟨p, hp⟩ := Option.isSome_iff_exists.mp hp
  obtain ⟨-, p', hstarts, hscheme⟩ := s.start_spec hp u0
  rw [progress?, hscheme]
  generalize (s.start u0).1 = result at hstarts ⊢
  generalize (s.start u0).2.solution = solution at hstarts ⊢
  cases hstarts with
  | noVector h => exact absurd (h.symm.trans hv) (by simp)
  | noValues hv' h =>
    obtain rfl := Except.ok.inj (hv'.symm.trans hv)
    exact absurd (h.symm.trans hq) (by simp)
  | noForce _ _ h => exact absurd (h.symm.trans hf) (by simp)
  | recorded hv' hq' hf' =>
    obtain rfl := Except.ok.inj (hv'.symm.trans hv)
    obtain rfl := Except.ok.inj (hq'.symm.trans hq)
    obtain rfl := Except.ok.inj (hf'.symm.trans hf)
    exact ⟨rfl, rfl, rfl⟩

theorem start_eq_ok {u0 : Datum α} (h : (s.start u0).1 = .ok u) : ∃ v q f,
    s.progress?.isSome = true ∧ (s.initialVector u0).1 = .ok v ∧ s.initialValues v = .ok q ∧
      s.force.1 = .ok f ∧ checkTime s.initialTime = .ok () ∧ q.values = u := by
  cases hp : s.progress? with
  | none =>
    rw [start, hp] at h
    cases h
  | some p =>
  obtain ⟨-, p', hstarts, -⟩ := s.start_spec hp u0
  rw [h] at hstarts
  generalize hresult : (Except.ok u : Except (Error α) (Array α)) = result at hstarts
  generalize (s.start u0).2.solution = solution at hstarts
  cases hstarts with
  | noVector | noValues | noForce => cases hresult
  | @recorded v f q hv hq hf =>
    obtain ⟨⟨⟩, htime, hvalues⟩ := map_eq_ok.mp hresult.symm
    exact ⟨v, q, f, rfl, hv, hq, hf, htime, hvalues⟩

/-- A step that returns a vector has found all it needs, and it has recorded what it came to. -/
theorem advance_eq_ok (hp : s.progress? = some p) (h : s.advance.1 = .ok u) :
    ∃ c t time M K f, p.started = true ∧ s.step = .ok c ∧ Number.ofDatum p.time = .ok t ∧
      t.add c.dt = .ok time ∧ s.stepComponents.1 = .ok (M, K, f) ∧
      s.stepSolution c time M K f (p.force.getD #[]) (p.solution.getD #[]) = .ok u ∧
      checkTime time.toDatum = .ok () ∧ s.advance.2.solution = some u ∧
      s.advance.2.progress? = some ⟨time.toDatum, some u, some f, true⟩ := by
  obtain ⟨-, p', hadvances, hscheme⟩ := advance_spec hp
  have hprogress : s.advance.2.progress? = some p' := by rw [progress?, hscheme]
  rw [hprogress]
  generalize s.advance.1 = result at h hadvances
  generalize s.advance.2.solution = solution at hadvances
  cases hadvances with
  | refused => cases h
  | @recorded c t time M K v f hstarted hstep hold htime hcomponents hv =>
    obtain ⟨⟨⟩, hshown, rfl⟩ := map_eq_ok.mp h
    exact ⟨c, t, time, M, K, f, hstarted, hstep, hold, htime, hcomponents, hv, hshown, rfl, by rw [hstarted]⟩

/-- The progress is that of a call that returned the vector. A start from this vector at this time would
record it again. -/
structure Recorded (s : Simulation α) (u : Array α) (p : Progress α) (f : Array α) : Prop where
  progress_eq : s.progress? = some p
  solution_eq : s.solution = some u
  progress : p = ⟨p.time, some u, some f, true⟩
  force_eq : s.force.1 = .ok f
  time_eq : checkTime p.time = .ok ()
  in_place : ∃ q, Condition.applyAll s.mesh u s.conditions (timeArgument p.time) = .ok q ∧ q.values = u

theorem recorded_start {u0 : Datum α} (hm : s.mesh.WellFormed) (h : (s.start u0).1 = .ok u) :
    ∃ p f, (s.start u0).2.Recorded u p f := by
  obtain ⟨v, q, f, hp, hv, hq, hf, htime, rfl⟩ := start_eq_ok h
  obtain ⟨-, hsolution, hprogress⟩ := start_of_ok hp hv hq hf
  have hconsults := s.consults_start u0
  obtain ⟨q', hq', hvalues⟩ :=
    applyAll_of_agrees hm hq (sized_of_applyAll hm hq).values fun _ _ => rfl
  refine ⟨_, f, hprogress, hsolution, rfl, hconsults.force_fst.trans hf, htime, q', ?_, hvalues⟩
  rw [hconsults.mesh_eq, hconsults.conditions_eq]
  exact hq'

theorem recorded_advance (hm : s.mesh.WellFormed) (h : s.advance.1 = .ok u) :
    ∃ p f, s.advance.2.Recorded u p f := by
  cases hp : s.progress? with
  | none =>
    rw [advance, hp] at h
    cases h
  | some p =>
  obtain ⟨c, t, time, M, K, f, -, hstep, hold, htime, hcomponents, hv, hshown, hsolution, hprogress⟩ :=
    advance_eq_ok hp h
  have hconsults := s.consults_advance
  have hforce : s.force.1 = .ok f := by
    rw [stepComponents_fst] at hcomponents
    obtain ⟨_, _, hcomponents⟩ := bind_eq_ok.mp hcomponents
    obtain ⟨_, _, hcomponents⟩ := bind_eq_ok.mp hcomponents
    obtain ⟨g, hg, hcomponents⟩ := bind_eq_ok.mp hcomponents
    cases hcomponents
    exact hg
  -- the new time is a number, and so it is the argument that the values of the step had
  have hargument : timeArgument time.toDatum = some time.toDatum := by
    obtain ⟨-, _, -, -, hd⟩ := step_eq_ok hstep
    rcases add_cases hold hd htime with ⟨n, rfl⟩ | ⟨x, rfl⟩ <;> rfl
  unfold stepSolution at hv
  obtain ⟨A, _, hv⟩ := bind_eq_ok.mp hv
  obtain ⟨b, _, hv⟩ := bind_eq_ok.mp hv
  obtain ⟨zero, _, hv⟩ := bind_eq_ok.mp hv
  obtain ⟨q, hq, hv⟩ := bind_eq_ok.mp hv
  have hsize : u.size = s.mesh.dofs :=
    (Partition.size_of_solve hv).trans (sized_of_applyAll hm hq).values
  obtain ⟨q', hq', hvalues⟩ :=
    applyAll_of_agrees hm hq hsize fun _ hd => Partition.getD_solve_of_marked hv hd
  refine ⟨_, f, hprogress, hsolution, rfl, hconsults.force_fst.trans hforce, hshown, q', ?_, hvalues⟩
  rw [hconsults.mesh_eq, hconsults.conditions_eq, hargument]
  exact hq'

theorem recorded_run {u0 : Datum α} (hm : s.mesh.WellFormed) {k : ℕ} (h : (s.run u0 k).1 = .ok u) :
    ∃ p f, (s.run u0 k).2.Recorded u p f := by
  cases k with
  | zero => exact recorded_start hm h
  | succ k => exact recorded_advance ((s.consults_run u0 k).mesh_eq ▸ hm) h

/-- Data that hold the vector of a call may be given to a start on the same mesh. -/
theorem Recorded.initialVector_eq {f : Array α} (h : s.Recorded u p f) (hmesh : r.mesh = s.mesh) :
    (r.initialVector (.list (u.toList.map .real))).1 = .ok u := by
  obtain ⟨q, hq, -⟩ := h.in_place
  have hsize : u.size = r.mesh.dofs := hmesh ▸ (applyAll_eq_ok hq).1
  unfold initialVector
  dsimp only
  rw [Datum.toReals_list_real]
  simp [Tensor.ofArray, Except.bind, hsize]

end Recording

section Renewal

/-- A transient solver for the same problem that is to start at the given time. -/
structure Renews (r s : Simulation α) (time : Datum α) : Prop where
  transient : r.progress?.isSome = true
  mesh_eq : r.mesh = s.mesh
  conditions_eq : r.conditions = s.conditions
  theta_eq : r.settings.lookup "theta" = s.settings.lookup "theta"
  dt_eq : r.settings.lookup "dt" = s.settings.lookup "dt"
  time_eq : r.initialTime = time
  component_eq : ∀ which ∈ componentNames, (r.component which).1 = (s.component which).1

theorem force_of_component (h : (r.component "force").1 = (s.component "force").1) :
    r.force.1 = s.force.1 := by
  simp only [force, h]

/-- Started with the vector of a call, it is where the solver was after that call. -/
theorem Recorded.follows {f : Array α} {u1 : Datum α} (hs : s.Recorded u p f) (hr : r.Renews s p.time)
    (hu : (r.initialVector u1).1 = .ok u) : (r.start u1).1 = .ok u ∧ s.Follows (r.start u1).2 := by
  obtain ⟨q, hq, hvalues⟩ := hs.in_place
  have hinitial : r.initialValues u = .ok q := by
    rw [initialValues, hr.mesh_eq, hr.conditions_eq, hr.time_eq, hq]
  have hforce : r.force.1 = .ok f :=
    (force_of_component (hr.component_eq "force" (by decide))).trans hs.force_eq
  have hconsults := r.consults_start u1
  obtain ⟨hresult, hsolution, hprogress⟩ := start_of_ok hr.transient hu hinitial hforce
  rw [hr.time_eq, hvalues] at hresult hprogress
  rw [hvalues] at hsolution
  rw [hs.time_eq] at hresult
  refine ⟨hresult, ?_⟩
  exact {
    mesh_eq := hconsults.mesh_eq.trans hr.mesh_eq
    conditions_eq := hconsults.conditions_eq.trans hr.conditions_eq
    step_eq := hconsults.step_eq.trans (step_congr hr.theta_eq hr.dt_eq)
    component_eq := fun which hwhich => by rw [hconsults.component_fst, hr.component_eq which hwhich]
    progress_eq := by rw [hprogress, hs.progress_eq, ← hs.progress]
    solution_eq := hsolution.trans hs.solution_eq.symm }

/-- A solver that has only looked components up is renewed as it was at first. -/
theorem Renews.of_consults {time : Datum α} (hr : r.Renews s time) (h : s.Consults s') :
    r.Renews s' time where
  transient := hr.transient
  mesh_eq := hr.mesh_eq.trans h.mesh_eq.symm
  conditions_eq := hr.conditions_eq.trans h.conditions_eq.symm
  theta_eq := by rw [hr.theta_eq, h.settings_eq]
  dt_eq := by rw [hr.dt_eq, h.settings_eq]
  time_eq := hr.time_eq
  component_eq which hwhich := by rw [hr.component_eq which hwhich, h.component_fst]

/-- A solver with the components, the conditions and the formulation that there are, to start at a time. -/
def renewed (s : Simulation α) (time : Datum α) : Simulation α :=
  { s with
    settings := assign "t0" time s.settings
    solution := none
    scheme := .transient (.initial time) }

omit [Scalar α] in
theorem lookup_settings_renewed {name : String} (hname : name ≠ "t0") (s : Simulation α)
    (time : Datum α) : (s.renewed time).settings.lookup name = s.settings.lookup name := by
  rw [renewed, lookup_assign, if_neg (by simpa using hname)]

theorem component_renewed_fst {which : String} (hwhich : which ∈ componentNames) (s : Simulation α)
    (time : Datum α) : ((s.renewed time).component which).1 = (s.component which).1 := by
  obtain ⟨hname, hswitch⟩ : which ≠ "t0" ∧ "disable_" ++ which ≠ "t0" := by
    fin_cases hwhich <;> decide
  have hall : "disable_all" ≠ "t0" := by decide
  have hdisabled : (s.renewed time).isDisabled which = s.isDisabled which := by
    simp only [Solver.isDisabled, Solver.isOn, lookup_settings_renewed hswitch, lookup_settings_renewed hall]
  have hsource : (s.renewed time).source which = s.source which := by
    unfold source
    rw [lookup_settings_renewed hname]
    rfl
  rcases s.component_cases which with ⟨hoff, hzero⟩ | ⟨hon, hnew, hpresent⟩ | ⟨hon, c, hc, hkept⟩
  · rw [hzero, component_of_off (hdisabled.trans hoff)]
    rfl
  · rw [hpresent, (component_of_none (hdisabled.trans hon) hnew).1, present, present, hsource]
  · rw [hkept, component_of_some (hdisabled.trans hon) hc]

theorem setEach_renewed (s : Simulation α) (time : Datum α) (given : List (String × Datum α)) :
    (s.renewed time).setEach given = ((s.setEach given).1, (s.setEach given).2.renewed time) := by
  induction given generalizing s with
  | nil => rfl
  | cons g given ih =>
    obtain ⟨which, value⟩ := g
    have hset : (s.renewed time).setComponent which value =
        (s.setComponent which value).map fun s' => s'.renewed time := by
      unfold setComponent
      split_ifs
      · rfl
      · split
        · rfl
        · change (givenComponent s.mesh.dofs which value).map _ =
            ((givenComponent s.mesh.dofs which value).map _).map _
          cases givenComponent s.mesh.dofs which value <;> rfl
    unfold setEach
    rw [hset]
    cases s.setComponent which value with
    | error e => rfl
    | ok s' => exact ih s'

/-- It is what comes out when the solver is built anew with another initial time. -/
theorem make_renewed {m : Mesh α} {sys : Option (Formulation α)} {settings : Settings α}
    {given : List (String × Datum α)} (h : make m sys .transient settings given = .ok s)
    (time : Datum α) :
    make m sys .transient (assign "t0" time settings) given = .ok (s.renewed time) := by
  have ht0 : (assign "t0" time settings).lookup "t0" = some time := by simp [lookup_assign]
  let fresh : Simulation α :=
    ⟨⟨settings, [], [], none, .transient (.initial ((settings.lookup "t0").getD .null))⟩, m, sys⟩
  have hgiven : (fresh.renewed time).setComponents given =
      ((fresh.setComponents given).1, (fresh.setComponents given).2.renewed time) := by
    unfold setComponents
    cases Settings.checkNames ["self"] given with
    | error e => rfl
    | ok _ => exact fresh.setEach_renewed time given
  have hresult : fresh.setComponents given = (.ok (), s) := by
    unfold make at h
    dsimp only at h
    split at h
    · cases h
    · rename_i result hok
      split_ifs at h
      cases h
      exact hok
  unfold make
  simp only [ht0, Option.getD_some, Option.isNone_some, Bool.false_eq_true, and_false, if_false]
  rw [hresult] at hgiven
  split
  · rename_i hfails
    exact absurd (hfails.symm.trans hgiven) (by simp)
  · rename_i hok
    exact congrArg Except.ok (Prod.ext_iff.mp (hok.symm.trans hgiven)).2

/-- Such a solver renews one that may have looked components up since. -/
theorem renews_renewed (s : Simulation α) (time : Datum α) : (s.renewed time).Renews s time where
  transient := rfl
  mesh_eq := rfl
  conditions_eq := rfl
  theta_eq := lookup_settings_renewed (by decide) s time
  dt_eq := lookup_settings_renewed (by decide) s time
  time_eq := by simp [initialTime, renewed, lookup_assign]
  component_eq _ hwhich := component_renewed_fst hwhich s time

end Renewal

section Names

/-- What stands under a name of the formulation, if there is one. -/
def named (s : Simulation α) (name : Datum α) : Option (Except (Error α) (Source α)) :=
  s.formulation.map fun sys => sys.present s.mesh name

theorem named_component (s : Simulation α) (which : String) (name : Datum α) :
    (s.component which).2.named name = s.named name := by
  have hkept := s.keeps_component which
  rcases s.formulation_component which with hsys | ⟨sys, looked, hsys, hobtained⟩
  · rw [named, named, hsys, hkept.mesh_eq]
  · rw [named, named, hobtained, hsys, hkept.mesh_eq]
    exact congrArg some (sys.present_obtain s.mesh looked name)

theorem named_stepComponents (s : Simulation α) (name : Datum α) :
    s.stepComponents.2.named name = s.named name := by
  have hmass : (s.matrix "mass").2.named name = s.named name := s.named_component "mass" name
  unfold stepComponents
  generalize s.matrix "mass" = mass at hmass ⊢
  obtain ⟨M | M, s₁⟩ := mass
  · exact hmass
  dsimp only at hmass ⊢
  have hstiffness := (s₁.named_component "stiffness" name).trans hmass
  change (s₁.matrix "stiffness").2.named name = _ at hstiffness
  generalize s₁.matrix "stiffness" = stiffness at hstiffness ⊢
  obtain ⟨K | K, s₂⟩ := stiffness
  · exact hstiffness
  dsimp only at hstiffness ⊢
  have hforce := (s₂.named_component "force" name).trans hstiffness
  change s₂.force.2.named name = _ at hforce
  generalize s₂.force = force at hforce ⊢
  obtain ⟨f | f, s₃⟩ := force <;> exact hforce

theorem named_initialVector (s : Simulation α) (u0 name : Datum α) :
    (s.initialVector u0).2.named name = s.named name := by
  unfold initialVector
  split
  · cases hsys : s.formulation with
    | none => rfl
    | some sys =>
      dsimp only
      rw [named, named, hsys]
      exact congrArg some (sys.present_obtain s.mesh _ name)
  · rfl

theorem named_start (s : Simulation α) (u0 name : Datum α) :
    (s.start u0).2.named name = s.named name := by
  have hvector := s.named_initialVector u0 name
  unfold start
  cases s.progress? with
  | none => rfl
  | some p =>
  dsimp only
  generalize s.initialVector u0 = vector at hvector ⊢
  obtain ⟨e | v, s₁⟩ := vector
  · exact hvector
  simp only [force_withProgress]
  cases Condition.applyAll s₁.mesh v s₁.conditions (timeArgument ((s₁.settings.lookup "t0").getD .null)) with
  | error e => exact hvector
  | ok q =>
  have hforce := (s₁.named_component "force" name).trans hvector
  change s₁.force.2.named name = _ at hforce
  dsimp only
  generalize s₁.force = force at hforce ⊢
  obtain ⟨e | f, s₂⟩ := force <;> exact hforce

theorem named_advance (s : Simulation α) (name : Datum α) : s.advance.2.named name = s.named name := by
  have hcomponents := s.named_stepComponents name
  unfold advance
  cases s.progress? with
  | none => rfl
  | some p =>
  dsimp only
  split_ifs
  · rfl
  cases s.step with
  | error e => rfl
  | ok c =>
  dsimp only
  generalize s.stepComponents = components at hcomponents ⊢
  obtain ⟨e | ⟨M, K, f⟩, s₁⟩ := components
  · exact hcomponents
  dsimp only
  cases (Number.ofDatum p.time).bind fun t => t.add c.dt with
  | error e => exact hcomponents
  | ok time =>
  dsimp only
  cases s₁.stepSolution c time M K f (p.force.getD #[]) (p.solution.getD #[]) <;> exact hcomponents

theorem named_run (s : Simulation α) (u0 : Datum α) (k : ℕ) (name : Datum α) :
    (s.run u0 k).2.named name = s.named name := by
  induction k with
  | zero => exact s.named_start u0 name
  | succ k ih => exact ((s.run u0 k).2.named_advance name).trans ih

/-- An initial vector is given, or it is what stands under its name. -/
theorem initialVector_fst_congr (hmesh : s'.mesh = s.mesh) (hnamed : ∀ name, s'.named name = s.named name)
    (u0 : Datum α) : (s'.initialVector u0).1 = (s.initialVector u0).1 := by
  unfold initialVector
  cases u0 with
  | text name =>
    have hname := hnamed (.text name)
    unfold named at hname
    cases hsys : s.formulation with
    | none =>
      rw [hsys] at hname
      rw [Option.map_eq_none_iff.mp hname]
    | some sys =>
      rw [hsys] at hname
      obtain ⟨sys', hsys', hpresent⟩ := Option.map_eq_some_iff.mp hname
      rw [hmesh] at hpresent
      rw [hsys']
      simp only [Formulation.obtain_fst, hmesh, hpresent]
  | null | flag b | integer n | real x | list items | map entries => simp only [hmesh]

end Names

section Restarts

/-- Starting a solver again with what it was started with puts it where it was after that start. -/
theorem start_again {u0 : Datum α} (h : (s.start u0).1 = .ok u) (k : ℕ) :
    ((s.run u0 k).2.start u0).1 = .ok u ∧ (s.start u0).2.Follows ((s.run u0 k).2.start u0).2 := by
  obtain ⟨v, q, f, hp, hv, hq, hf, htime, rfl⟩ := start_eq_ok h
  have hrun := s.consults_run u0 k
  have hp' := isSome_progress?_run hp u0 k
  have hnamed := s.named_run u0 k
  generalize (s.run u0 k).2 = r at hrun hp' hnamed ⊢
  have hv' : (r.initialVector u0).1 = .ok v :=
    (initialVector_fst_congr hrun.mesh_eq hnamed u0).trans hv
  have htime' : r.initialTime = s.initialTime := by rw [initialTime, initialTime, hrun.settings_eq]
  have hq' : r.initialValues v = .ok q := by
    rw [initialValues, hrun.mesh_eq, hrun.conditions_eq, htime']
    exact hq
  obtain ⟨-, hsolution, hprogress⟩ := start_of_ok hp hv hq hf
  obtain ⟨hresult', hsolution', hprogress'⟩ := start_of_ok hp' hv' hq' (hrun.force_fst.trans hf)
  have hs := s.consults_start u0
  have hr := r.consults_start u0
  refine ⟨by rw [hresult', htime', htime]; rfl, ?_⟩
  exact {
    mesh_eq := by rw [hr.mesh_eq, hs.mesh_eq, hrun.mesh_eq]
    conditions_eq := by rw [hr.conditions_eq, hs.conditions_eq, hrun.conditions_eq]
    step_eq := by rw [hr.step_eq, hs.step_eq, hrun.step_eq]
    component_eq := fun which _ => by rw [hr.component_fst, hs.component_fst, hrun.component_fst]
    progress_eq := by rw [hprogress, hprogress', htime']
    solution_eq := hsolution'.trans hsolution.symm }

/-- A run that is broken off after any call goes on alike from a new solver for the same problem that is
started at the time that has been reached with the vector that has been reached; and a solver that is started
again, after any number of steps, repeats its run. -/
theorem run_restart (hm : s.mesh.Reachable) (u0 : Datum α) (m : ℕ) :
    (∀ u p, (s.run u0 m).1 = .ok u → (s.run u0 m).2.progress? = some p →
      ∀ r u1, Renews r s p.time → (r.initialVector u1).1 = .ok u →
        ∀ k, EndsLike (r.run u1 k) (s.run u0 (m + k))) ∧
    ((∃ u, (s.start u0).1 = .ok u) → ∀ k, EndsLike ((s.run u0 m).2.run u0 k) (s.run u0 k)) := by
  refine ⟨fun u p hreached hprogress r u1 hr hu1 k => ?_, fun ⟨u, hstart⟩ k => ?_⟩
  · obtain ⟨p', f, hrecorded⟩ := recorded_run hm.wellFormed hreached
    obtain rfl := Option.some.inj (hprogress.symm.trans hrecorded.progress_eq)
    obtain ⟨hresult, hfollows⟩ := hrecorded.follows (hr.of_consults (s.consults_run u0 m)) hu1
    have hrun := (endsLike_run (n := 0) (hresult.trans hreached.symm) hfollows k).1
    rwa [zero_add] at hrun
  · obtain ⟨hresult, hfollows⟩ := start_again hstart m
    have hrun := (endsLike_run (s := s) (r := (s.run u0 m).2) (m := 0) (n := 0)
      (hresult.trans hstart.symm) hfollows k).1
    rwa [zero_add] at hrun

/-- A solver on the line whose left end moves with the time. -/
noncomputable def drivenSolver : Simulation Float :=
  { (lineSolver none 0).perform [.give [("mass", diagonal 1), ("stiffness", diagonal 1),
      ("force", .list [.integer 1, .integer 1])]] with
    mesh := (doubleLine.addBoundary (.number 1) [.location "left"] true).2
    conditions := [⟨some (.number 1), .field (.polynomial [⟨.integer 1, [.integer 0, .integer 1]⟩]),
      .null⟩] }

theorem reachable_drivenSolver : drivenSolver.mesh.Reachable := by
  have hline : doubleLine.Reachable :=
    .step (Mesh.reachable_ofLists _ (by simp) (by simp [Family.nodeCount])) (.freeze _)
  exact hline.step (.addBoundary _ _ _ _)

/-- After one step from (0, 2) the solver is at the time 1 with (1, 1.5), and it goes on to (2, 1.25). -/
theorem run_restart_drivenSolver : ∃ u p,
    (drivenSolver.run (.list [.integer 0, .integer 2]) 1).1 = .ok u ∧ u = #[1, 1.5] ∧
      (drivenSolver.run (.list [.integer 0, .integer 2]) 1).2.progress? = some p ∧
      EndsLike ((drivenSolver.renewed p.time).run (.list (u.toList.map .real)) 1)
        (drivenSolver.run (.list [.integer 0, .integer 2]) 2) ∧
      EndsLike ((drivenSolver.run (.list [.integer 0, .integer 2]) 1).2.run
        (.list [.integer 0, .integer 2]) 2) (drivenSolver.run (.list [.integer 0, .integer 2]) 2) ∧
      (drivenSolver.run (.list [.integer 0, .integer 2]) 2).2.solution = some #[2, 1.25] := by
  have hstart : (drivenSolver.start (.list [.integer 0, .integer 2])).1.toBool = true := by decide +kernel
  have hstep : (drivenSolver.run (.list [.integer 0, .integer 2]) 1).1.toOption = some #[1, 1.5] := by
    decide +kernel
  obtain ⟨u₀, hstart⟩ := exists_of_toBool hstart
  generalize hu : (drivenSolver.run (.list [.integer 0, .integer 2]) 1).1 = result at hstep ⊢
  obtain e | u := result
  · cases hstep
  · obtain rfl : u = #[1, 1.5] := Option.some.inj hstep
    obtain ⟨p, f, hrecorded⟩ := recorded_run reachable_drivenSolver.wellFormed hu
    obtain ⟨hrestart, hagain⟩ := run_restart reachable_drivenSolver (.list [.integer 0, .integer 2]) 1
    exact ⟨_, p, rfl, rfl, hrecorded.progress_eq,
      hrestart _ p hu hrecorded.progress_eq _ _ (renews_renewed _ _)
        (hrecorded.initialVector_eq (drivenSolver.consults_run _ 1).mesh_eq.symm) 1,
      hagain ⟨_, hstart⟩ 2, by decide +kernel⟩

end Restarts
end Simulation
end WeakForm
