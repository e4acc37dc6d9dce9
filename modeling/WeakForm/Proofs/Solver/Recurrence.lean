import WeakForm.Proofs.Mesh.Numbering
import WeakForm.Proofs.Solver.Restart
import WeakForm.Proofs.Solver.Steady

/-!
# The recurrence of the theta scheme

Between two steps settings, components, conditions and the formulation may change. A step takes all of these as
they are at its own call, but the old time, the old vector and the old force are those that the last call
recorded that returned a vector. Only a start that fails on its way comes in between: it has recorded a part of
what it came to.
-/

namespace WeakForm
namespace Simulation

open Condition Matrix WeakForm.Partition

section Steps

variable {s : Simulation ℝ} {p : Progress ℝ} {x : Array ℝ}

/-- The weight and the length of a step are those among the settings. -/
theorem number?_of_step {c : Step ℝ} (h : s.step = .ok c) :
    (s.number? "theta" = some c.theta.value ∧ 0 ≤ c.theta.value ∧ c.theta.value ≤ 1) ∧
      c.dt.IsReal ∧ s.number? "dt" = some c.dt.value ∧ 0 < c.dt.value := by
  obtain ⟨⟨a, ha, hnonneg, hle, htheta⟩, b, hb, hpos, hdt⟩ := step_eq_ok h
  obtain ⟨-, hthetaValue⟩ := Number.number?_of_ofDatum htheta
  obtain ⟨hreal, hdtValue⟩ := Number.number?_of_ofDatum hdt
  obtain rfl := Option.some.inj (ha.symm.trans hthetaValue)
  obtain rfl := Option.some.inj (hb.symm.trans hdtValue)
  exact ⟨⟨number?_eq_some.mpr ha, of_decide_eq_true hnonneg, of_decide_eq_true hle⟩, hreal,
    number?_eq_some.mpr hb, of_decide_eq_true hpos⟩

/-- From one record to the next the solver takes a step of the scheme. The time advances by the length of the
step. If the matrices are real and the system is regular, the new vector has the values that are prescribed at
the new time, and elsewhere it satisfies the equation of the scheme. -/
def Recurs (s : Simulation ℝ) (p q : Progress ℝ) : Prop :=
  ∃ t theta dt, p.time.number? = some t ∧ s.number? "theta" = some theta ∧ s.number? "dt" = some dt ∧
    0 ≤ theta ∧ theta ≤ 1 ∧ 0 < dt ∧ q.time.number? = some (t + dt) ∧
    let essential (i : Fin s.mesh.dofs) := IsEssential s.mesh s.conditions i
    ∀ {A B : NumberMatrix ℝ} {M K : Matrix (Fin s.mesh.dofs) (Fin s.mesh.dofs) ℝ}
      {u f g : Fin s.mesh.dofs → ℝ}, s.stepComponents.1 = .ok (A, B, Array.ofFn g) → A.Represents M →
      B.Represents K → p.solution = some (Array.ofFn u) → p.force = some (Array.ofFn f) →
      IsRegular (M + (theta * dt) • K) essential →
      ∃ v, q.solution = some (Array.ofFn v) ∧ q.force = some (Array.ofFn g) ∧
        IsSolution (M + (theta * dt) • K)
          (dt • (theta • g + (1 - theta) • f) + (M - ((1 - theta) * dt) • K) *ᵥ u)
          (fun i => prescribedValue s.mesh (some q.time) s.conditions i) essential v

/-- A step that returns a vector is one of the scheme. -/
theorem recurs_of_advance (hm : s.mesh.Reachable) (hp : s.progress? = some p) (h : s.advance.1 = .ok x) :
    ∃ q, s.advance.2.progress? = some q ∧ s.Recurs p q := by
  obtain ⟨c, t, time, _, _, _, hstarted, hstep, hold, htime, -, hx, -, -, hprogress⟩ := advance_eq_ok hp h
  refine ⟨_, hprogress, ?_⟩
  obtain ⟨⟨htheta, hnonneg, hle⟩, hdtReal, hdt, hpos⟩ := number?_of_step hstep
  obtain ⟨holdReal, holdValue⟩ := Number.number?_of_ofDatum hold
  obtain ⟨sum, hsum, hnumeric, hvalue⟩ := Number.yields_add holdReal hdtReal
  obtain rfl := Except.ok.inj (htime.symm.trans hsum)
  refine ⟨t.value, _, _, holdValue, htheta, hdt, hnonneg, hle, hpos,
    (Number.number?_toDatum hnumeric).trans (congrArg some hvalue), ?_⟩
  intro essential A B M K u f g hcomponents hA hB hu hf hregular
  -- the conditions have been applied at the new time, and so they have their values
  unfold stepSolution at hx
  obtain ⟨_, _, hx⟩ := bind_eq_ok.mp hx
  obtain ⟨_, _, hx⟩ := bind_eq_ok.mp hx
  obtain ⟨zero, _, hx⟩ := bind_eq_ok.mp hx
  obtain ⟨r, hr, -⟩ := bind_eq_ok.mp hx
  obtain ⟨-, marks, hmarks, -, happlied⟩ := applyAll_eq_ok hr
  let e : StepData s.mesh.dofs := ⟨c.theta.value, c.dt.value, M, K, g,
    fun i => prescribedValue s.mesh (some time.toDatum) s.conditions i⟩
  have hsteps : s.StepsWith s.mesh essential e := {
    mesh_eq := rfl
    essential_iff := fun _ => Iff.rfl
    theta := htheta
    dt := hdt
    components := ⟨A, B, hcomponents, hA, hB⟩
    values := nextTime_eq hp hstep hold htime ▸ ⟨applicable_of_foldlM happlied, fun _ _ => rfl⟩ }
  obtain ⟨v, s', hadvance, ⟨q, hq, -, -, hqu, hqf⟩, hv⟩ := hsteps.advance_eq hm
    (Mesh.getDof_eq_ok.mp hmarks).1 ⟨hnonneg, hle, hpos, hregular⟩ ⟨p, hp, hstarted, holdValue, hu, hf⟩
  rw [hadvance] at hprogress
  obtain rfl := Option.some.inj (hq.symm.trans hprogress)
  exact ⟨v, hqu, hqf, hv⟩

end Steps

section Calls

variable {α : Type} [Scalar α] {s : Simulation α} {p : Progress α} {call : Call α} {calls : List (Call α)}
  {u : Array α}

/-- The call tags nothing on the mesh. -/
def Call.KeepsMesh : Call α → Prop
  | boundary _ _ _ | subdomain _ _ => False
  | _ => True

theorem Call.KeepsMesh.mesh_run (h : call.KeepsMesh) (s : Simulation α) : (call.run s).mesh = s.mesh := by
  cases call with
  | boundary | subdomain => cases h
  | formulation | set => rfl
  | give given =>
    obtain ⟨components, hgiven⟩ := s.exists_setComponents_eq given
    rw [Call.run, hgiven]
  | prescribe condition =>
    change ((s.addCondition condition).toOption.getD s).mesh = s.mesh
    cases hadd : s.addCondition condition with
    | error e => rfl
    | ok s' =>
      obtain ⟨ids, -, rfl⟩ := map_eq_ok.mp hadd
      rfl
  | look which => exact (s.consults_component which).mesh_eq
  | start u0 => exact (s.consults_start u0).mesh_eq
  | solve => exact s.consults_solve.mesh_eq

theorem mesh_perform (h : ∀ call ∈ calls, call.KeepsMesh) : (s.perform calls).mesh = s.mesh := by
  induction calls using List.reverseRecOn with
  | nil => rfl
  | append_singleton calls call ih =>
    rw [perform_concat, (h call (by simp)).mesh_run, ih fun c hc => h c (by simp [hc])]

/-- The call is a start or a step, and it returns the vector. -/
inductive Returns (s : Simulation α) (u : Array α) : Call α → Prop
  | start {u0 : Datum α} (h : (s.start u0).1 = .ok u) : Returns s u (.start u0)
  | solve (h : s.solve.1 = .ok u) : Returns s u .solve

/-- The vector that the last call returned that returned any, and the solver right after this call. -/
inductive LastReturn (s : Simulation α) : List (Call α) → Array α → Simulation α → Prop
  | here {calls : List (Call α)} {call : Call α} {u : Array α} (h : (s.perform calls).Returns u call) :
      LastReturn s (calls ++ [call]) u (s.perform (calls ++ [call]))
  | earlier {calls : List (Call α)} {call : Call α} {u : Array α} {r : Simulation α}
      (h : LastReturn s calls u r) (hnone : ∀ v, ¬ (s.perform calls).Returns v call) :
      LastReturn s (calls ++ [call]) u r

/-- A start among the calls that fails does so before it has its initial vector. -/
def StartsWhole (s : Simulation α) (calls : List (Call α)) : Prop :=
  ∀ before u0 after, calls = before ++ .start u0 :: after →
    (∃ u, ((s.perform before).start u0).1 = .ok u) ∨
      ∃ e, ((s.perform before).initialVector u0).1 = .error e

theorem Returns.recorded (h : s.Returns u call) (hm : s.mesh.WellFormed) (hp : s.progress? = some p) :
    ∃ q f, (call.run s).Recorded u q f := by
  cases h with
  | start h => exact recorded_start hm h
  | solve h =>
    rw [solve_of_progress? hp] at h
    rw [Call.run, solve_of_progress? hp]
    exact recorded_advance hm h

end Calls

section Runs

variable {s : Simulation ℝ} {p p₀ : Progress ℝ} {call : Call ℝ} {calls : List (Call ℝ)} {x : Array ℝ}

/-- A call that returns no vector records nothing, unless it is a start that fails on its way. -/
theorem progress?_of_not_returns (hp : s.progress? = some p) (hnone : ∀ u, ¬ s.Returns u call)
    (hstart : ∀ u0, call = .start u0 → ∃ e, (s.initialVector u0).1 = .error e) :
    (call.run s).progress? = some p := by
  have hsame {r : Simulation ℝ} (h : r.scheme = s.scheme) : r.progress? = some p := by
    rw [progress?, h, scheme_of_progress? hp]
  cases call with
  | formulation | boundary | subdomain => exact hp
  | give given => exact hsame (s.scheme_setComponents given)
  | prescribe condition =>
    change ((s.addCondition condition).toOption.getD s).progress? = some p
    cases hadd : s.addCondition condition with
    | error e => exact hp
    | ok s' =>
      obtain ⟨ids, -, rfl⟩ := map_eq_ok.mp hadd
      exact hp
  | set setting value =>
    refine hsame ?_
    change ((s.toSolver.set setting value).toOption.getD s.toSolver).scheme = s.scheme
    cases hset : s.toSolver.set setting value with
    | error e => rfl
    | ok r => exact scheme_set hset
  | look which => exact hsame (s.keeps_component which).scheme_eq
  | start u0 =>
    obtain ⟨e, he⟩ := hstart u0 rfl
    obtain ⟨-, q, hstarts, hscheme⟩ := s.start_spec hp u0
    have hq : q = p := by
      generalize (s.start u0).1 = result at hstarts
      generalize (s.start u0).2.solution = solution at hstarts
      cases hstarts with
      | noVector => rfl
      | noValues hu | noForce hu | recorded hu =>
        rw [hu] at he
        cases he
    change (s.start u0).2.progress? = some p
    rw [progress?, hscheme, hq]
  | solve =>
    change s.solve.2.progress? = some p
    cases hsolve : s.solve with
    | mk result s' =>
    cases result with
    | ok u => exact absurd (.solve (by rw [hsolve])) (hnone u)
    | error e =>
      rw [solve_of_progress? hp] at hsolve
      obtain ⟨-, ⟨-, hscheme⟩ | ⟨-, q, c, t, n, u, f, -, -, -, -, hn, -⟩⟩ := advance_of_error hsolve
      · exact hsame hscheme
      · -- every whole number is a real one
        cases hn

/-- The record of a solver that has been started is that of the last call that returned a vector. -/
theorem exists_lastReturn (hm : s.mesh.WellFormed) (hp₀ : s.progress? = some p₀)
    (hfresh : p₀.started = false) (hmesh : ∀ call ∈ calls, call.KeepsMesh) (hwhole : s.StartsWhole calls) :
    ∃ p, (s.perform calls).progress? = some p ∧
      (p.started = true → ∃ u r f, s.LastReturn calls u r ∧ r.Recorded u p f) := by
  induction calls using List.reverseRecOn with
  | nil => exact ⟨p₀, hp₀, fun h => absurd (hfresh.symm.trans h) Bool.false_ne_true⟩
  | append_singleton calls call ih =>
    have hold : ∀ c ∈ calls, c.KeepsMesh := fun c hc => hmesh c (List.mem_append_left _ hc)
    obtain ⟨p, hp, hlast⟩ := ih hold fun before u0 after hcalls =>
      hwhole before u0 (after ++ [call]) (by simp [hcalls])
    by_cases hreturns : ∃ u, (s.perform calls).Returns u call
    · obtain ⟨u, hu⟩ := hreturns
      have hformed : (s.perform calls).mesh.WellFormed := by rwa [mesh_perform hold]
      obtain ⟨q, f, hrecorded⟩ := hu.recorded hformed hp
      rw [← perform_concat] at hrecorded
      exact ⟨q, hrecorded.progress_eq, fun _ => ⟨u, _, f, .here hu, hrecorded⟩⟩
    · have hnone (u : Array ℝ) : ¬ (s.perform calls).Returns u call := fun h => hreturns ⟨u, h⟩
      have hstart (u0 : Datum ℝ) (hcall : call = .start u0) :
          ∃ e, ((s.perform calls).initialVector u0).1 = .error e := by
        subst hcall
        rcases hwhole calls u0 [] rfl with ⟨u, hu⟩ | hfails
        · exact absurd (.start hu) (hnone u)
        · exact hfails
      refine ⟨p, ?_, fun hstarted => ?_⟩
      · rw [perform_concat]
        exact progress?_of_not_returns hp hnone hstart
      · obtain ⟨u, r, f, hr, hrecorded⟩ := hlast hstarted
        exact ⟨u, r, f, hr.earlier hnone, hrecorded⟩

/-- After any calls on a new solver that leave its mesh alone, and of which no start fails on its way, a step
that returns a vector follows the scheme from what the last call recorded that returned a vector, and it
records its own time, vector and force for the next one. -/
theorem recurs_after_calls (hm : s.mesh.Reachable) (hp₀ : s.progress? = some p₀)
    (hfresh : p₀.started = false) (hmesh : ∀ call ∈ calls, call.KeepsMesh) (hwhole : s.StartsWhole calls)
    (h : (s.perform calls).solve.1 = .ok x) :
    ∃ u r p f q g, s.LastReturn calls u r ∧ r.Recorded u p f ∧ (s.perform calls).Recurs p q ∧
      (s.perform calls).solve.2.Recorded x q g := by
  obtain ⟨p, hp, hlast⟩ := exists_lastReturn hm.wellFormed hp₀ hfresh hmesh hwhole
  have hreachable : (s.perform calls).mesh.Reachable := by rwa [mesh_perform hmesh]
  rw [solve_of_progress? hp] at h ⊢
  obtain ⟨_, _, _, _, _, _, hstarted, -⟩ := advance_eq_ok hp h
  obtain ⟨u, r, f, hr, hrecorded⟩ := hlast hstarted
  obtain ⟨q, hq, hrecurs⟩ := recurs_of_advance hreachable hp h
  obtain ⟨q', g, hnew⟩ := recorded_advance hreachable.wellFormed h
  obtain rfl := Option.some.inj (hq.symm.trans hnew.progress_eq)
  exact ⟨u, r, p, f, q, g, hr, hrecorded, hrecurs, hnew⟩

/-- A point that is held in one direction and loaded in the other one. -/
noncomputable def loadedPoint : Simulation ℝ :=
  given doublePoint [firstIs 3] 0 1 2 (.ofMatrix (1 : Matrix (Fin 2) (Fin 2) ℝ))
    (.ofMatrix (0 : Matrix (Fin 2) (Fin 2) ℝ)) ![0, 1] (.transient (.initial .null))

theorem recurs_after_start_of_loadedPoint : ∃ u0 x u r p f q g,
    (loadedPoint.perform [.start u0]).solve.1 = .ok x ∧ loadedPoint.LastReturn [.start u0] u r ∧
      r.Recorded u p f ∧ (loadedPoint.perform [.start u0]).Recurs p q ∧
      (loadedPoint.perform [.start u0]).solve.2.Recorded x q g := by
  let d : StartData doublePoint.dofs := ⟨0, ![7, 2], ![0, 1], ![3, 0]⟩
  let e : StepData doublePoint.dofs := ⟨1, 2, (1 : Matrix (Fin 2) (Fin 2) ℝ),
    (0 : Matrix (Fin 2) (Fin 2) ℝ), ![0, 1], ![3, 0]⟩
  let u0 : Datum ℝ := .list ((List.ofFn d.initial).map .real)
  have hprescribe (time : Option (Datum ℝ)) : Prescribe doublePoint time [firstIs 3] d.values :=
    prescribe_firstIs time rfl
  have hstarts : loadedPoint.StartsWith u0 doublePoint (fun i : Fin 2 => i = 0) d :=
    given_startsWith (isEssential_firstIs 3) hprescribe 1 2
  obtain ⟨s, hstart, hremembers⟩ := hstarts.start_eq reachable_doublePoint rfl
  have hs : loadedPoint.perform [.start u0] = s := congrArg Prod.snd hstart
  have hconsults : loadedPoint.Consults s := hs ▸ loadedPoint.consults_start u0
  have hsteps : s.StepsWith doublePoint (fun i : Fin 2 => i = 0) e := {
    mesh_eq := hconsults.mesh_eq
    essential_iff := by
      rw [hconsults.conditions_eq]
      exact isEssential_firstIs 3
    theta := by
      rw [Solver.number?, hconsults.settings_eq]
      rfl
    dt := by
      rw [Solver.number?, hconsults.settings_eq]
      rfl
    components := by
      refine ⟨_, _, ?_, NumberMatrix.represents_ofMatrix _, NumberMatrix.represents_ofMatrix _⟩
      simp only [stepComponents_fst, matrix, force, hconsults.component_fst]
      rfl
    values := by
      rw [hconsults.conditions_eq]
      exact hprescribe _ }
  have hregular : IsRegular ((1 : Matrix (Fin 2) (Fin 2) ℝ) + ((1 : ℝ) * 2) • 0) fun i => i = 0 :=
    isRegular_of_apply_ne_zero (by simp)
  obtain ⟨v, s', hadvance, -, -⟩ := hsteps.advance_eq reachable_doublePoint rfl
    ⟨zero_le_one, le_rfl, two_pos, hregular⟩ hremembers
  obtain ⟨p, hp, -⟩ := hremembers
  have hsolve : (loadedPoint.perform [.start u0]).solve.1 = .ok (Array.ofFn v) := by
    rw [hs, solve_of_progress? hp, hadvance]
  have hwhole : loadedPoint.StartsWhole [.start u0] := by
    intro before u1 after hcalls
    cases before with
    | nil =>
      cases hcalls
      exact .inl ⟨_, congrArg Prod.fst hstart⟩
    | cons call before => simp at hcalls
  obtain ⟨u, r, p, f, q, g, h⟩ := recurs_after_calls reachable_doublePoint rfl rfl
    (by simp [Call.KeepsMesh]) hwhole hsolve
  exact ⟨u0, _, u, r, p, f, q, g, hsolve, h⟩

/-- A solver is started at the time zero. It is to be started again at the time five, but there is no force, and
so this fails. Then it gets the force. -/
def brokenRestart : List (Call Float) :=
  [.give [("mass", diagonal 1), ("stiffness", diagonal 0), ("force", .list [.integer 0, .integer 0])],
    .start (.list [.integer 1, .integer 2]), .set "t0" (.integer 5), .give [("force", .null)],
    .start (.list [.integer 7, .integer 7]), .give [("force", .list [.integer 0, .integer 0])]]

/-- The next step does not go on from the start at the time zero, the only one that returned a vector, but
from the other one. -/
theorem brokenRestart_misleads_step : ∃ r, (lineSolver none 0).LastReturn brokenRestart #[1, 2] r ∧
    r.progress?.bind (fun p => p.time.number?) = some 0 ∧
    ((lineSolver none 0).perform brokenRestart).solve.1.toOption = some #[7, 7] ∧
    ((lineSolver none 0).perform brokenRestart).solve.2.progress?.bind (fun p => p.time.number?) =
      some 6 := by
  have hreturns : (((lineSolver none 0).perform (brokenRestart.take 1)).start
      (.list [.integer 1, .integer 2])).1.toOption = some #[1, 2] := by decide +kernel
  have hfails : (((lineSolver none 0).perform (brokenRestart.take 4)).start
      (.list [.integer 7, .integer 7])).1.toOption = none := by decide +kernel
  have hstart (u : Array Float) : ¬ ((lineSolver none 0).perform (brokenRestart.take 4)).Returns u
      (.start (.list [.integer 7, .integer 7])) := by
    rintro ⟨h⟩
    rw [h] at hfails
    cases hfails
  have hgive (s : Simulation Float) (given : List (String × Datum Float)) (u : Array Float) :
      ¬ s.Returns u (.give given) := nofun
  have hset (s : Simulation Float) (setting : String) (value : Datum Float) (u : Array Float) :
      ¬ s.Returns u (.set setting value) := nofun
  have hlast := LastReturn.here (.start (toOption_eq_some.mp hreturns))
  exact ⟨_, (((hlast.earlier (hset _ _ _)).earlier (hgive _ _)).earlier hstart).earlier (hgive _ _),
    by decide +kernel, by decide +kernel, by decide +kernel⟩

end Runs

end Simulation
end WeakForm
