import WeakForm.Proofs.Mesh.Reachable
import WeakForm.Proofs.Solver.Lookups

/-!
# Starts and steps that fail

Whatever becomes of a start or of a step, the settings, the conditions and the mesh stay as they are, and so
does every component that is there. A step records nothing before all of its results are there. A start
records each of its results at once: one that fails has recorded what it came to.
-/

namespace WeakForm

theorem map_eq_error {ε β γ : Type} {x : Except ε β} {f : β → γ} {e : ε} :
    x.map f = .error e ↔ x = .error e := by
  cases x <;> simp [Except.map]

namespace Simulation

variable {α : Type} [Scalar α] {s s' : Simulation α} {p : Progress α} {u0 : Datum α} {e : Error α}

omit [Scalar α] in
theorem scheme_of_progress? (h : s.progress? = some p) : s.scheme = .transient p := by
  unfold progress? at h
  split at h
  · rename_i hscheme
    rw [hscheme, Option.some.inj h]
  · cases h

section Starts

/-- The time at which a start sets in. -/
def initialTime (s : Simulation α) : Datum α := (s.settings.lookup "t0").getD .null

/-- The initial vector with the values that are prescribed at the initial time. -/
def initialValues (s : Simulation α) (u : Array α) : Except (Error α) (Condition.Prescribed α) :=
  Condition.applyAll s.mesh u s.conditions (timeArgument s.initialTime)

/-- What a start returns, and the solution and the progress that it leaves. -/
inductive Starts (s : Simulation α) (u0 : Datum α) (p : Progress α) :
    Except (Error α) (Array α) → Option (Array α) → Progress α → Prop
  | noVector {e : Error α} (h : (s.initialVector u0).1 = .error e) :
      Starts s u0 p (.error e) s.solution p
  | noValues {u : Array α} {e : Error α} (hu : (s.initialVector u0).1 = .ok u)
      (h : s.initialValues u = .error e) :
      Starts s u0 p (.error e) s.solution { p with time := s.initialTime }
  | noForce {u : Array α} {q : Condition.Prescribed α} {e : Error α} (hu : (s.initialVector u0).1 = .ok u)
      (hq : s.initialValues u = .ok q) (h : s.force.1 = .error e) :
      Starts s u0 p (.error e) s.solution { p with time := s.initialTime, solution := some q.values }
  | recorded {u f : Array α} {q : Condition.Prescribed α} (hu : (s.initialVector u0).1 = .ok u)
      (hq : s.initialValues u = .ok q) (hf : s.force.1 = .ok f) :
      Starts s u0 p ((checkTime s.initialTime).map fun _ => q.values) (some q.values)
        ⟨s.initialTime, some q.values, some f, true⟩

theorem start_spec (hp : s.progress? = some p) (u0 : Datum α) :
    s.Consults (s.start u0).2 ∧ ∃ q, s.Starts u0 p (s.start u0).1 (s.start u0).2.solution q ∧
      (s.start u0).2.scheme = .transient q := by
  have hconsults := s.consults_initialVector u0
  have hkept := s.keeps_initialVector u0
  unfold start
  simp only [hp]
  cases hvector : s.initialVector u0 with
  | mk vector s₁ =>
  have hu : (s.initialVector u0).1 = vector := by rw [hvector]
  rw [hvector] at hconsults hkept
  dsimp only at hconsults hkept
  cases vector with
  | error e => exact ⟨hconsults, p, hkept.solution_eq ▸ .noVector hu, hkept.scheme_eq.trans (scheme_of_progress? hp)⟩
  | ok u =>
  have htime : (s₁.settings.lookup "t0").getD .null = s.initialTime := by
    rw [hkept.settings_eq, initialTime]
  have hvalues : Condition.applyAll s₁.mesh u s₁.conditions (timeArgument s.initialTime) =
      s.initialValues u := by
    rw [hkept.mesh_eq, hkept.conditions_eq, initialValues]
  simp only [htime, hvalues, force_withProgress]
  cases hq : s.initialValues u with
  | error e => exact ⟨hconsults.record _ _, _, hkept.solution_eq ▸ .noValues hu hq, rfl⟩
  | ok q =>
  have hforce := hconsults.force_fst
  have hconsults' := hconsults.trans s₁.consults_force
  have hkept' := hkept.trans s₁.keeps_force
  generalize s₁.force = found at hforce hconsults' hkept' ⊢
  obtain ⟨found, s₂⟩ := found
  dsimp only at hforce hconsults' hkept'
  cases found with
  | error e => exact ⟨hconsults'.record _ _, _, hkept'.solution_eq ▸ .noForce hu hq hforce.symm, rfl⟩
  | ok f => exact ⟨hconsults'.record _ _, _, .recorded hu hq hforce.symm, rfl⟩

/-- A start that fails changes neither what there is under any name nor any component that is there. It
leaves the solution and the progress as they were exactly if everything that it came to record had been
recorded before. It comes to record the initial time once it has the initial vector, the old solution once
it has the prescribed values as well, and the rest once it also has the force. -/
theorem start_keeps_iff (hp : s.progress? = some p) (h : s.start u0 = (.error e, s')) :
    s.Consults s' ∧ ((s'.solution = s.solution ∧ s'.scheme = s.scheme) ↔
      ∀ u, (s.initialVector u0).1 = .ok u → p.time = s.initialTime ∧
        ∀ q, s.initialValues u = .ok q → p.solution = some q.values ∧
          ∀ f, s.force.1 = .ok f →
            s.solution = some q.values ∧ p.force = some f ∧ p.started = true) := by
  obtain ⟨hconsults, q, hstarts, hscheme⟩ := s.start_spec hp u0
  rw [h] at hconsults hstarts hscheme
  refine ⟨hconsults, ?_⟩
  rw [hscheme, scheme_of_progress? hp, Scheme.transient.injEq]
  generalize s'.solution = solution at hstarts
  generalize hresult : (Except.error e : Except (Error α) (Array α)) = result at hstarts
  obtain ⟨time, old, force, started⟩ := p
  cases hstarts with
  | noVector hvector => simp [hvector]
  | noValues hu hvalues => simp [hu, hvalues, eq_comm]
  | noForce hu hq hforce => simp [hu, hq, hforce, eq_comm]
  | recorded hu hq hf => simp [hu, hq, hf, eq_comm]; tauto

/-- A solver that has been started and has taken a step, and whose force has then been taken back. -/
noncomputable def interruptedSolver : Simulation Float :=
  (lineSolver none 0).perform
    [.give [("mass", diagonal 1), ("stiffness", diagonal 0), ("force", .list [.integer 1, .integer 1])],
      .start (.list [.integer 1, .integer 2]), .solve, .give [("force", .null)]]

/-- The solver cannot be started again. -/
theorem exists_start_interruptedSolver : ∃ p e s', interruptedSolver.progress? = some p ∧
    interruptedSolver.start (.list [.integer 7, .integer 7]) = (.error e, s') ∧
    p.solution = some #[2, 3] ∧ s'.progress?.bind Progress.solution = some #[7, 7] := by
  have htransient : interruptedSolver.progress?.isSome = true := by decide +kernel
  obtain ⟨p, hp⟩ := Option.isSome_iff_exists.mp htransient
  have hold : interruptedSolver.progress?.bind Progress.solution = some #[2, 3] := by decide +kernel
  rw [hp] at hold
  have hnew : (interruptedSolver.start (.list [.integer 7, .integer 7])).2.progress?.bind
      Progress.solution = some #[7, 7] := by decide +kernel
  have hfails : (interruptedSolver.start (.list [.integer 7, .integer 7])).1.toBool = false := by
    decide +kernel
  generalize interruptedSolver.start (.list [.integer 7, .integer 7]) = result at hfails hnew
  obtain ⟨e | u, s'⟩ := result
  · exact ⟨p, e, s', hp, rfl, hold, hnew⟩
  · cases hfails

theorem start_of_interruptedSolver_keeps_not : ∃ p e s', interruptedSolver.progress? = some p ∧
    interruptedSolver.start (.list [.integer 7, .integer 7]) = (.error e, s') ∧
    ¬ (s'.solution = interruptedSolver.solution ∧ s'.scheme = interruptedSolver.scheme) ∧
    ¬ ∀ u, (interruptedSolver.initialVector (.list [.integer 7, .integer 7])).1 = .ok u →
      p.time = interruptedSolver.initialTime ∧
        ∀ q, interruptedSolver.initialValues u = .ok q → p.solution = some q.values ∧
          ∀ f, interruptedSolver.force.1 = .ok f →
            interruptedSolver.solution = some q.values ∧ p.force = some f ∧ p.started = true := by
  obtain ⟨p, e, s', hp, hstart, hold, hnew⟩ := exists_start_interruptedSolver
  have hchanged : ¬ (s'.solution = interruptedSolver.solution ∧
      s'.scheme = interruptedSolver.scheme) := by
    rintro ⟨-, hscheme⟩
    rw [progress?, hscheme, scheme_of_progress? hp] at hnew
    have hsame : some #[2, 3] = some (#[7, 7] : Array Float) := hold.symm.trans hnew
    exact absurd hsame (by decide +kernel)
  exact ⟨p, e, s', hp, hstart, hchanged, (start_keeps_iff hp hstart).2.not.mp hchanged⟩

/-- After the force has been given back, the solver goes on from the vector of the start that failed. -/
theorem failed_start_changes_run : ∃ e s',
    interruptedSolver.start (.list [.integer 7, .integer 7]) = (.error e, s') ∧
    (interruptedSolver.perform [.give [("force", .list [.integer 1, .integer 1])], .solve]).solution =
      some #[3, 4] ∧
    (s'.perform [.give [("force", .list [.integer 1, .integer 1])], .solve]).solution = some #[8, 8] := by
  obtain ⟨p, e, s', -, hstart, -, -⟩ := exists_start_interruptedSolver
  have hs' : s' = (interruptedSolver.start (.list [.integer 7, .integer 7])).2 := by rw [hstart]
  refine ⟨e, s', hstart, by decide +kernel, ?_⟩
  rw [hs']
  decide +kernel

end Starts

section Steps

/-- What a step returns, and the solution and the progress that it leaves. -/
inductive Advances (s : Simulation α) (p : Progress α) :
    Except (Error α) (Array α) → Option (Array α) → Progress α → Prop
  | refused {e : Error α} : Advances s p (.error e) s.solution p
  | recorded {c : Step α} {t time : Number α} {M K : NumberMatrix α} {u f : Array α}
      (hstarted : p.started = true) (hstep : s.step = .ok c) (hold : Number.ofDatum p.time = .ok t)
      (htime : t.add c.dt = .ok time) (hcomponents : s.stepComponents.1 = .ok (M, K, f))
      (hu : s.stepSolution c time M K f (p.force.getD #[]) (p.solution.getD #[]) = .ok u) :
      Advances s p ((checkTime time.toDatum).map fun _ => u) (some u)
        { p with time := time.toDatum, solution := some u, force := some f }

theorem advance_spec (hp : s.progress? = some p) :
    s.Consults s.advance.2 ∧ ∃ q, s.Advances p s.advance.1 s.advance.2.solution q ∧
      s.advance.2.scheme = .transient q := by
  have hscheme := scheme_of_progress? hp
  unfold advance
  simp only [hp]
  by_cases hstarted : p.started = true
  swap
  · rw [if_pos (by simpa using hstarted)]
    exact ⟨.refl s, p, .refused, hscheme⟩
  rw [if_neg (by simp [hstarted])]
  cases hstep : s.step with
  | error e => exact ⟨.refl s, p, .refused, hscheme⟩
  | ok c =>
  have hconsults := s.consults_stepComponents
  have hkept := s.keeps_stepComponents
  cases hfound : s.stepComponents with
  | mk found s₁ =>
  have hcomponents : s.stepComponents.1 = found := by rw [hfound]
  rw [hfound] at hconsults hkept
  dsimp only at hconsults hkept
  have hrefused (e : Error α) : s.Advances p (.error e) s₁.solution p := hkept.solution_eq ▸ .refused
  cases found with
  | error e => exact ⟨hconsults, p, hrefused e, hkept.scheme_eq.trans hscheme⟩
  | ok found =>
  obtain ⟨M, K, f⟩ := found
  dsimp only
  cases htime : (Number.ofDatum p.time).bind fun t => t.add c.dt with
  | error e => exact ⟨hconsults, p, hrefused e, hkept.scheme_eq.trans hscheme⟩
  | ok time =>
  have hsolution : s₁.stepSolution c time M K f (p.force.getD #[]) (p.solution.getD #[]) =
      s.stepSolution c time M K f (p.force.getD #[]) (p.solution.getD #[]) := by
    simp only [stepSolution, hkept.mesh_eq, hkept.conditions_eq]
  simp only [hsolution]
  cases hu : s.stepSolution c time M K f (p.force.getD #[]) (p.solution.getD #[]) with
  | error e => exact ⟨hconsults, p, hrefused e, hkept.scheme_eq.trans hscheme⟩
  | ok u =>
    obtain ⟨t, hold, hadd⟩ := bind_eq_ok.mp htime
    exact ⟨hconsults.record _ _, _, .recorded hstarted hstep hold hadd hcomponents hu, rfl⟩

omit [Scalar α] in
/-- A number among the data is whole or real, once truth values are counted. -/
theorem counted_of_ofDatum {d : Datum α} {a : Number α} (h : Number.ofDatum d = .ok a) :
    (∃ n, a.counted = .integer n) ∨ ∃ x, a.counted = .real x := by
  cases d with
  | flag b => cases h; exact .inl ⟨_, rfl⟩
  | integer n => cases h; exact .inl ⟨_, rfl⟩
  | real x => cases h; exact .inr ⟨_, rfl⟩
  | null | text _ | list _ | map _ => cases h

theorem add_cases {d d' : Datum α} {a b x : Number α} (ha : Number.ofDatum d = .ok a)
    (hb : Number.ofDatum d' = .ok b) (h : a.add b = .ok x) : (∃ n, x = .integer n) ∨ ∃ y, x = .real y := by
  obtain ⟨matched, hmatched, rfl⟩ := map_eq_ok.mp h
  unfold Number.matched at hmatched
  rcases counted_of_ofDatum ha with ⟨m, hm⟩ | ⟨y, hy⟩ <;>
    rcases counted_of_ofDatum hb with ⟨n, hn⟩ | ⟨z, hz⟩
  · simp only [hm, hn] at hmatched
    cases hmatched
    exact .inl ⟨m + n, rfl⟩
  · simp only [hm, hz] at hmatched
    obtain ⟨x, -, rfl⟩ := map_eq_ok.mp hmatched
    exact .inr ⟨x + z, rfl⟩
  · simp only [hy, hn] at hmatched
    obtain ⟨x, -, rfl⟩ := map_eq_ok.mp hmatched
    exact .inr ⟨y + x, rfl⟩
  · simp only [hy, hz] at hmatched
    cases hmatched
    exact .inr ⟨y + z, rfl⟩

/-- A step has a weight from zero to one and a positive length, both of them numbers among the settings. -/
theorem step_eq_ok {c : Step α} (h : s.step = .ok c) :
    (∃ x, ((s.settings.lookup "theta").getD .null).number? = some x ∧ Scalar.atMost 0 x = true ∧
      Scalar.atMost x 1 = true ∧ Number.ofDatum ((s.settings.lookup "theta").getD .null) = .ok c.theta) ∧
    ∃ x, ((s.settings.lookup "dt").getD .null).number? = some x ∧ Scalar.less 0 x = true ∧
      Number.ofDatum ((s.settings.lookup "dt").getD .null) = .ok c.dt := by
  unfold step at h
  dsimp only at h
  split at h
  · cases h
  · rename_i x hx _
    split_ifs at h with hrange
    · obtain ⟨w, hw, h⟩ := bind_eq_ok.mp h
      split at h
      · cases h
      · rename_i y hy _
        split_ifs at h with hpositive
        · obtain ⟨l, hl, h⟩ := bind_eq_ok.mp h
          cases h
          rw [Bool.and_eq_true] at hrange
          exact ⟨⟨x, hx, hrange.1, hrange.2, hw⟩, y, hy, hpositive, hl⟩
        · cases h
      · cases h
    · cases h
  · cases h

/-- The only time of a step that cannot be shown is a whole number out of range. -/
theorem exists_of_checkTime {d d' : Datum α} {a b time : Number α} (ha : Number.ofDatum d = .ok a)
    (hb : Number.ofDatum d' = .ok b) (htime : a.add b = .ok time) (h : checkTime time.toDatum = .error e) :
    e = .overflow ∧ ∃ n : ℤ, time = .integer n ∧ Scalar.isFinite (n : α) = false := by
  rcases add_cases ha hb htime with ⟨n, rfl⟩ | ⟨x, rfl⟩
  · have hreal : (Number.realOfInteger n : Except (Error α) α).map (fun _ => ()) = .error e := h
    unfold Number.realOfInteger at hreal
    split_ifs at hreal with hfinite
    · cases hreal
    · cases hreal
      exact ⟨rfl, n, rfl, by simpa using hfinite⟩
  · cases h

/-- A step that fails changes neither what there is under any name nor any component that is there, and
it leaves the solution and the progress as they were, with one exception: if the new time is a whole
number out of range, all of the step is recorded before its report fails. -/
theorem advance_of_error (h : s.advance = (.error e, s')) :
    s.Consults s' ∧ ((s'.solution = s.solution ∧ s'.scheme = s.scheme) ∨
      e = .overflow ∧ ∃ p c t n u f, s.progress? = some p ∧ s.step = .ok c ∧
        Number.ofDatum p.time = .ok t ∧ t.add c.dt = .ok (.integer n) ∧
        Scalar.isFinite ((n : ℤ) : α) = false ∧ s'.solution = some u ∧
        s'.scheme = .transient { p with time := .integer n, solution := some u, force := some f }) := by
  cases hp : s.progress? with
  | none =>
    have hsteady : s.advance = (.error .steadySolver, s) := by rw [advance, hp]
    rw [hsteady] at h
    cases h
    exact ⟨.refl s, .inl ⟨rfl, rfl⟩⟩
  | some p =>
  obtain ⟨hconsults, q, hadvances, hscheme⟩ := advance_spec hp
  rw [h] at hconsults hadvances hscheme
  refine ⟨hconsults, ?_⟩
  rw [hscheme]
  generalize s'.solution = solution at hadvances
  generalize hresult : (Except.error e : Except (Error α) (Array α)) = result at hadvances
  cases hadvances with
  | refused => exact .inl ⟨rfl, (scheme_of_progress? hp).symm⟩
  | @recorded c t time M K u f _ hstep hold htime =>
    obtain ⟨-, _, -, -, hd⟩ := step_eq_ok hstep
    obtain ⟨rfl, n, rfl, hn⟩ := exists_of_checkTime hold hd htime (map_eq_error.mp hresult.symm)
    exact .inr ⟨rfl, p, c, t, n, u, f, rfl, hstep, hold, htime, hn, rfl, rfl⟩

/-- The largest whole number that a double stands for. -/
def lastWhole : ℤ := (2 ^ 54 - 1) * (2 ^ 97) ^ 10 - 1

/-- A solver that has been started at the end of the range of doubles. -/
noncomputable def lateSolver : Simulation Float :=
  (lineSolver none lastWhole).perform
    [.give [("mass", diagonal 1), ("stiffness", diagonal 0), ("force", .list [.integer 1, .integer 1])],
      .start (.list [.integer 1, .integer 2])]

/-- The step of the solver fails, but it is recorded. -/
theorem exists_advance_lateSolver : ∃ e s', lateSolver.advance = (.error e, s') ∧
    lateSolver.solution = some #[1, 2] ∧ s'.solution = some #[2, 3] := by
  have hfails : lateSolver.advance.1.toBool = false := by decide +kernel
  have hold : lateSolver.solution = some #[1, 2] := by decide +kernel
  have hnew : lateSolver.advance.2.solution = some #[2, 3] := by decide +kernel
  generalize lateSolver.advance = result at hfails hnew
  obtain ⟨e | u, s'⟩ := result
  · exact ⟨e, s', rfl, hold, hnew⟩
  · cases hfails

theorem advance_of_lateSolver : ∃ e s', lateSolver.advance = (.error e, s') ∧ e = .overflow ∧
    lateSolver.Consults s' ∧ ∃ n : ℤ, Scalar.isFinite (n : Float) = false ∧
      s'.progress?.map Progress.time = some (.integer n) := by
  obtain ⟨e, s', hadvance, hold, hnew⟩ := exists_advance_lateSolver
  obtain ⟨hconsults, ⟨hsame, -⟩ | ⟨he, p, c, t, n, u, f, -, -, -, -, hn, -, hscheme⟩⟩ :=
    advance_of_error hadvance
  · rw [hold, hnew] at hsame
    exact absurd hsame (by decide +kernel)
  · exact ⟨e, s', hadvance, he, hconsults, n, hn, by rw [progress?, hscheme]; rfl⟩

theorem failed_step_is_recorded : ∃ e s', lateSolver.advance = (.error e, s') ∧
    s'.solution ≠ lateSolver.solution := by
  obtain ⟨e, s', hadvance, hold, hnew⟩ := exists_advance_lateSolver
  refine ⟨e, s', hadvance, ?_⟩
  rw [hold, hnew]
  decide +kernel

end Steps

end Simulation
end WeakForm
