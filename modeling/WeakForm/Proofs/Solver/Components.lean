import WeakForm.Proofs.Outcome
import WeakForm.Solver.Transient

/-!
# Components in effect

Asking for a component may assemble it and keep it. Nothing else of a solver changes by that, and
what the solver remembers of its last step plays no part in it. Giving components changes no more.
-/

namespace WeakForm
namespace Simulation

variable {α : Type} {s s' s'' : Simulation α}

/-- The solver is as it was but for its components and its formulation. -/
structure Keeps (s s' : Simulation α) : Prop where
  settings_eq : s'.settings = s.settings
  conditions_eq : s'.conditions = s.conditions
  mesh_eq : s'.mesh = s.mesh
  solution_eq : s'.solution = s.solution
  scheme_eq : s'.scheme = s.scheme

theorem Keeps.refl (s : Simulation α) : s.Keeps s := ⟨rfl, rfl, rfl, rfl, rfl⟩

theorem Keeps.trans (h : s.Keeps s') (h' : s'.Keeps s'') : s.Keeps s'' :=
  ⟨h'.settings_eq.trans h.settings_eq, h'.conditions_eq.trans h.conditions_eq,
    h'.mesh_eq.trans h.mesh_eq, h'.solution_eq.trans h.solution_eq, h'.scheme_eq.trans h.scheme_eq⟩

variable [Scalar α] (s) (which : String) (p : Progress α)

theorem keeps_fetch (name : Datum α) : s.Keeps (s.fetch which name).2 := by
  unfold fetch
  split
  · exact .refl s
  · dsimp only
    split <;> exact ⟨rfl, rfl, rfl, rfl, rfl⟩

theorem keeps_component : s.Keeps (s.component which).2 := by
  unfold component
  split_ifs
  · exact .refl s
  · split
    · exact .refl s
    · split
      · exact s.keeps_fetch which _
      · exact .refl s

theorem keeps_matrix : s.Keeps (s.matrix which).2 := s.keeps_component which

theorem keeps_force : s.Keeps s.force.2 := s.keeps_component "force"

theorem keeps_stepComponents : s.Keeps s.stepComponents.2 := by
  have hmass := s.keeps_matrix "mass"
  unfold stepComponents
  cases hM : s.matrix "mass" with
  | mk M s₁ =>
    rw [hM] at hmass
    cases M with
    | error e => exact hmass
    | ok M =>
      dsimp only
      have hstiffness := hmass.trans (s₁.keeps_matrix "stiffness")
      cases hK : s₁.matrix "stiffness" with
      | mk K s₂ =>
        rw [hK] at hstiffness
        cases K with
        | error e => exact hstiffness
        | ok K =>
          dsimp only
          have hforce := hstiffness.trans s₂.keeps_force
          cases hf : s₂.force with
          | mk f s₃ =>
            rw [hf] at hforce
            cases f <;> exact hforce

theorem keeps_initialVector (u0 : Datum α) : s.Keeps (s.initialVector u0).2 := by
  unfold initialVector
  split
  · split <;> exact ⟨rfl, rfl, rfl, rfl, rfl⟩
  · exact .refl s

variable {s which}

theorem setComponent_eq_ok {value : Datum α} (h : s.setComponent which value = .ok s') :
    value = .null ∧ s' = { s with components := unassign which s.components } ∨
      ∃ c, givenComponent s.mesh.dofs which value = .ok c ∧
        s' = { s with components := assign which c s.components } := by
  unfold setComponent at h
  split_ifs at h
  split at h
  · cases h
    exact .inl ⟨rfl, rfl⟩
  · obtain ⟨c, hc, rfl⟩ := map_eq_ok.mp h
    exact .inr ⟨c, hc, rfl⟩

variable (s which)

theorem exists_setEach_eq (given : List (String × Datum α)) :
    ∃ components, (s.setEach given).2 = { s with components } := by
  induction given generalizing s with
  | nil => exact ⟨s.components, rfl⟩
  | cons g given ih =>
    obtain ⟨name, value⟩ := g
    unfold setEach
    cases h : s.setComponent name value with
    | error e => exact ⟨s.components, rfl⟩
    | ok s' =>
      obtain ⟨components, hrest⟩ := ih s'
      refine ⟨components, hrest.trans ?_⟩
      rcases setComponent_eq_ok h with ⟨-, rfl⟩ | ⟨c, -, rfl⟩ <;> rfl

/-- Giving components changes nothing but the components. -/
theorem exists_setComponents_eq (given : List (String × Datum α)) :
    ∃ components, (s.setComponents given).2 = { s with components } := by
  unfold setComponents
  split
  · exact ⟨s.components, rfl⟩
  · exact s.exists_setEach_eq given

theorem fetch_withProgress (name : Datum α) : (s.withProgress p).fetch which name =
    ((s.fetch which name).1, (s.fetch which name).2.withProgress p) := by
  obtain ⟨solver, m, formulation⟩ := s
  cases formulation with
  | none => rfl
  | some sys =>
    unfold fetch withProgress
    dsimp only
    cases (sys.obtain m name).1.bind (Source.toComponent which) <;> rfl

theorem component_withProgress : (s.withProgress p).component which =
    ((s.component which).1, (s.component which).2.withProgress p) := by
  have hdisabled : (s.withProgress p).isDisabled which = s.isDisabled which := rfl
  have hcomponents : (s.withProgress p).components = s.components := rfl
  have hsettings : (s.withProgress p).settings = s.settings := rfl
  unfold component
  rw [hdisabled, hcomponents, hsettings]
  split_ifs
  · rfl
  · cases s.components.lookup which with
    | some c => rfl
    | none =>
      cases s.settings.lookup which with
      | none => rfl
      | some name => exact s.fetch_withProgress which p name

theorem force_withProgress :
    (s.withProgress p).force = (s.force.1, s.force.2.withProgress p) := by
  unfold force
  rw [component_withProgress]

end Simulation
end WeakForm
