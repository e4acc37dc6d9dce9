import WeakForm.Proofs.Solver.Attempts

/-!
# Where components come from

A solver keeps every component that it has taken from its formulation beside those that are given. After any
calls, a component that is there is what one of the calls put there: the value that was given, or what the
formulation had at that time. It stays until components of its name are given again. Only a component that is
not there is looked up anew.
-/

namespace WeakForm
namespace Simulation

variable {α : Type} [Scalar α] {s s' : Simulation α} {which : String} {c : Component α}

section Consulting

variable (s)

theorem consults_start (u0 : Datum α) : s.Consults (s.start u0).2 := by
  cases hp : s.progress? with
  | none =>
    rw [start, hp]
    exact .refl s
  | some p => exact (s.start_spec hp u0).1

theorem consults_advance : s.Consults s.advance.2 := by
  cases hp : s.progress? with
  | none =>
    rw [advance, hp]
    exact .refl s
  | some p => exact (advance_spec hp).1

theorem consults_solveSteady : s.Consults s.solveSteady.2 := by
  have hstiffness := s.consults_matrix "stiffness"
  unfold solveSteady
  generalize s.matrix "stiffness" = stiffness at hstiffness ⊢
  obtain ⟨K | K, s₁⟩ := stiffness
  · exact hstiffness
  dsimp only
  have hforce := hstiffness.trans s₁.consults_force
  generalize s₁.force = force at hforce ⊢
  obtain ⟨f | f, s₂⟩ := force
  · exact hforce
  dsimp only
  cases s₂.steadySolution K f with
  | error e => exact hforce
  | ok u =>
    dsimp only
    cases reactions K f u <;> exact hforce.record _ _

theorem consults_solve : s.Consults s.solve.2 := by
  unfold solve
  split
  · exact s.consults_solveSteady
  · exact s.consults_advance

end Consulting

section Giving

/-- A component that is there after components have been given was there or is one of them. -/
theorem lookup_setEach {given : List (String × Datum α)}
    (h : (s.setEach given).2.components.lookup which = some c) :
    s.components.lookup which = some c ∨
      ∃ value, (which, value) ∈ given ∧ givenComponent s.mesh.dofs which value = .ok c := by
  induction given generalizing s with
  | nil => exact .inl h
  | cons g given ih =>
    obtain ⟨name, value⟩ := g
    unfold setEach at h
    cases hset : s.setComponent name value with
    | error e =>
      rw [hset] at h
      exact .inl h
    | ok s' =>
      rw [hset] at h
      rcases setComponent_eq_ok hset with ⟨-, rfl⟩ | ⟨c', hc', rfl⟩ <;> rcases ih h with hold | ⟨v, hv, hc⟩
      · rw [lookup_unassign] at hold
        split at hold
        · cases hold
        · exact .inl hold
      · exact .inr ⟨v, List.mem_cons_of_mem _ hv, hc⟩
      · rw [lookup_assign] at hold
        split_ifs at hold with hname
        · obtain rfl := eq_of_beq hname
          cases hold
          exact .inr ⟨value, List.mem_cons_self, hc'⟩
        · exact .inl hold
      · exact .inr ⟨v, List.mem_cons_of_mem _ hv, hc⟩

theorem lookup_setComponents {given : List (String × Datum α)}
    (h : (s.setComponents given).2.components.lookup which = some c) :
    s.components.lookup which = some c ∨
      ∃ value, (which, value) ∈ given ∧ givenComponent s.mesh.dofs which value = .ok c := by
  unfold setComponents at h
  split at h
  · exact .inl h
  · exact lookup_setEach h

end Giving

/-- A call puts a component among those of the solver: it is given, or it is looked up and found. -/
inductive Puts (s : Simulation α) (which : String) (c : Component α) : Call α → Prop
  | given {given : List (String × Datum α)} {value : Datum α} (hmem : (which, value) ∈ given)
      (hc : givenComponent s.mesh.dofs which value = .ok c) : Puts s which c (.give given)
  | found {call : Call α} (hon : s.isDisabled which = false) (hnew : s.components.lookup which = none)
      (hc : s.present which = .ok c) : Puts s which c call

/-- Looking components up adds none but those that are found. -/
theorem Consults.lookup_or_puts (h : s.Consults s') (call : Call α)
    (hc : s'.components.lookup which = some c) :
    s.components.lookup which = some c ∨ s.Puts which c call := by
  rcases h.lookup which with hsame | ⟨hon, hnew, c', hc', hkept⟩
  · exact .inl (hsame ▸ hc)
  · obtain rfl := Option.some.inj (hkept.symm.trans hc)
    exact .inr (.found hon hnew hc')

theorem Call.lookup_run {call : Call α} (h : (call.run s).components.lookup which = some c) :
    s.components.lookup which = some c ∨ s.Puts which c call := by
  cases call with
  | formulation call => exact .inl h
  | boundary tag selectors essential => exact .inl h
  | subdomain tag condition => exact .inl h
  | give given =>
    rcases lookup_setComponents h with hold | ⟨value, hmem, hc⟩
    · exact .inl hold
    · exact .inr (.given hmem hc)
  | prescribe condition =>
    change ((s.addCondition condition).toOption.getD s).components.lookup which = some c at h
    cases hadd : s.addCondition condition with
    | error e =>
      rw [hadd] at h
      exact .inl h
    | ok s' =>
      rw [hadd] at h
      obtain ⟨ids, -, rfl⟩ := map_eq_ok.mp hadd
      exact .inl h
  | set setting value =>
    change ((s.toSolver.set setting value).toOption.getD s.toSolver).components.lookup which = some c at h
    unfold Solver.set at h
    split_ifs at h <;> exact .inl h
  | look name => exact (s.consults_component name).lookup_or_puts _ h
  | start u0 => exact (s.consults_start u0).lookup_or_puts _ h
  | solve => exact s.consults_solve.lookup_or_puts _ h

/-- A component that is there after some calls was there and stayed, or one of the calls put it there and
it stayed from then on. -/
theorem lookup_perform {calls : List (Call α)}
    (h : (s.perform calls).components.lookup which = some c) :
    s.components.lookup which = some c ∨ ∃ before call after, calls = before ++ call :: after ∧
      (s.perform before).Puts which c call ∧ ∀ part, part <+: after →
        (s.perform (before ++ call :: part)).components.lookup which = some c := by
  induction calls using List.reverseRecOn with
  | nil => exact .inl h
  | append_singleton calls call ih =>
    rw [perform_concat] at h
    rcases call.lookup_run h with hold | hputs
    · rcases ih hold with hinitial | ⟨before, call', after, rfl, hputs, hstays⟩
      · exact .inl hinitial
      · refine .inr ⟨before, call', after ++ [call], by simp, hputs, fun part hpart => ?_⟩
        rcases List.prefix_concat_iff.mp hpart with rfl | hpart
        · have hall : before ++ call' :: (after ++ [call]) = (before ++ call' :: after) ++ [call] := by simp
          rw [hall, perform_concat]
          exact h
        · exact hstays part hpart
    · refine .inr ⟨calls, call, [], rfl, hputs, fun part hpart => ?_⟩
      rw [List.prefix_nil.mp hpart, perform_concat]
      exact h

/-- A component that is taken back is looked up anew. -/
theorem component_of_withdrawn (hwhich : which ∈ componentNames) (hon : s.isDisabled which = false) :
    (((Call.give [(which, .null)]).run s).component which).1 = s.present which := by
  have hself : Settings.checkNames ["self"] [(which, (.null : Datum α))] = .ok () := by
    fin_cases hwhich <;> rfl
  have hrun : (Call.give [(which, .null)]).run s =
      { s with components := unassign which s.components } := by
    simp [Call.run, setComponents, hself, setEach, setComponent, hwhich]
  have hnew : (unassign which s.components).lookup which = none := by simp [lookup_unassign]
  rw [hrun]
  exact component_of_absent hon hnew

/-- After any calls, a component that is switched off is zero, and one that is on but not there is what
the formulation has at present. One that is there is used as it is: it was given by one of the calls, or it
is what the formulation had at the first call that looked it up, whatever has become of that since. -/
theorem component_after_calls (m : Mesh α) (method : Option AssemblyMethod) (topic : Topic)
    (settings : Settings α) (calls : List (Call α)) (which : String) :
    let after (calls : List (Call α)) := (fresh m method topic settings).perform calls
    let s := after calls
    s.isDisabled which = true ∧ s.component which = (s.zeroComponent which, s) ∨
      s.isDisabled which = false ∧ s.components.lookup which = none ∧
        (s.component which).1 = s.present which ∨
      s.isDisabled which = false ∧ ∃ c before call later, s.component which = (.ok c, s) ∧
        calls = before ++ call :: later ∧ (after before).Puts which c call ∧
          ∀ part, part <+: later → (after (before ++ call :: part)).components.lookup which = some c := by
  intro after s
  rcases s.component_cases which with hoff | hnew | ⟨hon, c, hc, hcomponent⟩
  · exact .inl hoff
  · exact .inr (.inl hnew)
  · rcases lookup_perform hc with hinitial | ⟨before, call, later, hcalls, hputs, hstays⟩
    · cases hinitial
    · exact .inr (.inr ⟨hon, c, before, call, later, hcomponent, hcalls, hputs, hstays⟩)

/-- A solver that has been started with no force. Then the force is defined anew and assembled. -/
noncomputable def redefinedSolver : Simulation Float :=
  (lineSolver (some .triplet) 0).perform
    [.give [("mass", diagonal 1), ("stiffness", diagonal 0)],
      .formulation (.entry .vector "f" (.load (.list [.integer 0])) none),
      .start (.list [.integer 1, .integer 2]),
      .formulation (.entry .vector "f" (.load (.list [.integer 2])) none),
      .formulation (.assemble (.text "f"))]

/-- The solver goes on without a force. -/
theorem kept_force_is_outdated : (redefinedSolver.component "force").1 = .ok (.vector #[0, 0]) ∧
    redefinedSolver.present "force" = .ok (.vector #[1, 1]) ∧
    redefinedSolver.solve.2.solution = some #[1, 2] := by
  have hkept : redefinedSolver.force.1.toOption = some #[0, 0] := by decide +kernel
  have hnew : (force { redefinedSolver with components := [] }).1.toOption = some #[1, 1] := by
    decide +kernel
  have hon : redefinedSolver.isDisabled "force" = false := by decide +kernel
  refine ⟨component_of_force hkept, ?_, by decide +kernel⟩
  exact (component_of_absent hon List.lookup_nil).symm.trans (component_of_force hnew)

end Simulation
end WeakForm
