import WeakForm.Proofs.Formulation.Registry
import WeakForm.Proofs.Mesh.Reachable
import WeakForm.Proofs.Solver.Components
import WeakForm.Session

/-!
# Looking components up

A component that is neither switched off nor given stands for what the formulation has under the name in the
settings: the value of a constant, the present value of an entry, or the assembly of an entry that has none.
Looking it up may assemble the entry and keep the component. It changes neither what stands under any name
nor a component that is there already, and no more does a call of the solver that needs components.
-/

namespace WeakForm

namespace Formulation

variable {α : Type} [Scalar α] {s : Formulation α} {m : Mesh α}

/-- What a name stands for at present; an entry without a value stands for its assembly. -/
def present (s : Formulation α) (m : Mesh α) (name : Datum α) : Except (Error α) (Source α) := do
  match ← s.get name with
  | .constant v => pure (.value v)
  | .entry (some v) => pure (.assembled v)
  | .entry none => do
    let found ← s.entry name
    (s.evaluate m found.2).map .assembled

theorem obtain_fst (s : Formulation α) (m : Mesh α) (name : Datum α) :
    (s.obtain m name).1 = s.present m name := by
  unfold obtain present
  cases s.get name with
  | error e => rfl
  | ok current =>
    cases current with
    | constant v => rfl
    | entry value =>
      cases value with
      | some v => rfl
      | none =>
        change (s.assemble m name).1.map _ = s.entry name >>= _
        cases hentry : s.entry name with
        | error e => rw [assemble_of_error hentry]; rfl
        | ok found => rw [(assemble_of_ok hentry).1]; rfl

/-- An entry that gets its own value stands for what it stood for, and all else does as well. -/
theorem present_assign {n : String} {e : Entry α} (he : s.entries.lookup n = some e)
    (hnew : e.value = none) (name : Datum α) :
    present { s with entries := assign n { e with value := (s.evaluate m e).toOption } s.entries } m name =
      s.present m name := by
  simp only [present, get, entry]
  cases name.toName with
  | error err => rfl
  | ok chosen =>
    cases chosen with
    | none => rfl
    | some k =>
      simp only [ok_bind, Option.bind_some, lookup_assign]
      cases s.constants.lookup k with
      | some v => rfl
      | none =>
        by_cases hk : k = n
        · subst hk
          simp only [beq_self_eq_true, if_true, he]
          cases hvalue : s.evaluate m e with
          | error err =>
            change (s.evaluate m e).map Source.assembled = _
            simp [hnew, hvalue, pure, Except.pure, bind, Except.bind, Except.map]
          | ok v => simp [hnew, hvalue, Except.toOption, pure, Except.pure, bind, Except.bind, Except.map]
        · simp only [beq_false_of_ne hk, Bool.false_eq_true, if_false]
          cases s.entries.lookup k with
          | none => rfl
          | some e' => rfl

/-- All that may happen to a formulation when a value is obtained is an assembly. -/
theorem obtain_snd (s : Formulation α) (m : Mesh α) (name : Datum α) :
    ∃ names : List (Datum α), (s.obtain m name).2 = s.perform m (names.map .assemble) := by
  unfold obtain
  split
  · exact ⟨[], rfl⟩
  · exact ⟨[], rfl⟩
  · exact ⟨[], rfl⟩
  · exact ⟨[name], rfl⟩

/-- To obtain one value changes nothing about what is obtained under any name. -/
theorem present_obtain (s : Formulation α) (m : Mesh α) (looked name : Datum α) :
    (s.obtain m looked).2.present m name = s.present m name := by
  unfold obtain
  cases hget : s.get looked with
  | error e => rfl
  | ok current =>
    cases current with
    | constant v => rfl
    | entry value =>
      cases value with
      | some v => rfl
      | none =>
        change (s.assemble m looked).2.present m name = _
        cases hentry : s.entry looked with
        | error e => rw [assemble_of_error hentry]
        | ok found =>
          obtain ⟨n, e⟩ := found
          obtain ⟨hname, he⟩ := entry_eq_ok hentry
          have hnew : e.value = none := by
            simp only [get, hname, ok_bind, Option.bind_some, he] at hget
            split at hget <;> simp_all [pure, Except.pure]
          rw [(assemble_of_ok hentry).2]
          exact present_assign he hnew name

end Formulation

namespace Simulation

variable {α : Type} [Scalar α] {s s' s'' : Simulation α} {which : String} {c : Component α}

/-- What the formulation has for a component under the name in the settings. -/
def source (s : Simulation α) (which : String) : Except (Error α) (Source α) :=
  match s.settings.lookup which, s.formulation with
  | none, _ => .error (.absentSetting which)
  | some _, none => .error (.noComponent which)
  | some name, some sys => sys.present s.mesh name

/-- The component that the formulation has at present. -/
def present (s : Simulation α) (which : String) : Except (Error α) (Component α) :=
  (s.source which).bind (Source.toComponent which)

theorem source_congr (hsettings : s'.settings = s.settings) (hmesh : s'.mesh = s.mesh)
    (hsys : s'.formulation = s.formulation) (which : String) : s'.source which = s.source which := by
  rw [source, source, hsettings, hmesh, hsys]

theorem component_of_off (h : s.isDisabled which = true) :
    s.component which = (s.zeroComponent which, s) := by
  rw [component, if_pos h]

theorem component_of_some (hon : s.isDisabled which = false) (h : s.components.lookup which = some c) :
    s.component which = (.ok c, s) := by
  rw [component, if_neg (by simp [hon]), h]

/-- A component that is on and not there is what the formulation has at present. It is kept. -/
theorem component_of_none (hon : s.isDisabled which = false) (hnew : s.components.lookup which = none) :
    (s.component which).1 = s.present which ∧
      (s.component which).2.components =
        ((s.present which).toOption.elim s.components fun c => assign which c s.components) := by
  unfold component present source
  rw [if_neg (by simp [hon]), hnew]
  cases s.settings.lookup which with
  | none => exact ⟨rfl, rfl⟩
  | some name =>
    dsimp only
    unfold fetch
    cases s.formulation with
    | none => exact ⟨rfl, rfl⟩
    | some sys =>
      dsimp only
      rw [← sys.obtain_fst]
      cases (sys.obtain s.mesh name).1.bind (Source.toComponent which) <;> exact ⟨rfl, rfl⟩

/-- Without the component, the solver looks it up. -/
theorem component_of_absent {components : List (String × Component α)} (hon : s.isDisabled which = false)
    (hnew : components.lookup which = none) :
    (component { s with components } which).1 = s.present which :=
  (component_of_none (s := { s with components }) hon hnew).1

/-- A component is zero, or what the formulation has at present, or there already. -/
theorem component_cases (s : Simulation α) (which : String) :
    s.isDisabled which = true ∧ s.component which = (s.zeroComponent which, s) ∨
      s.isDisabled which = false ∧ s.components.lookup which = none ∧
        (s.component which).1 = s.present which ∨
      s.isDisabled which = false ∧ ∃ c, s.components.lookup which = some c ∧
        s.component which = (.ok c, s) := by
  cases hon : s.isDisabled which with
  | true => exact .inl ⟨rfl, component_of_off hon⟩
  | false =>
    cases hc : s.components.lookup which with
    | none => exact .inr (.inl ⟨rfl, rfl, (component_of_none hon hc).1⟩)
    | some c => exact .inr (.inr ⟨rfl, c, rfl, component_of_some hon hc⟩)

theorem component_of_force {f : Array α} (h : s.force.1.toOption = some f) :
    (s.component "force").1 = .ok (.vector f) := by
  unfold force at h
  dsimp only at h
  generalize (s.component "force").1 = found at h ⊢
  obtain e | ⟨A | g⟩ := found
  · cases h
  · cases h
  · obtain rfl : g = f := Option.some.inj h
    rfl

/-- The solver has only looked components up: what stands under the names is the same, a component that
was there is there, and one that is new is what the formulation had for it. -/
structure Consults (s s' : Simulation α) : Prop where
  settings_eq : s'.settings = s.settings
  conditions_eq : s'.conditions = s.conditions
  mesh_eq : s'.mesh = s.mesh
  assembled : ∃ names : List (Datum α), s'.formulation =
    s.formulation.map fun sys => sys.perform s.mesh (names.map .assemble)
  source_eq : ∀ which, s'.source which = s.source which
  lookup : ∀ which, s'.components.lookup which = s.components.lookup which ∨
    s.isDisabled which = false ∧ s.components.lookup which = none ∧
      ∃ c, s.present which = .ok c ∧ s'.components.lookup which = some c

namespace Consults

theorem refl (s : Simulation α) : s.Consults s where
  settings_eq := rfl
  conditions_eq := rfl
  mesh_eq := rfl
  assembled := ⟨[], by cases s.formulation <;> rfl⟩
  source_eq _ := rfl
  lookup _ := .inl rfl

theorem isDisabled_eq (h : s.Consults s') (which : String) : s'.isDisabled which = s.isDisabled which := by
  simp only [Solver.isDisabled, Solver.isOn, h.settings_eq]

theorem present_eq (h : s.Consults s') (which : String) : s'.present which = s.present which := by
  rw [present, present, h.source_eq]

/-- What is given or kept stays. -/
theorem lookup_of_some (h : s.Consults s') (hc : s.components.lookup which = some c) :
    s'.components.lookup which = some c := by
  rcases h.lookup which with hsame | ⟨-, hnew, -⟩
  · rw [hsame, hc]
  · rw [hnew] at hc
    cases hc

theorem trans (h : s.Consults s') (h' : s'.Consults s'') : s.Consults s'' where
  settings_eq := h'.settings_eq.trans h.settings_eq
  conditions_eq := h'.conditions_eq.trans h.conditions_eq
  mesh_eq := h'.mesh_eq.trans h.mesh_eq
  assembled := by
    obtain ⟨names, hnames⟩ := h.assembled
    obtain ⟨names', hnames'⟩ := h'.assembled
    refine ⟨names ++ names', ?_⟩
    rw [hnames', hnames, h.mesh_eq, Option.map_map]
    simp [Formulation.perform, Function.comp_def]
  source_eq which := (h'.source_eq which).trans (h.source_eq which)
  lookup which := by
    rcases h.lookup which with hsame | ⟨hon, hnew, c, hc, hkept⟩
    · rcases h'.lookup which with hsame' | ⟨hon, hnew, c, hc, hkept⟩
      · exact .inl (hsame'.trans hsame)
      · exact .inr ⟨(h.isDisabled_eq which).symm.trans hon, hsame.symm.trans hnew, c,
          (h.present_eq which).symm.trans hc, hkept⟩
    · exact .inr ⟨hon, hnew, c, hc, h'.lookup_of_some hkept⟩

/-- What the solver remembers plays no part. -/
theorem record (h : s.Consults s') (solution : Option (Array α)) (scheme : Scheme α) :
    s.Consults { s' with solution := solution, scheme := scheme } :=
  ⟨h.settings_eq, h.conditions_eq, h.mesh_eq, h.assembled, h.source_eq, h.lookup⟩

end Consults

section Lookups

variable (s) (which)

theorem source_obtain (sys : Formulation α) (hsys : s.formulation = some sys) (looked : Datum α)
    (which : String) :
    source { s with formulation := some (sys.obtain s.mesh looked).2 } which = s.source which := by
  unfold source
  rw [hsys]
  cases s.settings.lookup which with
  | none => rfl
  | some name => exact sys.present_obtain s.mesh looked name

/-- A component is found with what is obtained under some name, or nothing is obtained. -/
theorem formulation_component : (s.component which).2.formulation = s.formulation ∨
    ∃ sys name, s.formulation = some sys ∧
      (s.component which).2.formulation = some (sys.obtain s.mesh name).2 := by
  unfold component
  split_ifs
  · exact .inl rfl
  · split
    · exact .inl rfl
    · split
      · rename_i name hname
        unfold fetch
        cases hsys : s.formulation with
        | none => exact .inl hsys
        | some sys =>
          refine .inr ⟨sys, name, rfl, ?_⟩
          dsimp only
          cases (sys.obtain s.mesh name).1.bind (Source.toComponent which) <;> rfl
      · exact .inl rfl

theorem consults_component : s.Consults (s.component which).2 := by
  have hkept := s.keeps_component which
  obtain ⟨hassembled, hsame⟩ : (∃ names : List (Datum α), (s.component which).2.formulation =
      s.formulation.map fun sys => sys.perform s.mesh (names.map .assemble)) ∧
        ∀ other, (s.component which).2.source other = s.source other := by
    rcases s.formulation_component which with hsys | ⟨sys, name, hsys, hobtained⟩
    · exact ⟨⟨[], by rw [hsys]; cases s.formulation <;> rfl⟩,
        source_congr hkept.settings_eq hkept.mesh_eq hsys⟩
    · obtain ⟨names, hnames⟩ := sys.obtain_snd s.mesh name
      exact ⟨⟨names, by rw [hobtained, hsys, hnames]; rfl⟩, fun other =>
        (source_congr (s := { s with formulation := some (sys.obtain s.mesh name).2 })
          hkept.settings_eq hkept.mesh_eq hobtained other).trans
            (s.source_obtain sys hsys name other)⟩
  refine ⟨hkept.settings_eq, hkept.conditions_eq, hkept.mesh_eq, hassembled, hsame, fun other => ?_⟩
  by_cases hon : s.isDisabled which = true
  · exact .inl (by rw [component_of_off hon])
  rw [Bool.not_eq_true] at hon
  cases hlookup : s.components.lookup which with
  | some c => exact .inl (by rw [component_of_some hon hlookup])
  | none =>
    rw [(component_of_none hon hlookup).2]
    cases hpresent : s.present which with
    | error e => exact .inl rfl
    | ok c =>
      simp only [Except.toOption, Option.elim_some, lookup_assign]
      by_cases hother : other = which
      · subst hother
        exact .inr ⟨hon, hlookup, c, hpresent, by simp⟩
      · exact .inl (by simp [hother])

theorem consults_matrix : s.Consults (s.matrix which).2 := s.consults_component which

theorem consults_force : s.Consults s.force.2 := s.consults_component "force"

theorem consults_stepComponents : s.Consults s.stepComponents.2 := by
  have hmass := s.consults_matrix "mass"
  unfold stepComponents
  generalize s.matrix "mass" = mass at hmass ⊢
  obtain ⟨M | M, s₁⟩ := mass
  · exact hmass
  dsimp only
  have hstiffness := hmass.trans (s₁.consults_matrix "stiffness")
  generalize s₁.matrix "stiffness" = stiffness at hstiffness ⊢
  obtain ⟨K | K, s₂⟩ := stiffness
  · exact hstiffness
  dsimp only
  have hforce := hstiffness.trans s₂.consults_force
  generalize s₂.force = force at hforce ⊢
  obtain ⟨f | f, s₃⟩ := force <;> exact hforce

theorem consults_initialVector (u0 : Datum α) : s.Consults (s.initialVector u0).2 := by
  unfold initialVector
  split
  · cases hsys : s.formulation with
    | none => exact .refl s
    | some sys =>
      obtain ⟨names, hnames⟩ := sys.obtain_snd s.mesh (.text _)
      exact ⟨rfl, rfl, rfl, ⟨names, by rw [hsys]; exact congrArg some hnames⟩,
        s.source_obtain sys hsys _, fun _ => .inl rfl⟩
  · exact .refl s

end Lookups

/-- A later look-up gives what an earlier one would have given. -/
theorem Consults.component_fst (h : s.Consults s') (which : String) :
    (s'.component which).1 = (s.component which).1 := by
  have hdisabled := h.isDisabled_eq which
  by_cases hon : s.isDisabled which = true
  · rw [component_of_off hon, component_of_off (hdisabled.trans hon)]
    simp only [zeroComponent, h.mesh_eq]
  rw [Bool.not_eq_true] at hon
  rw [hon] at hdisabled
  cases hlookup : s.components.lookup which with
  | some c => rw [component_of_some hon hlookup, component_of_some hdisabled (h.lookup_of_some hlookup)]
  | none =>
    rw [(component_of_none hon hlookup).1]
    rcases h.lookup which with hsame | ⟨-, -, c, hc, hkept⟩
    · rw [(component_of_none hdisabled (hsame.trans hlookup)).1, h.present_eq]
    · rw [component_of_some hdisabled hkept, hc]

theorem Consults.force_fst (h : s.Consults s') : s'.force.1 = s.force.1 := by
  simp only [force, h.component_fst]

end Simulation
end WeakForm

/-!
## Calls on a solver

A solver is used by calls in any order, some of which fail. Between them its formulation may be changed and
its mesh may be tagged. What a call leaves is there for the next one, whether it failed or not.
-/

namespace WeakForm
namespace Simulation

/-- A call on a solver, on its formulation or on its frozen mesh. -/
inductive Call (α : Type) where
  | formulation (call : Formulation.Call α)
  | boundary (tag : TagId) (selectors : List (Selector α)) (essential : Bool)
  | subdomain (tag : TagId) (condition : Predicate α)
  | give (given : List (String × Datum α))
  | prescribe (condition : Condition α)
  | set (setting : String) (value : Datum α)
  | look (which : String)
  | start (u0 : Datum α)
  | solve

variable {α : Type} [Scalar α]

/-- The solver after a call. -/
def Call.run (s : Simulation α) : Call α → Simulation α
  | formulation call => { s with formulation := s.formulation.map fun sys => (call.run s.mesh sys).2 }
  | boundary tag selectors essential => { s with mesh := (s.mesh.addBoundary tag selectors essential).2 }
  | subdomain tag condition => { s with mesh := (s.mesh.addSubdomain tag condition).2 }
  | give given => (s.setComponents given).2
  | prescribe condition => (s.addCondition condition).toOption.getD s
  | set setting value => { s with toSolver := (s.toSolver.set setting value).toOption.getD s.toSolver }
  | look which => (s.component which).2
  | start u0 => (s.start u0).2
  | solve => s.solve.2

/-- The solver after calls one after the other. -/
def perform (s : Simulation α) (calls : List (Call α)) : Simulation α := calls.foldl Call.run s

theorem perform_append (s : Simulation α) (calls later : List (Call α)) :
    s.perform (calls ++ later) = (s.perform calls).perform later := List.foldl_append

theorem perform_concat (s : Simulation α) (calls : List (Call α)) (call : Call α) :
    s.perform (calls ++ [call]) = call.run (s.perform calls) := s.perform_append calls [call]

/-- A solver without components. Its formulation, if it has one, is without names. -/
def fresh (m : Mesh α) (method : Option AssemblyMethod) (topic : Topic) (settings : Settings α) :
    Simulation α where
  settings := settings
  conditions := []
  components := []
  solution := none
  scheme := match topic with
    | .transient => .transient (.initial ((settings.lookup "t0").getD .null))
    | _ => .steady none
  mesh := m
  formulation := method.map fun method => ⟨method, [], []⟩

theorem perform_formulation (s : Simulation α) (calls : List (Formulation.Call α)) :
    s.perform (calls.map .formulation) =
      { s with formulation := s.formulation.map fun sys => sys.perform s.mesh calls } := by
  induction calls generalizing s with
  | nil =>
    obtain ⟨solver, m, sys⟩ := s
    cases sys <;> rfl
  | cons call calls ih =>
    obtain ⟨solver, m, sys⟩ := s
    change perform (Call.run ⟨solver, m, sys⟩ (.formulation call)) (calls.map .formulation) = _
    rw [ih]
    cases sys <;> rfl

/-- A solver that is built on a formulation, or on its mesh alone, with its given components. -/
theorem perform_of_make {m : Mesh α} {method : Option AssemblyMethod}
    {calls : List (Formulation.Call α)} {topic : Topic} {settings : Settings α}
    {given : List (String × Datum α)} {s : Simulation α}
    (h : make m (method.map fun method => Formulation.perform m ⟨method, [], []⟩ calls) topic settings
      given = .ok s) :
    s = (fresh m method topic settings).perform (calls.map .formulation ++ [.give given]) := by
  rw [perform_concat, perform_formulation]
  unfold make at h
  dsimp only at h
  split at h
  · cases h
  · rename_i result hgiven
    split_ifs at h
    cases h
    cases method <;> exact (congrArg Prod.snd hgiven).symm

section Line

/-- A line with two nodes. -/
def doubleLine : Mesh Float := (Mesh.ofLists (.integer 1) [[0], [1]] [(.line2, [1, 2])]).freeze.2

/-- Steps of length one by the implicit scheme. -/
def implicitSettings (t0 : ℤ) : Settings Float :=
  [("mass", .text "M"), ("stiffness", .text "K"), ("force", .text "f"), ("theta", .integer 1),
    ("dt", .integer 1), ("t0", .integer t0), ("disable_mass", .flag false),
    ("disable_stiffness", .flag false), ("disable_force", .flag false), ("disable_all", .flag false)]

/-- A transient solver on the line, without components. -/
def lineSolver (method : Option AssemblyMethod) (t0 : ℤ) : Simulation Float :=
  fresh doubleLine method .transient (implicitSettings t0)

example (t0 : ℤ) : Settings.ofNamed .transient
    [("theta", .integer 1), ("dt", .integer 1), ("t0", .integer t0)] = .ok (implicitSettings t0) := rfl

/-- A matrix with the given number on its diagonal. -/
def diagonal (n : ℤ) : Datum Float :=
  .list [.list [.integer n, .integer 0], .list [.integer 0, .integer n]]

end Line

end Simulation
end WeakForm
