import WeakForm.Proofs.Assembly.Shares
import WeakForm.Proofs.Mesh.Tags
import WeakForm.Proofs.Solver.Histories

/-!
# Sizes of components

The value of an entry always has the sizes of the mesh. So has a component that is zero or given, and one
that is looked up if it is the value of an entry of its kind. No other component that is looked up is
measured: a constant has whatever size it has, and a vector in place of a matrix is a row.
-/

namespace WeakForm

variable {α : Type} [Scalar α]

/-- The sizes of a matrix or a vector over `n` degrees of freedom. -/
def Assembled.Fits (n : ℕ) : Assembled α → Prop
  | .matrix A => A.rows = n ∧ A.cols = n
  | .vector f => f.size = n

namespace Formulation

variable {m : Mesh α} {s s' : Formulation α} {v : Assembled α}

theorem fits_of_evaluate {e : Entry α} (h : s.evaluate m e = .ok v) : v.Fits m.dofs := by
  unfold evaluate at h
  split at h
  · obtain ⟨A, hA, rfl⟩ := map_eq_ok.mp h
    exact Assembly.size_of_matrix hA
  · obtain ⟨f, hf, rfl⟩ := map_eq_ok.mp h
    exact Assembly.size_of_vector hf

/-- All entries that have a value have one over `n` degrees of freedom. -/
def Fits (n : ℕ) (s : Formulation α) : Prop :=
  ∀ name e v, s.entries.lookup name = some e → e.value = some v → v.Fits n

theorem Fits.change {call : Call α} (h : s.Fits m.dofs) (hs : Change m s call s') :
    s'.Fits m.dofs := by
  cases hs with
  | none | constant => exact h
  | entry hname hnew hvalue =>
    intro name e v he hv
    rw [lookup_assign] at he
    split_ifs at he
    · cases he
      cases hvalue.symm.trans hv
    · exact h name e v he hv
  | @value n e₀ he₀ =>
    intro name e v he hv
    rw [lookup_assign] at he
    split_ifs at he
    · cases he
      cases hevaluate : s.evaluate m e₀ with
      | error err => simp [hevaluate, Except.toOption] at hv
      | ok w =>
        obtain rfl : w = v := by simpa [hevaluate, Except.toOption] using hv
        exact fits_of_evaluate hevaluate
    · exact h name e v he hv

theorem Fits.perform (h : s.Fits m.dofs) (calls : List (Call α)) : (perform m s calls).Fits m.dofs := by
  induction calls generalizing s with
  | nil => exact h
  | cons call calls ih => exact ih (h.change (call.change m s))

/-- What is assembled, now or before, fits. -/
theorem Fits.present (h : s.Fits m.dofs) {name : Datum α} (hv : s.present m name = .ok (.assembled v)) :
    v.Fits m.dofs := by
  obtain ⟨current, hget, hv⟩ := bind_eq_ok.mp hv
  split at hv
  · cases hv
  · cases hv
    obtain ⟨n, -, hget⟩ := bind_eq_ok.mp hget
    dsimp only at hget
    split at hget
    · cases hget
    · rename_i _ e hnone hentry
      obtain ⟨key, -, hkey⟩ := Option.bind_eq_some_iff.mp hentry
      have hvalue : Current.entry e.value = .entry (some v) := Except.ok.inj hget
      exact h key e v hkey (Current.entry.inj hvalue)
    · cases hget
  · obtain ⟨found, -, hv⟩ := bind_eq_ok.mp hv
    obtain ⟨w, hw, hwv⟩ := map_eq_ok.mp hv
    cases hwv
    exact fits_of_evaluate hw

end Formulation

/-- A force is a vector, any other component a matrix, over `n` degrees of freedom. -/
def Component.Suits (n : ℕ) (which : String) : Component α → Prop
  | .matrix A => which ≠ "force" ∧ A.rows = n ∧ A.cols = n
  | .vector f => which = "force" ∧ f.size = n

/-- The value of an entry that is of the kind of a component. -/
def Source.IsEntry (which : String) : Source α → Prop
  | .value _ => False
  | .assembled (.matrix _) => which ≠ "force"
  | .assembled (.vector _) => which = "force"

namespace Simulation

variable {s s' : Simulation α} {which : String} {c : Component α} {n : ℕ}

section Suiting

theorem suits_of_zeroComponent (h : s.zeroComponent which = .ok c) : c.Suits s.mesh.dofs which := by
  unfold zeroComponent at h
  split_ifs at h with hforce
  · obtain ⟨f, hf, rfl⟩ := map_eq_ok.mp h
    exact ⟨eq_of_beq hforce, Mesh.size_of_zeroVector hf⟩
  · obtain ⟨A, hA, rfl⟩ := map_eq_ok.mp h
    exact ⟨fun heq => hforce (beq_iff_eq.mpr heq), Mesh.size_of_zeroMatrix hA⟩

theorem suits_of_givenComponent {value : Datum α} (h : givenComponent n which value = .ok c) :
    c.Suits n which := by
  unfold givenComponent at h
  split_ifs at h with hforce
  · obtain ⟨t, -, h⟩ := bind_eq_ok.mp h
    split_ifs at h with hsize
    cases h
    exact ⟨eq_of_beq hforce, hsize⟩
  · obtain ⟨a, -, h⟩ := bind_eq_ok.mp h
    obtain ⟨A, -, h⟩ := bind_eq_ok.mp h
    split_ifs at h with hsize
    cases h
    exact ⟨fun heq => hforce (beq_iff_eq.mpr heq), hsize⟩

theorem suits_of_isEntry {v : Assembled α} (hv : v.Fits n) (hentry : (Source.assembled v).IsEntry which)
    (h : (Source.assembled v).toComponent which = .ok c) : c.Suits n which := by
  cases v with
  | matrix A =>
    have hforce : which ≠ "force" := hentry
    rw [Source.toComponent, if_neg (by simpa using hforce)] at h
    cases h
    exact ⟨hforce, hv⟩
  | vector f =>
    obtain rfl : which = "force" := hentry
    cases h
    exact ⟨rfl, hv⟩

end Suiting

/-- The mesh has `n` degrees of freedom, and the values of the entries have their sizes. -/
structure Fits (n : ℕ) (s : Simulation α) : Prop where
  dofs : s.mesh.dofs = n
  values : ∀ sys, s.formulation = some sys → sys.Fits n

namespace Fits

omit [Scalar α] in
theorem fresh (m : Mesh α) (method : Option AssemblyMethod) (topic : Topic) (settings : Settings α) :
    (fresh m method topic settings).Fits m.dofs where
  dofs := rfl
  values sys hsys := by
    obtain ⟨method, -, rfl⟩ := Option.map_eq_some_iff.mp hsys
    intro name e v he
    cases he

theorem perform_formulation (h : s.Fits n) (calls : List (Formulation.Call α)) :
    ∀ sys, (s.formulation.map fun sys => sys.perform s.mesh calls) = some sys → sys.Fits n := by
  intro sys hsys
  obtain ⟨sys₀, hsys₀, rfl⟩ := Option.map_eq_some_iff.mp hsys
  have hfits := h.values sys₀ hsys₀
  rw [← h.dofs] at hfits ⊢
  exact hfits.perform calls

theorem consults (h : s.Fits n) (hs : s.Consults s') : s'.Fits n where
  dofs := by rw [hs.mesh_eq, h.dofs]
  values := by
    obtain ⟨names, hnames⟩ := hs.assembled
    rw [hnames]
    exact h.perform_formulation _

/-- No call changes the number of degrees of freedom or stores a value of another size. -/
theorem run (h : s.Fits n) (call : Call α) : (call.run s).Fits n := by
  cases call with
  | formulation call => exact ⟨h.dofs, h.perform_formulation [call]⟩
  | boundary tag selectors essential =>
    exact ⟨(s.mesh.dofs_addBoundary tag selectors essential).trans h.dofs, h.values⟩
  | subdomain tag condition => exact ⟨(s.mesh.dofs_addSubdomain tag condition).trans h.dofs, h.values⟩
  | give given =>
    obtain ⟨components, hgiven⟩ := s.exists_setComponents_eq given
    change (s.setComponents given).2.Fits n
    rw [hgiven]
    exact ⟨h.dofs, h.values⟩
  | prescribe condition =>
    change ((s.addCondition condition).toOption.getD s).Fits n
    cases hadd : s.addCondition condition with
    | error e => exact h
    | ok s' =>
      obtain ⟨ids, -, rfl⟩ := map_eq_ok.mp hadd
      exact ⟨h.dofs, h.values⟩
  | set setting value => exact ⟨h.dofs, h.values⟩
  | look which => exact h.consults (s.consults_component which)
  | start u0 => exact h.consults (s.consults_start u0)
  | solve => exact h.consults s.consults_solve

theorem perform (h : s.Fits n) (calls : List (Call α)) : (s.perform calls).Fits n := by
  induction calls generalizing s with
  | nil => exact h
  | cons call calls ih => exact ih (h.run call)

end Fits

section Found

variable {m : Mesh α} {method : Option AssemblyMethod} {topic : Topic} {settings : Settings α}
  {calls : List (Call α)}

theorem Fits.source (h : s.Fits n) {v : Assembled α} (hsource : s.source which = .ok (.assembled v)) :
    v.Fits n := by
  unfold Simulation.source at hsource
  split at hsource
  · cases hsource
  · cases hsource
  · rename_i name sys hname hsys
    have hvalues := h.values sys hsys
    rw [← h.dofs] at hvalues ⊢
    exact hvalues.present hsource

/-- A component is looked up and found, but it is not the value of an entry of its kind. -/
def FindsUnmeasured (s : Simulation α) (which : String) (c : Component α) : Prop :=
  s.isDisabled which = false ∧ s.components.lookup which = none ∧
    ∃ source, s.source which = .ok source ∧ ¬ source.IsEntry which ∧ source.toComponent which = .ok c

theorem Fits.suits_or_findsUnmeasured (h : s.Fits n) (hon : s.isDisabled which = false)
    (hnew : s.components.lookup which = none) (hc : s.present which = .ok c) :
    c.Suits n which ∨ s.FindsUnmeasured which c := by
  obtain ⟨source, hsource, hc⟩ := bind_eq_ok.mp hc
  by_cases hentry : source.IsEntry which
  · cases source with
    | value v => exact hentry.elim
    | assembled v => exact .inl (suits_of_isEntry (h.source hsource) hentry hc)
  · exact .inr ⟨hon, hnew, source, hsource, hentry, hc⟩

/-- After any calls, a component has the sizes of the mesh, unless it is a constant or a vector in place of
a matrix that one of the calls has found in the formulation. -/
theorem suits_of_component
    (h : (((fresh m method topic settings).perform calls).component which).1 = .ok c) :
    c.Suits m.dofs which ∨
      ∃ before, before <+: calls ∧
        ((fresh m method topic settings).perform before).FindsUnmeasured which c := by
  have hfits (calls : List (Call α)) := (Fits.fresh m method topic settings).perform calls
  rcases ((Simulation.fresh m method topic settings).perform calls).component_cases which with
    ⟨-, hzero⟩ | ⟨hon, hnew, hpresent⟩ | ⟨-, c', hc', hkept⟩
  · rw [hzero] at h
    rw [← (hfits calls).dofs]
    exact .inl (suits_of_zeroComponent h)
  · rw [hpresent] at h
    exact ((hfits calls).suits_or_findsUnmeasured hon hnew h).imp_right fun hfinds =>
      ⟨calls, List.prefix_rfl, hfinds⟩
  · rw [hkept] at h
    obtain rfl := Except.ok.inj h
    rcases lookup_perform hc' with hinitial | ⟨before, call, later, rfl, hputs, -⟩
    · cases hinitial
    · cases hputs with
      | given hmem hc =>
        rw [(hfits before).dofs] at hc
        exact .inl (suits_of_givenComponent hc)
      | found hon hnew hc =>
        exact ((hfits before).suits_or_findsUnmeasured hon hnew hc).imp_right fun hfinds =>
          ⟨before, List.prefix_append _ _, hfinds⟩

end Found

/-- A solver that has been started with a single number for a force. -/
noncomputable def constantForce : Simulation Float :=
  (lineSolver (some .triplet) 0).perform
    [.give [("mass", diagonal 1), ("stiffness", diagonal 0)],
      .formulation (.constant "f" (.integer 5)), .start (.list [.integer 1, .integer 2])]

theorem suits_of_component_constantForce : ∃ c, (constantForce.component "force").1 = .ok c ∧
    (c.Suits doubleLine.dofs "force" ∨
      ∃ before, ((lineSolver (some .triplet) 0).perform before).FindsUnmeasured "force" c) := by
  have hforce : (constantForce.component "force").1.toBool = true := by decide +kernel
  obtain ⟨c, hc⟩ := exists_of_toBool hforce
  exact ⟨c, hc, (suits_of_component hc).imp_right fun ⟨before, _, hfinds⟩ => ⟨before, hfinds⟩⟩

/-- The number is not refused, and a step takes it for every degree of freedom. -/
theorem exists_component_not_suits : (∃ c, (constantForce.component "force").1 = .ok c ∧
    ¬ c.Suits doubleLine.dofs "force") ∧ constantForce.solve.2.solution = some #[6, 7] := by
  have hforce : constantForce.force.1.toOption = some #[5] := by decide +kernel
  have hdofs : doubleLine.dofs = 2 := by decide +kernel
  refine ⟨⟨.vector #[5], component_of_force hforce, fun hsuits => ?_⟩, by decide +kernel⟩
  rw [hdofs] at hsuits
  exact absurd hsuits.2 (by decide)

end Simulation
end WeakForm
