import WeakForm.Proofs.RealScalar
import WeakForm.Proofs.Formulation.Registry
import WeakForm.Proofs.Mesh.Boundaries
import WeakForm.Proofs.Solver.Steady
import WeakForm.Session

/-!
# Steady problems from their weak forms

Nothing that a fresh solver works with has been assembled yet: its matrix and its force are switched
off, or they are entries of its formulation without a value. What it solves is then posed by what is
assembled on its mesh.

A steady problem is given by its constants, the weak form of its matrix, perhaps that of a force, and
its conditions. Its solver is built by registering them one after the other on a frozen mesh. If the
matrix and the force can be assembled, they are what the solver works with.
-/

namespace WeakForm

section Sources

variable {α : Type} [Scalar α]

/-- The matrix of a kernel over the mesh or one of its boundaries; without a kernel it is zero. -/
def Mesh.assembledMatrix (m : Mesh α) :
    Option (Kernel α × Option TagId) → Except (Error α) (SparseMatrix α)
  | none => m.zeroMatrix
  | some (k, boundary) => Assembly.matrix m k boundary .triplet

/-- The vector of a kernel over the mesh or one of its boundaries; without a kernel it is zero. -/
def Mesh.assembledVector (m : Mesh α) :
    Option (Kernel α × Option TagId) → Except (Error α) (Array α)
  | none => m.zeroVector
  | some (k, boundary) => Assembly.vector m k boundary

/-- A component is switched off, or it is an entry of the formulation that has no value yet. -/
inductive Simulation.Takes (s : Simulation α) (which : String) (kind : EntryKind) :
    Option (Kernel α × Option TagId) → Prop
  | off (h : s.isDisabled which = true) : Takes s which kind none
  | entry {sys : Formulation α} {name : String} {k : Kernel α} {boundary : Option TagId}
      (hon : s.isDisabled which = false) (hnew : s.components.lookup which = none)
      (hname : s.settings.lookup which = some (.text name)) (hsys : s.formulation = some sys)
      (hmethod : kind = .matrix → sys.method = .triplet) (hconstant : sys.constants.lookup name = none)
      (hentry : sys.entries.lookup name = some ⟨kind, k, boundary, none⟩) :
      Takes s which kind (some (k, boundary))

end Sources

namespace Formulation

variable {sys : Formulation ℝ} {m : Mesh ℝ} {name : String} {e : Entry ℝ} {v : Assembled ℝ}

/-- The formulation with a value for one of its entries. -/
def keepValue (sys : Formulation ℝ) (name : String) (e : Entry ℝ) (v : Assembled ℝ) : Formulation ℝ :=
  { sys with entries := assign name { e with value := some v } sys.entries }

/-- An entry without a value is assembled and keeps what comes out. -/
theorem obtain_eq_ok (hconstant : sys.constants.lookup name = none)
    (hentry : sys.entries.lookup name = some e) (hnew : e.value = none)
    (hv : sys.evaluate m e = .ok v) :
    sys.obtain m (.text name) = (.ok (.assembled v), sys.keepValue name e v) := by
  have hget : sys.get (.text name) = .ok (.entry none) := by
    simp [get, Datum.toName, hconstant, hentry, hnew, pure, Except.pure]
  simp only [obtain, hget, assemble, entry_text hentry, hv, Except.map, keepValue]

end Formulation

namespace Simulation

variable {s : Simulation ℝ} {sys sys' : Formulation ℝ} {which name : String}
  {kind : EntryKind} {form : Option (Kernel ℝ × Option TagId)}

/-- The solver after a component has been taken from its formulation. -/
def keepComponent (s : Simulation ℝ) (sys : Formulation ℝ) (which : String) (c : Component ℝ) :
    Simulation ℝ :=
  { s with formulation := some sys, components := assign which c s.components }

/-- A component that is on and not there yet comes from the formulation. -/
theorem component_eq_ok {source : Source ℝ} {c : Component ℝ} (hon : s.isDisabled which = false)
    (hnew : s.components.lookup which = none) (hname : s.settings.lookup which = some (.text name))
    (hsys : s.formulation = some sys)
    (hobtain : sys.obtain s.mesh (.text name) = (.ok source, sys'))
    (hc : source.toComponent which = .ok c) :
    s.component which = (.ok c, s.keepComponent sys' which c) := by
  have hbind : (Except.ok source).bind (Source.toComponent which) = .ok c := hc
  simp only [component, hon, hnew, hname, fetch, hsys, hobtain, hbind, keepComponent,
    Bool.false_eq_true, if_false]

/-- Assembling one component leaves one of another kind as fresh as it was. -/
theorem Takes.keepComponent (h : s.Takes which kind form) (hsys : s.formulation = some sys)
    {which' name' : String} {e : Entry ℝ} {v : Assembled ℝ} {c : Component ℝ}
    (hentry' : sys.entries.lookup name' = some e) (hne : which ≠ which') (hkind : e.kind ≠ kind) :
    (s.keepComponent (sys.keepValue name' e v) which' c).Takes which kind form := by
  cases h with
  | off hoff => exact .off hoff
  | @entry sys₀ name k boundary hon hnew hname hsys₀ hmethod hconstant hentry =>
    obtain rfl : sys₀ = sys := Option.some.inj (hsys₀.symm.trans hsys)
    have hnames : name ≠ name' := by
      rintro rfl
      rw [hentry'] at hentry
      exact hkind (congrArg Entry.kind (Option.some.inj hentry))
    refine .entry hon ?_ hname rfl hmethod hconstant ?_
    · change (assign which' c s.components).lookup which = none
      rw [lookup_assign, if_neg (by simpa using hne), hnew]
    · change (assign name' _ sys₀.entries).lookup name = _
      rw [lookup_assign, if_neg (by simpa using hnames), hentry]

/-- The matrix is assembled on the mesh of the solver, and the force stays as fresh as it was. -/
theorem Takes.exists_matrix (h : s.Takes "stiffness" .matrix form) {A : SparseMatrix ℝ}
    (hA : s.mesh.assembledMatrix form = .ok A) :
    ∃ s', s.matrix "stiffness" = (.ok (.reals A), s') ∧
      ∀ form', s.Takes "force" .vector form' → s'.Takes "force" .vector form' := by
  cases h with
  | off hoff =>
    refine ⟨s, ?_, fun _ h => h⟩
    simp only [Simulation.matrix, component, hoff, if_true, zeroComponent]
    rw [show s.mesh.zeroMatrix = .ok A from hA]
    rfl
  | @entry sys name k boundary hon hnew hname hsys hmethod hconstant hentry =>
    have hvalue : sys.evaluate s.mesh ⟨.matrix, k, boundary, none⟩ = .ok (.matrix A) :=
      Formulation.evaluate_eq_ok.mpr (.matrix rfl (by rw [hmethod rfl]; exact hA))
    have hobtain := Formulation.obtain_eq_ok hconstant hentry rfl hvalue
    have hc := component_eq_ok hon hnew hname hsys hobtain (c := .matrix (.reals A)) rfl
    refine ⟨_, by rw [Simulation.matrix, hc]; rfl, fun form' hforce => ?_⟩
    exact hforce.keepComponent hsys hentry (by decide) fun hkind => by cases hkind

/-- The force is assembled on the mesh of the solver. -/
theorem Takes.exists_force (h : s.Takes "force" .vector form) {v : Array ℝ}
    (hv : s.mesh.assembledVector form = .ok v) : ∃ s', s.force = (.ok v, s') := by
  cases h with
  | off hoff =>
    refine ⟨s, ?_⟩
    simp only [force, component, hoff, if_true, zeroComponent]
    rw [show s.mesh.zeroVector = .ok v from hv]
    rfl
  | @entry sys name k boundary hon hnew hname hsys hmethod hconstant hentry =>
    have hvalue : sys.evaluate s.mesh ⟨.vector, k, boundary, none⟩ = .ok (.vector v) :=
      Formulation.evaluate_eq_ok.mpr (.vector rfl hv)
    have hobtain := Formulation.obtain_eq_ok hconstant hentry rfl hvalue
    have hc := component_eq_ok hon hnew hname hsys hobtain (c := .vector v) rfl
    exact ⟨_, by rw [force, hc]; rfl⟩

/-- A fresh solver solves the system that is assembled on its mesh. -/
theorem posesSteady_of_takes {m : Mesh ℝ} {form' : Option (Kernel ℝ × Option TagId)}
    (hmesh : s.mesh = m) (hmatrix : s.Takes "stiffness" .matrix form)
    (hforce : s.Takes "force" .vector form')
    {A : SparseMatrix ℝ} (hA : m.assembledMatrix form = .ok A) (hrows : A.rows = m.dofs)
    (hcols : A.cols = m.dofs) {f : Fin m.dofs → ℝ}
    (hf : m.assembledVector form' = .ok (Array.ofFn f)) :
    s.PosesSteady m s.conditions (A.matrix m.dofs) f := by
  subst hmesh
  obtain ⟨s₁, hs₁, htakes⟩ := hmatrix.exists_matrix hA
  have hmesh₁ : s₁.mesh = s.mesh := by
    have hkeeps := s.keeps_matrix "stiffness"
    rw [hs₁] at hkeeps
    exact hkeeps.mesh_eq
  obtain ⟨s₂, hs₂⟩ := (htakes form' hforce).exists_force (by rw [hmesh₁]; exact hf)
  exact ⟨rfl, rfl, .reals A, s₁, s₂, hs₁, NumberMatrix.represents_reals hrows hcols, hs₂⟩

end Simulation

open Condition WeakForm.Partition

/-- A steady problem. Without a force the force is switched off. -/
structure SteadyProblem where
  constants : List (String × Datum ℝ)
  stiffness : String
  /-- The weak form of the force, and the boundary over which it is integrated if not over all cells. -/
  force : Option (String × Option TagId)
  conditions : List (Condition ℝ)

namespace SteadyProblem

/-- The formulation of the problem: the matrix is `K`, the force `f`. -/
noncomputable def formulation (p : SteadyProblem) (m : Mesh ℝ) :
    Except (Error ℝ) (Formulation ℝ) := do
  let empty ← Formulation.ofNamed m []
  let constants ← p.constants.foldlM (fun s c => s.addConstant c.1 c.2) empty
  let stiffness ← constants.addEntry m .matrix "K" (.form (.text p.stiffness)) none
  match p.force with
  | some (text, boundary) => stiffness.addEntry m .vector "f" (.form (.text text)) boundary
  | none => pure stiffness

/-- The solver of the problem. -/
noncomputable def solver (p : SteadyProblem) (m : Mesh ℝ) : Except (Error ℝ) (Simulation ℝ) := do
  let formulation ← p.formulation m
  let settings ← Settings.ofNamed .steady
    (if p.force.isNone then [("disable_force", .flag true)] else [])
  let s ← Simulation.make m (some formulation) .steady settings []
  p.conditions.foldlM Simulation.addCondition s

/-- The constants as definitions. -/
def definitions (values : List (String × Value ℝ)) : Definitions ℝ :=
  values.map fun v => (v.1, .constant v.2)

/-- Constants with new names and the given values. -/
structure AreConstants (constants : List (String × Datum ℝ)) (values : List (String × Value ℝ)) :
    Prop where
  values_eq : List.Forall₂ (fun c v => c.1 = v.1 ∧ (∀ text, c.2 ≠ .text text) ∧
    Definition.valueOfData c.2 = .ok v.2) constants values
  valid : ∀ v ∈ values, Names.isValid v.1 = true ∧ Names.isReserved v.1 = false
  nodup : (values.map Prod.fst).Nodup
  new : ∀ v ∈ values, v.1 ≠ "K" ∧ v.1 ≠ "f"

variable {m : Mesh ℝ} {constants : List (String × Datum ℝ)} {values : List (String × Value ℝ)}

/-- Numbers with names are constants. -/
theorem areConstants_reals (named : List (String × ℝ))
    (hvalid : ∀ name ∈ named.map Prod.fst, Names.isValid name = true ∧ Names.isReserved name = false)
    (hnodup : (named.map Prod.fst).Nodup)
    (hnew : ∀ name ∈ named.map Prod.fst, name ≠ "K" ∧ name ≠ "f") :
    AreConstants (named.map fun c => (c.1, .real c.2)) (named.map fun c => (c.1, .plain (.real c.2))) where
  values_eq := by
    rw [List.forall₂_map_left_iff, List.forall₂_map_right_iff]
    exact List.forall₂_same.mpr fun _ _ => ⟨rfl, fun _ => nofun, rfl⟩
  valid := by
    rw [List.forall_mem_map]
    exact fun c hc => hvalid _ (List.mem_map_of_mem hc)
  nodup := by rwa [List.map_map]
  new := by
    rw [List.forall_mem_map]
    exact fun c hc => hnew _ (List.mem_map_of_mem hc)

/-- The matrix of a problem and its force may refer to the constants by their names. -/
theorem AreConstants.areNamed (h : AreConstants constants values) (k : Kernel ℝ) :
    (definitions values).AreNamed ∧
      Definitions.AreNamed (definitions values ++ [("K", .kernel k)]) := by
  have hconstants : (definitions values).AreNamed := by
    intro d hd
    obtain ⟨v, hv, rfl⟩ := List.mem_map.mp hd
    exact ⟨(h.valid v hv).1, (h.valid v hv).2, rfl⟩
  refine ⟨hconstants, fun d hd => ?_⟩
  rcases List.mem_append.mp hd with hd | hd
  · exact hconstants d hd
  · obtain rfl := List.mem_singleton.mp hd
    have hname : Names.isValid "K" = true ∧ Names.isReserved "K" = false := by decide
    exact ⟨hname.1, hname.2, rfl⟩

theorem lookup_eq_none {β : Type} {name : String} {entries : List (String × β)}
    (h : name ∉ entries.map Prod.fst) : entries.lookup name = none := by
  refine List.lookup_eq_none_iff.mpr fun e he => ?_
  simpa using fun heq : name = e.1 => h (heq ▸ List.mem_map_of_mem he)

/-- A valid name that has no meaning may be given one. -/
theorem checkNew_of_new {s : Formulation ℝ} {name : String} (hvalid : Names.isValid name = true)
    (hreserved : Names.isReserved name = false) (hconstants : name ∉ s.constants.map Prod.fst)
    (hentries : name ∉ s.entries.map Prod.fst) (kind : NameKind) : s.checkNew name kind = .ok () := by
  have hkind : s.nameKind? name = none := by
    rw [Formulation.nameKind?, lookup_eq_none hconstants, lookup_eq_none hentries]
    rfl
  exact Formulation.checkNew_eq_ok.mpr
    ⟨Formulation.check_eq_ok.mpr ⟨hreserved, hvalid⟩, by simp [hkind]⟩

/-- A new name becomes a constant. -/
theorem addConstant_eq_ok {s : Formulation ℝ} (hentries : s.entries = []) {name : String}
    {d : Datum ℝ} {v : Value ℝ} (hvalid : Names.isValid name = true)
    (hreserved : Names.isReserved name = false) (hnew : name ∉ s.constants.map Prod.fst)
    (htext : ∀ text, d ≠ .text text) (hd : Definition.valueOfData d = .ok v) :
    s.addConstant name d = .ok { s with constants := s.constants ++ [(name, v)] } := by
  have hvalue : s.constantValue d = .ok v := (Formulation.constantValue_of_datum htext).trans hd
  have hcheck := checkNew_of_new hvalid hreserved hnew (by simp [hentries]) .constant
  rw [Formulation.addConstant_eq_ok.mpr ⟨hcheck, v, hvalue, rfl⟩,
    assign_of_lookup_eq_none (lookup_eq_none hnew)]

theorem foldlM_addConstant (h : AreConstants constants values) {s : Formulation ℝ}
    (hentries : s.entries = [])
    (hnew : ∀ v ∈ values, v.1 ∉ s.constants.map Prod.fst) :
    constants.foldlM (fun s c => s.addConstant c.1 c.2) s =
      .ok { s with constants := s.constants ++ values } := by
  obtain ⟨hvalues, hvalid, hnodup, -⟩ := h
  induction hvalues generalizing s with
  | nil => simp [pure, Except.pure]
  | @cons c v constants values hcv _ ih =>
    obtain ⟨hname, htext, hd⟩ := hcv
    obtain ⟨hvalidv, hvalid⟩ := List.forall_mem_cons.mp hvalid
    obtain ⟨hnewv, hnew⟩ := List.forall_mem_cons.mp hnew
    obtain ⟨hnotin, hnodup⟩ := List.nodup_cons.mp hnodup
    have hnext : ∀ w ∈ values, w.1 ∉ (s.constants ++ [(v.1, v.2)]).map Prod.fst := by
      intro w hw hmem
      rw [List.map_append, List.mem_append, List.map_singleton, List.mem_singleton] at hmem
      rcases hmem with hmem | hmem
      · exact hnew w hw hmem
      · exact hnotin (hmem ▸ List.mem_map_of_mem hw)
    rw [List.foldlM_cons, hname, addConstant_eq_ok hentries hvalidv.1 hvalidv.2 hnewv htext hd, ok_bind,
      ih (s := { s with constants := s.constants ++ [(v.1, v.2)] }) hentries hnext hvalid hnodup]
    simp

section Entries

variable {s : Formulation ℝ} {kind : EntryKind} {name text : String} {boundary : Option TagId}
  {k : Kernel ℝ}

/-- A new name becomes a matrix or a vector. -/
theorem addEntry_eq_ok (hvalid : Names.isValid name = true) (hreserved : Names.isReserved name = false)
    (hconstants : name ∉ s.constants.map Prod.fst) (hentries : name ∉ s.entries.map Prod.fst)
    (hboundary : ∀ tag, boundary = some tag → ∃ r, m.boundary tag = .ok r)
    (hk : Kernel.compile name text s.definitions = .ok k) :
    s.addEntry m kind name (.form (.text text)) boundary =
      .ok { s with entries := s.entries ++ [(name, ⟨kind, k, boundary, none⟩)] } := by
  have hcheck := checkNew_of_new hvalid hreserved hconstants hentries kind.toNameKind
  rw [← assign_of_lookup_eq_none (lookup_eq_none hentries)]
  exact Formulation.addEntry_eq_ok.mpr ⟨hcheck, hboundary, k, hk, rfl⟩

end Entries

/-- The force of a problem: none at all, or the vector of its weak form. -/
def IsForce (p : SteadyProblem) (m : Mesh ℝ) (defs : Definitions ℝ) (f : Fin m.dofs → ℝ) : Prop :=
  match p.force with
  | none => f = 0
  | some (text, boundary) => ∃ l, Kernel.compile "f" text defs = .ok l ∧
      (∀ tag, boundary = some tag → ∃ r, m.boundary tag = .ok r) ∧
      Assembly.vector m l boundary = .ok (Array.ofFn f)

variable {p : SteadyProblem} {k : Kernel ℝ} {A : SparseMatrix ℝ} {f : Fin m.dofs → ℝ}

/-- The formulation of a problem. -/
theorem exists_formulation (hfrozen : m.frozen = true) (hconstants : AreConstants p.constants values)
    (hk : Kernel.compile "K" p.stiffness (definitions values) = .ok k)
    (hf : p.IsForce m (definitions values ++ [("K", .kernel k)]) f) :
    ∃ rest, p.formulation m = .ok ⟨.triplet, values, ("K", ⟨.matrix, k, none, none⟩) :: rest⟩ ∧
      match p.force with
      | none => f = 0
      | some (_, boundary) => ∃ l, rest = [("f", ⟨.vector, l, boundary, none⟩)] ∧
          Assembly.vector m l boundary = .ok (Array.ofFn f) := by
  have hempty : Formulation.ofNamed m [] = .ok ⟨.triplet, [], []⟩ := by
    simp only [Formulation.ofNamed, Formulation.make, hfrozen, if_true]
    rfl
  have hnames (name : String) (hname : name = "K" ∨ name = "f") : name ∉ values.map Prod.fst := by
    intro hmem
    obtain ⟨v, hv, rfl⟩ := List.mem_map.mp hmem
    obtain ⟨hK, hf⟩ := hconstants.new v hv
    exact hname.elim hK hf
  have hadded := foldlM_addConstant hconstants (s := ⟨.triplet, [], []⟩) rfl (by simp)
  have hstiffness : Formulation.addEntry ⟨.triplet, values, []⟩ m .matrix "K"
      (.form (.text p.stiffness)) none =
        .ok ⟨.triplet, values, [("K", ⟨.matrix, k, none, none⟩)]⟩ :=
    addEntry_eq_ok (by decide) (by decide) (hnames _ (.inl rfl)) (by simp) (by simp)
      (by simpa [Formulation.definitions, definitions] using hk)
  unfold formulation
  rw [hempty, ok_bind, hadded, ok_bind, List.nil_append, hstiffness, ok_bind]
  unfold IsForce at hf
  cases hforce : p.force with
  | none =>
    rw [hforce] at hf
    exact ⟨[], rfl, hf⟩
  | some source =>
    rw [hforce] at hf
    obtain ⟨text, boundary⟩ := source
    obtain ⟨l, hl, hboundary, hvector⟩ := hf
    dsimp only
    rw [addEntry_eq_ok (by decide) (by decide) (hnames _ (.inr rfl)) (by simp) hboundary hl]
    exact ⟨_, rfl, l, rfl, hvector⟩

/-- The settings of the solver of a problem. -/
def settings (withoutForce : Bool) : Settings ℝ :=
  [("stiffness", .text "K"), ("force", .text "f"), ("disable_force", .flag withoutForce)]

theorem foldlM_addCondition (s : Simulation ℝ) (conditions : List (Condition ℝ))
    (h : ∀ c ∈ conditions, ∃ ids, s.mesh.getNodeIds c.tag = .ok ids) :
    conditions.foldlM Simulation.addCondition s =
      .ok { s with conditions := s.conditions ++ conditions } := by
  induction conditions generalizing s with
  | nil => simp [pure, Except.pure]
  | cons c conditions ih =>
    obtain ⟨⟨ids, hids⟩, h⟩ := List.forall_mem_cons.mp h
    have hadd : s.addCondition c = .ok { s with conditions := s.conditions ++ [c] } := by
      rw [Simulation.addCondition, hids]
      rfl
    rw [List.foldlM_cons, hadd, ok_bind, ih { s with conditions := s.conditions ++ [c] } h]
    simp

/-- The solver of a problem works with its matrix and its force. -/
theorem exists_solver (hfrozen : m.frozen = true) (hconstants : AreConstants p.constants values)
    (hk : Kernel.compile "K" p.stiffness (definitions values) = .ok k)
    (hA : Assembly.matrix m k none .triplet = .ok A) (hrows : A.rows = m.dofs) (hcols : A.cols = m.dofs)
    (hf : p.IsForce m (definitions values ++ [("K", .kernel k)]) f)
    (hconditions : ∀ c ∈ p.conditions, ∃ ids, m.getNodeIds c.tag = .ok ids) :
    ∃ s, p.solver m = .ok s ∧ s.PosesSteady m p.conditions (A.matrix m.dofs) f := by
  obtain ⟨rest, hformulation, hrest⟩ := exists_formulation hfrozen hconstants hk hf
  have hsettings : Settings.ofNamed .steady
      (if p.force.isNone then [("disable_force", .flag true)] else []) =
        (.ok (settings p.force.isNone) : Except (Error ℝ) (Settings ℝ)) := by
    cases p.force <;> rfl
  let entries := ("K", (⟨.matrix, k, none, none⟩ : Entry ℝ)) :: rest
  let s : Simulation ℝ :=
    { settings := settings p.force.isNone
      conditions := p.conditions
      components := []
      solution := none
      scheme := .steady none
      mesh := m
      formulation := some ⟨.triplet, values, entries⟩ }
  have hsolver : p.solver m = .ok s := by
    unfold solver
    rw [hformulation, ok_bind, hsettings, ok_bind]
    exact foldlM_addCondition { s with conditions := [] } p.conditions hconditions
  have hnew (name : String) (hname : name = "K" ∨ name = "f") : values.lookup name = none := by
    refine lookup_eq_none fun hmem => ?_
    obtain ⟨v, hv, rfl⟩ := List.mem_map.mp hmem
    exact hname.elim (hconstants.new v hv).1 (hconstants.new v hv).2
  have hmatrix : s.Takes "stiffness" .matrix (some (k, none)) :=
    .entry rfl rfl rfl rfl (fun _ => rfl) (hnew _ (.inl rfl)) rfl
  have hdisabled : s.isDisabled "force" = p.force.isNone := rfl
  obtain ⟨source, hforce, hvector⟩ : ∃ source, s.Takes "force" .vector source ∧
      m.assembledVector source = .ok (Array.ofFn f) := by
    cases hsource : p.force with
    | none =>
      rw [hsource] at hrest hdisabled
      exact ⟨none, .off hdisabled, hrest ▸ m.zeroVector_eq⟩
    | some source =>
      rw [hsource] at hrest hdisabled
      obtain ⟨l, hl, hvector⟩ := hrest
      refine ⟨some (l, source.2),
        .entry hdisabled rfl rfl rfl (fun _ => rfl) (hnew _ (.inr rfl)) ?_, hvector⟩
      rw [show entries.lookup "f" = rest.lookup "f" from rfl, hl]
      rfl
  exact ⟨s, hsolver, Simulation.posesSteady_of_takes rfl hmatrix hforce hA hrows hcols hvector⟩

/-- The solver of the problem is built, its reduced matrix is nonsingular, and it returns the given
vector. -/
def IsSolvedBy (p : SteadyProblem) (m : Mesh ℝ) (u : Array ℝ) : Prop :=
  ∃ (s : Simulation ℝ) (K : Matrix (Fin m.dofs) (Fin m.dofs) ℝ) (f : Fin m.dofs → ℝ),
    p.solver m = .ok s ∧ s.PosesSteady m p.conditions K f ∧
      IsRegular K (fun d => IsEssential m p.conditions d) ∧ s.solveSteady.1 = .ok u

/-- A problem is solved by the solution of its partitioned system. -/
theorem isSolvedBy (hm : m.Reachable) (hfrozen : m.frozen = true)
    (hconstants : AreConstants p.constants values)
    (hk : Kernel.compile "K" p.stiffness (definitions values) = .ok k)
    (hA : Assembly.matrix m k none .triplet = .ok A)
    (hf : p.IsForce m (definitions values ++ [("K", .kernel k)]) f)
    (hconditions : ∀ c ∈ p.conditions, c.Applicable m none)
    (hregular : IsRegular (A.matrix m.dofs) fun d => IsEssential m p.conditions d)
    {u : Fin m.dofs → ℝ} (hu : IsSolution (A.matrix m.dofs) f
      (fun d => prescribedValue m none p.conditions d) (fun d => IsEssential m p.conditions d) u) :
    p.IsSolvedBy m (Array.ofFn u) := by
  have hover := Assembly.isMatrixOver_cells (Assembly.inRange hm hfrozen) hA
  have hids : ∀ c ∈ p.conditions, ∃ ids, m.getNodeIds c.tag = .ok ids := by
    intro c hc
    obtain ⟨⟨_, hvalues⟩, -⟩ := hconditions c hc
    obtain ⟨ids, hids, -⟩ := bind_eq_ok.mp hvalues
    exact ⟨ids, hids⟩
  obtain ⟨s, hs, hposes⟩ := exists_solver hfrozen hconstants hk hA hover.rows hover.cols hf hids
  exact ⟨s, _, f, hs, hposes, hregular,
    hposes.solveSteady_eq hm hfrozen hconditions hregular hu⟩

end SteadyProblem
end WeakForm
