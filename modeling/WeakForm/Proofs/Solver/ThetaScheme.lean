import WeakForm.Proofs.Mesh.Reachable
import WeakForm.Proofs.Solver.Components
import WeakForm.Proofs.Solver.Solutions
import WeakForm.Solver.Transient

/-!
# The theta scheme over the reals

A start records the initial vector, the force and the time. A step finds the vector that has the
prescribed values at the new time and satisfies the equation of the scheme elsewhere, and records it
with the force and the time.
-/

namespace WeakForm

open Matrix

namespace Number

/-- Data that are numbers can be used as such. -/
theorem exists_ofDatum {d : Datum ℝ} {x : ℝ} (h : d.number? = some x) :
    ∃ w, ofDatum d = .ok w ∧ w.IsReal ∧ w.value = x := by
  cases d with
  | flag b =>
    refine ⟨.flag b, rfl, trivial, ?_⟩
    cases b <;> simpa [Number.integerOfFlag, Datum.number?] using h
  | integer n => exact ⟨.integer n, rfl, trivial, Option.some.inj h⟩
  | real x => exact ⟨.real x, rfl, trivial, Option.some.inj h⟩
  | null => cases h
  | text s => cases h
  | list items => cases h
  | map entries => cases h

/-- Data that can be used as a number are one. -/
theorem number?_of_ofDatum {d : Datum ℝ} {w : Number ℝ} (h : ofDatum d = .ok w) :
    w.IsReal ∧ d.number? = some w.value := by
  cases d with
  | flag b =>
    cases h
    cases b <;> exact ⟨trivial, by simp [Datum.number?, integerOfFlag]⟩
  | integer n | real x =>
    cases h
    exact ⟨trivial, rfl⟩
  | null | text _ | list _ | map _ => cases h

theorem number?_toDatum {w : Number ℝ} (h : w.IsNumeric) : w.toDatum.number? = some w.value := by
  cases w with
  | flag b => cases h
  | integer n => rfl
  | real x => rfl
  | complex z => cases h

end Number

/-- The number that a setting holds. -/
noncomputable def Solver.number? (s : Solver ℝ) (setting : String) : Option ℝ :=
  (s.settings.lookup setting).bind Datum.number?

namespace Simulation

open Condition WeakForm.Partition

variable {s : Simulation ℝ} {M K : NumberMatrix ℝ}

theorem checkTime_eq {d : Datum ℝ} {t : ℝ} (h : d.number? = some t) : checkTime d = .ok () := by
  obtain ⟨w, hw, hreal, -⟩ := Number.exists_ofDatum h
  have hcheck : (Number.ofDatum d >>= fun t => t.toReal.map fun _ => ()) = .ok () := by
    rw [hw, ok_bind, Number.toReal_eq hreal]
    rfl
  cases d with
  | text _ => cases h
  | _ => exact hcheck

theorem number?_eq_some {setting : String} {x : ℝ} : s.number? setting = some x ↔
    ((s.settings.lookup setting).getD .null).number? = some x := by
  unfold Solver.number?
  cases s.settings.lookup setting <;> simp [Datum.number?]

/-- What a step is taken with: its weight and its length, the matrices and the force, and the values
that are prescribed at its end. -/
structure StepData (n : ℕ) where
  theta : ℝ
  dt : ℝ
  mass : Matrix (Fin n) (Fin n) ℝ
  stiffness : Matrix (Fin n) (Fin n) ℝ
  force : Fin n → ℝ
  values : Fin n → ℝ

namespace StepData

variable {n : ℕ}

/-- The matrix of the system of a step. -/
def matrix (e : StepData n) : Matrix (Fin n) (Fin n) ℝ := e.mass + (e.theta * e.dt) • e.stiffness

/-- The right-hand side of the system of a step after a vector and a force. -/
def load (e : StepData n) (f u : Fin n → ℝ) : Fin n → ℝ :=
  e.dt • (e.theta • e.force + (1 - e.theta) • f) +
    (e.mass - ((1 - e.theta) * e.dt) • e.stiffness) *ᵥ u

/-- Weight and length are in their ranges, and the system has one solution. -/
structure Valid (e : StepData n) (fixed : Fin n → Prop) : Prop where
  theta_nonneg : 0 ≤ e.theta
  theta_le_one : e.theta ≤ 1
  dt_pos : 0 < e.dt
  regular : IsRegular e.matrix fixed

theorem matrix_mulVec (e : StepData n) (v : Fin n → ℝ) (i : Fin n) :
    (e.matrix *ᵥ v) i = (e.mass *ᵥ v) i + e.theta * e.dt * (e.stiffness *ᵥ v) i := by
  rw [matrix, add_mulVec, smul_mulVec, Pi.add_apply, Pi.smul_apply, smul_eq_mul]

theorem load_apply (e : StepData n) (f u : Fin n → ℝ) (i : Fin n) :
    e.load f u i = e.dt * (e.theta * e.force i + (1 - e.theta) * f i) +
      ((e.mass *ᵥ u) i - (1 - e.theta) * e.dt * (e.stiffness *ᵥ u) i) := by
  simp only [load, sub_mulVec, smul_mulVec, Pi.add_apply, Pi.sub_apply, Pi.smul_apply, smul_eq_mul]

end StepData

section Systems

variable {n : ℕ} {e : StepData n} {c : Step ℝ}

/-- The weight and the length of a step as numbers. -/
structure Step.Represents (c : Step ℝ) (e : StepData n) : Prop where
  theta_isReal : c.theta.IsReal
  theta_eq : c.theta.value = e.theta
  dt_isReal : c.dt.IsReal
  dt_eq : c.dt.value = e.dt

theorem exists_step {fixed : Fin n → Prop} (he : e.Valid fixed)
    (htheta : s.number? "theta" = some e.theta) (hdt : s.number? "dt" = some e.dt) :
    ∃ c, s.step = .ok c ∧ c.Represents e := by
  have htheta := number?_eq_some.mp htheta
  have hdt := number?_eq_some.mp hdt
  obtain ⟨w, hw, hwreal, hwvalue⟩ := Number.exists_ofDatum htheta
  obtain ⟨l, hl, hlreal, hlvalue⟩ := Number.exists_ofDatum hdt
  refine ⟨⟨w, l⟩, ?_, hwreal, hwvalue, hlreal, hlvalue⟩
  have hrange : (Scalar.atMost 0 e.theta && Scalar.atMost e.theta 1) = true := by
    simp [Scalar.atMost, he.theta_nonneg, he.theta_le_one]
  have hpositive : Scalar.less 0 e.dt = true := by simp [he.dt_pos]
  unfold step
  generalize (s.settings.lookup "theta").getD .null = theta at htheta hw
  generalize (s.settings.lookup "dt").getD .null = dt at hdt hl
  dsimp only
  rw [htheta, hdt]
  cases theta with
  | null => cases htheta
  | _ =>
    cases dt with
    | null => cases hdt
    | _ => simp only [hrange, hpositive, if_true, hw, hl, ok_bind]; rfl

theorem scaleVector_eq {w : Number ℝ} (hw : w.IsReal) (u : Fin n → ℝ) :
    scaleVector w (.ofVector (Array.ofFn u)) = .ok (.ofVector (Array.ofFn (w.value • u))) := by
  have hscaled : (Array.ofFn u).map (w.value * ·) = Array.ofFn (w.value • u) := by
    rw [Array.map_ofFn]
    rfl
  rw [scaleVector, Number.toReal_eq hw, NumberArray.ofVector, NumberArray.ofVector, ← hscaled,
    ← Tensor.map_ofArray]
  rfl

theorem exists_stepMatrix (hc : c.Represents e) (hM : M.Represents e.mass)
    (hK : K.Represents e.stiffness) :
    ∃ A, stepMatrix c M K = .ok A ∧ A.Represents e.matrix := by
  obtain ⟨w, hw, hnumeric, hvalue⟩ := Number.yields_mul hc.theta_isReal hc.dt_isReal
  rw [hc.theta_eq, hc.dt_eq] at hvalue
  obtain ⟨wK, hwK, hscaled⟩ := hK.scale hnumeric.isReal
  rw [hvalue] at hscaled
  obtain ⟨A, hA, hrepresents⟩ := hM.add hscaled
  exact ⟨A, by rw [stepMatrix, hw, ok_bind, hwK, ok_bind, hA], hrepresents⟩

theorem stepForce_eq (hc : c.Represents e) (hM : M.Represents e.mass)
    (hK : K.Represents e.stiffness) (f u : Fin n → ℝ) :
    stepForce c M K (Array.ofFn e.force) (Array.ofFn f) (Array.ofFn u) =
      .ok (.ofVector (Array.ofFn (e.load f u))) := by
  have hone : (Number.integer 1 : Number ℝ).IsReal := trivial
  obtain ⟨rest, hrest, hrestNumeric, hrestValue⟩ := Number.yields_sub hone hc.theta_isReal
  rw [hc.theta_eq, Number.value_integer, Int.cast_one] at hrestValue
  obtain ⟨w, hw, hnumeric, hvalue⟩ := Number.yields_mul hrestNumeric.isReal hc.dt_isReal
  rw [hrestValue, hc.dt_eq] at hvalue
  obtain ⟨wK, hwK, hscaled⟩ := hK.scale hnumeric.isReal
  rw [hvalue] at hscaled
  obtain ⟨A, hA, hrepresents⟩ := hM.sub hscaled
  rw [stepForce, hrest, ok_bind, scaleVector_eq hc.theta_isReal, ok_bind,
    scaleVector_eq hrestNumeric.isReal, ok_bind, NumberArray.add_ofVector, ok_bind,
    scaleVector_eq hc.dt_isReal, ok_bind, hw, ok_bind, hwK, ok_bind, hA, ok_bind,
    hrepresents.apply, ok_bind, NumberArray.add_ofVector, hc.theta_eq, hc.dt_eq, hrestValue]
  rfl

end Systems

section Calls

variable {m : Mesh ℝ} {fixed : Fin m.dofs → Prop}

/-- The solver has recorded a time, a vector and a force. -/
def Remembers {n : ℕ} (s : Simulation ℝ) (t : ℝ) (u f : Fin n → ℝ) : Prop :=
  ∃ p, s.progress? = some p ∧ p.started = true ∧ p.time.number? = some t ∧
    p.solution = some (Array.ofFn u) ∧ p.force = some (Array.ofFn f)

/-- What a start is made with: the time, the initial vector, the force, and the values that are
prescribed at this time. -/
structure StartData (n : ℕ) where
  time : ℝ
  initial : Fin n → ℝ
  force : Fin n → ℝ
  values : Fin n → ℝ

/-- The time as the conditions get it at the start. -/
def startTime (s : Simulation ℝ) : Option (Datum ℝ) :=
  timeArgument ((s.settings.lookup "t0").getD .null)

/-- A transient solver on the given mesh, with the given essential degrees of freedom, is started
with these data. -/
structure StartsWith (s : Simulation ℝ) (u0 : Datum ℝ) (m : Mesh ℝ) (fixed : Fin m.dofs → Prop)
    (d : StartData m.dofs) : Prop where
  transient : ∃ p, s.scheme = .transient p
  mesh_eq : s.mesh = m
  essential_iff : ∀ i : Fin m.dofs, IsEssential m s.conditions i ↔ fixed i
  time : s.number? "t0" = some d.time
  initial : (s.initialVector u0).1 = .ok (Array.ofFn d.initial)
  force : (s.initialVector u0).2.force.1 = .ok (Array.ofFn d.force)
  values : Prescribe m s.startTime s.conditions d.values

/-- A start records the given vector with the prescribed values in place. -/
theorem StartsWith.start_eq {u0 : Datum ℝ} {d : StartData m.dofs} (h : s.StartsWith u0 m fixed d)
    (hm : m.Reachable) (hfrozen : m.frozen = true) :
    ∃ s', s.start u0 = (.ok (Array.ofFn (override fixed d.values d.initial)), s') ∧
      s'.Remembers d.time (override fixed d.values d.initial) d.force := by
  obtain ⟨p, hp⟩ := h.transient
  have htime := number?_eq_some.mp h.time
  obtain ⟨q, hq, hvalues, -⟩ := h.values.exists_applyAll hm.wellFormed hfrozen d.initial
  rw [funext fun i => propext (h.essential_iff i)] at hvalues
  have hkept := s.keeps_initialVector u0
  have hprogress : s.progress? = some p := by rw [progress?, hp]
  have hinitial := h.initial
  have hforce := h.force
  rw [startTime] at hq
  unfold start
  simp only [hprogress]
  generalize s.initialVector u0 = result at hinitial hforce hkept
  obtain ⟨x, s₁⟩ := result
  dsimp only at hinitial hforce hkept
  rw [hinitial]
  simp only [hkept.settings_eq, hkept.mesh_eq, hkept.conditions_eq, h.mesh_eq, hq,
    force_withProgress, hforce, hvalues, checkTime_eq htime]
  exact ⟨_, rfl, _, rfl, rfl, htime, rfl, rfl⟩

/-- The time at the end of the next step. -/
noncomputable def nextTime (s : Simulation ℝ) : Option (Datum ℝ) := do
  let p ← s.progress?
  let c ← s.step.toOption
  let time ← ((Number.ofDatum p.time).bind fun t => t.add c.dt).toOption
  pure time.toDatum

theorem nextTime_eq {p : Progress ℝ} {c : Step ℝ} {t time : Number ℝ} (hp : s.progress? = some p)
    (hstep : s.step = .ok c) (ht : Number.ofDatum p.time = .ok t) (htime : t.add c.dt = .ok time) :
    s.nextTime = some time.toDatum := by
  have hsum : ((Number.ofDatum p.time).bind fun t => t.add c.dt) = .ok time := by
    rw [ht]
    exact htime
  simp only [nextTime, hp, hstep, Option.bind_eq_bind, Option.bind_some, Except.toOption, hsum]
  rfl

/-- A step of a transient solver on the given mesh, with the given essential degrees of freedom, is
taken with these data, wherever the solver takes its matrices and its force from. -/
structure StepsWith (s : Simulation ℝ) (m : Mesh ℝ) (fixed : Fin m.dofs → Prop)
    (e : StepData m.dofs) : Prop where
  mesh_eq : s.mesh = m
  essential_iff : ∀ i : Fin m.dofs, IsEssential m s.conditions i ↔ fixed i
  theta : s.number? "theta" = some e.theta
  dt : s.number? "dt" = some e.dt
  components : ∃ M K, s.stepComponents.1 = .ok (M, K, Array.ofFn e.force) ∧ M.Represents e.mass ∧
    K.Represents e.stiffness
  values : Prescribe m s.nextTime s.conditions e.values

/-- A step records the solution of its system, the force and the time. -/
theorem StepsWith.advance_eq {e : StepData m.dofs} {t : ℝ} {u f : Fin m.dofs → ℝ}
    (h : s.StepsWith m fixed e) (hm : m.Reachable) (hfrozen : m.frozen = true)
    (he : e.Valid fixed) (hs : s.Remembers t u f) :
    ∃ v s', s.advance = (.ok (Array.ofFn v), s') ∧ s'.Remembers (t + e.dt) v e.force ∧
      IsSolution e.matrix (e.load f u) e.values fixed v := by
  obtain ⟨p, hp, hstarted, htime, hu, hf⟩ := hs
  obtain ⟨c, hc, hrepresents⟩ := exists_step he h.theta h.dt
  obtain ⟨M, K, hcomponents, hM, hK⟩ := h.components
  obtain ⟨A, hA, hAe⟩ := exists_stepMatrix hrepresents hM hK
  -- the new time
  obtain ⟨old, hold, holdReal, holdValue⟩ := Number.exists_ofDatum htime
  obtain ⟨time, hadd, htimeNumeric, htimeValue⟩ := Number.yields_add holdReal hrepresents.dt_isReal
  rw [holdValue, hrepresents.dt_eq] at htimeValue
  have hsum : ((Number.ofDatum p.time).bind fun t => t.add c.dt) = .ok time := by
    rw [hold]
    exact hadd
  have hnumber := Number.number?_toDatum htimeNumeric
  rw [htimeValue] at hnumber
  -- the system
  have hfixed : (fun i : Fin m.dofs => IsEssential m s.conditions i) = fixed :=
    funext fun i => propext (h.essential_iff i)
  have hprescribe := h.values
  rw [nextTime_eq hp hc hold hadd] at hprescribe
  obtain ⟨zero, q, v, hzero, hq, hv, hsolution⟩ :=
    hprescribe.exists_solution hm.wellFormed hfrozen hAe (hfixed ▸ he.regular) (e.load f u)
  rw [hfixed] at hsolution
  have hkept := s.keeps_stepComponents
  unfold advance
  simp only [hp, hstarted, hc, Bool.not_true, Bool.false_eq_true, if_false]
  generalize s.stepComponents = result at hcomponents hkept
  obtain ⟨components, s₁⟩ := result
  dsimp only at hcomponents hkept
  have hstep : s₁.stepSolution c time M K (Array.ofFn e.force) (Array.ofFn f) (Array.ofFn u) =
      .ok (Array.ofFn v) := by
    rw [stepSolution, hA, ok_bind, stepForce_eq hrepresents hM hK, ok_bind, hkept.mesh_eq,
      hkept.conditions_eq, h.mesh_eq, hzero, ok_bind, hq, ok_bind, hv]
  simp only [hcomponents, hsum, hf, hu, Option.getD_some, hstep, checkTime_eq hnumber]
  exact ⟨v, _, rfl, ⟨_, rfl, rfl, hnumber, rfl, rfl⟩, hsolution⟩

end Calls

end Simulation
end WeakForm
