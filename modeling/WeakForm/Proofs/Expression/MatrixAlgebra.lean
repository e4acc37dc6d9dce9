import WeakForm.Proofs.Expression.Evaluating
import WeakForm.Proofs.Expression.References
import WeakForm.Proofs.Value.MatrixArithmetic

/-!
# Expressions in matrix algebra

An expression whose names stand for matrices denotes a matrix if its operations can be carried out by
the rules of matrix algebra. Numbers are matrices with one entry. Such an expression can be evaluated,
and its value holds the matrix that it denotes.
-/

namespace WeakForm
namespace Expr

/-- The matrix that an expression denotes when its names stand for the given ones. A factor with one
entry may be taken for a number on either side of a product, and wherever the sizes fit for a matrix. -/
inductive Denotes (meaning : String → SizedMatrix) : Expr → SizedMatrix → Prop
  | number (d : Decimal) :
      Denotes meaning (.number d) (.scalar (d.mantissa * (10 : ℝ) ^ d.exponent))
  | symbol (name : String) : Denotes meaning (.symbol name) (meaning name)
  /-- Entries of a literal are blocks. A row is given by its entries, each with the block that it
  denotes. -/
  | array {rows : List (List (Expr × SizedMatrix))} {M : SizedMatrix}
      (h : ∀ row ∈ rows, ∀ c ∈ row, Denotes meaning c.1 c.2)
      (hM : SizedMatrix.IsBlock (rows.map fun row => row.map Prod.snd) M) :
      Denotes meaning (.array (rows.map fun row => row.map Prod.fst)) M
  | plus {e : Expr} {M : SizedMatrix} (h : Denotes meaning e M) : Denotes meaning (.sign .plus e) M
  | minus {m n : ℕ} {e : Expr} {A : Matrix (Fin m) (Fin n) ℝ} (h : Denotes meaning e ⟨m, n, A⟩) :
      Denotes meaning (.sign .minus e) ⟨m, n, -A⟩
  | transpose {m n : ℕ} {e : Expr} {A : Matrix (Fin m) (Fin n) ℝ} (h : Denotes meaning e ⟨m, n, A⟩) :
      Denotes meaning (.transpose e) ⟨n, m, A.transpose⟩
  | add {m n : ℕ} {a b : Expr} {A B : Matrix (Fin m) (Fin n) ℝ} (ha : Denotes meaning a ⟨m, n, A⟩)
      (hb : Denotes meaning b ⟨m, n, B⟩) : Denotes meaning (.binary .add a b) ⟨m, n, A + B⟩
  | sub {m n : ℕ} {a b : Expr} {A B : Matrix (Fin m) (Fin n) ℝ} (ha : Denotes meaning a ⟨m, n, A⟩)
      (hb : Denotes meaning b ⟨m, n, B⟩) : Denotes meaning (.binary .sub a b) ⟨m, n, A - B⟩
  | scalar_mul {m n : ℕ} {a b : Expr} {x : ℝ} {A : Matrix (Fin m) (Fin n) ℝ}
      (ha : Denotes meaning a (.scalar x)) (hb : Denotes meaning b ⟨m, n, A⟩) :
      Denotes meaning (.binary .mul a b) ⟨m, n, x • A⟩
  | mul_scalar {m n : ℕ} {a b : Expr} {x : ℝ} {A : Matrix (Fin m) (Fin n) ℝ}
      (ha : Denotes meaning a ⟨m, n, A⟩) (hb : Denotes meaning b (.scalar x)) :
      Denotes meaning (.binary .mul a b) ⟨m, n, x • A⟩
  | mul {m k n : ℕ} {a b : Expr} {A : Matrix (Fin m) (Fin k) ℝ} {B : Matrix (Fin k) (Fin n) ℝ}
      (ha : Denotes meaning a ⟨m, k, A⟩) (hb : Denotes meaning b ⟨k, n, B⟩) :
      Denotes meaning (.binary .mul a b) ⟨m, n, A * B⟩
  | div {m n : ℕ} {a b : Expr} {x : ℝ} {A : Matrix (Fin m) (Fin n) ℝ}
      (ha : Denotes meaning a ⟨m, n, A⟩) (hb : Denotes meaning b (.scalar x)) (hx : x ≠ 0) :
      Denotes meaning (.binary .div a b) ⟨m, n, x⁻¹ • A⟩
  /-- The power of a number is real unless zero has a negative exponent or a negative number a
  fractional one. -/
  | scalar_pow {a b : Expr} {x y : ℝ} (ha : Denotes meaning a (.scalar x))
      (hb : Denotes meaning b (.scalar y)) (hzero : x = 0 → 0 ≤ y)
      (hneg : x < 0 → ∃ p : ℤ, (p : ℝ) = y) :
      Denotes meaning (.binary .pow a b) (.scalar (x ^ y))
  | pow {n : ℕ} {a b : Expr} {p : ℤ} {A : Matrix (Fin n) (Fin n) ℝ}
      (ha : Denotes meaning a ⟨n, n, A⟩) (hb : Denotes meaning b (.scalar p))
      (hA : p < 0 → IsUnit A.det) : Denotes meaning (.binary .pow a b) ⟨n, n, A ^ p⟩

variable {meaning : String → SizedMatrix} {resolve : String → Except (Error ℝ) (Value ℝ)} {e : Expr}
  {M : SizedMatrix}

section Operations

variable {a b : Expr} {X Y : SizedMatrix}

/-- An operation on the values of its operands. -/
theorem gives_binary {op : Operation} (ha : Value.Gives (a.eval resolve) X)
    (hb : Value.Gives (b.eval resolve) Y)
    (hop : ∀ v w : Value ℝ, v.Holds X → w.Holds Y → Value.Gives (op.apply v w) M) :
    Value.Gives ((binary op a b).eval resolve) M := by
  obtain ⟨v, hv, hvX⟩ := ha
  obtain ⟨w, hw, hwY⟩ := hb
  rw [eval, hv, ok_bind, hw, ok_bind]
  exact hop v w hvX hwY

/-- The entries of a literal are evaluated row by row. -/
theorem exists_values {rows : List (List (Expr × SizedMatrix))}
    (h : ∀ row ∈ rows, ∀ c ∈ row, Value.Gives (c.1.eval resolve) c.2) :
    ∃ values, (rows.map fun row => row.map Prod.fst).mapM (fun row => row.mapM (eval resolve)) =
        .ok values ∧
      List.Forall₂ (List.Forall₂ Value.Holds) values (rows.map fun row => row.map Prod.snd) := by
  have hrow (row : List (Expr × SizedMatrix))
      (h : ∀ c ∈ row, Value.Gives (c.1.eval resolve) c.2) :
      ∃ values, (row.map Prod.fst).mapM (eval resolve) = .ok values ∧
        List.Forall₂ Value.Holds values (row.map Prod.snd) := by
    induction row with
    | nil => exact ⟨[], rfl, .nil⟩
    | cons c row ih =>
      obtain ⟨⟨v, hv, hholds⟩, hrest⟩ := List.forall_mem_cons.mp h
      obtain ⟨values, hvalues, hall⟩ := ih hrest
      refine ⟨v :: values, ?_, .cons hholds hall⟩
      rw [List.map_cons, List.mapM_cons, hv, ok_bind, hvalues]
      rfl
  induction rows with
  | nil => exact ⟨[], rfl, .nil⟩
  | cons row rows ih =>
    obtain ⟨hfirst, hrest⟩ := List.forall_mem_cons.mp h
    obtain ⟨values, hvalues, hholds⟩ := hrow row hfirst
    obtain ⟨others, hothers, hall⟩ := ih hrest
    refine ⟨values :: others, ?_, .cons hholds hall⟩
    rw [List.map_cons, List.mapM_cons, hvalues, ok_bind, hothers]
    rfl

end Operations

/-- What an expression denotes is what its value holds. The induction is on the rules of matrix
algebra. -/
theorem Denotes.gives (h : Denotes meaning e M)
    (hnames : ∀ name ∈ e.names, Value.Gives (resolve name) (meaning name)) :
    Value.Gives (e.eval resolve) M := by
  have hleft {op : Operation} {a b : Expr}
      (hnames : ∀ name ∈ (binary op a b).names, Value.Gives (resolve name) (meaning name)) :
      ∀ name ∈ a.names, Value.Gives (resolve name) (meaning name) :=
    fun name hname => hnames name (List.mem_append_left _ hname)
  have hright {op : Operation} {a b : Expr}
      (hnames : ∀ name ∈ (binary op a b).names, Value.Gives (resolve name) (meaning name)) :
      ∀ name ∈ b.names, Value.Gives (resolve name) (meaning name) :=
    fun name hname => hnames name (List.mem_append_right _ hname)
  induction h with
  | number d =>
    rw [eval]
    exact ⟨_, rfl, Value.holds_plain (x := .real _) trivial⟩
  | symbol name =>
    rw [eval]
    exact hnames name (by simp [names])
  | array _ hM ih =>
    rw [names, rowsNames_eq] at hnames
    obtain ⟨values, hvalues, hholds⟩ := exists_values fun row hrow c hc => ih row hrow c hc
      fun name hname => hnames name (List.mem_flatMap_of_mem (List.mem_map_of_mem hrow)
        (List.mem_flatMap_of_mem (List.mem_map_of_mem hc) hname))
    rw [eval_array, hvalues, ok_bind]
    exact Value.gives_block hholds hM
  | plus _ ih =>
    obtain ⟨v, hv, hholds⟩ := ih hnames
    exact ⟨v, by rw [eval, hv]; rfl, hholds⟩
  | minus _ ih =>
    obtain ⟨v, hv, hholds⟩ := ih hnames
    rw [eval, hv, ok_bind]
    exact hholds.neg
  | transpose _ ih =>
    obtain ⟨v, hv, hholds⟩ := ih hnames
    exact ⟨v.transpose, by rw [eval, hv]; rfl, hholds.transpose⟩
  | add _ _ iha ihb =>
    exact gives_binary (iha (hleft hnames)) (ihb (hright hnames)) fun v w hv hw => hv.add hw
  | sub _ _ iha ihb =>
    exact gives_binary (iha (hleft hnames)) (ihb (hright hnames)) fun v w hv hw => hv.sub hw
  | scalar_mul _ _ iha ihb =>
    exact gives_binary (iha (hleft hnames)) (ihb (hright hnames)) fun v w hv hw => hv.smul hw
  | mul_scalar _ _ iha ihb =>
    exact gives_binary (iha (hleft hnames)) (ihb (hright hnames)) fun v w hv hw => hv.mul_scalar hw
  | mul _ _ iha ihb =>
    exact gives_binary (iha (hleft hnames)) (ihb (hright hnames)) fun v w hv hw => hv.mul hw
  | div _ _ hx iha ihb =>
    exact gives_binary (iha (hleft hnames)) (ihb (hright hnames)) fun v w hv hw => hv.div hw hx
  | scalar_pow _ _ hzero hneg iha ihb =>
    exact gives_binary (iha (hleft hnames)) (ihb (hright hnames)) fun v w hv hw =>
      hv.pow_scalar hw hzero hneg
  | pow _ _ hA iha ihb =>
    exact gives_binary (iha (hleft hnames)) (ihb (hright hnames)) fun v w hv hw => hv.zpow hw hA

/-- Evaluation is matrix algebra. An expression that denotes a matrix is evaluated to it, and to no
other one: where a factor with one entry may be taken for a number as well as for a matrix, both
products are the same. -/
theorem eval_of_denotes
    (hnames : ∀ name ∈ e.names, ∃ v, resolve name = .ok v ∧ v.Holds (meaning name))
    (h : Denotes meaning e M) :
    (∃ v, e.eval resolve = .ok v ∧ v.Holds M) ∧ ∀ M', Denotes meaning e M' → M' = M := by
  obtain ⟨v, hv, hholds⟩ := h.gives hnames
  refine ⟨⟨v, hv, hholds⟩, fun M' h' => ?_⟩
  obtain ⟨v', hv', hholds'⟩ := h'.gives hnames
  obtain rfl : v' = v := Except.ok.inj (hv'.symm.trans hv)
  exact hholds'.unique hholds

section Systems

/-- The expression `A^n*x`. -/
def powerTimes : Expr := .binary .mul (.binary .pow (.symbol "A") (.symbol "n")) (.symbol "x")

/-- The matrix of a system of two equations. -/
def systemMatrix : Matrix (Fin 2) (Fin 2) ℝ := !![2, 1; 1, 1]

/-- The right-hand side of the system. -/
def systemLoad : Matrix (Fin 2) (Fin 1) ℝ := !![3; 2]

/-- What the names of `A^n*x` stand for. -/
def systemMeaning (name : String) : SizedMatrix :=
  if name = "A" then ⟨2, 2, systemMatrix⟩
  else if name = "n" then .scalar (-1 : ℤ)
  else ⟨2, 1, systemLoad⟩

/-- The values of the names, of which one is a whole number. -/
def systemValue (name : String) : Except (Error ℝ) (Value ℝ) :=
  if name = "A" then .ok (.ofTensor (.ofMatrix (.stored systemMatrix)))
  else if name = "n" then .ok (.plain (.integer (-1)))
  else .ok (.ofTensor (.ofMatrix (.stored systemLoad)))

/-- The solution of a system of two equations. -/
theorem eval_of_denotes_system :
    (∃ v, powerTimes.eval systemValue = .ok v ∧
      v.Holds ⟨2, 1, systemMatrix ^ (-1 : ℤ) * systemLoad⟩) ∧
    ∀ M', Denotes systemMeaning powerTimes M' →
      M' = ⟨2, 1, systemMatrix ^ (-1 : ℤ) * systemLoad⟩ := by
  have hregular : IsUnit systemMatrix.det := by
    rw [systemMatrix, Matrix.det_fin_two_of]
    norm_num
  have hdenotes : Denotes systemMeaning powerTimes
      ⟨2, 1, systemMatrix ^ (-1 : ℤ) * systemLoad⟩ :=
    .mul (.pow (.symbol "A") (.symbol "n") fun _ => hregular) (.symbol "x")
  refine eval_of_denotes ?_ hdenotes
  intro name hname
  have hcases : name = "A" ∨ name = "n" ∨ name = "x" := by simpa [powerTimes, names] using hname
  rcases hcases with rfl | rfl | rfl
  · exact ⟨_, rfl, Value.holds_ofTensor systemMatrix⟩
  · exact ⟨_, rfl, Value.holds_plain (x := .integer (-1)) trivial⟩
  · exact ⟨_, rfl, Value.holds_ofTensor systemLoad⟩

end Systems

end Expr
end WeakForm
