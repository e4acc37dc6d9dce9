import WeakForm.Expression.Names
import WeakForm.Expression.Substitution
import Mathlib.Tactic

/-!
# Trees

Induction over expression trees, with one case for each kind of node, and what the functions that
walk through a tree do with the rows of an array. A tree is well-formed if its names may stand in a
text and its arrays are rectangles.
-/

namespace WeakForm
namespace Expr

@[induction_eliminator]
theorem induction {P : Expr → Prop} (number : ∀ d, P (number d)) (symbol : ∀ name, P (symbol name))
    (array : ∀ rows, (∀ row ∈ rows, ∀ e ∈ row, P e) → P (array rows))
    (sign : ∀ s e, P e → P (sign s e)) (binary : ∀ op a b, P a → P b → P (binary op a b))
    (transpose : ∀ e, P e → P (transpose e)) (e : Expr) : P e := by
  refine @Expr.rec P (fun rows => ∀ row ∈ rows, ∀ e ∈ row, P e) (fun row => ∀ e ∈ row, P e)
    number symbol array sign binary transpose ?_ ?_ ?_ ?_ e
  · simp
  · exact fun row rows hrow hrows => List.forall_mem_cons.mpr ⟨hrow, hrows⟩
  · simp
  · exact fun e row he hrow => List.forall_mem_cons.mpr ⟨he, hrow⟩

section Names

theorem rowNames_eq (row : List Expr) : rowNames row = row.flatMap names := by
  induction row with
  | nil => rfl
  | cons e row ih => rw [rowNames, ih, List.flatMap_cons]

theorem rowsNames_eq (rows : List (List Expr)) :
    rowsNames rows = rows.flatMap fun row => row.flatMap names := by
  induction rows with
  | nil => rfl
  | cons row rows ih => rw [rowsNames, ih, rowNames_eq, List.flatMap_cons]

end Names

section Substitution

variable (meaning : String → Option Expr)

theorem substituteRow_eq (row : List Expr) :
    substituteRow meaning row = row.map (substitute meaning) := by
  induction row with
  | nil => rfl
  | cons e row ih => rw [substituteRow, ih, List.map_cons]

theorem substituteRows_eq (rows : List (List Expr)) :
    substituteRows meaning rows = rows.map fun row => row.map (substitute meaning) := by
  induction rows with
  | nil => rfl
  | cons row rows ih => rw [substituteRows, ih, substituteRow_eq, List.map_cons]

/-- Nothing changes where no name has a meaning. -/
theorem substitute_none (e : Expr) : e.substitute (fun _ => none) = e := by
  induction e with
  | number d => rfl
  | symbol name => rfl
  | array rows ih =>
    rw [substitute, substituteRows_eq]
    congr 1
    refine (List.map_congr_left fun row hrow => ?_).trans rows.map_id
    exact (List.map_congr_left (ih row hrow)).trans row.map_id
  | sign s e ih => rw [substitute, ih]
  | binary op a b iha ihb => rw [substitute, iha, ihb]
  | transpose e ih => rw [substitute, ih]

end Substitution

section WellFormed

/-- Whether rows have one length, which is not zero, and there is a row at least. -/
def isRectangle (rows : List (List Expr)) : Bool :=
  rows.all (fun row => row.length == (rows.headD []).length) && (rows.headD []).length != 0

mutual

/-- Whether the names are valid and the arrays are rectangles. -/
def isWellFormed : Expr → Bool
  | number _ => true
  | symbol name => Names.isValid name
  | array rows => isRectangle rows && areRowsWellFormed rows
  | sign _ e => isWellFormed e
  | binary _ a b => isWellFormed a && isWellFormed b
  | transpose e => isWellFormed e

def areRowsWellFormed : List (List Expr) → Bool
  | [] => true
  | row :: rows => isRowWellFormed row && areRowsWellFormed rows

def isRowWellFormed : List Expr → Bool
  | [] => true
  | e :: row => isWellFormed e && isRowWellFormed row

end

theorem isRowWellFormed_eq (row : List Expr) : isRowWellFormed row = row.all isWellFormed := by
  induction row with
  | nil => rfl
  | cons e row ih => rw [isRowWellFormed, ih, List.all_cons]

theorem areRowsWellFormed_eq (rows : List (List Expr)) :
    areRowsWellFormed rows = rows.all fun row => row.all isWellFormed := by
  induction rows with
  | nil => rfl
  | cons row rows ih => rw [areRowsWellFormed, ih, isRowWellFormed_eq, List.all_cons]

theorem isRectangle_iff {rows : List (List Expr)} :
    isRectangle rows = true ↔
      rows ≠ [] ∧ ∃ width, width ≠ 0 ∧ ∀ row ∈ rows, row.length = width := by
  cases rows with
  | nil => simp [isRectangle]
  | cons row rows =>
    simp only [isRectangle, List.headD_cons, List.all_cons, Bool.and_eq_true, List.all_eq_true,
      beq_iff_eq, bne_iff_ne, List.forall_mem_cons, ne_eq, reduceCtorEq, not_false_eq_true,
      true_and]
    constructor
    · rintro ⟨hrows, hne⟩
      exact ⟨row.length, hne, rfl, hrows⟩
    · rintro ⟨width, hne, rfl, hrows⟩
      exact ⟨hrows, hne⟩

theorem isWellFormed_array {rows : List (List Expr)} :
    (array rows).isWellFormed = true ↔
      isRectangle rows = true ∧ ∀ row ∈ rows, ∀ e ∈ row, e.isWellFormed = true := by
  simp [isWellFormed, areRowsWellFormed_eq]

end WellFormed

end Expr
end WeakForm
