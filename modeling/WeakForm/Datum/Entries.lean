import WeakForm.Error
import WeakForm.Tensor

/-!
# Arrays in data

A nested list whose parts at each depth have one shape is an array. Its leaves are read as real or
as whole numbers; a text counts when it spells a number.
-/

namespace WeakForm
namespace Datum

variable {α β : Type}

mutual

/-- The lengths of a nested list at each depth; none when its parts differ in them. -/
def shape? : Datum α → Option (List Nat)
  | list xs => (commonShape? xs).map fun s => xs.length :: s
  | _ => some []

/-- The shape that all items of a list have. -/
def commonShape? : List (Datum α) → Option (List Nat)
  | [] => some []
  | [x] => shape? x
  | x :: xs => do
    let s ← shape? x
    let t ← commonShape? xs
    if s = t then some s else none

end

mutual

def leaves : Datum α → List (Datum α)
  | list xs => itemLeaves xs
  | d => [d]

def itemLeaves : List (Datum α) → List (Datum α)
  | [] => []
  | x :: xs => leaves x ++ itemLeaves xs

end

/-- The array of a nested list, its leaves read by `leaf`. Its shape is found first. -/
def entries (leaf : Datum α → Except (Error α) β) (d : Datum α) :
    Except (Error α) (Tensor β) := do
  match d.shape? with
  | none => .error .raggedRows
  | some shape =>
    if Tensor.mostAxes < shape.length then .error .raggedRows
    else
      let values ← d.leaves.mapM leaf
      match (Tensor.ofArray values.toArray).reshape? shape with
      | some t => pure t
      | none => .error .raggedRows

variable [Scalar α]

/-- The real number of a leaf; null is the undefined number. -/
def toReal : Datum α → Except (Error α) α
  | null => .ok Scalar.undefined
  | flag b => .ok (if b then 1 else 0)
  | integer n => if Scalar.isFinite (n : α) then .ok n else .error .overflow
  | real x => .ok x
  | text s =>
    match Text.readNumeral s with
    | some n => .ok (Scalar.ofNumeral n)
    | none => .error .nonNumeric
  | _ => .error .wrongType

/-- A whole number, unless it is too long for a word. -/
def ofWord (n : Int) : Except (Error α) Int :=
  if Scalar.isWord α n then .ok n else .error .overflow

/-- The whole number of a leaf; a fractional part is cut off. -/
def toInteger : Datum α → Except (Error α) Int
  | flag b => .ok (if b then 1 else 0)
  | integer n => ofWord n
  | real x =>
    match Scalar.truncate x with
    | some n => ofWord n
    | none => .error (if Scalar.same x x then .overflow else .undefinedInteger)
  | text s =>
    match Text.readInteger s.toList with
    | some n => ofWord n
    | none => .error .nonNumeric
  | _ => .error .wrongType

def toReals (d : Datum α) : Except (Error α) (Tensor α) := d.entries toReal

/-- The whole number by which something is counted or chosen. -/
def toIndex (d : Datum α) : Except (Error α) Int :=
  match d.integer? with
  | some n => .ok n
  | none => .error .wrongType

/-- The text that a name or an expression has to be. -/
def toText : Datum α → Except (Error α) String
  | text s => .ok s
  | _ => .error .wrongType

/-- The text of an expression. An empty list or map has no more characters than an empty text. -/
def toExpression : Datum α → Except (Error α) String
  | text s => .ok s
  | list [] | map [] => .ok ""
  | _ => .error .wrongType

/-- The text under which something may be registered. Lists and maps cannot be looked up, and other
data are never registered. -/
def toName : Datum α → Except (Error α) (Option String)
  | text s => .ok (some s)
  | list _ | map _ => .error .wrongType
  | _ => .ok none

/-- The whole numbers of a nested list in their order. -/
def toIntegers (d : Datum α) : Except (Error α) (List Int) :=
  (d.entries toInteger).map fun t => t.data.toList

end Datum
end WeakForm
