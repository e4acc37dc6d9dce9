import WeakForm.Capacity
import WeakForm.Datum.Entries
import WeakForm.Value.Number
import WeakForm.Value.NumberArray

/-!
# Arrays of data

A nested list that is taken as it is, and not read as numbers at once, becomes an array whose items
are all numbers, all texts, or data that only stand side by side. A text among numbers turns all of
them into texts; null, maps and whole numbers too long for a word keep all items as they are.
-/

namespace WeakForm

/-- What the items of an array of data have in common. -/
inductive Commonality where
  | numbers
  | texts
  | nothing
  deriving DecidableEq, Repr

structure DataArray (α : Type) where
  commonality : Commonality
  items : Tensor (Datum α)

namespace Datum

variable {α : Type} [Scalar α]

/-- Whether a datum has nothing in common with others. -/
def standsAlone : Datum α → Bool
  | null => true
  | map _ => true
  | integer n => !Scalar.isWord α n && !Scalar.isNaturalWord α n
  | _ => false

def isText : Datum α → Bool
  | text _ => true
  | _ => false

def isFlag : Datum α → Bool
  | flag _ => true
  | _ => false

/-- A flag as it is spelled. The text of a number reads back as that number, which stands for it. -/
def spelled : Datum α → Datum α
  | flag b => text (if b then "True" else "False")
  | d => d

/-- A flag among numbers counts as one of them. -/
def counted : Datum α → Datum α
  | flag b => integer (if b then 1 else 0)
  | d => d

/-- The real number of a datum in arithmetic. -/
def toSummand (d : Datum α) : Except (Error α) α := (Number.ofDatum d).bind Number.toReal

end Datum

namespace DataArray

variable {α : Type} [Scalar α]

def ofDatum (d : Datum α) : Except (Error α) (DataArray α) := do
  let t ← d.entries .ok
  if t.data.any Datum.standsAlone then pure ⟨.nothing, t⟩
  else if t.data.any Datum.isText then pure ⟨.texts, t.map Datum.spelled⟩
  else if t.data.all Datum.isFlag then pure ⟨.numbers, t⟩
  else pure ⟨.numbers, t.map Datum.counted⟩

def ofReals (t : Tensor α) : DataArray α := ⟨.numbers, t.map .real⟩

/-- The items read as real numbers. -/
def toReals (a : DataArray α) : Except (Error α) (Tensor α) := (a.items.map Datum.toReal).collect

/-- The items as real numbers that take part in sums and products with an array of the given shape.
Texts are refused at once, other items one by one. -/
def summands (shape : List Nat) (a : DataArray α) : Except (Error α) (Tensor α) :=
  if a.commonality = .texts then .error .wrongType
  else if (Tensor.broadcastShape a.items.shape shape).isNone then .error .shapeMismatch
  else (a.items.map Datum.toSummand).collect

/-- What the items of several arrays together have in common. -/
def commonalityOf (arrays : List (DataArray α)) : Commonality :=
  if arrays.any fun a => a.commonality = .nothing then .nothing
  else if arrays.any fun a => a.commonality = .texts then .texts
  else .numbers

/-- Arrays of one shape side by side along a new last axis. -/
def stack (arrays : List (DataArray α)) : Except (Error α) (DataArray α) := do
  let t ← orShapeMismatch (Tensor.stackLast? (arrays.map DataArray.items))
  let common := commonalityOf arrays
  if Tensor.mostAxes < t.shape.length then .error .shapeMismatch
  else pure ⟨common, if common = .texts then t.map Datum.spelled else t⟩

end DataArray
end WeakForm

/-!
## Multiples of data

Numbers are multiplied; a whole number repeats a list or a text.
-/

namespace WeakForm
namespace Datum

variable {α : Type} [Scalar α]

/-- A list or a text repeated a number of times, of which less than one leaves nothing. -/
def repeated? (n : Int) : Datum α → Option (Except (Error α) (Datum α))
  | list xs => some <| (checkRepetition n xs.length).map fun _ =>
    list (if xs.isEmpty then [] else (List.replicate n.toNat xs).flatten)
  | text s => some <| (checkRepetition n s.length).map fun _ =>
    text (if s.isEmpty then "" else String.join (List.replicate n.toNat s))
  | _ => none

/-- The product of two data. -/
def mul (a b : Datum α) : Except (Error α) (Datum α) :=
  match b.integer?.bind (repeated? · a), a.integer?.bind (repeated? · b) with
  | some d, _ => d
  | none, some d => d
  | none, none => do
    let x ← Number.ofDatum a
    let y ← Number.ofDatum b
    let z ← x.mul y
    pure z.toDatum

end Datum
end WeakForm
