import WeakForm.Scalar
import WeakForm.Text.Quoted
import WeakForm.Text.Shortest

/-!
# Data of unknown shape

Settings, boundary values and constants arrive as data whose shape is only known when they are
used. `Datum` keeps whole numbers apart from other numbers and lists apart from maps; it can be
shown as text, tested for truth and read as a number.
-/

namespace WeakForm

inductive Datum (α : Type) where
  | null
  | flag (value : Bool)
  | integer (value : Int)
  | real (value : α)
  | text (value : String)
  | list (items : List (Datum α))
  | map (entries : List (String × Datum α))

namespace Datum

instance {α : Type} : Inhabited (Datum α) := ⟨null⟩

instance {α : Type} : NatCast (Datum α) := ⟨fun n => integer n⟩

instance {α : Type} : IntCast (Datum α) := ⟨integer⟩

section

variable {α : Type} [Scalar α]

/-- The number of a numeric datum; flags count as zero and one. -/
def number? : Datum α → Option α
  | flag b => some (if b then 1 else 0)
  | integer n => some (n : α)
  | real x => some x
  | _ => none

/-- The whole number of a datum that holds one. -/
def integer? : Datum α → Option Int
  | flag b => some (if b then 1 else 0)
  | integer n => some n
  | _ => none

/-- Everything counts as true but null, zero and the empty text, list and map. -/
def isTrue : Datum α → Bool
  | null => false
  | flag b => b
  | integer n => n != 0
  | real x => !Scalar.same x 0
  | text s => !s.isEmpty
  | list xs => !xs.isEmpty
  | map es => !es.isEmpty

end

mutual

/-- A datum as part of a longer text: texts stand between quotes. -/
def quoted : Datum Float → String
  | null => "None"
  | flag b => if b then "True" else "False"
  | integer n => toString n
  | real x => Text.realText x
  | text s => Text.quoted s
  | list xs => "[" ++ itemsText xs ++ "]"
  | map es => "\x7b" ++ entriesText es ++ "\x7d"

def itemsText : List (Datum Float) → String
  | [] => ""
  | [x] => quoted x
  | x :: xs => quoted x ++ ", " ++ itemsText xs

def entriesText : List (String × Datum Float) → String
  | [] => ""
  | [(k, x)] => Text.quoted k ++ ": " ++ quoted x
  | (k, x) :: es => Text.quoted k ++ ": " ++ quoted x ++ ", " ++ entriesText es

end

/-- A datum shown by itself: a text stands as it is. -/
def display : Datum Float → String
  | text s => s
  | d => quoted d

end Datum
end WeakForm
