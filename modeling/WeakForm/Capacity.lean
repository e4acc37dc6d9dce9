import WeakForm.Error
import WeakForm.Tensor

/-!
# Capacity

The number of bytes of an array has to be a word, and memory ends long before that. Lengths are
checked before an array is made, because data may ask for arrays of any length.
-/

namespace WeakForm

variable {α : Type} [Scalar α]

/-- How many times all of memory goes into the bytes that words can count. -/
def memoryShare : Nat := 268435456

/-- Checks that there may be an array of so many entries of so many bytes each. -/
def checkCapacity (bytes count : Nat) : Except (Error α) Unit :=
  let size : Int := bytes * count
  if !Scalar.isWord α size then .error .shapeMismatch
  else if !Scalar.isWord α (size * memoryShare) then .error .outOfMemory
  else .ok ()

/-- Checks that so many items may be repeated a number of times, which has to be a word. -/
def checkRepetition (times : Int) (count : Nat) : Except (Error α) Unit :=
  if !Scalar.isWord α times then .error .overflow
  else
    let capacity : Except (Error α) Unit := checkCapacity 8 (times.toNat * count)
    capacity.mapError fun _ => .outOfMemory

/-- Checks the lengths of an array of words along its axes. -/
def checkLengths (lengths : List (Datum α)) : Except (Error α) Unit :=
  if Tensor.mostAxes < lengths.length then .error .shapeMismatch
  else do
    let ns ← lengths.mapM fun d =>
      match d with
      | .integer n => if Scalar.isWord α n then .ok n else .error .shapeMismatch
      | _ => .error .wrongType
    if ns.any (· < 0) then .error .shapeMismatch
    else checkCapacity 8 (volume (ns.map Int.toNat))

end WeakForm
