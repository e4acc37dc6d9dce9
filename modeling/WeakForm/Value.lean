import WeakForm.Value.Power

/-!
# Values of expressions

An expression has a plain number or an array of numbers as its value. An array with a single entry
acts as a scalar: as a factor, divisor, exponent or base it is replaced by the plain number it
holds. Transposing a plain number makes it an array without axes, while arithmetic on arrays that
leaves no axes has a single entry as its value. Next to an array, a plain whole number takes on the
kind of that array.
-/

namespace WeakForm

inductive Value (α : Type) where
  | plain (number : Number α)
  /-- An entry of arrays, which is no plain number and follows their rules. -/
  | single (entry : NumberArray α)
  | array (entries : NumberArray α)

namespace Value

variable {α : Type} [Scalar α]

def ofReal (x : α) : Value α := plain (.real x)

def ofTensor (t : Tensor α) : Value α := array (.reals t)

/-- The number of a value with a single entry. -/
def scalar? : Value α → Option (Number α)
  | plain x => some x
  | single a => a.item?
  | array a => a.item?

def toArray : Value α → NumberArray α
  | plain x => .ofNumber x
  | single a => a
  | array a => a

/-- The value of an operation on arrays. Without axes it is a single entry, and if that is of no
common kind, the plain number that it is. -/
def ofArray (a : NumberArray α) : Value α :=
  if a.shape ≠ [] then array a
  else
    match a, a.item? with
    | .mixed _, some x => plain x
    | _, _ => single a

/-- Applies an operation on arrays to two values, of which one is no plain number. -/
def onArrays (f : NumberArray α → NumberArray α → Except (Error α) (NumberArray α)) :
    Value α → Value α → Except (Error α) (Value α)
  | plain x, b => do
    let a ← NumberArray.ofNumberBeside b.toArray.kind x
    (f a b.toArray).map ofArray
  | a, plain y => do
    let b ← NumberArray.ofNumberBeside a.toArray.kind y
    (f a.toArray b).map ofArray
  | a, b => (f a.toArray b.toArray).map ofArray

def add : Value α → Value α → Except (Error α) (Value α)
  | plain x, plain y => (Number.add x y).map plain
  | a, b => onArrays NumberArray.add a b

def sub : Value α → Value α → Except (Error α) (Value α)
  | plain x, plain y => (Number.sub x y).map plain
  | a, b => onArrays NumberArray.sub a b

/-- Products entry by entry. -/
def times : Value α → Value α → Except (Error α) (Value α)
  | plain x, plain y => (Number.mul x y).map plain
  | a, b => onArrays NumberArray.times a b

/-- A scalar multiplies every entry, other values are multiplied as matrices. -/
def mul (a b : Value α) : Except (Error α) (Value α) :=
  match a.scalar? with
  | some x => times (plain x) b
  | none =>
    match b.scalar? with
    | some y => times a (plain y)
    | none => onArrays NumberArray.mul a b

def div (a b : Value α) : Except (Error α) (Value α) :=
  match b.scalar? with
  | none => .error .vectorDivisor
  | some y =>
    match a with
    | plain x => (Number.div x y).map plain
    | a => do
      let d ← NumberArray.ofNumberBeside (a.toArray.kind.wider .real) y
      (a.toArray.quotient d).map ofArray

def pow (a b : Value α) : Except (Error α) (Value α) :=
  match b.scalar? with
  | none => .error .vectorExponent
  | some y =>
    match a.scalar? with
    | some x => (Number.pow x y).map plain
    | none => do
      let n ← y.wholeExponent
      (a.toArray.power n).map ofArray

def neg : Value α → Except (Error α) (Value α)
  | plain x => .ok (plain x.neg)
  | a => a.toArray.neg.map ofArray

def transpose (a : Value α) : Value α := array a.toArray.transpose

/-- The array put together from rows of blocks. -/
def block (rows : List (List (Value α))) : Except (Error α) (Value α) :=
  (NumberArray.block (rows.map fun row => row.map fun v => v.toArray.atLeast2)).map array

/-- The real entries of a value. A plain complex number has none, the entries of a complex array
lose their imaginary part. -/
def toReals : Value α → Except (Error α) (Tensor α)
  | plain x => x.toReal.map Tensor.scalar
  | a => a.toArray.toReals

end Value
end WeakForm
