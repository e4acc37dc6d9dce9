import WeakForm.Decimal
import WeakForm.Text.Binary64

/-!
# Scalars

All computations are written once, over any type of scalars. Doubles make them run; exact numbers
make them provable. Comparisons are Boolean tests, so that a type may also hold numbers that are
not ordered, such as the undefined double.
-/

namespace WeakForm

/-- Arithmetic of field values. `undefined` is the result of an operation without a meaningful
value; of a matrix, directions shorter than `precision` times the longest count as zero. Whole
numbers in arrays go along with the scalars: exact scalars come with unbounded ones, doubles with
words of a machine, of which `word` keeps the signed and `naturalWord` the unsigned part. -/
class Scalar (α : Type) extends Zero α, One α, Add α, Sub α, Mul α, Div α, Neg α,
    OfScientific α, NatCast α, IntCast α where
  less : α → α → Bool
  atMost : α → α → Bool
  same : α → α → Bool
  sqrt : α → α
  power : α → α → α
  exp : α → α
  log : α → α
  sin : α → α
  cos : α → α
  /-- Angle of the point with the given ordinate and abscissa. -/
  angle : α → α → α
  ofDecimal : Decimal → α
  /-- Whole part, cut towards zero; none for infinite and undefined values. -/
  truncate : α → Option Int
  /-- The quotient of two whole numbers. -/
  quotient : Int → Int → α
  word : Int → Int
  naturalWord : Int → Int
  infinity : α
  undefined : α
  precision : α

/-- Sum of the first `n` values of a sequence, from the left. -/
def sumTo {β : Type} [Zero β] [Add β] : (n : Nat) → (f : Nat → β) → β
  | 0, _ => 0
  | n + 1, f => sumTo n f + f n

namespace Scalar

variable {α : Type} [Scalar α]

def abs (x : α) : α := if less x 0 then -x else x

/-- The larger of two numbers; an undefined one is passed on. -/
def max (x y : α) : α := if same x x && atMost x y || !same y y then y else x

/-- The smaller of two numbers; an undefined one is passed on. -/
def min (x y : α) : α := if same x x && atMost y x || !same y y then y else x

def isFinite (x : α) : Bool := (truncate x).isSome

def isInfinite (x : α) : Bool := !isFinite x && same x x

/-- The length of the vector with the given components, which are scaled by the larger one. -/
def hypot (x y : α) : α :=
  let m := if less (abs x) (abs y) then abs y else abs x
  if same m 0 || !isFinite m then m else m * sqrt (x / m * (x / m) + y / m * (y / m))

/-- Whether a whole number is a signed word. -/
def isWord (α : Type) [Scalar α] (n : Int) : Bool := word α n == n

/-- Whether a whole number is an unsigned word. -/
def isNaturalWord (α : Type) [Scalar α] (n : Int) : Bool := naturalWord α n == n

/-- Natural power by repeated multiplication. -/
def pow (x : α) : Nat → α
  | 0 => 1
  | n + 1 => pow x n * x

def ofNumeral : Numeral → α
  | .undefined => undefined
  | .infinite negative => if negative then -infinity else infinity
  | .finite negative d => if negative then -ofDecimal d else ofDecimal d

end Scalar

namespace Text

/-- The nearest double. Exponents far outside the range of doubles are settled without computing
the power of ten. -/
def nearestDouble (d : Decimal) : Float :=
  let digits : Int := (Nat.toDigits 10 d.mantissa).length
  if d.mantissa == 0 then 0
  else if 400 < d.exponent + digits then 1 / 0
  else if d.exponent + digits < -400 then 0
  else if 0 ≤ d.exponent then Float.ofScientific d.mantissa false d.exponent.toNat
  else Float.ofScientific d.mantissa true (-d.exponent).toNat

/-- The double nearest to the quotient of two whole numbers. -/
def nearestQuotient (m n : Int) : Float :=
  if m == 0 then 0
  else
    let d := Binary64.ofQuotient m.natAbs n.natAbs
    let size := if 972 ≤ d.2 then 1 / 0 else Float.scaleB (Float.ofNat d.1) d.2
    if (m < 0) == (n < 0) then size else -size

end Text

instance : Scalar Float where
  zero := 0
  one := 1
  natCast := Float.ofNat
  intCast := Float.ofInt
  less x y := decide (x < y)
  atMost x y := decide (x ≤ y)
  same x y := x == y
  sqrt := Float.sqrt
  power := Float.pow
  exp := Float.exp
  log := Float.log
  sin := Float.sin
  cos := Float.cos
  angle := Float.atan2
  ofDecimal := Text.nearestDouble
  truncate x := (Binary64.ofFloat x).truncate?
  quotient := Text.nearestQuotient
  word n := Int.bmod n (Nat.pow 2 64)
  naturalWord n := n % (Nat.pow 2 64 : Nat)
  infinity := 1 / 0
  undefined := 0 / 0
  precision := Float.ofScientific 1 true 15

end WeakForm
