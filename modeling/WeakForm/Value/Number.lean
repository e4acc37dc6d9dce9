import WeakForm.Error

/-!
# Numbers

A single number is a truth value, a whole number, a real or a complex one. Arithmetic takes place
in the wider of the two kinds, and truth values count as zero and one. Whole numbers are exact and
unbounded. Division by zero and powers that grow out of range are errors, unlike inside arrays.
-/

namespace WeakForm

structure ComplexPair (α : Type) where
  re : α
  im : α

namespace ComplexPair

variable {α : Type} [Scalar α]

def ofReal (x : α) : ComplexPair α := ⟨x, 0⟩

instance : Zero (ComplexPair α) := ⟨⟨0, 0⟩⟩

instance : One (ComplexPair α) := ⟨⟨1, 0⟩⟩

instance : Add (ComplexPair α) := ⟨fun z w => ⟨z.re + w.re, z.im + w.im⟩⟩

instance : Sub (ComplexPair α) := ⟨fun z w => ⟨z.re - w.re, z.im - w.im⟩⟩

instance : Neg (ComplexPair α) := ⟨fun z => ⟨-z.re, -z.im⟩⟩

instance : Mul (ComplexPair α) :=
  ⟨fun z w => ⟨z.re * w.re - z.im * w.im, z.re * w.im + z.im * w.re⟩⟩

def isZero (z : ComplexPair α) : Bool := Scalar.same z.re 0 && Scalar.same z.im 0

def isFinite (z : ComplexPair α) : Bool := Scalar.isFinite z.re && Scalar.isFinite z.im

/-- The quotient, scaled by the larger part of the divisor. -/
instance : Div (ComplexPair α) :=
  ⟨fun z w =>
    if w.isZero then ⟨z.re / Scalar.abs w.re, z.im / Scalar.abs w.re⟩
    else if Scalar.atMost (Scalar.abs w.im) (Scalar.abs w.re) then
      let ratio := w.im / w.re
      let scale := w.re + w.im * ratio
      ⟨(z.re + z.im * ratio) / scale, (z.im - z.re * ratio) / scale⟩
    else
      let ratio := w.re / w.im
      let scale := w.im + w.re * ratio
      ⟨(z.re * ratio + z.im) / scale, (z.im * ratio - z.re) / scale⟩⟩

/-- The quotient as a product with one reciprocal, which is infinite where the divisor is too small
to have one. -/
def quotientByReciprocal (z w : ComplexPair α) : ComplexPair α :=
  if w.isZero then z / w
  else if Scalar.atMost (Scalar.abs w.im) (Scalar.abs w.re) then
    let ratio := w.im / w.re
    let scale := 1 / (w.re + w.im * ratio)
    ⟨(z.re + z.im * ratio) * scale, (z.im - z.re * ratio) * scale⟩
  else
    let ratio := w.re / w.im
    let scale := 1 / (w.im + w.re * ratio)
    ⟨(z.re * ratio + z.im) * scale, (z.im * ratio - z.re) * scale⟩

/-- The natural power, as the product of the repeated squares that the binary digits of the exponent
select; `fuel` bounds their number. -/
def squarings : (fuel exponent : Nat) → (product square : ComplexPair α) → ComplexPair α
  | 0, _, product, _ => product
  | fuel + 1, n, product, square =>
    if n = 0 then product
    else squarings fuel (n / 2) (if n % 2 = 1 then product * square else product) (square * square)

def naturalPower (z : ComplexPair α) (n : Nat) : ComplexPair α := squarings (n + 1) n 1 z

/-- The angle of the principal power of a number other than zero. -/
def powerPhase (z w : ComplexPair α) : α :=
  let turned := Scalar.angle z.im z.re * w.re
  if Scalar.same w.im 0 then turned
  else turned + w.im * Scalar.log (Scalar.hypot z.re z.im)

/-- The principal power of a number other than zero, in polar form. -/
def power (z w : ComplexPair α) : ComplexPair α :=
  let length := Scalar.power (Scalar.hypot z.re z.im) w.re
  let scaled :=
    if Scalar.same w.im 0 then length
    else length * Scalar.exp (-(Scalar.angle z.im z.re * w.im))
  let phase := powerPhase z w
  ⟨scaled * Scalar.cos phase, scaled * Scalar.sin phase⟩

/-- Whether a part of the number is infinite. -/
def isInfinite (z : ComplexPair α) : Bool := Scalar.isInfinite z.re || Scalar.isInfinite z.im

end ComplexPair

inductive Number (α : Type) where
  | flag (value : Bool)
  | integer (value : Int)
  | real (value : α)
  | complex (value : ComplexPair α)

namespace Number

variable {α : Type} [Scalar α]

instance : Zero (Number α) := ⟨integer 0⟩

instance : One (Number α) := ⟨integer 1⟩

/-- A whole number as a real one, unless it is out of range. -/
def realOfInteger (n : Int) : Except (Error α) α :=
  if Scalar.isFinite (n : α) then .ok n else .error .overflow

/-- Two numbers brought to the wider of their kinds. -/
inductive Matched (α : Type) where
  | integers (m n : Int)
  | reals (x y : α)
  | complexes (z w : ComplexPair α)

def integerOfFlag (b : Bool) : Int := if b then 1 else 0

/-- Truth values become whole numbers. -/
def counted : Number α → Number α
  | flag b => integer (integerOfFlag b)
  | x => x

/-- The whole, real or complex pair of two counted numbers. -/
def matched (a b : Number α) : Except (Error α) (Matched α) :=
  match a.counted, b.counted with
  | integer m, integer n => .ok (.integers m n)
  | integer m, real y => (realOfInteger m).map fun x => .reals x y
  | real x, integer n => (realOfInteger n).map fun y => .reals x y
  | real x, real y => .ok (.reals x y)
  | integer m, complex w => (realOfInteger m).map fun x => .complexes (.ofReal x) w
  | complex z, integer n => (realOfInteger n).map fun y => .complexes z (.ofReal y)
  | real x, complex w => .ok (.complexes (.ofReal x) w)
  | complex z, real y => .ok (.complexes z (.ofReal y))
  | complex z, complex w => .ok (.complexes z w)
  | _, _ => .error .wrongType

def add (a b : Number α) : Except (Error α) (Number α) :=
  (matched a b).map fun
    | .integers m n => integer (m + n)
    | .reals x y => real (x + y)
    | .complexes z w => complex (z + w)

def sub (a b : Number α) : Except (Error α) (Number α) :=
  (matched a b).map fun
    | .integers m n => integer (m - n)
    | .reals x y => real (x - y)
    | .complexes z w => complex (z - w)

def mul (a b : Number α) : Except (Error α) (Number α) :=
  (matched a b).map fun
    | .integers m n => integer (m * n)
    | .reals x y => real (x * y)
    | .complexes z w => complex (z * w)

def neg (a : Number α) : Number α :=
  match a.counted with
  | integer n => integer (-n)
  | real x => real (-x)
  | complex z => complex (-z)
  | flag b => flag b

def realQuotient (x y : α) : Except (Error α) (Number α) :=
  if Scalar.same y 0 then .error .divisionByZero else .ok (real (x / y))

def div (a b : Number α) : Except (Error α) (Number α) :=
  match matched a b with
  | .error e => .error e
  | .ok (.integers m n) =>
    if n == 0 then .error .divisionByZero
    else
      let q : α := Scalar.quotient m n
      if Scalar.isFinite q then .ok (real q) else .error .overflow
  | .ok (.reals x y) => realQuotient x y
  | .ok (.complexes z w) => if w.isZero then .error .divisionByZero else .ok (complex (z / w))

/-- Whether a number has no fractional part. -/
def isWhole (x : α) : Bool :=
  match Scalar.truncate x with
  | some n => Scalar.same (n : α) x
  | none => false

/-- The whole number that a complex number stands for, if it is at most a hundred in size. -/
def smallExponent? (w : ComplexPair α) : Option Int :=
  match Scalar.truncate w.re with
  | some n =>
    if Scalar.same w.im 0 && Scalar.same (n : α) w.re && n.natAbs ≤ 100 then some n else none
  | none => none

/-- A complex power, unless it grew out of range. -/
def complexInRange (z : ComplexPair α) : Except (Error α) (Number α) :=
  if z.isInfinite then .error .overflow else .ok (complex z)

/-- Powers of complex numbers: small whole exponents by multiplication, others in polar form. -/
def complexPower (z w : ComplexPair α) : Except (Error α) (Number α) :=
  match smallExponent? w with
  | some n =>
    let p := z.naturalPower n.natAbs
    if 0 < n then complexInRange p
    else if p.isZero then .error .divisionByZero
    else complexInRange (1 / p)
  | none =>
    if z.isZero then
      if !Scalar.same w.im 0 || Scalar.less w.re 0 then .error .divisionByZero
      else .ok (complex 0)
    else if Scalar.isInfinite (z.powerPhase w) then .error .divisionByZero
    else complexInRange (z.power w)

/-- Powers of real numbers. A negative base with a fractional exponent has a complex power. -/
def realPower (x y : α) : Except (Error α) (Number α) :=
  let finite := Scalar.isFinite x && Scalar.isFinite y
  if Scalar.same y 0 then .ok (real 1)
  else if Scalar.same x 0 && Scalar.less y 0 && finite then .error .divisionByZero
  else if Scalar.less x 0 && finite && !isWhole y then complexPower (.ofReal x) (.ofReal y)
  else
    let p := Scalar.power x y
    if finite && !Scalar.isFinite p then .error .overflow else .ok (real p)

/-- The natural power of a whole number. Zero and the units are told apart first, because their
exponents may be of any size. -/
def wholePower (m : Int) (n : Nat) : Int :=
  if m = 0 then if n = 0 then 1 else 0
  else if m = 1 then 1
  else if m = -1 then if n % 2 = 0 then 1 else -1
  else m.pow n

theorem wholePower_eq (m : Int) (n : Nat) : wholePower m n = m.pow n := by
  have one (k : Nat) : Int.pow 1 k = 1 := Int.one_pow
  have square (k : Nat) : Int.pow (-1) (2 * k) = 1 := Int.pow_mul.trans (one k)
  unfold wholePower
  split
  · next h =>
    subst h
    cases n with
    | zero => rfl
    | succ n => exact ((Int.pow_succ 0 n).trans (Int.mul_zero _)).symm
  split
  · next h => rw [h, one]
  split
  · next h =>
    subst h
    split
    · next even =>
      obtain ⟨k, rfl⟩ := Nat.dvd_of_mod_eq_zero even
      exact (square k).symm
    · next odd =>
      obtain ⟨k, rfl⟩ : ∃ k, n = 2 * k + 1 := ⟨n / 2, by omega⟩
      exact ((Int.pow_succ (-1) (2 * k)).trans (congrArg (· * -1) (square k))).symm
  · rfl

def pow (a b : Number α) : Except (Error α) (Number α) :=
  match matched a b with
  | .error e => .error e
  | .ok (.integers m n) =>
    if 0 ≤ n then .ok (integer (wholePower m n.toNat))
    else
      match realOfInteger m, realOfInteger n with
      | .ok x, .ok y => realPower x y
      | .error e, _ => .error e
      | _, .error e => .error e
  | .ok (.reals x y) => realPower x y
  | .ok (.complexes z w) => complexPower z w

/-- The real number that a number stands for; complex ones stand for none. -/
def toReal (a : Number α) : Except (Error α) α :=
  match a.counted with
  | integer n => realOfInteger n
  | real x => .ok x
  | _ => .error .complexValue

/-- The number of a numeric datum. -/
def ofDatum? : Datum α → Option (Number α)
  | .flag b => some (flag b)
  | .integer n => some (integer n)
  | .real x => some (real x)
  | _ => none

def ofDatum (d : Datum α) : Except (Error α) (Number α) :=
  match ofDatum? d with
  | some x => .ok x
  | none => .error .wrongType

/-- The datum of a number; complex ones are shown by their parts. -/
def toDatum : Number α → Datum α
  | flag b => .flag b
  | integer n => .integer n
  | real x => .real x
  | complex z => .list [.real z.re, .real z.im]

def isTrue : Number α → Bool
  | flag b => b
  | integer n => n != 0
  | real x => !Scalar.same x 0
  | complex z => !z.isZero

/-- The whole part of a number, cut towards zero; zero where there is none. -/
def wholePart (a : Number α) : Int :=
  match a.counted with
  | integer n => n
  | real x => (Scalar.truncate x).getD 0
  | complex z => (Scalar.truncate z.re).getD 0
  | flag _ => 0

/-- The nearest complex number. -/
def toComplex (a : Number α) : ComplexPair α :=
  match a.counted with
  | integer n => .ofReal (n : α)
  | real x => .ofReal x
  | complex z => z
  | flag _ => 0

/-- The whole part of an exponent, if it has no fractional part. -/
def wholeExponent (a : Number α) : Except (Error α) Int :=
  match a.counted with
  | integer n => .ok n
  | real x =>
    match Scalar.truncate x with
    | some n => if Scalar.same (n : α) x then .ok n else .error .fractionalExponent
    | none => if Scalar.same x x then .error .overflow else .error .undefinedInteger
  | _ => .error .wrongType

end Number
end WeakForm
