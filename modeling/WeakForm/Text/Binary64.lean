/-!
# Exact values of doubles

A finite double is a whole number times a power of two. Rendering starts from this exact value,
never from a rounded one.
-/

namespace WeakForm

/-- What a double stands for; a finite one is `± mantissa * 2 ^ exponent`. -/
inductive Binary64 where
  | undefined
  | infinite (negative : Bool)
  | finite (negative : Bool) (mantissa : Nat) (exponent : Int)
  deriving Repr, DecidableEq

namespace Binary64

/-- Decodes the sign, the eleven exponent bits and the 52 fraction bits. -/
def ofBits (bits : UInt64) : Binary64 :=
  let n := bits.toNat
  let negative := n / Nat.pow 2 63 == 1
  let biased := n / Nat.pow 2 52 % 2048
  let fraction := n % Nat.pow 2 52
  if biased == 2047 then
    if fraction == 0 then infinite negative else undefined
  else if biased == 0 then finite negative fraction (-1074)
  else finite negative (Nat.pow 2 52 + fraction) ((biased : Int) - 1075)

def ofFloat (x : Float) : Binary64 := ofBits x.toBits

/-- Numerator and denominator of `mantissa * 2 ^ exponent`. -/
def fraction (mantissa : Nat) (exponent : Int) : Nat × Nat :=
  if 0 ≤ exponent then (mantissa * Nat.pow 2 exponent.toNat, 1)
  else (mantissa, Nat.pow 2 (-exponent).toNat)

/-- A quotient rounded to the nearest whole number, a half to the even neighbour. -/
def roundHalfEven (num den : Nat) : Nat :=
  let q := num / den
  let r := 2 * (num % den)
  if r < den || (r == den && q % 2 == 0) then q else q + 1

/-- The largest `e` with `2 ^ e ≤ num / den`, for a positive quotient. -/
def magnitude (num den : Nat) : Int :=
  let e : Int := (Nat.log2 num : Int) - Nat.log2 den
  let f := if 0 ≤ e then (num, den * Nat.pow 2 e.toNat) else (num * Nat.pow 2 (-e).toNat, den)
  if f.2 ≤ f.1 then e else e - 1

/-- Mantissa and exponent of the double nearest to a positive quotient, of which the exponent may
exceed the range of doubles. -/
def ofQuotient (num den : Nat) : Nat × Int :=
  let e := max (magnitude num den - 52) (-1074)
  if 0 ≤ e then (roundHalfEven num (den * Nat.pow 2 e.toNat), e)
  else (roundHalfEven (num * Nat.pow 2 (-e).toNat) den, e)

/-- The whole part of a finite double, cut towards zero. -/
def truncate? : Binary64 → Option Int
  | finite negative m e =>
    let f := fraction m e
    let whole : Int := (f.1 / f.2 : Nat)
    some (if negative then -whole else whole)
  | _ => none

end Binary64
end WeakForm
