import WeakForm.Text.Binary64

/-!
# Decimal text of doubles

`shortest` finds the decimal with the fewest digits that reads back as a given double, the nearer
one when two decimals of that length do. `realText` writes it positionally for moderate exponents
and with a power of ten otherwise; `scientificText` writes six places after the point.
-/

namespace WeakForm
namespace Text

/-- Number of decimal digits; zero has one. -/
def digitCount (n : Nat) : Nat := (Nat.toDigits 10 n).length

/-- The quotient `num / den / 10 ^ s` as a fraction. -/
def scaled (num den : Nat) (s : Int) : Nat × Nat :=
  if 0 ≤ s then (num, den * Nat.pow 10 s.toNat) else (num * Nat.pow 10 (-s).toNat, den)

/-- The largest `e` with `10 ^ e ≤ num / den`, for a positive quotient. -/
def magnitude (num den : Nat) : Int :=
  let e : Int := (digitCount num : Int) - digitCount den
  let f := scaled num den e
  if f.2 ≤ f.1 then e else e - 1

/-- A decimal `digits * 10 ^ exponent`. -/
structure Digits where
  digits : Nat
  exponent : Int
  deriving Repr, DecidableEq

/-- Drops trailing zeros; `fuel` bounds their number. -/
def Digits.trim : (fuel : Nat) → Digits → Digits
  | 0, d => d
  | fuel + 1, d =>
    if d.digits % 10 == 0 then Digits.trim fuel ⟨d.digits / 10, d.exponent + 1⟩ else d

/-- Reals that round to the double `m * 2 ^ e`, all four bounds over the common denominator. -/
structure RoundingInterval where
  low : Nat
  value : Nat
  high : Nat
  denominator : Nat
  closed : Bool

/-- The interval reaches half way to each neighbour; below a power of two the neighbour is
nearer. Its ends belong to it when the mantissa is even. -/
def roundingInterval (m : Nat) (e : Int) : RoundingInterval :=
  let narrow := m == Nat.pow 2 52 && -1074 < e
  let f := Binary64.fraction 1 (e - 2)
  { low := (4 * m - (if narrow then 1 else 2)) * f.1
    value := 4 * m * f.1
    high := (4 * m + 2) * f.1
    denominator := f.2
    closed := m % 2 == 0 }

/-- Whether `d * 10 ^ s` lies in the interval. -/
def RoundingInterval.holds (r : RoundingInterval) (d : Nat) (s : Int) : Bool :=
  let p := if 0 ≤ s then d * Nat.pow 10 s.toNat * r.denominator else d * r.denominator
  let q := if 0 ≤ s then 1 else Nat.pow 10 (-s).toNat
  if r.closed then r.low * q ≤ p && p ≤ r.high * q else r.low * q < p && p < r.high * q

/-- The neighbours of the value on the grid of multiples of `10 ^ s` that lie in the interval,
the nearer one first. -/
def RoundingInterval.neighbours (r : RoundingInterval) (s : Int) : List Nat :=
  let f := scaled r.value r.denominator s
  let d := f.1 / f.2
  let near := Binary64.roundHalfEven f.1 f.2
  ([near, if near == d then d + 1 else d]).filter fun d => r.holds d s

/-- The first grid with a hit, from `n` digits on. -/
def RoundingInterval.search (r : RoundingInterval) (top : Int) : (fuel n : Nat) → Digits
  | 0, n =>
    let s := top + 1 - (n : Int)
    let f := scaled r.value r.denominator s
    ⟨Binary64.roundHalfEven f.1 f.2, s⟩
  | fuel + 1, n =>
    let s := top + 1 - (n : Int)
    match r.neighbours s with
    | d :: _ => ⟨d, s⟩
    | [] => r.search top fuel (n + 1)

/-- The shortest decimal that reads back as `m * 2 ^ e`, for positive `m`. -/
def shortest (m : Nat) (e : Int) : Digits :=
  let r := roundingInterval m e
  (r.search (magnitude r.value r.denominator) 17 1).trim 20

/-- Exponent of ten with a sign and at least two digits. -/
def exponentText (e : Int) : String :=
  let a := e.natAbs
  "e" ++ (if e < 0 then "-" else "+") ++ (if a < 10 then "0" else "") ++ toString a

/-- Positional text of `ds`, read as a whole number, with its point after `point` digits. -/
def positional (ds : String) (point : Int) : String :=
  if point ≤ 0 then "0." ++ "".pushn '0' (-point).toNat ++ ds
  else if point < ds.length then
    String.ofList (ds.toList.take point.toNat) ++ "." ++ String.ofList (ds.toList.drop point.toNat)
  else ds ++ "".pushn '0' (point.toNat - ds.length) ++ ".0"

/-- Positional when the point falls at most sixteen places right or three places left of the
first digit. -/
def digitsText (d : Digits) : String :=
  let ds := toString d.digits
  let point : Int := ds.length + d.exponent
  if -4 < point && point ≤ 16 then positional ds point
  else
    let first := String.ofList (ds.toList.take 1)
    let rest := String.ofList (ds.toList.drop 1)
    first ++ (if rest.isEmpty then "" else "." ++ rest) ++ exponentText (point - 1)

def realText (x : Float) : String :=
  match Binary64.ofFloat x with
  | .undefined => "nan"
  | .infinite negative => if negative then "-inf" else "inf"
  | .finite negative m e =>
    (if negative then "-" else "") ++ (if m == 0 then "0.0" else digitsText (shortest m e))

/-- One digit, six places and an exponent; a half goes to the even digit. -/
def scientificDigits (num den : Nat) : Digits :=
  let e := magnitude num den
  let f := scaled num den (e - 6)
  let n := Binary64.roundHalfEven f.1 f.2
  if n == Nat.pow 10 7 then ⟨Nat.pow 10 6, e + 1⟩ else ⟨n, e⟩

def scientificText (x : Float) : String :=
  match Binary64.ofFloat x with
  | .undefined => "nan"
  | .infinite negative => if negative then "-inf" else "inf"
  | .finite negative m e =>
    let f := Binary64.fraction m e
    let d := if m == 0 then ⟨0, 0⟩ else scientificDigits f.1 f.2
    let ds := toString (Nat.pow 10 6 + d.digits % Nat.pow 10 6)
    (if negative then "-" else "") ++ toString (d.digits / Nat.pow 10 6) ++ "." ++
      String.ofList (ds.toList.drop 1) ++ exponentText d.exponent

end Text
end WeakForm
