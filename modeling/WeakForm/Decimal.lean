import WeakForm.Text.Digit

/-!
# Decimals

A decimal is a whole number times a power of ten, kept without trailing zeros, so two numerals with
the same value are the same decimal. Besides the numerals of expressions this module reads the
freer forms that settings may take: blanks at the ends, a sign, underscores between digits, and
the words for an infinite or undefined number.
-/

namespace WeakForm

/-- The value `mantissa * 10 ^ exponent`. -/
structure Decimal where
  mantissa : Nat
  exponent : Int
  normal : (mantissa = 0 ∧ exponent = 0) ∨ mantissa % 10 ≠ 0
  deriving DecidableEq

namespace Decimal

def zero : Decimal := ⟨0, 0, Or.inl ⟨rfl, rfl⟩⟩

/-- Moves trailing zeros of the mantissa into the exponent. -/
def normalize (m : Nat) (e : Int) : Decimal :=
  if h : m = 0 then zero
  else if h10 : m % 10 = 0 then normalize (m / 10) (e + 1)
  else ⟨m, e, Or.inr h10⟩
termination_by m
decreasing_by omega

/-- A numeral with the given digits before and after the point. -/
def ofDigits (whole places : List Char) (exponent : Int) : Decimal :=
  normalize (Text.digitsValue (whole ++ places)) (exponent - places.length)

end Decimal

/-- A number as settings may spell it. -/
inductive Numeral where
  | undefined
  | infinite (negative : Bool)
  | finite (negative : Bool) (value : Decimal)

namespace Text

/-- Takes a sign off the front. -/
def takeSign : List Char → Bool × List Char
  | '-' :: rest => (true, rest)
  | '+' :: rest => (false, rest)
  | cs => (false, cs)

/-- Digits of a run in which single underscores may stand between digits. -/
def groupedDigits : List Char → List Char × List Char
  | c :: '_' :: d :: rest =>
    if isDigit c then
      if isDigit d then
        let (ds, tail) := groupedDigits (d :: rest)
        (c :: ds, tail)
      else ([c], '_' :: d :: rest)
    else ([], c :: '_' :: d :: rest)
  | c :: rest =>
    if isDigit c then
      let (ds, tail) := groupedDigits rest
      (c :: ds, tail)
    else ([], c :: rest)
  | [] => ([], [])

/-- The longest run of digits that is read as a whole number. -/
def longestInteger : Nat := 4300

/-- A signed whole number, with nothing after it. -/
def readInteger (cs : List Char) : Option Int :=
  let (negative, body) := takeSign (strip cs)
  match groupedDigits body with
  | ([], _) => none
  | (ds, []) =>
    if longestInteger < ds.length then none
    else some (if negative then -(digitsValue ds : Int) else digitsValue ds)
  | _ => none

/-- Exponent of a numeral: nothing, or a mark with a signed run of digits up to the end. -/
def readExponent : List Char → Option Int
  | [] => some 0
  | c :: rest =>
    if c == 'e' || c == 'E' then
      let (negative, body) := takeSign rest
      match groupedDigits body with
      | ([], _) => none
      | (ds, []) => some (if negative then -(digitsValue ds : Int) else digitsValue ds)
      | _ => none
    else none

/-- Digits with an optional point and exponent; one digit at least before or after the point. -/
def readUnsigned (cs : List Char) : Option Decimal :=
  let (whole, rest) := groupedDigits cs
  let (places, rest) := match rest with
    | '.' :: r => groupedDigits r
    | r => ([], r)
  if whole.isEmpty && places.isEmpty then none
  else (readExponent rest).map fun e => Decimal.ofDigits whole places e

def readNumeral (s : String) : Option Numeral :=
  let (negative, body) := takeSign (strip s.toList)
  let word := String.ofList (body.map Char.toLower)
  if word == "nan" then some .undefined
  else if word == "inf" || word == "infinity" then some (.infinite negative)
  else (readUnsigned body).map (.finite negative)

end Text
end WeakForm
