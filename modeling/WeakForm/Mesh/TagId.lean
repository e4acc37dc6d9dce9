import WeakForm.Datum

/-!
# Tags

Regions of a mesh are tagged by a number or a name. Two ways to write a number are the same tag, so
a tag has a key, which identifies it, and the text that it was written as. An undefined number is
no tag but its own: it gets a serial number when it is first used, and is not found again.
-/

namespace WeakForm

/-- What identifies a tag. Lists and maps are not usable as tags. -/
inductive TagKey where
  | number (n : Int)
  /-- A fraction in lowest terms. -/
  | fraction (num : Int) (den : Nat)
  | infinite (negative : Bool)
  | undefined (serial : Option Nat)
  | name (s : String)
  | absent
  | unusable
  deriving DecidableEq, Repr

namespace TagKey

/-- The key of a number. -/
def ofBinary64 : Binary64 → TagKey
  | .undefined => undefined none
  | .infinite negative => infinite negative
  | .finite negative m e =>
    let f := Binary64.fraction m e
    let g := Nat.gcd f.1 f.2
    let num : Int := if negative then -((f.1 / g : Nat) : Int) else ((f.1 / g : Nat) : Int)
    if f.2 / g = 1 then number num else fraction num (f.2 / g)

def ofDatum : Datum Float → TagKey
  | .null => absent
  | .flag b => number (if b then 1 else 0)
  | .integer n => number n
  | .real x => ofBinary64 (Binary64.ofFloat x)
  | .text s => name s
  | .list _ => unusable
  | .map _ => unusable

/-- Numerator and denominator of a number; the denominator of an infinite one is zero. -/
def quotient? : TagKey → Option (Int × Nat)
  | number n => some (n, 1)
  | fraction num den => some (num, den)
  | infinite negative => some (if negative then -1 else 1, 0)
  | undefined _ => some (0, 0)
  | _ => none

/-- The order of two numbers or of two names; none between other keys. -/
def atMost? (a b : TagKey) : Option Bool :=
  match a, b with
  | name s, name t => some (s ≤ t)
  | a, b =>
    match a.quotient?, b.quotient? with
    | some p, some q => some (p.1 * q.2 ≤ q.1 * p.2)
    | _, _ => none

end TagKey

/-- A tag as it was written. -/
structure TagId where
  key : TagKey
  text : String
  deriving DecidableEq, Repr

namespace TagId

def number (n : Int) : TagId := ⟨.number n, toString n⟩

def name (s : String) : TagId := ⟨.name s, s⟩

def ofDatum (d : Datum Float) : TagId := ⟨.ofDatum d, d.display⟩

/-- An undefined number becomes a tag by its serial number. -/
def numbered (tag : TagId) (serial : Nat) : TagId :=
  if tag.key = .undefined none then { tag with key := .undefined (some serial) } else tag

/-- Adds a tag to a list, unless it is there already. -/
def adjoin (tag : TagId) (tags : List TagId) : List TagId :=
  if tags.any fun t => t.key == tag.key then tags else tags ++ [tag]

/-- Tags in increasing order; none when some of them are not ordered. -/
def sorted? (tags : List TagId) : Option (List TagId) :=
  if tags.all fun a => tags.all fun b => a.key == b.key || (a.key.atMost? b.key).isSome then
    some (tags.mergeSort fun a b => (a.key.atMost? b.key).getD true)
  else none

/-- The tag of a datum that may be missing. -/
def ofDatum? : Datum Float → Option TagId
  | .null => none
  | d => some (ofDatum d)

end TagId
end WeakForm
