import WeakForm.Tensor
import WeakForm.Value.Number

/-!
# Arrays of numbers

All entries of an array are of one kind. Two arrays are combined in the wider of their kinds, where
whole numbers wrap around at the length of a word, truth values add by disjunction and multiply by
conjunction, and division by zero gives an infinite or undefined entry. Whole numbers too long for
a word make a mixed array, whose entries are plain numbers and follow the rules of those.
-/

namespace WeakForm

/-- A truth value as the entry of an array. -/
structure Truth where
  holds : Bool
  deriving DecidableEq

namespace Truth

instance : Zero Truth := ⟨⟨false⟩⟩

instance : One Truth := ⟨⟨true⟩⟩

instance : Add Truth := ⟨fun a b => ⟨a.holds || b.holds⟩⟩

instance : Mul Truth := ⟨fun a b => ⟨a.holds && b.holds⟩⟩

end Truth

/-- A signed whole number as the entry of an array beside entries of type `α`. -/
structure Whole (α : Type) where
  value : Int

namespace Whole

variable {α : Type} [Scalar α]

/-- The whole number of one word that agrees with `n` up to carries. -/
def wrap (n : Int) : Whole α := ⟨Scalar.word α n⟩

instance : Zero (Whole α) := ⟨⟨0⟩⟩

instance : One (Whole α) := ⟨⟨1⟩⟩

instance : Add (Whole α) := ⟨fun a b => wrap (a.value + b.value)⟩

instance : Sub (Whole α) := ⟨fun a b => wrap (a.value - b.value)⟩

instance : Mul (Whole α) := ⟨fun a b => wrap (a.value * b.value)⟩

instance : Neg (Whole α) := ⟨fun a => wrap (-a.value)⟩

end Whole

/-- A whole number without sign as the entry of an array beside entries of type `α`. -/
structure Natural (α : Type) where
  value : Int

namespace Natural

variable {α : Type} [Scalar α]

/-- The unsigned number of one word that agrees with `n` up to carries. -/
def wrap (n : Int) : Natural α := ⟨Scalar.naturalWord α n⟩

instance : Zero (Natural α) := ⟨⟨0⟩⟩

instance : One (Natural α) := ⟨⟨1⟩⟩

instance : Add (Natural α) := ⟨fun a b => wrap (a.value + b.value)⟩

instance : Sub (Natural α) := ⟨fun a b => wrap (a.value - b.value)⟩

instance : Mul (Natural α) := ⟨fun a b => wrap (a.value * b.value)⟩

instance : Neg (Natural α) := ⟨fun a => wrap (-a.value)⟩

end Natural

/-- A plain number or the error of its computation, as the entry of a mixed array. -/
def Outcome (α : Type) : Type := Except (Error α) (Number α)

namespace Outcome

variable {α : Type} [Scalar α]

/-- Combines two outcomes; of two errors the first counts. -/
def combine (f : Number α → Number α → Except (Error α) (Number α)) (a b : Outcome α) :
    Outcome α :=
  match a, b with
  | .ok x, .ok y => f x y
  | .ok _, .error e => .error e
  | .error e, _ => .error e

instance : Zero (Outcome α) := ⟨.ok 0⟩

instance : One (Outcome α) := ⟨.ok (.integer 1)⟩

instance : Add (Outcome α) := ⟨combine Number.add⟩

instance : Sub (Outcome α) := ⟨combine Number.sub⟩

instance : Mul (Outcome α) := ⟨combine Number.mul⟩

instance : Div (Outcome α) := ⟨combine Number.div⟩

end Outcome

inductive NumberKind where
  | flag
  | integer
  | natural
  | real
  | complex
  | mixed
  deriving DecidableEq, Repr

namespace NumberKind

def rank : NumberKind → Nat
  | flag => 0
  | integer => 1
  | natural => 2
  | real => 3
  | complex => 4
  | mixed => 5

/-- The kind in which two kinds are combined. No word holds both signed and unsigned numbers, so
these meet in the real ones. -/
def wider (a b : NumberKind) : NumberKind :=
  match a, b with
  | integer, natural => real
  | natural, integer => real
  | a, b => if a.rank ≤ b.rank then b else a

end NumberKind

inductive NumberArray (α : Type) where
  | flags (entries : Tensor Truth)
  | integers (entries : Tensor (Whole α))
  | naturals (entries : Tensor (Natural α))
  | reals (entries : Tensor α)
  | complexes (entries : Tensor (ComplexPair α))
  | mixed (entries : Tensor (Number α))

/-- A value or the error of unequal shapes. -/
def orShapeMismatch {α β : Type} : Option β → Except (Error α) β
  | some b => .ok b
  | none => .error .shapeMismatch

/-- The entries of a tensor of outcomes, or their first error. -/
def Tensor.collect {α β : Type} (t : Tensor (Except (Error α) β)) :
    Except (Error α) (Tensor β) := do
  let entries ← t.data.toList.mapM id
  orShapeMismatch ((Tensor.ofArray entries.toArray).reshape? t.shape)

namespace NumberArray

variable {α : Type}

def kind : NumberArray α → NumberKind
  | flags _ => .flag
  | integers _ => .integer
  | naturals _ => .natural
  | reals _ => .real
  | complexes _ => .complex
  | mixed _ => .mixed

def shape : NumberArray α → List Nat
  | flags t => t.shape
  | integers t => t.shape
  | naturals t => t.shape
  | reals t => t.shape
  | complexes t => t.shape
  | mixed t => t.shape

def axes (a : NumberArray α) : Nat := a.shape.length

/-- The entries as plain numbers. -/
def numbers : NumberArray α → Tensor (Number α)
  | flags t => t.map fun b => .flag b.holds
  | integers t => t.map fun n => .integer n.value
  | naturals t => t.map fun n => .integer n.value
  | reals t => t.map .real
  | complexes t => t.map .complex
  | mixed t => t

def ofVector (v : Array α) : NumberArray α := reals (.ofArray v)

/-- The only entry of an array with one entry. -/
def item? (a : NumberArray α) : Option (Number α) := a.numbers.item?

section

variable [Scalar α]

/-- Applies an operation on the places of entries, which does not look at their values. -/
def rearrange (f : {β : Type} → [Zero β] → Tensor β → Tensor β) : NumberArray α → NumberArray α
  | flags t => flags (f t)
  | integers t => integers (f t)
  | naturals t => naturals (f t)
  | reals t => reals (f t)
  | complexes t => complexes (f t)
  | mixed t => mixed (f t)

def toTruths : NumberArray α → Tensor Truth
  | flags t => t
  | a => a.numbers.map fun x => ⟨x.isTrue⟩

def toWholes : NumberArray α → Tensor (Whole α)
  | integers t => t
  | a => a.numbers.map fun x => .wrap x.wholePart

def toNaturals : NumberArray α → Tensor (Natural α)
  | naturals t => t
  | a => a.numbers.map fun x => .wrap x.wholePart

/-- The entries as real numbers; of complex ones the real part. -/
def realParts : NumberArray α → Tensor α
  | reals t => t
  | a => a.numbers.map fun x => x.toComplex.re

def toComplexes : NumberArray α → Tensor (ComplexPair α)
  | complexes t => t
  | a => a.numbers.map Number.toComplex

/-- The entries as numbers of the given kind. -/
def castTo (kind : NumberKind) (a : NumberArray α) : NumberArray α :=
  match kind with
  | .flag => flags a.toTruths
  | .integer => integers a.toWholes
  | .natural => naturals a.toNaturals
  | .real => reals a.realParts
  | .complex => complexes a.toComplexes
  | .mixed => mixed a.numbers

/-- The real entries of an array. The complex entries of a mixed array have no real number to stand
for, those of a complex array lose their imaginary part. -/
def toReals : NumberArray α → Except (Error α) (Tensor α)
  | mixed t => (t.map Number.toReal).collect
  | a => .ok a.realParts

/-- The array without axes that holds a number. -/
def ofNumber : Number α → NumberArray α
  | .flag b => flags (.scalar ⟨b⟩)
  | .integer n =>
    if Scalar.isWord α n then integers (.scalar ⟨n⟩)
    else if Scalar.isNaturalWord α n then naturals (.scalar ⟨n⟩)
    else mixed (.scalar (.integer n))
  | .real x => reals (.scalar x)
  | .complex z => complexes (.scalar z)

/-- The array without axes that holds a number next to an array of the given kind. A whole number
takes on the kind of the array, which must be able to hold it. -/
def ofNumberBeside (kind : NumberKind) : Number α → Except (Error α) (NumberArray α)
  | .integer n =>
    match kind with
    | .flag | .integer =>
      if Scalar.isWord α n then .ok (integers (.scalar ⟨n⟩)) else .error .overflow
    | .natural =>
      if Scalar.isNaturalWord α n then .ok (naturals (.scalar ⟨n⟩)) else .error .overflow
    | .real | .complex => (Number.realOfInteger n).map fun x => reals (.scalar x)
    | .mixed => .ok (mixed (.scalar (.integer n)))
  | x => .ok (ofNumber x)

/-- The entries of a mixed result. -/
def ofOutcomes (t : Option (Tensor (Outcome α))) : Except (Error α) (NumberArray α) := do
  let t ← orShapeMismatch t
  let entries ← t.collect
  pure (mixed entries)

def outcomes (a : NumberArray α) : Tensor (Outcome α) := a.numbers.map .ok

/-- Applies an operation that is made of sums and products to two arrays. -/
def combine (f : {β : Type} → [Zero β] → [Add β] → [Mul β] → Tensor β → Tensor β →
    Option (Tensor β)) (a b : NumberArray α) : Except (Error α) (NumberArray α) :=
  match a.kind.wider b.kind with
  | .flag => orShapeMismatch ((f a.toTruths b.toTruths).map flags)
  | .integer => orShapeMismatch ((f a.toWholes b.toWholes).map integers)
  | .natural => orShapeMismatch ((f a.toNaturals b.toNaturals).map naturals)
  | .real => orShapeMismatch ((f a.realParts b.realParts).map reals)
  | .complex => orShapeMismatch ((f a.toComplexes b.toComplexes).map complexes)
  | .mixed => ofOutcomes (f a.outcomes b.outcomes)

def add (a b : NumberArray α) : Except (Error α) (NumberArray α) :=
  combine (fun s t => Tensor.zipWith (· + ·) s t) a b

/-- Products entry by entry. -/
def times (a b : NumberArray α) : Except (Error α) (NumberArray α) :=
  combine (fun s t => Tensor.zipWith (· * ·) s t) a b

/-- Matrix products. -/
def mul (a b : NumberArray α) : Except (Error α) (NumberArray α) :=
  combine (fun s t => s.mul? t) a b

/-- Differences; truth values have none. -/
def sub (a b : NumberArray α) : Except (Error α) (NumberArray α) :=
  match a.kind.wider b.kind with
  | .flag => .error .truthArithmetic
  | .integer => orShapeMismatch ((Tensor.zipWith (· - ·) a.toWholes b.toWholes).map integers)
  | .natural => orShapeMismatch ((Tensor.zipWith (· - ·) a.toNaturals b.toNaturals).map naturals)
  | .real => orShapeMismatch ((Tensor.zipWith (· - ·) a.realParts b.realParts).map reals)
  | .complex =>
    orShapeMismatch ((Tensor.zipWith (· - ·) a.toComplexes b.toComplexes).map complexes)
  | .mixed => ofOutcomes (Tensor.zipWith (· - ·) a.outcomes b.outcomes)

/-- Quotients entry by entry, which are real at least. -/
def quotient (a b : NumberArray α) : Except (Error α) (NumberArray α) :=
  match a.kind.wider b.kind with
  | .complex =>
    orShapeMismatch <|
      (Tensor.zipWith ComplexPair.quotientByReciprocal a.toComplexes b.toComplexes).map complexes
  | .mixed => ofOutcomes (Tensor.zipWith (· / ·) a.outcomes b.outcomes)
  | _ => orShapeMismatch ((Tensor.zipWith (· / ·) a.realParts b.realParts).map reals)

def neg : NumberArray α → Except (Error α) (NumberArray α)
  | flags _ => .error .truthArithmetic
  | integers t => .ok (integers (t.map (- ·)))
  | naturals t => .ok (naturals (t.map (- ·)))
  | reals t => .ok (reals (t.map (- ·)))
  | complexes t => .ok (complexes (t.map (- ·)))
  | mixed t => .ok (mixed (t.map Number.neg))

def transpose (a : NumberArray α) : NumberArray α := a.rearrange fun t => t.transpose

def atLeast2 (a : NumberArray α) : NumberArray α := a.rearrange fun t => t.atLeast2

/-- The kind in which the entries of several arrays are put together. -/
def commonKind (arrays : List (NumberArray α)) : NumberKind :=
  (arrays.map kind).foldl NumberKind.wider .flag

/-- The arrays of a row in their common kind. -/
def unified (row : List (NumberArray α)) : List (NumberArray α) :=
  row.map (castTo (commonKind row))

/-- Rows of arrays put together as blocks of one array. -/
def block (rows : List (List (NumberArray α))) : Except (Error α) (NumberArray α) :=
  let rows := rows.map unified
  orShapeMismatch <|
    match commonKind rows.flatten with
    | .flag => (Tensor.blocks? (rows.map fun r => r.map toTruths)).map flags
    | .integer => (Tensor.blocks? (rows.map fun r => r.map toWholes)).map integers
    | .natural => (Tensor.blocks? (rows.map fun r => r.map toNaturals)).map naturals
    | .real => (Tensor.blocks? (rows.map fun r => r.map realParts)).map reals
    | .complex => (Tensor.blocks? (rows.map fun r => r.map toComplexes)).map complexes
    | .mixed => (Tensor.blocks? (rows.map fun r => r.map numbers)).map mixed

end

end NumberArray
end WeakForm
