import WeakForm.Datum

/-!
# Order of data

Data are equal when they have the same content; whole numbers and other numbers are compared by
value, without rounding. Numbers are ordered, texts by their characters, and lists by the first
items that differ. Data of other kinds, or of two different kinds, are not ordered.
-/

namespace WeakForm

namespace Scalar

variable {α : Type} [Scalar α]

/-- Whether a whole number is less than a scalar. -/
def integerLess (n : Int) (x : α) : Bool :=
  match truncate x with
  | some t => n < t || (n == t && less (t : α) x)
  | none => less 0 x

/-- Whether a scalar is less than a whole number. -/
def lessInteger (x : α) (n : Int) : Bool :=
  match truncate x with
  | some t => t < n || (n == t && less x (t : α))
  | none => less x 0

def sameInteger (x : α) (n : Int) : Bool :=
  match truncate x with
  | some t => n == t && same (t : α) x
  | none => false

end Scalar

namespace Datum

variable {α : Type} [Scalar α]

/-- Whether two data without parts are equal. -/
def sameLeaf (a b : Datum α) : Bool :=
  match a, b with
  | null, null => true
  | text s, text t => s == t
  | real x, real y => Scalar.same x y
  | real x, b =>
    match b.integer? with
    | some n => Scalar.sameInteger x n
    | none => false
  | a, real y =>
    match a.integer? with
    | some n => Scalar.sameInteger y n
    | none => false
  | a, b =>
    match a.integer?, b.integer? with
    | some m, some n => m == n
    | _, _ => false

mutual

def same : Datum α → Datum α → Bool
  | list xs, list ys => sameItems xs ys
  | map es, map fs => es.length == fs.length && sameEntries es fs
  | a, b => sameLeaf a b

def sameItems : List (Datum α) → List (Datum α) → Bool
  | [], [] => true
  | x :: xs, y :: ys => same x y && sameItems xs ys
  | _, _ => false

/-- Whether all entries of a map are those of another one. -/
def sameEntries : List (String × Datum α) → List (String × Datum α) → Bool
  | [], _ => true
  | (k, x) :: es, fs =>
    (match fs.lookup k with
      | some y => same x y
      | none => false) && sameEntries es fs

end

/-- Whether a number or text is less than another one; none when they are not ordered. -/
def lessLeaf? (a b : Datum α) : Option Bool :=
  match a, b with
  | text s, text t => some (s < t)
  | real x, real y => some (Scalar.less x y)
  | real x, b => b.integer?.map fun n => Scalar.lessInteger x n
  | a, real y => a.integer?.map fun n => Scalar.integerLess n y
  | a, b =>
    match a.integer?, b.integer? with
    | some m, some n => some (m < n)
    | _, _ => none

mutual

/-- Whether a datum is less than another one; none when they are not ordered. -/
def less? : Datum α → Datum α → Option Bool
  | list xs, list ys => lessItems? xs ys
  | a, b => lessLeaf? a b

def lessItems? : List (Datum α) → List (Datum α) → Option Bool
  | [], ys => some (!ys.isEmpty)
  | _ :: _, [] => some false
  | x :: xs, y :: ys => if same x y then lessItems? xs ys else less? x y

end

end Datum
end WeakForm
