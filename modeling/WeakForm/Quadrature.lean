import WeakForm.Error
import WeakForm.Tensor
import WeakForm.Text.Lowercase

/-!
# Quadrature

A rule is a list of weighted points of a reference shape. Segments, squares and cubes share the
Gauss rules of the segment from -1 to 1 with one to five points, which are combined over the
dimensions with the first coordinate running fastest. Triangles have symmetric rules with one,
three, four or seven points on the triangle of (0,0), (1,0) and (0,1).
-/

namespace WeakForm

/-- A point of a reference shape with its weight. -/
structure QuadraturePoint (α : Type) where
  position : List α
  weight : α

namespace Quadrature

variable {α : Type}

section Tables

variable [Scalar α]

/-- Points and weights of the Gauss rule with `n` points. -/
def gaussLine (n : Nat) : Option (List (α × α)) :=
  match n with
  | 1 => some [(0, 2.0)]
  | 2 =>
    let a : α := 1 / Scalar.sqrt 3.0
    some [(-a, 1), (a, 1)]
  | 3 =>
    let a : α := Scalar.sqrt (3.0 / 5.0)
    some [(0, 8.0 / 9.0), (-a, 5.0 / 9.0), (a, 5.0 / 9.0)]
  | 4 =>
    let a : α := Scalar.sqrt ((3.0 - 2.0 * Scalar.sqrt (6.0 / 5.0)) / 7.0)
    let b : α := Scalar.sqrt ((3.0 + 2.0 * Scalar.sqrt (6.0 / 5.0)) / 7.0)
    let v : α := (18.0 + Scalar.sqrt 30.0) / 36.0
    let w : α := (18.0 - Scalar.sqrt 30.0) / 36.0
    some [(-a, v), (a, v), (-b, w), (b, w)]
  | 5 =>
    let a : α := Scalar.sqrt (5.0 - 2.0 * Scalar.sqrt (10.0 / 7.0)) / 3.0
    let b : α := Scalar.sqrt (5.0 + 2.0 * Scalar.sqrt (10.0 / 7.0)) / 3.0
    let v : α := (322.0 + 13.0 * Scalar.sqrt 70.0) / 900.0
    let w : α := (322.0 - 13.0 * Scalar.sqrt 70.0) / 900.0
    some [(0, 128.0 / 225.0), (-a, v), (a, v), (-b, w), (b, w)]
  | _ => none

/-- The symmetric rule with `n` points; the weights add up to one half. -/
def gaussTriangle (n : Nat) : Option (List (QuadraturePoint α)) :=
  match n with
  | 1 => some [⟨[1 / 3.0, 1 / 3.0], 0.5⟩]
  | 3 =>
    let a : α := 1 / 6.0
    let b : α := 2.0 / 3.0
    some [⟨[a, a], a⟩, ⟨[b, a], a⟩, ⟨[a, b], a⟩]
  | 4 =>
    let a : α := 1 / 5.0
    let b : α := 3.0 / 5.0
    let w : α := 25.0 / 96.0
    some [⟨[1 / 3.0, 1 / 3.0], -(27.0 / 96.0)⟩, ⟨[b, a], w⟩, ⟨[a, b], w⟩, ⟨[a, a], w⟩]
  | 7 =>
    let a : α := 0.101286507323456
    let b : α := 0.797426985353087
    let c : α := 0.470142064105115
    let d : α := 0.059715871789770
    let v : α := 0.125939180544827 / 2.0
    let w : α := 0.132394152788506 / 2.0
    some [⟨[a, a], v⟩, ⟨[b, a], v⟩, ⟨[a, b], v⟩, ⟨[c, d], w⟩, ⟨[c, c], w⟩, ⟨[d, c], w⟩,
      ⟨[1 / 3.0, 1 / 3.0], 0.1125⟩]
  | _ => none

end Tables

/-- All lists of `n` items, the last item running fastest. -/
def product {β : Type} (items : List β) : (n : Nat) → List (List β)
  | 0 => [[]]
  | n + 1 => items.flatMap fun x => (product items n).map fun c => x :: c

/-- Which of `n` points gives each of the `dim` coordinates, the first one running fastest. -/
def combinations (n dim : Nat) : List (List (Fin n)) :=
  (product (List.finRange n) dim).map List.reverse

/-- The points of a rule of the segment combined over `dim` dimensions. Points and weights are looked
up separately under the same indices. -/
def tensorProduct [One α] [Mul α] (rule : List (α × α)) (dim : Nat) : List (QuadraturePoint α) :=
  (combinations rule.length dim).map fun indices =>
    ⟨indices.map fun i => (rule.get i).1, (indices.map fun i => (rule.get i).2).foldl (· * ·) 1⟩

end Quadrature

namespace RuleKind

/-- Dimension of the reference shape. -/
def dim : RuleKind → Nat
  | line => 1
  | quad | tri => 2
  | hex => 3

/-- Whether rules combine those of the segment. -/
def isTensor : RuleKind → Bool
  | tri => false
  | _ => true

end RuleKind

namespace Quadrature

variable {α : Type} [Scalar α]

/-- The points of a rule of the given kind and order. -/
def rule? (kind : RuleKind) (order : Nat) : Option (List (QuadraturePoint α)) :=
  match kind with
  | .tri => gaussTriangle order
  | kind => (gaussLine order).map fun rule => tensorProduct rule kind.dim

/-- The points of a rule before they are combined over the dimensions. -/
def table? (kind : RuleKind) (order : Nat) : Option (List (QuadraturePoint α)) :=
  match kind with
  | .tri => gaussTriangle order
  | _ => (gaussLine order).map fun rule => tensorProduct rule 1

/-- The order that a datum names: numbers equal to a whole number count as it. -/
def orderOf? (order : Datum α) : Option Nat :=
  let whole : Option Int :=
    match order with
    | .real x =>
      match Scalar.truncate x with
      | some n => if Scalar.same (n : α) x then some n else none
      | none => none
    | d => d.integer?
  whole.bind Int.toNat?

/-- The kind that a text names in any letter case. -/
def kindOf (kind : Datum α) : Except (Error α) RuleKind :=
  match kind with
  | .text s =>
    let name := Text.lowercase s
    match [RuleKind.line, .quad, .hex, .tri].find? fun k => k.name == name with
    | some k => .ok k
    | none => .error (if name == "tet" then .tetrahedralRule else .unknownRule name)
  | _ => .error .notText

/-- Looks up a rule, combined over the dimensions or not. -/
def lookup (kind order : Datum α) (combined : Bool) :
    Except (Error α) (RuleKind × List (QuadraturePoint α)) := do
  let k ← kindOf kind
  match order with
  | .list _ | .map _ => .error .wrongType
  | _ =>
    match (orderOf? order).bind (if combined then rule? k else table? k) with
    | some points => pure (k, points)
    | none => .error (.unsupportedOrder k order)

/-- The combined rule that a kind and an order name, neither of which may be a collection. -/
def ruleOf (kind order : Datum α) : Except (Error α) (RuleKind × List (QuadraturePoint α)) :=
  match kind, order with
  | .list _, _ | .map _, _ | _, .list _ | _, .map _ => .error .wrongType
  | kind, order => lookup kind order true

/-- The coordinates of all points: a column per dimension, or no columns for the rule of the
segment that is yet to be combined. -/
def coordinates (kind : RuleKind) (points : List (QuadraturePoint α)) (combined : Bool) :
    Tensor α :=
  if kind.isTensor && !combined then
    .ofArray (points.flatMap QuadraturePoint.position).toArray
  else .ofMatrix (.ofRows kind.dim (points.map QuadraturePoint.position))

end Quadrature
end WeakForm
