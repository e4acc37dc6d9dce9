/-!
# Element families

A family fixes the topology of a reference element: its nodes, its dimension, the local nodes of
each side, the family of its sides and its quadrature rule. Corner nodes come first and run counter
clockwise, then the mid-side nodes.

```text
4-------3      3                 1-------2     1---3---2
|       |      | \
|       |      6   5
|       |      |     \
1-------2      1---4---2
```
-/

namespace WeakForm

/-- Reference shapes that carry quadrature rules. -/
inductive RuleKind where
  | line
  | quad
  | hex
  | tri
  deriving DecidableEq, Repr

namespace RuleKind

def name : RuleKind → String
  | line => "line"
  | quad => "quad"
  | hex => "hex"
  | tri => "tri"

end RuleKind

inductive Family where
  | point
  | line2
  | line3
  | quad4
  | tri3
  | tri6
  | beam2
  deriving DecidableEq, Repr

namespace Family

def all : List Family := [point, line2, line3, quad4, tri3, tri6, beam2]

def name : Family → String
  | point => "Point"
  | line2 => "Line2"
  | line3 => "Line3"
  | quad4 => "Quad4"
  | tri3 => "Tri3"
  | tri6 => "Tri6"
  | beam2 => "Beam2"

def nodeCount : Family → Nat
  | point => 1
  | line2 => 2
  | line3 => 3
  | quad4 => 4
  | tri3 => 3
  | tri6 => 6
  | beam2 => 2

/-- Dimension of the reference element. -/
def dim : Family → Nat
  | point => 0
  | line2 | line3 | beam2 => 1
  | quad4 | tri3 | tri6 => 2

/-- Local nodes of each side, counted from zero. -/
def sides : Family → List (List Nat)
  | point => []
  | line2 | line3 | beam2 => [[0], [1]]
  | quad4 => [[0, 1], [1, 2], [2, 3], [3, 0]]
  | tri3 => [[0, 1], [1, 2], [2, 0]]
  | tri6 => [[0, 1, 3], [1, 2, 4], [2, 0, 5]]

/-- Family of the sides. -/
def sideFamily : Family → Option Family
  | point => none
  | line2 | line3 | beam2 => some point
  | quad4 | tri3 => some line2
  | tri6 => some line3

/-- Kind and order of the quadrature rule. -/
def rule : Family → Option (RuleKind × Nat)
  | point => none
  | line2 | beam2 => some (.line, 2)
  | line3 => some (.line, 3)
  | quad4 => some (.quad, 2)
  | tri3 => some (.tri, 3)
  | tri6 => some (.tri, 7)

/-- Degrees of freedom per node where the family fixes them. -/
def fixedDofs : Family → Option Nat
  | beam2 => some 2
  | _ => none

/-- Looks a family up by its name in any letter case. -/
def ofName? (name : String) : Option Family :=
  all.find? fun f => f.name.toLower == name.toLower

end Family
end WeakForm
