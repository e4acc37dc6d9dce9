import WeakForm.Expression.Tree

/-!
# Writing expressions

An expression is written as pieces of text that follow each other without gaps: numerals, names and
marks. Either every operation stands in parentheses, or only one that binds less tightly than its
place demands.
-/

namespace WeakForm

/-- Which operations stand in parentheses. -/
inductive Parentheses where
  | everywhere
  | whereNeeded
  deriving DecidableEq, Repr

/-- What the place of an operand demands: an operation that binds at least that tightly, or an
exponent, which may carry signs. -/
inductive Place where
  | binding (least : Nat)
  | exponent
  deriving DecidableEq, Repr

namespace Decimal

/-- A numeral: all digits of the mantissa, and the exponent unless it is zero. -/
def numeral (d : Decimal) : String :=
  let digits := String.ofList (Nat.toDigits 10 d.mantissa)
  if d.exponent = 0 then digits
  else if d.exponent < 0 then digits ++ "e-" ++ String.ofList (Nat.toDigits 10 d.exponent.natAbs)
  else digits ++ "e" ++ String.ofList (Nat.toDigits 10 d.exponent.natAbs)

end Decimal

namespace Sign

def mark : Sign → String
  | plus => "+"
  | minus => "-"

end Sign

namespace Operation

def mark : Operation → String
  | add => "+"
  | sub => "-"
  | mul => "*"
  | div => "/"
  | pow => "^"

/-- How tightly an operation binds: sums, products, signs, powers, and last what needs no
parentheses anywhere. -/
def binding : Operation → Nat
  | add | sub => 0
  | mul | div => 1
  | pow => 3

/-- The place of the left operand. -/
def leftPlace (op : Operation) : Place := .binding op.binding

/-- The place of the right operand. -/
def rightPlace : Operation → Place
  | add | sub => .binding 1
  | mul | div => .binding 2
  | pow => .exponent

end Operation

namespace Expr

/-- How tightly the outermost operation binds. -/
def binding : Expr → Nat
  | binary op _ _ => op.binding
  | sign _ _ => 2
  | number _ | symbol _ | array _ | transpose _ => 4

/-- Numbers, names and arrays are no operations. -/
def isOperand : Expr → Bool
  | number _ | symbol _ | array _ => true
  | sign _ _ | binary _ _ _ | transpose _ => false

def isSign : Expr → Bool
  | sign _ _ => true
  | _ => false

/-- Whether an expression stands in a place without parentheses. -/
def isBare (style : Parentheses) (place : Place) (e : Expr) : Bool :=
  match style, place with
  | .everywhere, _ => e.isOperand
  | .whereNeeded, .binding least => least ≤ e.binding
  | .whereNeeded, .exponent => e.isSign || e.binding == 4

/-- The place of the operand of a sign: within an exponent only signs and operands follow. -/
def signPlace : Place → Place
  | .exponent => .exponent
  | .binding _ => .binding 2

/-- Pieces in parentheses unless they stand bare. -/
def enclosed (bare : Bool) (pieces : List String) : List String :=
  if bare then pieces else "(" :: (pieces ++ [")"])

/-- Lists of pieces with a mark between them. -/
def joined (mark : String) : List (List String) → List String
  | [] => []
  | [pieces] => pieces
  | pieces :: rest => pieces ++ mark :: joined mark rest

mutual

/-- The pieces of an expression in its place. -/
def pieces (style : Parentheses) (place : Place) : Expr → List String
  | number d => [d.numeral]
  | symbol name => [name]
  | array rows => "[" :: (joined ";" (rowsPieces style rows) ++ ["]"])
  | sign s e =>
    let bare := isBare style place (.sign s e)
    enclosed bare (s.mark :: pieces style (if bare then signPlace place else .binding 2) e)
  | binary op a b =>
    enclosed (isBare style place (.binary op a b))
      (pieces style op.leftPlace a ++ op.mark :: pieces style op.rightPlace b)
  | transpose e =>
    enclosed (isBare style place (.transpose e)) (pieces style (.binding 4) e ++ ["'"])

def rowsPieces (style : Parentheses) : List (List Expr) → List (List String)
  | [] => []
  | row :: rows => joined "," (rowPieces style row) :: rowsPieces style rows

def rowPieces (style : Parentheses) : List Expr → List (List String)
  | [] => []
  | e :: row => pieces style (.binding 0) e :: rowPieces style row

end

/-- The text of an expression. -/
def write (style : Parentheses) (e : Expr) : String := String.join (pieces style (.binding 0) e)

end Expr
end WeakForm
