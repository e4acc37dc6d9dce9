import WeakForm.Decimal

/-!
# Expression trees

An expression is a number, a name, an array literal, or an operation on smaller expressions.
-/

namespace WeakForm

inductive Sign where
  | plus
  | minus
  deriving DecidableEq, Repr

inductive Operation where
  | add
  | sub
  | mul
  | div
  | pow
  deriving DecidableEq, Repr

inductive Expr where
  | number (value : Decimal)
  | symbol (name : String)
  | array (rows : List (List Expr))
  | sign (sign : Sign) (operand : Expr)
  | binary (operation : Operation) (left right : Expr)
  | transpose (operand : Expr)

namespace Expr

mutual

/-- The names of an expression in reading order, with repetitions. -/
def names : Expr → List String
  | number _ => []
  | symbol name => [name]
  | array rows => rowsNames rows
  | sign _ e => names e
  | binary _ a b => names a ++ names b
  | transpose e => names e

def rowsNames : List (List Expr) → List String
  | [] => []
  | row :: rows => rowNames row ++ rowsNames rows

def rowNames : List Expr → List String
  | [] => []
  | e :: row => names e ++ rowNames row

end

end Expr
end WeakForm
