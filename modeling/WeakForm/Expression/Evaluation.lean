import WeakForm.Expression.Tree
import WeakForm.Value

/-!
# Evaluating expressions

The value of an expression is built from the values of its names. Operands are evaluated from left
to right, and the first error is the result.
-/

namespace WeakForm

namespace Operation

variable {α : Type} [Scalar α]

def apply : Operation → Value α → Value α → Except (Error α) (Value α)
  | add => Value.add
  | sub => Value.sub
  | mul => Value.mul
  | div => Value.div
  | pow => Value.pow

end Operation

namespace Expr

variable {α : Type} [Scalar α]

mutual

/-- The value of an expression, its names evaluated by `resolve`. -/
def eval (resolve : String → Except (Error α) (Value α)) : Expr → Except (Error α) (Value α)
  | number d => .ok (.ofReal (Scalar.ofDecimal d))
  | symbol name => resolve name
  | array rows => do
    let values ← evalRows resolve rows
    Value.block values
  | sign s e => do
    let v ← eval resolve e
    match s with
    | .minus => v.neg
    | .plus => pure v
  | binary op a b => do
    let x ← eval resolve a
    let y ← eval resolve b
    op.apply x y
  | transpose e => do
    let v ← eval resolve e
    pure v.transpose

def evalRows (resolve : String → Except (Error α) (Value α)) :
    List (List Expr) → Except (Error α) (List (List (Value α)))
  | [] => .ok []
  | row :: rows => do
    let vs ← evalRow resolve row
    let rest ← evalRows resolve rows
    pure (vs :: rest)

def evalRow (resolve : String → Except (Error α) (Value α)) :
    List Expr → Except (Error α) (List (Value α))
  | [] => .ok []
  | e :: row => do
    let v ← eval resolve e
    let vs ← evalRow resolve row
    pure (v :: vs)

end

end Expr
end WeakForm
