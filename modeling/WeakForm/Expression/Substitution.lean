import WeakForm.Expression.Token
import WeakForm.Expression.Tree

/-!
# Substitution

Names may be replaced in a tree by other trees, and in a text by other texts, which are put in
parentheses there.
-/

namespace WeakForm
namespace Expr

mutual

/-- The tree with its names replaced; a name without a tree of its own stays. -/
def substitute (meaning : String → Option Expr) : Expr → Expr
  | number d => number d
  | symbol name => (meaning name).getD (symbol name)
  | array rows => array (substituteRows meaning rows)
  | sign s e => sign s (substitute meaning e)
  | binary op a b => binary op (substitute meaning a) (substitute meaning b)
  | transpose e => transpose (substitute meaning e)

def substituteRows (meaning : String → Option Expr) : List (List Expr) → List (List Expr)
  | [] => []
  | row :: rows => substituteRow meaning row :: substituteRows meaning rows

def substituteRow (meaning : String → Option Expr) : List Expr → List Expr
  | [] => []
  | e :: row => substitute meaning e :: substituteRow meaning row

end

/-- What stands in a text for one of its pieces. -/
def replacement (meaning : String → Option String) :
    Option TokenKind × List Char → List Char
  | (some .name, name) =>
    match meaning (String.ofList name) with
    | some text => '(' :: (text.toList ++ [')'])
    | none => name
  | (_, piece) => piece

/-- The characters of a text with its names replaced, up to a character that starts no token. -/
def expandChars (meaning : String → Option String) (cs : List Char) : List Char :=
  match cs with
  | [] => []
  | c :: rest =>
    let piece := Token.lexeme (c :: rest)
    match _h : piece.2.length with
    | 0 => c :: rest
    | n + 1 => replacement meaning piece ++ expandChars meaning (rest.drop n)
termination_by cs.length
decreasing_by
  rw [List.length_drop]
  exact Nat.lt_succ_of_le (Nat.sub_le _ _)

/-- The text with its names replaced by texts in parentheses; a name without a text of its own
stays. -/
def expand (meaning : String → Option String) (text : String) : String :=
  String.ofList (expandChars meaning text.toList)

end Expr
end WeakForm
