import WeakForm.Expression.Parser

/-!
# Grammar of expressions

The grammar says which lists of tokens are expressions and which tree they stand for, without
saying how to read them. Its categories are the levels of precedence, from loosest to tightest; an
expression of a tighter category also belongs to the looser ones, and a chain of operators of one
category is a tree that grows to the left.
-/

namespace WeakForm

/-- The categories of expressions. -/
inductive Category where
  | sum
  | product
  | unary
  | power
  | exponent
  | postfixed
  | primary
  deriving DecidableEq, Repr

namespace Token

/-- Whether a token is the mark with the given text. -/
def Marks (t : Token) (text : String) : Prop := t.kind = .mark ∧ t.text = text

/-- Whether a token is the mark of a sign. -/
def MarksSign (t : Token) : Sign → Prop
  | .plus => t.Marks "+"
  | .minus => t.Marks "-"

/-- Whether a token is the mark of an operation. -/
def MarksOperation (t : Token) : Operation → Prop
  | .add => t.Marks "+"
  | .sub => t.Marks "-"
  | .mul => t.Marks "*"
  | .div => t.Marks "/"
  | .pow => t.Marks "^"

end Token

/-- Lists of tokens joined by tokens that are the given mark. -/
inductive JoinedBy (mark : String) : List (List Token) → List Token → Prop
  | one (ts : List Token) : JoinedBy mark [ts] ts
  | cons {ts : List Token} {t : Token} {parts : List (List Token)} {rest : List Token}
      (ht : t.Marks mark) (h : JoinedBy mark parts rest) :
      JoinedBy mark (ts :: parts) (ts ++ t :: rest)

/-- The tokens stand for the tree as an expression of the category. -/
inductive Derives : Category → List Token → Expr → Prop
  | number {t : Token} (ht : t.kind = .number) :
      Derives .primary [t] (.number (Parser.numberValue t.text))
  | name {t : Token} (ht : t.kind = .name) : Derives .primary [t] (.symbol t.text)
  | parentheses {t u : Token} {ts : List Token} {e : Expr} (ht : t.Marks "(")
      (h : Derives .sum ts e) (hu : u.Marks ")") : Derives .primary (t :: (ts ++ [u])) e
  /-- An array has an entry at least, and all its rows are of one length. A row is given by its
  tokens and by its entries, each with the tokens that stand for it. -/
  | array {t u : Token} {ts : List Token} {rows : List (List Token × List (List Token × Expr))}
      (width : Nat) (ht : t.Marks "[") (hrows : JoinedBy ";" (rows.map Prod.fst) ts)
      (hrow : ∀ row ∈ rows, JoinedBy "," (row.2.map Prod.fst) row.1)
      (hwidth : ∀ row ∈ rows, row.2.length = width)
      (h : ∀ row ∈ rows, ∀ c ∈ row.2, Derives .sum c.1 c.2) (hu : u.Marks "]") :
      Derives .primary (t :: (ts ++ [u])) (.array (rows.map fun row => row.2.map Prod.snd))
  | operand {ts : List Token} {e : Expr} (h : Derives .primary ts e) : Derives .postfixed ts e
  | transpose {ts : List Token} {e : Expr} {t : Token} (h : Derives .postfixed ts e)
      (ht : t.Marks "'") : Derives .postfixed (ts ++ [t]) (.transpose e)
  | plainExponent {ts : List Token} {e : Expr} (h : Derives .postfixed ts e) :
      Derives .exponent ts e
  | signedExponent {t : Token} {ts : List Token} {s : Sign} {e : Expr} (ht : t.MarksSign s)
      (h : Derives .exponent ts e) : Derives .exponent (t :: ts) (.sign s e)
  | base {ts : List Token} {e : Expr} (h : Derives .postfixed ts e) : Derives .power ts e
  | power {ts us : List Token} {t : Token} {a b : Expr} (ha : Derives .power ts a)
      (ht : t.MarksOperation .pow) (hb : Derives .exponent us b) :
      Derives .power (ts ++ t :: us) (.binary .pow a b)
  | unsigned {ts : List Token} {e : Expr} (h : Derives .power ts e) : Derives .unary ts e
  | signed {t : Token} {ts : List Token} {s : Sign} {e : Expr} (ht : t.MarksSign s)
      (h : Derives .unary ts e) : Derives .unary (t :: ts) (.sign s e)
  | factor {ts : List Token} {e : Expr} (h : Derives .unary ts e) : Derives .product ts e
  | product {ts us : List Token} {t : Token} {op : Operation} {a b : Expr}
      (hop : op = .mul ∨ op = .div) (ha : Derives .product ts a) (ht : t.MarksOperation op)
      (hb : Derives .unary us b) : Derives .product (ts ++ t :: us) (.binary op a b)
  | summand {ts : List Token} {e : Expr} (h : Derives .product ts e) : Derives .sum ts e
  | sum {ts us : List Token} {t : Token} {op : Operation} {a b : Expr}
      (hop : op = .add ∨ op = .sub) (ha : Derives .sum ts a) (ht : t.MarksOperation op)
      (hb : Derives .product us b) : Derives .sum (ts ++ t :: us) (.binary op a b)

end WeakForm
