import WeakForm.Expression.Token
import WeakForm.Expression.Tree

/-!
# Reading expressions

Expressions are read by precedence. From tightest to loosest, the operators are the transpose mark,
the power, the sign, product and quotient, sum and difference. All binary operators associate to
the left; an exponent may carry signs. Every reader returns the tokens it leaves together with the
fact that they are fewer, so reading ends for every text.
-/

namespace WeakForm

/-- What a reader waits for when it meets another token. -/
inductive Expectation where
  | mark (text : String)
  | operand
  | finish
  | arrayEntry
  deriving DecidableEq, Repr

/-- Why a text is not an expression. -/
inductive SyntaxError where
  | character (c : Char) (position : Nat) (text : String)
  | token (expectation : Expectation) (found : Token) (text : String)
  | empty
  | unequalRows (text : String)
  deriving DecidableEq, Repr

/-- A reader's fault, before the text is known. -/
inductive Fault where
  | token (expectation : Expectation) (found : Token)
  | unequalRows
  deriving DecidableEq, Repr

/-- A result together with the unread tokens, fewer than `n`. -/
structure Parsed (β : Type) (n : Nat) where
  value : β
  rest : List Token
  shorter : rest.length < n

namespace Parsed

/-- A reader that stopped before `m` tokens also stopped before `n`. -/
def widen {β : Type} {m n : Nat} (h : m ≤ n) (p : Parsed β m) : Parsed β n :=
  ⟨p.value, p.rest, Nat.lt_of_lt_of_le p.shorter h⟩

def map {β γ : Type} {n : Nat} (f : β → γ) (p : Parsed β n) : Parsed γ n :=
  ⟨f p.value, p.rest, p.shorter⟩

end Parsed

namespace Parser

/-- The next token, or the end of the text after `stop` characters. The end is not among the tokens that
are left, so it is met again for as long as one looks, and no reader gets past it. -/
def current (stop : Nat) : List Token → Token
  | t :: _ => t
  | [] => ⟨.finish, "", stop⟩

def isMark (text : String) (t : Token) : Bool := t.kind == .mark && t.text == text

def signOf? (t : Token) : Option Sign :=
  if isMark "-" t then some .minus else if isMark "+" t then some .plus else none

def additive? (t : Token) : Option Operation :=
  if isMark "+" t then some .add else if isMark "-" t then some .sub else none

def multiplicative? (t : Token) : Option Operation :=
  if isMark "*" t then some .mul else if isMark "/" t then some .div else none

/-- The value of a number token: digits, perhaps a point and an exponent. -/
def numberValue (text : String) : Decimal :=
  let cs := text.toList
  let mantissa := cs.takeWhile fun c => c != 'e' && c != 'E'
  let whole := mantissa.takeWhile (· != '.')
  let places := (mantissa.drop whole.length).drop 1
  let exponent := cs.drop (mantissa.length + 1)
  let digits : Int := Text.digitsValue (exponent.filter Text.isDigit)
  Decimal.ofDigits whole places (if exponent.head? == some '-' then -digits else digits)

/-- Applies the transpose marks at the front. -/
def transposes (e : Expr) : (ts : List Token) → Parsed Expr (ts.length + 1)
  | [] => ⟨e, [], by simp⟩
  | t :: rest =>
    if isMark "'" t then (transposes (.transpose e) rest).widen (by simp)
    else ⟨e, t :: rest, by simp⟩

mutual

def sum (stop : Nat) (ts : List Token) : Except Fault (Parsed Expr ts.length) :=
  match product stop ts with
  | .error e => .error e
  | .ok ⟨a, rest, h⟩ =>
    match sumTail stop a rest with
    | .error e => .error e
    | .ok p => .ok (p.widen h)
termination_by (ts.length, 7)

/-- Sums and differences that continue `a`. -/
def sumTail (stop : Nat) (a : Expr) (ts : List Token) :
    Except Fault (Parsed Expr (ts.length + 1)) :=
  match ts with
  | [] => .ok ⟨a, [], by simp⟩
  | t :: rest =>
    match additive? t with
    | none => .ok ⟨a, t :: rest, by simp⟩
    | some op =>
      match product stop rest with
      | .error e => .error e
      | .ok ⟨b, rest', h⟩ =>
        match sumTail stop (.binary op a b) rest' with
        | .error e => .error e
        | .ok p => .ok (p.widen (by simp; omega))
termination_by (ts.length, 6)

def product (stop : Nat) (ts : List Token) : Except Fault (Parsed Expr ts.length) :=
  match unary stop ts with
  | .error e => .error e
  | .ok ⟨a, rest, h⟩ =>
    match productTail stop a rest with
    | .error e => .error e
    | .ok p => .ok (p.widen h)
termination_by (ts.length, 5)

/-- Products and quotients that continue `a`. -/
def productTail (stop : Nat) (a : Expr) (ts : List Token) :
    Except Fault (Parsed Expr (ts.length + 1)) :=
  match ts with
  | [] => .ok ⟨a, [], by simp⟩
  | t :: rest =>
    match multiplicative? t with
    | none => .ok ⟨a, t :: rest, by simp⟩
    | some op =>
      match unary stop rest with
      | .error e => .error e
      | .ok ⟨b, rest', h⟩ =>
        match productTail stop (.binary op a b) rest' with
        | .error e => .error e
        | .ok p => .ok (p.widen (by simp; omega))
termination_by (ts.length, 4)

def unary (stop : Nat) (ts : List Token) : Except Fault (Parsed Expr ts.length) :=
  match ts with
  | [] => power stop []
  | t :: rest =>
    match signOf? t with
    | none => power stop (t :: rest)
    | some s =>
      match unary stop rest with
      | .error e => .error e
      | .ok p => .ok ((p.map (.sign s)).widen (by simp))
termination_by (ts.length, 4)

def power (stop : Nat) (ts : List Token) : Except Fault (Parsed Expr ts.length) :=
  match postfixed stop ts with
  | .error e => .error e
  | .ok ⟨a, rest, h⟩ =>
    match powerTail stop a rest with
    | .error e => .error e
    | .ok p => .ok (p.widen h)
termination_by (ts.length, 3)

/-- Powers that continue `a`. -/
def powerTail (stop : Nat) (a : Expr) (ts : List Token) :
    Except Fault (Parsed Expr (ts.length + 1)) :=
  match ts with
  | [] => .ok ⟨a, [], by simp⟩
  | t :: rest =>
    if isMark "^" t then
      match exponent stop rest with
      | .error e => .error e
      | .ok ⟨b, rest', h⟩ =>
        match powerTail stop (.binary .pow a b) rest' with
        | .error e => .error e
        | .ok p => .ok (p.widen (by simp; omega))
    else .ok ⟨a, t :: rest, by simp⟩
termination_by (ts.length, 2)

def exponent (stop : Nat) (ts : List Token) : Except Fault (Parsed Expr ts.length) :=
  match ts with
  | [] => postfixed stop []
  | t :: rest =>
    match signOf? t with
    | none => postfixed stop (t :: rest)
    | some s =>
      match exponent stop rest with
      | .error e => .error e
      | .ok p => .ok ((p.map (.sign s)).widen (by simp))
termination_by (ts.length, 2)

/-- An operand with its transpose marks. -/
def postfixed (stop : Nat) (ts : List Token) : Except Fault (Parsed Expr ts.length) :=
  match primary stop ts with
  | .error e => .error e
  | .ok ⟨a, rest, h⟩ => .ok ((transposes a rest).widen h)
termination_by (ts.length, 1)

def primary (stop : Nat) (ts : List Token) : Except Fault (Parsed Expr ts.length) :=
  match ts with
  | [] => .error (.token .operand (current stop []))
  | t :: rest =>
    match t.kind with
    | .number => .ok ⟨.number (numberValue t.text), rest, by simp⟩
    | .name => .ok ⟨.symbol t.text, rest, by simp⟩
    | _ =>
      if isMark "(" t then
        match sum stop rest with
        | .error e => .error e
        | .ok ⟨a, [], _⟩ => .error (.token (.mark ")") (current stop []))
        | .ok ⟨a, u :: rest', h⟩ =>
          if isMark ")" u then .ok ⟨a, rest', by simp at h ⊢; omega⟩
          else .error (.token (.mark ")") u)
      else if isMark "[" t then
        match rest with
        | [] => .error (.token .operand (current stop []))
        | u :: rest' =>
          if isMark "]" u then .error (.token .arrayEntry (current stop rest'))
          else
            match entries stop [] [] (u :: rest') with
            | .error e => .error e
            | .ok p =>
              if p.value.all fun row => row.length == (p.value.headD []).length then
                .ok ((p.map Expr.array).widen (by simp))
              else .error .unequalRows
      else .error (.token .operand t)
termination_by (ts.length, 0)

/-- The rows of an array literal up to its closing bracket, after the rows `done` and the entries
`row` of the current row. -/
def entries (stop : Nat) (done : List (List Expr)) (row : List Expr) (ts : List Token) :
    Except Fault (Parsed (List (List Expr)) ts.length) :=
  match sum stop ts with
  | .error e => .error e
  | .ok ⟨_, [], _⟩ => .error (.token (.mark "]") (current stop []))
  | .ok ⟨a, t :: rest, h⟩ =>
    if isMark "," t then
      match entries stop done (row ++ [a]) rest with
      | .error e => .error e
      | .ok p => .ok (p.widen (Nat.le_of_lt (Nat.lt_of_succ_lt h)))
    else if isMark ";" t then
      match entries stop (done ++ [row ++ [a]]) [] rest with
      | .error e => .error e
      | .ok p => .ok (p.widen (Nat.le_of_lt (Nat.lt_of_succ_lt h)))
    else if isMark "]" t then .ok ⟨done ++ [row ++ [a]], rest, Nat.lt_of_succ_lt h⟩
    else .error (.token (.mark "]") t)
termination_by (ts.length, 8)
decreasing_by
  · exact Prod.Lex.right _ (by decide)
  · exact Prod.Lex.left _ _ (Nat.lt_of_succ_lt h)
  · exact Prod.Lex.left _ _ (Nat.lt_of_succ_lt h)

end

end Parser

namespace Expr

/-- The tokens of a text followed by its end. -/
def tokenize (text : String) : Except SyntaxError (List Token) :=
  match Token.scan 0 text.toList with
  | .error (c, position) => .error (.character c position text)
  | .ok tokens => .ok (tokens ++ [⟨.finish, "", text.length⟩])

/-- The tree of a text. -/
def parse (text : String) : Except SyntaxError Expr :=
  match Token.scan 0 text.toList with
  | .error (c, position) => .error (.character c position text)
  | .ok [] => .error .empty
  | .ok tokens =>
    match Parser.sum text.length tokens with
    | .error (.token e found) => .error (.token e found text)
    | .error .unequalRows => .error (.unequalRows text)
    | .ok ⟨e, [], _⟩ => .ok e
    | .ok ⟨_, t :: _, _⟩ => .error (.token .finish t text)

end Expr
end WeakForm
