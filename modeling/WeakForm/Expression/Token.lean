import WeakForm.Text.Digit

/-!
# Tokens of expressions

An expression is cut into numbers, names and single-character marks; white space separates them
and is dropped. Each token is the longest match at its position. Digits may come from any script,
letters of names only from the Latin one.
-/

namespace WeakForm

open Text (isDigit isBlank)

/-- `finish` is the end of the expression. -/
inductive TokenKind where
  | number
  | name
  | mark
  | finish
  deriving DecidableEq, Repr

/-- A piece of an expression and the number of characters before it. -/
structure Token where
  kind : TokenKind
  text : String
  position : Nat
  deriving DecidableEq, Repr

namespace Token

def isNameStart (c : Char) : Bool := c.isAlpha || c == '_'

def isNamePart (c : Char) : Bool := c.isAlphanum || c == '_'

def marks : List Char := ['-', '+', '*', '/', '^', '\'', '(', ')', '[', ']', ',', ';']

def isMark (c : Char) : Bool := marks.contains c

/-- The exponent at the front of a text: a mark, perhaps a sign, and digits; otherwise nothing. -/
def exponentLexeme : List Char → List Char
  | c :: rest =>
    if c == 'e' || c == 'E' then
      let sign := rest.take 1 |>.filter fun s => s == '+' || s == '-'
      let digits := (rest.drop sign.length).takeWhile isDigit
      if digits.isEmpty then [] else c :: sign ++ digits
    else []
  | [] => []

/-- The digits of a number at the front of a text, with at most one point among them. -/
def mantissaLexeme (cs : List Char) : List Char :=
  let whole := cs.takeWhile isDigit
  let point := (cs.drop whole.length).take 1 |>.filter (· == '.')
  let places := (cs.drop (whole.length + point.length)).takeWhile isDigit
  if whole.isEmpty then
    if point.isEmpty || places.isEmpty then [] else point ++ places
  else if point.isEmpty then whole else whole ++ point ++ places

def numberLexeme (cs : List Char) : List Char :=
  let mantissa := mantissaLexeme cs
  if mantissa.isEmpty then [] else mantissa ++ exponentLexeme (cs.drop mantissa.length)

def nameLexeme : List Char → List Char
  | c :: rest => if isNameStart c then c :: rest.takeWhile isNamePart else []
  | [] => []

/-- Kind and text of the piece at the front; white space has no kind. -/
def lexeme (cs : List Char) : Option TokenKind × List Char :=
  let number := numberLexeme cs
  if number.isEmpty then
    let name := nameLexeme cs
    if name.isEmpty then
      let mark := cs.take 1 |>.filter isMark
      if mark.isEmpty then (none, cs.takeWhile isBlank) else (some .mark, mark)
    else (some .name, name)
  else (some .number, number)

/-- The tokens of a text that starts at `position`, or the place of a character that starts
none. -/
def scan (position : Nat) (cs : List Char) : Except (Char × Nat) (List Token) :=
  match cs with
  | [] => .ok []
  | c :: rest =>
    let piece := lexeme (c :: rest)
    match _h : piece.2.length with
    | 0 => .error (c, position)
    | n + 1 =>
      match scan (position + (n + 1)) (rest.drop n) with
      | .error e => .error e
      | .ok tokens =>
        match piece.1 with
        | some kind => .ok (⟨kind, String.ofList piece.2, position⟩ :: tokens)
        | none => .ok tokens
termination_by cs.length
decreasing_by
  rw [List.length_drop]
  exact Nat.lt_succ_of_le (Nat.sub_le _ _)

end Token
end WeakForm
