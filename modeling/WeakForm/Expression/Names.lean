import WeakForm.Datum.Entries
import WeakForm.Datum.Order

/-!
# Names

`symbols` lists the names of a tree. `references` finds a name in a text without reading it as an
expression: the text is cut at runs of separators, and the name has to be one of the pieces.
-/

namespace WeakForm

/-- Sorts texts by their characters and drops repetitions. -/
def sortedNames (names : List String) : List String :=
  names.eraseDups.mergeSort fun a b => decide (a ≤ b)

namespace Expr

def symbols (e : Expr) : List String := sortedNames e.names

end Expr

namespace Names

def isSeparator (c : Char) : Bool := Text.isBlank c || Token.isMark c

/-- The pieces between runs of characters that satisfy `p`; a text that starts or ends with such
a run has an empty piece there. -/
def pieces (p : Char → Bool) (cs : List Char) : List (List Char) :=
  match _h : cs.dropWhile fun c => !p c with
  | [] => [cs]
  | _ :: rest => cs.takeWhile (fun c => !p c) :: pieces p (rest.dropWhile p)
termination_by cs.length
decreasing_by
  have h1 : (cs.dropWhile fun c => !p c).length ≤ cs.length :=
    (List.dropWhile_sublist _).length_le
  have h2 : (rest.dropWhile p).length ≤ rest.length := (List.dropWhile_sublist _).length_le
  rw [_h] at h1
  simp only [List.length_cons] at h1
  omega

/-- Whether `name` stands between separators in `text`. -/
def references (text name : String) : Bool :=
  (pieces isSeparator text.toList).contains name.toList

/-- Whether a datum refers to a name. Only a text can be cut into pieces, and other data are so
when they have the name as an item or as a key. -/
def referencesIn {α : Type} [Scalar α] (d name : Datum α) : Except (Error α) Bool :=
  let uncut := fun (isMember : Bool) =>
    if isMember then Except.error Error.wrongType else Except.ok false
  match d, name with
  | .text s, .text n => .ok (references s n)
  | .list xs, name => uncut (xs.any fun x => x.same name)
  | .map es, name => name.toName.bind fun n => uncut (es.any fun e => some e.1 == n)
  | _, _ => .error .wrongType

def isValid (name : String) : Bool :=
  match name.toList with
  | c :: rest => Token.isNameStart c && rest.all Token.isNamePart
  | [] => false

def isReserved (name : String) : Bool := reservedNames.contains name

/-- A name may be defined when it is valid and has no meaning of its own. -/
def check {α : Type} (name : String) : Except (Error α) Unit :=
  if isReserved name then .error (.reservedName name)
  else if isValid name then .ok ()
  else .error (.invalidName name)

end Names
end WeakForm
