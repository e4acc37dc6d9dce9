import WeakForm.Assembly
import WeakForm.Assignment
import WeakForm.Error
import WeakForm.Value.Number

/-!
# Settings

The assembly of a formulation and each kind of solver have named settings with default values. Given
values replace the defaults as they are; values from a configuration are first converted to the
kind of their setting. Names of matrices and vectors must not be empty.
-/

namespace WeakForm

/-- What a setting holds. -/
inductive SettingKind where
  | text
  | number (optional : Bool)
  | flag
  deriving DecidableEq, Repr

/-- What is configured. -/
inductive Topic where
  | assembly
  | steady
  | transient
  deriving DecidableEq, Repr

abbrev Settings (α : Type) := List (String × Datum α)

namespace Topic

variable {α : Type} [Scalar α]

/-- The settings of a topic with their kinds and defaults. -/
def fields : Topic → List (String × SettingKind × Datum α)
  | assembly => [("method", .text, .text "triplet")]
  | steady =>
    [("stiffness", .text, .text "K"), ("force", .text, .text "f"),
      ("disable_force", .flag, .flag false)]
  | transient =>
    [("mass", .text, .text "M"), ("stiffness", .text, .text "K"), ("force", .text, .text "f"),
      ("theta", .number false, .real 0.5), ("dt", .number true, .null),
      ("t0", .number false, .real 0), ("disable_mass", .flag, .flag false),
      ("disable_stiffness", .flag, .flag false), ("disable_force", .flag, .flag false),
      ("disable_all", .flag, .flag false)]

/-- The settings that name a matrix or a vector. -/
def nameFields : Topic → List String
  | assembly => []
  | steady => ["stiffness", "force"]
  | transient => ["mass", "stiffness", "force"]

end Topic

namespace Settings

variable {α : Type}

/-- Whether a datum names an assembly method. -/
def method? : Datum α → Option AssemblyMethod
  | .text s => AssemblyMethod.ofName? s
  | _ => none

section

variable [Scalar α]

def defaults (topic : Topic) : Settings α := topic.fields.map fun f => (f.1, f.2.2)

def isName : Datum α → Bool
  | .text s => !s.isEmpty
  | _ => false

/-- Checks the settings of a topic against each other. -/
def validate (topic : Topic) (settings : Settings α) : Except (Error α) (Settings α) :=
  match topic with
  | .assembly =>
    let method := (settings.lookup "method").getD .null
    if (method? method).isSome then .ok settings else .error (.invalidMethod method)
  | topic =>
    match topic.nameFields.find? fun name => !isName ((settings.lookup name).getD .null) with
    | some name => .error (.emptyName name ((settings.lookup name).getD .null))
    | none => .ok settings

/-- The settings of a topic with the given values. -/
def make (topic : Topic) (given : List (String × Datum α)) : Except (Error α) (Settings α) :=
  let known := topic.fields (α := α)
  match given.find? fun g => !(known.map Prod.fst).contains g.1 with
  | some g => .error (.unknownSetting g.1)
  | none => validate topic (given.foldl (fun s g => assign g.1 g.2 s) (defaults topic))

/-- What a formulation or a solver is built on goes without a name, so these names are taken. -/
def takenNames (topic : Topic) : List String :=
  ["self", if topic = .assembly then "mesh" else "source"]

/-- Checks that no name is taken. -/
def checkNames (taken : List String) (given : List (String × Datum α)) : Except (Error α) Unit :=
  match given.find? fun g => taken.contains g.1 with
  | some g => .error (.unknownSetting g.1)
  | none => .ok ()

/-- The settings of a topic with the given values, among which all settings together may be given
under one name. Null leaves them out; other data take their place, but hold no setting. -/
def ofNamed (topic : Topic) (given : List (String × Datum α)) : Except (Error α) (Settings α) := do
  checkNames (takenNames topic) given
  match given.lookup "params" with
  | none => make topic given
  | some .null => make topic (unassign "params" given)
  | some _ => pure []

end

/-- A flag from one of the words for yes and no, or from a whole number. -/
def flagOfText? (s : String) : Option Bool :=
  match Text.readInteger s.toList with
  | some n => some (n != 0)
  | none =>
    let word := Text.lowercase s
    if ["yes", "y", "on", "true"].contains word then some true
    else if ["no", "n", "off", "false"].contains word then some false
    else none

/-- Converts a value to the kind of the setting `name`. -/
def convert (name : String) : SettingKind → Datum Float → Except (Error Float) (Datum Float)
  | .text, .text s => .ok (.text s)
  | .text, .null => .error (.conversion name)
  | .text, .list _ => .error (.conversion name)
  | .text, .map _ => .error (.conversion name)
  | .text, d => .ok (.text d.display)
  | .number _, .integer n => (Number.realOfInteger n).map .real
  | .number _, .real x => .ok (.real x)
  | .number _, .text s =>
    match Text.readNumeral s with
    | some n => .ok (.real (Scalar.ofNumeral n))
    | none => .error (.conversion name)
  | .number true, .null => .ok .null
  | .number _, _ => .error (.conversion name)
  | .flag, .flag b => .ok (.flag b)
  | .flag, .integer n => .ok (.flag (n != 0))
  | .flag, .text s =>
    match flagOfText? s with
    | some b => .ok (.flag b)
    | none => .error (.conversion name)
  | .flag, _ => .error (.conversion name)

/-- Question marks stand for a value that is left out. -/
def isLeftOut : Datum Float → Bool
  | .text s => s == "???"
  | _ => false

/-- Replaces settings by converted values. -/
def merge (topic : Topic) (settings : Settings Float) (values : List (String × Datum Float)) :
    Except (Error Float) (Settings Float) :=
  values.foldlM (fun s v =>
    match (topic.fields (α := Float)).lookup v.1 with
    | none => .error (.unknownField v.1)
    | some (kind, _) =>
      if isLeftOut v.2 then .ok s
      else (convert v.1 kind v.2).map fun d => assign v.1 d s) settings

/-- The settings of a configuration, some of which are overridden. The names of the configuration
and of its topic are taken. -/
def ofConfig (topic : Topic) (config : Datum Float) (overrides : List (String × Datum Float)) :
    Except (Error Float) (Settings Float) := do
  checkNames ["cls", "cfg"] overrides
  let values ← match config with
    | .null => pure []
    | .map entries => pure entries
    | .list _ => .error .listedSettings
    | _ => .error .unstructuredSettings
  let s ← merge topic (defaults topic) values
  let s ← merge topic s overrides
  validate topic s

end Settings
end WeakForm
