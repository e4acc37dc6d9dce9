/-!
# Assignments

A list of pairs gives values to keys. A key keeps the place where it was first given a value.
-/

namespace WeakForm

variable {κ β : Type} [BEq κ]

/-- Gives a key its value. -/
def assign (key : κ) (value : β) : List (κ × β) → List (κ × β)
  | [] => [(key, value)]
  | (k, old) :: rest => if k == key then (k, value) :: rest else (k, old) :: assign key value rest

/-- Takes a key out. -/
def unassign (key : κ) (entries : List (κ × β)) : List (κ × β) :=
  entries.filter fun e => !(e.1 == key)

theorem lookup_assign [LawfulBEq κ] (key name : κ) (value : β) (entries : List (κ × β)) :
    (assign key value entries).lookup name =
      if name == key then some value else entries.lookup name := by
  induction entries with
  | nil =>
    by_cases h : name = key
    · simp [assign, h]
    · simp [assign, List.lookup_cons, beq_false_of_ne h]
  | cons e rest ih =>
    obtain ⟨k, old⟩ := e
    by_cases hk : k = key
    · subst hk
      by_cases h : name = k
      · simp [assign, h]
      · simp [assign, List.lookup_cons, beq_false_of_ne h]
    · by_cases h : name = k
      · subst h
        simp [assign, hk]
      · simp [assign, List.lookup_cons, hk, beq_false_of_ne h, ih]

end WeakForm
