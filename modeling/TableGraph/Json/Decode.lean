import TableGraph.Json.Basic

/-!
# Reading data from JSON values

A record is an object with named members, of which unknown ones are ignored, or the array of its
members in their order, where members at the end may be missing. A value of the wrong shape gives
nothing.
-/

namespace TableGraph.Json

/-- Reads every item of a list; one that does not fit spoils the list. -/
def decodeAll {α : Type} (f : Json → Option α) : List Json → Option (List α)
  | [] => some []
  | x :: xs => do
    let a ← f x
    let as ← decodeAll f xs
    some (a :: as)

/-- An array whose items all fit. -/
def decodeList {α : Type} (f : Json → Option α) : Json → Option (List α)
  | .arr xs => decodeAll f xs
  | _ => none

/-- `null`, or a value that fits. -/
def decodeOption {α : Type} (f : Json → Option α) : Json → Option (Option α)
  | .null => some none
  | j => (f j).map some

/-- The members of a record whose members are named in order. An array may not be longer than the
names. -/
def record? (names : List String) : Json → Option (Members Json)
  | .obj ms => some ms
  | .arr xs => if xs.length ≤ names.length then some (names.zip xs) else none
  | _ => none

/-- A member that must be there. -/
def member {α : Type} (ms : Members Json) (name : String) (f : Json → Option α) : Option α := do
  f (← Members.get? ms name)

/-- A member that has a value of its own when it is missing. -/
def memberOr {α : Type} (ms : Members Json) (name : String) (f : Json → Option α) (missing : α) :
    Option α :=
  match Members.get? ms name with
  | some j => f j
  | none => some missing

end TableGraph.Json
