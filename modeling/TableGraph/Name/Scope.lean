import TableGraph.Name.Basic
import TableGraph.Json.Basic

/-!
# Names of one scope

The names of all tables, or of the columns of one table, each with its escaped form. A name of the
graph keeps its text. Any other name takes the shortest placeholder with which it meets neither a
name of the scope nor a form handed out before.
-/

namespace TableGraph.Name

/-- Names with their escaped forms, in the order of their first mention. -/
structure Scope where
  /-- Each name with its escaped form. -/
  entries : Members String
  deriving DecidableEq, Repr, Inhabited

namespace Scope

/-- The escaped form of a name among the names `all` of its scope and the forms already `issued`. -/
def pick (all issued : List String) (name : String) : String :=
  if isValid name then name
  else
    let candidate := fun k => substitute (placeholder k) name
    candidate (firstFree candidate (all ++ issued))

/-- Adds a name of the scope, unless it is there already. -/
def add (all : List String) (scope : Scope) (name : String) : Scope :=
  if (Members.get? scope.entries name).isSome then scope
  else ⟨scope.entries ++ [(name, pick all (Members.values scope.entries) name)]⟩

/-- The scope of a list of names. -/
def ofNames (names : List String) : Scope :=
  names.foldl (add names) ⟨[]⟩

/-- The escaped form of a name of the scope. -/
def escaped? (scope : Scope) (name : String) : Option String :=
  Members.get? scope.entries name

/-- The name behind an escaped form. -/
def name? (scope : Scope) (escaped : String) : Option String :=
  (scope.entries.find? fun e => e.2 = escaped).map (·.1)

/-- The number of names. -/
def size (scope : Scope) : Nat := scope.entries.length

/-- The escaped forms in order. -/
def issued (scope : Scope) : List String := Members.values scope.entries

end Scope

end TableGraph.Name
