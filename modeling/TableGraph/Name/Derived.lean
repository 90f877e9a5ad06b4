import TableGraph.Name.Basic
import TableGraph.Json.Basic

/-!
# Derived names

Names made up beside those of a scope, such as the name of a link or of a group type. A derived
name takes neither a reserved name nor one handed out for another base: it grows by underscores
until it is free. The same base always has the same name.
-/

namespace TableGraph.Name

/-- The names handed out so far, by base, and every name that is taken. -/
structure Derived where
  /-- Reserved names and names handed out. -/
  taken : List String
  /-- Each base with its name. -/
  issued : Members String
  deriving DecidableEq, Repr, Inhabited

namespace Derived

/-- No names handed out yet. -/
def reserving (names : List String) : Derived := ⟨names, []⟩

/-- The name handed out for a base. -/
def get? (d : Derived) (base : String) : Option String := Members.get? d.issued base

/-- The name a base starts from. -/
def stem (base : String) : String :=
  if isValid base then base else substitute (placeholder 0) base

/-- The free name for a base. -/
def pick (taken : List String) (base : String) : String :=
  let candidate := fun k => stem base ++ String.ofList (List.replicate k '_')
  candidate (firstFree candidate taken)

/-- The name of a base: the one handed out before, or a new one. -/
def issue (d : Derived) (base : String) : String × Derived :=
  match d.get? base with
  | some name => (name, d)
  | none =>
    let name := pick d.taken base
    (name, ⟨name :: d.taken, d.issued ++ [(base, name)]⟩)

/-- Hands out a name for each base in turn. -/
def issueAll (d : Derived) (bases : List String) : Derived :=
  bases.foldl (fun d base => (d.issue base).2) d

end Derived

end TableGraph.Name
