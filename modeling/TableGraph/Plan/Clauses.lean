import TableGraph.Schema.Basic
import TableGraph.Filter.Reading
import TableGraph.Order

/-!
# Clauses of a field

What a field contributes to a statement: the condition on which its rows are joined, and the filter
and ordering that its arguments ask for.
-/

namespace TableGraph.FieldDef

/-- The condition on which parent and child are joined. -/
def joinText (d : Dialect) (parent child : String) (key : JoinKey) : String :=
  d.column parent key.parent ++ " = " ++ d.column child key.child

/-- The filter that the arguments ask for, on an alias. -/
def filterText (f : FieldDef) (d : Dialect) (aliasName : String) (args : Members Json) :
    Except RequestError String :=
  Filter.argumentText d f.shape aliasName (Members.get? args "where")

/-- The ordering that the arguments ask for, if any. -/
def ordering? (f : FieldDef) (args : Members Json) : Except RequestError (Option Ordering.Terms) :=
  Ordering.ofArgument f.shape (Members.get? args "order")

end TableGraph.FieldDef
