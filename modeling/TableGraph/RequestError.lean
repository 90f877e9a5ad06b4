import TableGraph.Json.Printer

/-!
# Why an argument or a selection is refused

The causes for which no statement is made, each with its text.
-/

namespace TableGraph

/-- Why a filter is refused. -/
inductive FilterFault where
  /-- A filter that is no object. -/
  | notAnObject (got : Json)
  /-- A member that is neither a comparison nor a combination. -/
  | unknownKind (key : String)
  /-- A list under a comparison with something else than names. -/
  | namesExpected (key : String)
  /-- Something under a comparison that names no columns. -/
  | objectExpected (key : String) (got : Json)
  /-- Something else than a name where a missing value is asked for. -/
  | nameExpected (got : Json)

/-- Why an ordering is refused. -/
inductive OrderFault where
  /-- An entry that is no object. -/
  | notAnObject (got : Json)
  /-- A direction that does not exist. -/
  | unknownDirection (key : String)
  /-- Something else than a name under a direction. -/
  | nameExpected (key : String) (got : Json)

/-- Why page arguments are refused. -/
inductive PageFault where
  /-- A count that is no integer. -/
  | notAnInteger (argument : String)
  /-- A cursor that is no text. -/
  | notACursor (argument : String)
  /-- A negative count. -/
  | negative (argument : String)

/-- Why a selection is refused. -/
inductive SelectionFault where
  /-- A root field that holds no rows. -/
  | notATable (field : String)
  /-- A field that the object does not have. -/
  | noField (object field : String)

/-- Why no statement is made. -/
inductive RequestError where
  /-- A column that the table does not have. -/
  | unknownField (table field : String)
  /-- A filter is refused. -/
  | filter (fault : FilterFault)
  /-- An ordering is refused. -/
  | order (fault : OrderFault)
  /-- Page arguments are refused. -/
  | page (fault : PageFault)
  /-- A selection is refused. -/
  | selection (fault : SelectionFault)

/-- The text of a cause. -/
def FilterFault.message : FilterFault → String
  | .notAnObject got => "expected an object, got " ++ got.text
  | .unknownKind key => "unknown filter kind " ++ key
  | .namesExpected key => key ++ " expects field names"
  | .objectExpected key got => key ++ " expects an object, got " ++ got.text
  | .nameExpected got => "isNull expects a field name, got " ++ got.text

/-- The text of a cause. -/
def OrderFault.message : OrderFault → String
  | .notAnObject got => "expected an object, got " ++ got.text
  | .unknownDirection key => "unknown sort direction " ++ key
  | .nameExpected key got => key ++ " expects a field name, got " ++ got.text

/-- The text of a cause. -/
def PageFault.message : PageFault → String
  | .notAnInteger argument => argument ++ " must be an integer"
  | .notACursor argument => argument ++ " must be a cursor string"
  | .negative argument => argument ++ " must be a non-negative integer"

/-- The text of a cause. -/
def SelectionFault.message : SelectionFault → String
  | .notATable field => field ++ " is not a table field"
  | .noField object field => object ++ " has no field " ++ field

/-- The text of an error. -/
def RequestError.message : RequestError → String
  | .unknownField table field => "unknown field " ++ field ++ " on table " ++ table
  | .filter fault => "invalid filter: " ++ fault.message
  | .order fault => "invalid order: " ++ fault.message
  | .page fault => "invalid pagination arguments: " ++ fault.message
  | .selection fault => "invalid selection: " ++ fault.message

end TableGraph
