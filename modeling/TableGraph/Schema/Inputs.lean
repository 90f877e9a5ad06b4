import TableGraph.Schema.Basic
import TableGraph.Sql.Dialect

/-!
# Inputs for filters and orderings

The types of the `where` and `order` arguments of the fields that lead to the rows of a table. The
input for a comparison lists the columns it can be applied to, and is left out when there are none.
-/

namespace TableGraph

namespace Shape

/-- An input with a member for each column with a property. -/
def columnsInput (s : Shape) (lead : String) (included : Field → Bool) : List InputType :=
  match s.table.fields.filter included with
  | [] => []
  | fields => [⟨lead ++ s.name, fields.map fun f =>
      ⟨s.columnField f.name, .named (Scalar.ofColumn f.type).typeName, nonEmpty? f.description⟩⟩]

/-- An enumeration of the columns with a property. -/
def columnsEnum (s : Shape) (lead : String) (included : Field → Bool) : List EnumType :=
  match s.table.fields.filter included with
  | [] => []
  | fields => [⟨lead ++ s.name, fields.map fun f =>
      (s.columnField f.name, nonEmpty? f.description)⟩]

/-- The columns that can be compared for equality. -/
def equalsInput (s : Shape) : List InputType := s.columnsInput "EQUALS_" fun f => f.type ≠ .blob

/-- The columns that can be searched. -/
def containsInput (s : Shape) : List InputType := s.columnsInput "CONTAINS_" fun f => f.type.isString

/-- The columns whose ends can be compared. -/
def endsInput (s : Shape) : List InputType :=
  s.columnsInput "BEGINS_OR_ENDS_" fun f => f.type.isString

/-- The columns that have an order. -/
def orderedInput (s : Shape) : List InputType :=
  s.columnsInput "GREATER_OR_LESS_" fun f => f.type.isOrdered

/-- The columns that may have no value. -/
def missingEnum (s : Shape) : List EnumType := s.columnsEnum "IS_NULL_FIELDS_" fun f => !f.nonNull

/-- The columns that may be empty. -/
def emptyEnum (s : Shape) : List EnumType :=
  s.columnsEnum "IS_EMPTY_FIELDS_" fun f => f.type = .string || f.type = .blob

/-- The columns that rows can be ordered by. -/
def sortingEnum (s : Shape) : List EnumType := s.columnsEnum "SORTING_FIELDS_" fun _ => true

/-- The name of the type of the `where` argument. -/
def filterName (s : Shape) : String := "FILTER_" ++ s.name

/-- The name of the type of an entry of the `order` argument. -/
def sortingName (s : Shape) : String := "SORTING_" ++ s.name

/-- Members of one type, if the type is there. -/
def membersOf (names : List String) (types : List String) : List InputField :=
  types.flatMap fun t => names.map fun n => ⟨n, .named t, none⟩

/-- The type of the `where` argument. -/
def filterInput (s : Shape) : InputType :=
  let inputs := fun (ts : List InputType) => ts.map (·.name)
  let enums := fun (ts : List EnumType) => ts.map (·.name)
  ⟨s.filterName,
    membersOf ["equals"] (inputs s.equalsInput)
      ++ membersOf ["contains"] (inputs s.containsInput)
      ++ membersOf ["begins", "ends"] (inputs s.endsInput)
      ++ membersOf ["greater", "less"] (inputs s.orderedInput)
      ++ membersOf ["isNull"] (enums s.missingEnum)
      ++ membersOf ["isEmpty"] (enums s.emptyEnum)
      ++ ["or", "and", "not"].map fun n => ⟨n, .list (.named s.filterName), none⟩⟩

/-- The type of an entry of the `order` argument, if there are columns to order by. -/
def sortingInput (s : Shape) : List InputType :=
  s.sortingEnum.map fun e => ⟨s.sortingName, membersOf ["asc", "desc"] [e.name]⟩

/-- Every input type of the table, in the order in which they are made. -/
def inputTypes (s : Shape) : List InputType :=
  s.equalsInput ++ s.containsInput ++ s.endsInput ++ s.orderedInput ++ [s.filterInput]
    ++ s.sortingInput

/-- Every enumeration of the table, in the order in which they are made. -/
def enumTypes (s : Shape) : List EnumType := s.missingEnum ++ s.emptyEnum ++ s.sortingEnum

/-- The arguments that choose and order rows. -/
def rowArguments (s : Shape) : List (String × TypeRef) :=
  ("where", .named s.filterName)
    :: s.sortingInput.map fun t => ("order", TypeRef.list (.named t.name))

/-- The arguments of a field that leads to a page of rows. -/
def pageArguments (s : Shape) : List (String × TypeRef) :=
  [("first", .named "Int"), ("after", .named "String"), ("last", .named "Int"),
    ("before", .named "String")] ++ s.rowArguments

end Shape

end TableGraph
