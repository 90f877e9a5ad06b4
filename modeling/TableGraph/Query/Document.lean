import TableGraph.Json.Basic
import TableGraph.Schema.TypeRef

/-!
# Query documents

Operations and fragments as they are written: selection sets of fields, spread fragments and inline
fragments, with arguments, directives and variables.
-/

namespace TableGraph.Query

/-- A value as it is written. -/
inductive Value where
  /-- A variable. -/
  | variable (name : String)
  /-- `null`. -/
  | null
  /-- `true` or `false`. -/
  | bool (value : Bool)
  /-- A number. -/
  | num (value : Number)
  /-- A string. -/
  | str (value : String)
  /-- A bare name. -/
  | enum (name : String)
  /-- A list. -/
  | list (items : List Value)
  /-- An object with its members in order. -/
  | obj (members : List (String × Value))
  deriving Repr, Inhabited

/-- A directive with its arguments. -/
structure Directive where
  /-- The name. -/
  name : String
  /-- The arguments in order. -/
  args : List (String × Value)
  deriving Repr, Inhabited

/-- A selected field without the selection below it. -/
structure FieldHead where
  /-- The name the field is answered under if that is not its own. -/
  rename : Option String
  /-- The name. -/
  name : String
  /-- The arguments in order. -/
  args : List (String × Value)
  /-- The directives in order. -/
  directives : List Directive
  /-- How many characters of the text there are from the field on. -/
  remaining : Nat
  deriving Repr, Inhabited

/-- The name the field is answered under. -/
def FieldHead.responseKey (f : FieldHead) : String := f.rename.getD f.name

/-- An item of a selection set. -/
inductive Item where
  /-- A field with the selection set below it, empty if there is none. -/
  | field (head : FieldHead) (items : List Item)
  /-- A fragment by its name. -/
  | spread (name : String) (directives : List Directive)
  /-- A selection set on its own, with the type it is for if that is named. -/
  | inline (condition : Option String) (directives : List Directive) (items : List Item)
  deriving Repr, Inhabited

/-- A declared variable. -/
structure VariableDef where
  /-- The name. -/
  name : String
  /-- The type. -/
  type : TypeRef
  /-- The value that stands in for a missing one. -/
  default : Option Value
  deriving Repr, Inhabited

/-- What an operation does. -/
inductive OperationKind where
  /-- It reads. -/
  | query
  /-- It writes. -/
  | mutation
  /-- It listens. -/
  | subscription
  deriving DecidableEq, Repr, Inhabited

/-- An operation. -/
structure Operation where
  /-- What it does. -/
  kind : OperationKind
  /-- The name, if it has one. -/
  name : Option String
  /-- The declared variables. -/
  declared : List VariableDef
  /-- The directives. -/
  directives : List Directive
  /-- The selection set. -/
  items : List Item
  deriving Repr, Inhabited

/-- A named selection set. -/
structure Fragment where
  /-- The name. -/
  name : String
  /-- The type it is for. -/
  condition : String
  /-- The directives. -/
  directives : List Directive
  /-- The selection set. -/
  items : List Item
  deriving Repr, Inhabited

/-- The operations and fragments of a text. -/
structure Document where
  /-- The operations. -/
  operations : List Operation
  /-- The fragments. -/
  fragments : List Fragment
  deriving Repr, Inhabited

namespace Document

/-- The fragment of a name. -/
def fragment? (d : Document) (name : String) : Option Fragment :=
  d.fragments.find? fun f => f.name = name

/-- Whether no two fragments share a name, no two operations do, and an operation without a name is
the only one. -/
def isProper (d : Document) : Bool :=
  decide ((d.fragments.map (·.name)).Nodup) && decide ((d.operations.map (·.name)).Nodup)
    && match d.operations with
      | [] => false
      | [_] => true
      | many => many.all fun o => o.name.isSome

/-- The operation that is asked for: the one of a name, or else the only one. -/
def operation? (d : Document) : Option String → Option Operation
  | some name => d.operations.find? fun o => o.name = some name
  | none => match d.operations with
    | [o] => some o
    | _ => none

/-- Whether the selection sets below one, fragments spread out, are nested no deeper than a number of
levels. -/
def nestedWithin (d : Document) : Nat → List Item → Bool
  | 0, _ => false
  | levels + 1, items => items.all fun item => match item with
    | .field _ below => below.isEmpty || nestedWithin d levels below
    | .inline _ _ below => nestedWithin d levels below
    | .spread name _ => match d.fragment? name with
      | some f => nestedWithin d levels f.items
      | none => true

end Document

end TableGraph.Query
