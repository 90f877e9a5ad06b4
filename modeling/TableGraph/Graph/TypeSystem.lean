import TableGraph.Schema.Build

/-!
# The type system of the query language

All types a schema is queried by, under their names: the root, the objects of tables and groups,
connections and edges, inputs, enumerations and scalars. A type takes the place of one of the same
name that came before it. Each field of an object says how its value is found.
-/

namespace TableGraph

/-- How the value of a field is found. -/
inductive FieldSource where
  /-- By a statement for the root field. -/
  | root (f : FieldDef)
  /-- In the row of an object, by the response key. -/
  | row (o : ObjectType) (f : FieldDef)
  /-- As the edges of a connection. -/
  | edges
  /-- As the nodes of the edges of a connection. -/
  | nodes
  /-- As an object that is a member of the parent. -/
  | child (key : String)
  /-- As a scalar that is a member of the parent. -/
  | member (key : String)
  deriving DecidableEq, Repr

/-- A field of an object type as it is queried. -/
structure OutField where
  /-- The name. -/
  name : String
  /-- The description. -/
  description : Option String
  /-- The arguments with their types. -/
  args : List (String × TypeRef)
  /-- The type. -/
  type : TypeRef
  /-- How the value is found. -/
  source : FieldSource
  deriving DecidableEq, Repr

/-- A type by its kind. -/
inductive TypeDef where
  /-- A scalar with its description. -/
  | scalar (type : Option Scalar) (description : Option String)
  /-- An object. -/
  | object (description : Option String) (fields : List OutField)
  /-- An input. -/
  | input (type : InputType)
  /-- An enumeration. -/
  | enum (type : EnumType)
  deriving DecidableEq, Repr

namespace TypeDef

/-- Whether values of the type can be answered. -/
def isOutput : TypeDef → Bool
  | .input _ => false
  | _ => true

/-- Whether values of the type can be given. -/
def isInput : TypeDef → Bool
  | .object _ _ => false
  | _ => true

end TypeDef

/-- The types by name. -/
abbrev TypeSystem := Members TypeDef

namespace TypeSystem

/-- The name of the root type. -/
def rootName : String := "Tables"

/-- The name of the type that describes a page. -/
def pageInfoName : String := "PageInfo"

/-- The scalars of the language. -/
def builtin : List (String × TypeDef) :=
  (([Scalar.int, .float, .string, .boolean].map fun (s : Scalar) => (s.typeName, some s))
    ++ [("ID", none)]).map
    fun (n, s) => (n, .scalar s none)

/-- A field without arguments. -/
def simpleField (name : String) (type : TypeRef) (source : FieldSource) : OutField :=
  ⟨name, none, [], type, source⟩

/-- The type that describes a page. -/
def pageInfo : TypeDef :=
  let field := fun (name : String) (type : String) (required : Bool) =>
    simpleField name (.ofName type required) (.member name)
  .object none [field "startCursor" "String" false, field "endCursor" "String" false,
    field "hasPreviousPage" "Boolean" true, field "hasNextPage" "Boolean" true]

/-- The type of a connection. -/
def connection (node : String) : TypeDef :=
  .object none [
    simpleField "edges" (.list (.ofName (edgeName node) true)) .edges,
    simpleField "nodes" (.list (.ofName node true)) .nodes,
    simpleField "pageInfo" (.ofName pageInfoName true) (.child "pageInfo"),
    { simpleField "total" (.ofName "Int" true) (.member "total") with
      description := some "Number of rows before pagination" }]

/-- The type of an edge. -/
def edge (node : String) : TypeDef :=
  .object none [simpleField "cursor" (.ofName "String" true) (.member "cursor"),
    simpleField "node" (.ofName node true) (.child "node")]

/-- A field of the schema as it is queried. -/
def fieldOf (source : FieldDef → FieldSource) (f : FieldDef) : OutField :=
  ⟨f.name, nonEmpty? f.description, f.args, f.type, source f⟩

/-- The type of an object. -/
def objectOf (o : ObjectType) : TypeDef :=
  .object o.description ((Members.values o.fields).map (fieldOf (.row o)))

/-- The types of a schema in the order in which they take their names. -/
def typesOf (s : Schema) : List (String × TypeDef) :=
  builtin
    ++ [(rootName, .object none ((Members.values s.root).map (fieldOf .root))),
      (pageInfoName, pageInfo),
      (Scalar.date.typeName, .scalar (some .date) (some "Date and time, ISO 8601")),
      (Scalar.url.typeName, .scalar (some .url) (some "Link to binary content"))]
    ++ (Members.values s.types.objects).map (fun o => (o.name, objectOf o))
    ++ s.types.connections.flatMap (fun n =>
      [(connectionName n, connection n), (edgeName n, edge n)])
    ++ (Members.values s.types.inputs).map (fun t => (t.name, .input t))
    ++ (Members.values s.types.enums).map (fun t => (t.name, .enum t))

/-- The types of a schema by name. -/
def ofSchema (s : Schema) : TypeSystem := Members.ofList (typesOf s)

/-- A type by its name. -/
def type? (ts : TypeSystem) (name : String) : Option TypeDef := Members.get? ts name

/-- The type that values are answered as, by its name: the scalars of the language keep theirs. -/
def resultType? (ts : TypeSystem) (name : String) : Option TypeDef :=
  (Members.get? builtin name).or (ts.type? name)

/-- The fields of an object type. -/
def fields? (ts : TypeSystem) (name : String) : Option (List OutField) :=
  match ts.type? name with
  | some (.object _ fields) => some fields
  | _ => none

/-- A field of an object type. -/
def field? (ts : TypeSystem) (type field : String) : Option OutField := do
  (← ts.fields? type).find? fun f => f.name = field

/-- Whether the type of a name has a property. -/
def has (ts : TypeSystem) (property : TypeDef → Bool) (name : String) : Bool :=
  match ts.resultType? name with
  | some t => property t
  | none => false

/-- Whether a name is kept for the language. -/
def isKept (name : String) : Bool := ['_', '_'].isPrefixOf name.toList

/-- What keeps a field out of the language. -/
def fieldFault? (ts : TypeSystem) (type : String) (f : OutField) : Option SchemaFault :=
  if isKept f.name then some (.reservedName type f.name)
  else if !ts.has TypeDef.isOutput f.type.core then some (.notAnOutput type f.name)
  else if f.args.any fun a => !ts.has TypeDef.isInput a.2.core then some (.notAnInput type f.name)
  else none

/-- What keeps a type out of the language. -/
def typeFault? (ts : TypeSystem) (name : String) : TypeDef → Option SchemaFault
  | .object _ fields => fields.findSome? (ts.fieldFault? name)
  | .input t => t.fields.findSome? fun f =>
    if isKept f.name then some (.reservedName name f.name)
    else if !ts.has TypeDef.isInput f.type.core then some (.notAnInput name f.name)
    else none
  | _ => none

/-- The first fault of the types, objects before inputs. -/
def fault? (ts : TypeSystem) : Option SchemaFault :=
  let own := List.filter (fun e => (Members.get? builtin e.1).isNone) ts
  let (outputs, inputs) := own.partition fun e => e.2.isOutput
  (outputs ++ inputs).findSome? fun (name, t) => typeFault? ts name t

end TypeSystem

/-- A schema that can be queried. -/
structure Graph where
  /-- The schema. -/
  schema : Schema
  /-- Its types. -/
  types : TypeSystem
  deriving DecidableEq, Repr

namespace Graph

/-- The graph of a schema, if its types fit the language. -/
def ofSchema (s : Schema) : Except SchemaError Graph :=
  let types := TypeSystem.ofSchema s
  match types.fault? with
  | some fault => .error (.unfit fault)
  | none => .ok ⟨s, types⟩

/-- The graph of a snapshot of tables, if it could be read. -/
def create (tables : Except String (List Table)) : Except SchemaError Graph := do
  ofSchema (← (Schema.create tables).outcome)

/-- The names of the root fields. -/
def rootNames (g : Graph) : List String := Members.names g.schema.root

end Graph

end TableGraph
