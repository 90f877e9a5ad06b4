import TableGraph.Schema.Traversal
import TableGraph.Schema.Progress

/-!
# Building a schema

The steps of a build are taken one after another over the types made so far. Making the groups of a
table fails when a group has fields but the table has no primary key; the first failure ends the
build. A group type is named after its table and its ref; a name made before stands for the type
made before. The build reports its progress: each opened table is a tick.
-/

namespace TableGraph

/-- A report of progress. -/
structure Tick where
  /-- What is done next. -/
  message : String
  /-- Its weight. -/
  weight : Float

/-- The types made so far, and the names handed out for groups. -/
structure BuildState where
  /-- The types. -/
  types : Registry
  /-- The names of group types; those of the tables are reserved. -/
  groupNames : Name.Derived

/-- Adds the inputs and enumerations of a table, unless they are there. -/
def Registry.addInputs (t : Registry) (s : Shape) : Registry :=
  if (Members.get? t.inputs s.filterName).isSome then t
  else { t with
    inputs := s.inputTypes.foldl (fun m i => Members.insert m i.name i) t.inputs
    enums := s.enumTypes.foldl (fun m e => Members.insert m e.name e) t.enums }

/-- Adds the connection of a table, unless it is there. -/
def Registry.addConnection (t : Registry) (s : Shape) : Registry :=
  if s.name ∈ t.connections then t else { t with connections := t.connections ++ [s.name] }

/-- Adds an object type. -/
def Registry.addObject (t : Registry) (o : ObjectType) : Registry :=
  { t with objects := Members.insert t.objects o.name o }

/-- Adds a field to the object type of a table. -/
def Registry.addField (t : Registry) (s : Shape) (d : FieldDef) : Registry :=
  match Members.get? t.objects s.name with
  | some o => t.addObject { o with fields := Members.insert o.fields d.name d }
  | none => t

namespace BuildState

/-- What the name of a group type starts from. -/
def groupBase (s : Shape) (r : Ref) : String :=
  "EMULATED_" ++ s.table.name ++ "_" ++ r.id.label

/-- Adds the field of a group whose object type is there. -/
def addGroupField (b : BuildState) (s : Shape) (r : Ref) (o : ObjectType) :
    Except SchemaError BuildState :=
  match o.primary with
  | none => .error (.missingPrimaryKey s.table.name)
  | some key => .ok { b with types := (b.types.addInputs s).addField s (s.groupDef r o.name key) }

/-- Makes a group of a table. A group without fields is left out. -/
def makeGroup (shapes : List Shape) (s : Shape) (b : BuildState) (r : Ref) :
    Except SchemaError BuildState :=
  let (name, names) := b.groupNames.issue (groupBase s r)
  let b := { b with groupNames := names }
  match Members.get? b.types.objects name with
  | some o => b.addGroupField s r o
  | none =>
    match Shape.columnFields shapes s (s.groupMembers r) with
    | [] => .ok b
    | fields =>
      match s.primary? with
      | none => .error (.missingPrimaryKey s.table.name)
      | some key =>
        let o : ObjectType := ⟨name, s.table.name, some key, r.name, fields⟩
        { b with types := b.types.addObject o }.addGroupField s r o

/-- Takes a step. -/
def take (shapes : List Shape) (b : BuildState) : BuildStep → Except SchemaError BuildState
  | .openTable s => .ok { b with types := b.types.addObject (s.objectType shapes) }
  | .reach s => .ok { b with types := (b.types.addConnection s).addInputs s }
  | .makeGroups s => s.groups.foldlM (makeGroup shapes s) b

end BuildState

/-- The report of a step. -/
def BuildStep.ticks (weight : Float) : BuildStep → List Tick
  | .openTable s => [⟨"Creating GraphQL type: " ++ s.table.name, weight⟩]
  | .reach _ => []
  | .makeGroups _ => []

/-- The reports of a build, and what it ends with. -/
structure Build (α : Type) where
  /-- The reports, up to the end of the build. -/
  ticks : List Tick
  /-- The result, or why there is none. -/
  outcome : Except SchemaError α

/-- Takes the steps one after another, up to the first failure. -/
def BuildState.run (shapes : List Shape) (weight : Float) (b : BuildState) :
    List BuildStep → Build BuildState
  | [] => ⟨[], .ok b⟩
  | step :: rest =>
    match b.take shapes step with
    | .error e => ⟨step.ticks weight, .error e⟩
    | .ok next =>
      let more := run shapes weight next rest
      ⟨step.ticks weight ++ more.ticks, more.outcome⟩

namespace Schema

/-- The weight of all tables together. -/
def tablesWeight : Float := 100

/-- The schema over the types of a finished build. -/
def ofTypes (shapes : List Shape) (types : Registry) : Schema where
  root := Members.ofList (shapes.map fun s => (s.name, s.rootDef))
  types := types
  tables := shapes

/-- The schema of a snapshot of tables. -/
def build (tables : List Table) : Build Schema :=
  match Table.exposable tables with
  | [] => ⟨[], .error .noTables⟩
  | shown =>
    let shapes := Shape.ofTables shown
    let weight := tablesWeight / shapes.length.toFloat
    let start : BuildState := ⟨{}, Name.Derived.reserving (shapes.map (·.name))⟩
    let done := start.run shapes weight (BuildStep.ofShapes shapes)
    ⟨done.ticks, done.outcome.map fun b => ofTypes shapes b.types⟩

/-- The schema of a snapshot of tables, if it could be read, with the reports of all steps. -/
def create (tables : Except String (List Table)) : Build Schema :=
  let reading : Tick := ⟨"Reading database schema...", 1⟩
  match tables with
  | .error reason => ⟨[reading], .error (.metadata reason)⟩
  | .ok tables =>
    let made := build tables
    let creating : Tick := ⟨"Creating GraphQL schema...", 8⟩
    let done : List Tick := match made.outcome with
      | .ok _ => [⟨"Done.", 1⟩]
      | .error _ => []
    ⟨reading :: creating :: made.ticks ++ done, made.outcome⟩

end Schema

end TableGraph
