import TableGraph.Plan.Basic
import TableGraph.Plan.Selection
import TableGraph.Plan.Clauses

/-!
# Planning

The plan of a root field from its selection. Aliases are handed out in the order in which tables
are joined, depth first. Filter and ordering of an occurrence are read after everything below it has
been planned. Fields whose name starts with two underscores belong to the language and are passed
over.
-/

namespace TableGraph

namespace Plan

/-- The alias of an occurrence by its number. -/
def aliasOf (n : Nat) : String := "t" ++ String.ofList (Decimal.digits n)

/-- The label of the column at a place. -/
def columnLabel (aliasName : String) (n : Nat) : String :=
  aliasName ++ "_c" ++ String.ofList (Decimal.digits n)

/-- The label of the identifying column at a place. -/
def identityLabel (aliasName : String) (n : Nat) : String :=
  aliasName ++ "_k" ++ String.ofList (Decimal.digits n)

/-- The columns that tell the rows of an object type apart: all but links and contents, and none when
there is a primary key. -/
def identityColumns (o : ObjectType) : List String :=
  match o.primary with
  | some _ => []
  | none => (Members.values o.fields).filterMap fun f =>
    match f.kind with
    | .scalar .url => none
    | .scalar _ => f.column
    | .link _ => none
    | .group _ => none

/-- What the fields of an occurrence contribute, and the number of the next alias. -/
structure Body where
  /-- The selected columns. -/
  columns : List ColumnSelect
  /-- The joins. -/
  joins : List (JoinHead × Plan)
  /-- The number of the next alias. -/
  next : Nat

/-- The plan of an occurrence behind a field, once everything below it is planned. -/
def assemble (d : Dialect) (f : FieldDef) (o : ObjectType) (aliasName : String) (args : Members Json)
    (body : Body) : Except RequestError Plan := do
  let filter ← f.filterText d aliasName args
  let order ← f.ordering? args
  let identity := (identityColumns o).zipIdx.map fun (column, i) => (column, identityLabel aliasName i)
  return .node ⟨aliasName, o.table, o.primary, identity, body.columns, filter, order.getD []⟩ body.joins

/-- The condition of a join, with the filter of the child. -/
def onText (d : Dialect) (f : FieldDef) (parent : String) (child : Plan) : String :=
  let condition := match f.join with
    | some key => FieldDef.joinText d parent child.head.aliasName key
    | none => "TRUE"
  if child.head.filter = "" then condition
  else condition ++ " AND (" ++ child.head.filter ++ ")"

/-- Whether a name belongs to the language. -/
def isReserved (name : String) : Bool := ['_', '_'].isPrefixOf name.toList

/-- What a field leads to: an object type, how many objects there are for each row, and the fields
selected of them. -/
structure Below where
  /-- The object type. -/
  type : ObjectType
  /-- How many objects there are. -/
  cardinality : Cardinality
  /-- The fields selected of them. -/
  selected : List Selection

/-- What a link or group leads to, with the fields selected below it. -/
def below? (types : Members ObjectType) (children : List Selection) : FieldKind → Option Below
  | .scalar _ => none
  | .link target => (Members.get? types target).map fun o => ⟨o, .many, Selection.ofRows children⟩
  | .group target => (Members.get? types target).map fun o => ⟨o, .one, children⟩

/-- The fields selected of the objects are among those below the field. -/
theorem weights_below_le {types : Members ObjectType} {children : List Selection} {kind : FieldKind}
    {b : Below} (h : below? types children kind = some b) :
    Selection.weights b.selected ≤ Selection.weights children := by
  cases kind with
  | scalar type => simp [below?] at h
  | link target =>
    obtain ⟨o, _, rfl⟩ := Option.map_eq_some_iff.1 h
    exact Selection.weights_ofRows_le children
  | group target =>
    obtain ⟨o, _, rfl⟩ := Option.map_eq_some_iff.1 h
    exact Nat.le_refl _

/-- A column as it is selected. -/
def columnSelect (aliasName : String) (placed : Nat) (s : Selection) (type : Scalar)
    (column : String) : ColumnSelect :=
  ⟨s.responseKey, column, columnLabel aliasName placed, type = .url⟩

/-- Plans merged selections on an occurrence of an object type. `placed` is the number of columns
selected before, `next` the number of the next alias. -/
def body (d : Dialect) (types : Members ObjectType) (o : ObjectType) (aliasName : String)
    (placed next : Nat) : List Selection → Except RequestError Body
  | [] => .ok ⟨[], [], next⟩
  | s :: rest =>
    if isReserved s.name then body d types o aliasName placed next rest
    else match Members.get? o.fields s.name with
    | none => .error (.selection (.noField o.name s.name))
    | some f =>
      match f.kind, f.column with
      | .scalar _, none => body d types o aliasName placed next rest
      | .scalar type, some column => do
        let more ← body d types o aliasName (placed + 1) next rest
        return { more with columns := columnSelect aliasName placed s type column :: more.columns }
      | kind, _ =>
        match h : below? types s.children kind with
        | none => .error (.selection (.noField o.name s.name))
        | some b => do
          let inner ← body d types b.type (aliasOf next) 0 (next + 1) (Selection.merge b.selected)
          let child ← assemble d f b.type (aliasOf next) s.args inner
          let more ← body d types o aliasName placed inner.next rest
          let join : JoinHead := ⟨s.responseKey, b.cardinality, onText d f aliasName child⟩
          return { more with joins := (join, child) :: more.joins }
termination_by selections => Selection.weights selections
decreasing_by
  all_goals
    have h1 := Selection.weight_eq s
    simp only [Selection.weights]
    first
    | omega
    | (have h2 := weights_below_le h
       have h3 := Selection.weights_merge_le b.selected
       omega)

/-- The plan of a root field from its selection. -/
def ofRoot (d : Dialect) (types : Members ObjectType) (f : FieldDef) (s : Selection) :
    Except RequestError Plan :=
  match f.kind, below? types s.children f.kind with
  | .link _, some b => do
    let inner ← body d types b.type (aliasOf 0) 0 1 (Selection.merge b.selected)
    assemble d f b.type (aliasOf 0) s.args inner
  | _, _ => .error (.selection (.notATable f.name))

end Plan

end TableGraph
