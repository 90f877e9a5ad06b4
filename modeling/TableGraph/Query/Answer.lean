import TableGraph.Query.Selected
import TableGraph.Query.Position
import TableGraph.Graph.Backend

/-!
# Answering queries

Root fields are fetched one after another, each with its whole selection; everything below them is
found in what was fetched. A field that fails is left out of its object and noted, and an object
without fields is `null`. Values answered under one name are merged.
-/

namespace TableGraph.Query

/-- A step from an answer to a value inside it. -/
inductive PathStep where
  /-- The member of an object. -/
  | key (name : String)
  /-- The item of a list. -/
  | index (place : Nat)
  deriving DecidableEq, Repr

/-- Why a field is left out. -/
inductive FieldFault where
  /-- A variable has no value. -/
  | variable (name : String)
  /-- No statement can be made. -/
  | request (error : RequestError)
  /-- The backend has no rows to give. -/
  | backend (message : String)
  /-- There is no value where one is required. -/
  | absent
  /-- The value does not fit the scalar. -/
  | misfit (scalar : String)

/-- The text of a fault. -/
def FieldFault.message : FieldFault → String
  | .variable name => "Variable " ++ name ++ " is not defined."
  | .request error => error.message
  | .backend message => message
  | .absent => "internal: non-null types require a return value"
  | .misfit scalar =>
    "internal: invalid value for scalar \"" ++ scalar ++ "\", expected \"FieldValue::Value\""

/-- A field that is left out. -/
structure Failure where
  /-- Why. -/
  fault : FieldFault
  /-- The steps to it. -/
  path : List PathStep
  /-- How many characters of the text there are from the field on. -/
  remaining : Nat

/-- A result with the failures on the way to it. -/
structure Noted (α : Type) where
  /-- The result. -/
  value : α
  /-- The failures in order. -/
  failures : List Failure

/-- The answer to a request. -/
inductive Response where
  /-- The request is refused. -/
  | refused
  /-- The data with the fields that are left out. -/
  | answered (data : Json) (failures : List Failure)

mutual

/-- A value merged with a later one of the same name: objects member by member, lists item by item;
anything else stays. -/
def merged (old : Json) : Json → Json
  | .obj ms => match old with
    | .obj os => .obj (mergeMembers os ms)
    | old => old
  | .arr ys => match old with
    | .arr xs => .arr (mergeItems xs ys)
    | old => old
  | _ => old

/-- Members with later ones merged in. -/
def mergeMembers (old : Members Json) : List (String × Json) → Members Json
  | [] => old
  | (k, v) :: rest =>
    mergeMembers
      (match Members.get? old k with
        | some o => Members.insert old k (merged o v)
        | none => Members.insert old k v) rest

/-- The items of a list with the objects of a later one merged in. -/
def mergeItems (old : List Json) : List Json → List Json
  | [] => old
  | y :: ys => match old with
    | [] => []
    | .obj os :: xs => (match y with
      | .obj ms => .obj (mergeMembers os ms)
      | _ => .obj os) :: mergeItems xs ys
    | x :: xs => x :: mergeItems xs ys

end

/-- The object of members, merged by name; without any it is `null`. -/
def objectOf (members : List (String × Json)) : Json :=
  match mergeMembers [] members with
  | [] => .null
  | ms => .obj ms

/-- What is found for a field before it is answered. -/
inductive Found where
  /-- No value. -/
  | nothing
  /-- One value. -/
  | value (v : Json)
  /-- A list of values. -/
  | items (vs : List Json)

/-- One value, or nothing when it is `null`. -/
def Found.ofValue : Json → Found
  | .null => .nothing
  | v => .value v

/-- The member of a value; what is not there is `null`. -/
def memberOf (v : Json) (name : String) : Json := (v.member? name).getD .null

/-- The edges of a connection. -/
def edgesOf (connection : Json) : List Json := (memberOf connection "edges").asArray?.getD []

/-- Whether a value can be answered as a scalar. -/
def answersAs : Option Scalar → Json → Bool
  | some .date, v => match v with
    | .str s => (Time.parse? s).isSome
    | _ => false
  | some .url, v => v.asString?.isSome
  | _, _ => true

/-- What requests are answered with. -/
structure Setting (σ : Type) where
  /-- The backend. -/
  backend : Backend σ
  /-- The graph. -/
  graph : Graph
  /-- The request. -/
  prepared : Prepared

variable {σ : Type}

namespace Setting

/-- What is found for a field in its parent. -/
def find (s : Setting σ) (head : FieldHead) (parent : Json) : FieldSource → Except FieldFault Found
  | .root _ => .ok .nothing
  | .row o f => do
    let args ← (s.prepared.arguments head.args).mapError .variable
    let v ← (s.backend.held (some o) f parent head.responseKey args).mapError .request
    return .ofValue v
  | .edges => .ok (.items (edgesOf parent))
  | .nodes => .ok (.items ((edgesOf parent).map fun e => memberOf e "node"))
  | .child key => .ok (.value (memberOf parent key))
  | .member key => .ok (.ofValue (memberOf parent key))

mutual

/-- The answer for a field of an object type, if it is not left out. -/
def field (s : Setting σ) (type : String) (parent : Json) (path : List PathStep) :
    Selected → Noted (Option Json)
  | .field head below =>
    let path := path ++ [PathStep.key head.responseKey]
    let failed := fun (fault : FieldFault) => Noted.mk none [⟨fault, path, head.remaining⟩]
    if head.name = typeNameField then ⟨some (.str type), []⟩
    else match s.graph.types.field? type head.name with
    | none => ⟨none, []⟩
    | some f =>
      match s.find head parent f.source with
      | .error fault => failed fault
      | .ok .nothing => if Value.isRequired f.type then failed .absent else ⟨some .null, []⟩
      | .ok (.items vs) =>
        let answers := vs.zipIdx.map fun (v, i) =>
          s.fields f.type.core v (path ++ [PathStep.index i]) below
        ⟨some (.arr (answers.map fun a => objectOf a.value)), answers.flatMap (·.failures)⟩
      | .ok (.value v) =>
        match s.graph.types.resultType? f.type.core with
        | some (.scalar scalar _) =>
          if answersAs scalar v then ⟨some v, []⟩ else failed (.misfit f.type.core)
        | _ =>
          let answer := s.fields f.type.core v path below
          ⟨some (objectOf answer.value), answer.failures⟩

/-- The answers for fields of an object type, under their names. -/
def fields (s : Setting σ) (type : String) (parent : Json) (path : List PathStep) :
    List Selected → Noted (List (String × Json))
  | [] => ⟨[], []⟩
  | .field head below :: rest =>
    let first := s.field type parent path (.field head below)
    let more := s.fields type parent path rest
    ⟨(first.value.map fun v => (head.responseKey, v)).toList ++ more.value,
      first.failures ++ more.failures⟩

end

/-- What is fetched for a root field. -/
def fetch (s : Setting σ) (f : FieldDef) (selected : Selected) : StateM σ (Except FieldFault Json) :=
  match s.prepared.selection selected with
  | .error name => return .error (.variable name)
  | .ok selection =>
    match Plan.ofRoot s.backend.dialect s.graph.schema.types.objects f selection with
    | .error e => return .error (.request e)
    | .ok plan => do
      match ← s.backend.fetch plan with
      | .error message => return .error (.backend message)
      | .ok rows => return (plan.resolve rows selection.args).mapError .request

/-- The answer for a root field, if it is not left out. -/
def root (s : Setting σ) : Selected → StateM σ (Noted (List (String × Json)))
  | .field head below => do
    let key := head.responseKey
    match (s.graph.types.field? TypeSystem.rootName head.name).map OutField.source with
    | some (FieldSource.root f) =>
      match ← s.fetch f (.field head below) with
      | .error fault => return ⟨[], [⟨fault, [.key key], head.remaining⟩]⟩
      | .ok v =>
        let answer := s.fields f.type.core v [.key key] below
        return ⟨[(key, objectOf answer.value)], answer.failures⟩
    | _ => return s.fields TypeSystem.rootName .null [] [.field head below]

/-- The answers for root fields, one after another. -/
def roots (s : Setting σ) : List Selected → StateM σ (Noted (List (String × Json)))
  | [] => return ⟨[], []⟩
  | f :: rest => do
    let first ← s.root f
    let more ← s.roots rest
    return ⟨first.value ++ more.value, first.failures ++ more.failures⟩

end Setting

end Query

/-- The answer of a graph to a request. -/
def Graph.answer {σ : Type} (g : Graph) (b : Backend σ) (r : Query.Request) :
    StateM σ Query.Response :=
  match r.prepare? g.types with
  | none => return .refused
  | some p => do
    let answer ← (Query.Setting.mk b g p).roots p.fields
    return .answered (Query.objectOf answer.value) answer.failures

end TableGraph
