import TableGraph.Query.Rules
import TableGraph.Query.Reading
import TableGraph.Plan.Selection

/-!
# What a query selects

The fields of an operation with all fragments spread out and without what directives leave out. A
directive looks at the values given to variables only; without one its condition is false.
-/

namespace TableGraph.Query

/-- A field with everything selected below it. -/
inductive Selected where
  /-- A field with the fields below it. -/
  | field (head : FieldHead) (below : List Selected)
  deriving Repr, Inhabited

/-- The condition of a directive. -/
def Directive.holds (given : Members Value) (d : Directive) : Bool :=
  match (Members.get? d.args "if").bind (Value.fill? (Members.get? given)) with
  | some (.bool b) => b
  | _ => false

/-- Whether a directive keeps what it stands at. -/
def Directive.keeps (given : Members Value) (d : Directive) : Bool :=
  if d.name = "skip" then !d.holds given
  else if d.name = "include" then d.holds given
  else true

/-- Whether all directives keep what they stand at. -/
def kept (given : Members Value) (ds : List Directive) : Bool := ds.all (Directive.keeps given)

/-- The fields of a selection set. The number bounds the depth of nesting. -/
def Document.spreadOut (d : Document) (given : Members Value) : Nat → List Item → List Selected
  | 0, _ => []
  | depth + 1, items => items.flatMap fun item => match item with
    | .field head below =>
      if kept given head.directives then [.field head (spreadOut d given depth below)] else []
    | .inline _ ds below => if kept given ds then spreadOut d given depth below else []
    | .spread name ds =>
      if kept given ds then match d.fragment? name with
        | some f => spreadOut d given depth f.items
        | none => []
      else []

/-- A request: a query text, values for its variables and the name of the operation that is asked
for. -/
structure Request where
  /-- The query text. -/
  text : String
  /-- Values for variables. -/
  values : Members Json := []
  /-- The operation that is asked for. -/
  operation : Option String := none
  deriving Repr, Inhabited

/-- An accepted operation, ready to be answered. -/
structure Prepared where
  /-- The declared variables. -/
  declared : List VariableDef
  /-- The values given to variables. -/
  given : Members Value
  /-- The selected fields. -/
  fields : List Selected
  deriving Repr, Inhabited

/-- The operation of a request, if its text is accepted. -/
def Request.prepare? (ts : TypeSystem) (r : Request) : Option Prepared := do
  let d ← Document.ofText? r.text
  let given := r.values.map fun (k, v) => (k, Value.ofJson v)
  if Rules.accepts ⟨ts, d, given⟩ then
    let o ← d.operation? r.operation
    some ⟨o.declared, given, d.spreadOut given (deepestNesting + 1) o.items⟩
  else none

/-- The value of a variable: the one given, else its default, else `null` if its type allows. -/
def Prepared.valueOf? (p : Prepared) (name : String) : Option Value := do
  let v ← p.declared.find? fun v => v.name = name
  ((Members.get? p.given name).or v.default).or
    (if Value.isRequired v.type then none else some .null)

/-- Arguments as JSON, or else the first variable in them without a value. -/
def Prepared.arguments (p : Prepared) (args : List (String × Value)) : Except String (Members Json) :=
  match Value.fillMembers? p.valueOf? args with
  | some args => .ok (Value.toMembers args)
  | none =>
    .error (((Value.namesInMembers args).find? fun name => (p.valueOf? name).isNone).getD "")

mutual

/-- The selection a statement is planned by, or else the first variable in it without a value. -/
def Prepared.selection (p : Prepared) : Selected → Except String Selection
  | .field head below => do
    let args ← p.arguments head.args
    let children ← p.selections below
    return .field head.name head.rename args children

/-- The selections of fields, or else the first variable in them without a value. -/
def Prepared.selections (p : Prepared) : List Selected → Except String (List Selection)
  | [] => return []
  | s :: rest => do
    let first ← p.selection s
    let more ← p.selections rest
    return first :: more

end

end TableGraph.Query
