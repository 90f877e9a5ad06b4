import TableGraph.Filter.Basic
import TableGraph.Table.Shape
import TableGraph.RequestError

/-!
# Reading filters

The `where` argument of a field as a filter. It is an object whose members are comparisons with
columns, `isNull` with one column, and `not`, `or` and `and` with filters. The comparisons are read
first, in the order they are written, then `isNull`, `not`, `or` and `and`; the first fault refuses
the whole filter. Columns go by their names in the graph.
-/

namespace TableGraph

namespace Members

/-- A value found under a name is smaller than the members. -/
theorem sizeOf_get?_lt {ms : Members Json} {name : String} {v : Json}
    (h : get? ms name = some v) : sizeOf v < sizeOf ms := by
  induction ms with
  | nil => simp [get?] at h
  | cons m rest ih =>
    obtain ⟨k, w⟩ := m
    unfold get? at h
    split at h
    · obtain rfl := Option.some.inj h
      simp; omega
    · have := ih h
      simp; omega

/-- The filters under a name: the items of a list, or the one value that is no list. -/
def nested (ms : Members Json) (name : String) : List Json :=
  match get? ms name with
  | none => []
  | some .null => []
  | some (.arr items) => items
  | some single => [single]

/-- A filter under a name is smaller than the object that holds it. -/
theorem sizeOf_nested_lt {ms : Members Json} {name : String} {v : Json}
    (h : v ∈ nested ms name) : sizeOf v < sizeOf (Json.obj ms) := by
  unfold nested at h
  split at h
  · simp at h
  · simp at h
  · rename_i items hi
    have h1 := sizeOf_get?_lt hi
    have h2 := List.sizeOf_lt_of_mem h
    simp at h1 ⊢; omega
  · rename_i single _ _ hs
    have h1 := sizeOf_get?_lt hs
    simp at h
    subst h
    simp; omega

end Members

namespace Filter

/-- The column a name stands for. -/
def column (s : Shape) (name : String) : Except RequestError Field :=
  match s.column? name with
  | some f => .ok f
  | none => .error (.unknownField s.table.name name)

/-- Conditions without values on the columns of a list of names. -/
def namedConditions (s : Shape) (c : Comparison) : List Json → Except RequestError (List Condition)
  | [] => .ok []
  | .str name :: rest => do
    let f ← column s name
    let more ← namedConditions s c rest
    return ⟨c, f, none⟩ :: more
  | _ :: _ => .error (.filter (.namesExpected c.key))

/-- Conditions on columns with values; `null` is no value. -/
def valuedConditions (s : Shape) (c : Comparison) :
    List (String × Json) → Except RequestError (List Condition)
  | [] => .ok []
  | (name, v) :: rest => do
    let f ← column s name
    let more ← valuedConditions s c rest
    return ⟨c, f, if v.isNull then none else some v⟩ :: more

/-- The conditions under a comparison. -/
def conditions (s : Shape) (c : Comparison) : Json → Except RequestError (List Condition)
  | .null => .ok []
  | .str name => namedConditions s c [.str name]
  | .arr names => namedConditions s c names
  | .obj values => valuedConditions s c values
  | other => .error (.filter (.objectExpected c.key other))

/-- The members that are no comparisons. -/
def combinations : List String := ["isNull", "and", "or", "not"]

/-- The groups of conditions under the comparisons of an object. -/
def groups (s : Shape) : List (String × Json) → Except RequestError (List (List Condition))
  | [] => .ok []
  | (key, v) :: rest =>
    if key ∈ combinations then groups s rest
    else match Comparison.ofKey? key with
      | none => .error (.filter (.unknownKind key))
      | some c => do
        let group ← conditions s c v
        let more ← groups s rest
        return group :: more

/-- The column that must have no value. -/
def missing (s : Shape) : Option Json → Except RequestError (Option Field)
  | none => .ok none
  | some .null => .ok none
  | some (.str name) => do return some (← column s name)
  | some other => .error (.filter (.nameExpected other))

/-- The filter a value stands for; `null` says nothing. -/
def ofJson (s : Shape) : Json → Except RequestError Filter
  | .null => .ok empty
  | .obj ms => do
    let groups ← groups s ms
    let missing ← missing s (Members.get? ms "isNull")
    let noneOf ← (Members.nested ms "not").attach.mapM fun ⟨j, _⟩ => ofJson s j
    let anyOf ← (Members.nested ms "or").attach.mapM fun ⟨j, _⟩ => ofJson s j
    let allOf ← (Members.nested ms "and").attach.mapM fun ⟨j, _⟩ => ofJson s j
    return .node groups missing noneOf anyOf allOf
  | other => .error (.filter (.notAnObject other))
termination_by j => sizeOf j
decreasing_by all_goals (exact Members.sizeOf_nested_lt (by assumption))

/-- The text of a `where` argument on an alias; no argument has the empty text. -/
def argumentText (d : Dialect) (s : Shape) (table : String) (argument : Option Json) :
    Except RequestError String := do
  return (← ofJson s (argument.getD .null)).text d table

end Filter

end TableGraph
