import TableGraph.Json.Decode
import TableGraph.Listing

/-!
# Selections

What a request selects: fields with their arguments and the fields selected below them. Selections
under one response key are merged: the first one counts, and the fields below all of them come
together under it.
-/

namespace TableGraph

/-- A selected field. -/
inductive Selection where
  /-- A field by name, with the name it is answered under if that is another, its arguments and the
  fields below it. -/
  | field (name : String) (rename : Option String) (args : Members Json) (children : List Selection)
  deriving Repr, Inhabited

namespace Selection

/-- The name of the field. -/
def name : Selection → String
  | .field name _ _ _ => name

/-- The arguments. -/
def args : Selection → Members Json
  | .field _ _ args _ => args

/-- The fields below. -/
def children : Selection → List Selection
  | .field _ _ _ children => children

/-- The name the field is answered under. -/
def responseKey : Selection → String
  | .field name rename _ _ => rename.getD name

/-- The field with more fields below it. -/
def extend (more : List Selection) : Selection → Selection
  | .field name rename args children => .field name rename args (children ++ more)

/-- The field with nothing below it. -/
def bare : Selection → Selection
  | .field name rename args _ => .field name rename args []

/-- Merges one more selection into those merged before. -/
def mergeInto (merged : List Selection) (s : Selection) : List Selection :=
  upsert (fun e => e.responseKey = s.responseKey) s.bare (extend s.children) merged

/-- Selections merged by response key, in the order of first mention. -/
def merge (selections : List Selection) : List Selection := selections.foldl mergeInto []

/-- The fields selected of the rows of a connection: those below its `nodes`, and those below the
`node` of its `edges`. -/
def ofRows (selections : List Selection) : List Selection :=
  selections.flatMap fun s =>
    if s.name = "nodes" then s.children
    else if s.name = "edges" then
      s.children.flatMap fun e => if e.name = "node" then e.children else []
    else []

mutual

/-- Reads a selection described as a record. -/
def ofJson? : Json → Option Selection
  | .obj ms => do
    let name ← Json.member ms "name" Json.asString?
    let rename ← Json.memberOr ms "alias" (Json.decodeOption Json.asString?) none
    let args ← Json.memberOr ms "args" (Json.decodeOption Json.asObject?) none
    let children ← childrenOfMembers? ms
    some (.field name rename (args.getD []) children)
  | _ => none

/-- Reads the selections below a record. -/
def childrenOfMembers? : List (String × Json) → Option (List Selection)
  | [] => some []
  | (name, value) :: rest =>
    if name = "children" then childrenOfValue? value else childrenOfMembers? rest

/-- Reads a list of selections; `null` is an empty one. -/
def childrenOfValue? : Json → Option (List Selection)
  | .null => some []
  | .arr items => ofItems? items
  | _ => none

/-- Reads the selections of a list. -/
def ofItems? : List Json → Option (List Selection)
  | [] => some []
  | j :: rest => do
    let s ← ofJson? j
    let more ← ofItems? rest
    some (s :: more)

end

mutual

/-- The number of fields in a selection. -/
def weight : Selection → Nat
  | .field _ _ _ children => 1 + weights children

/-- The number of fields in a list of selections. -/
def weights : List Selection → Nat
  | [] => 0
  | s :: rest => weight s + weights rest

end

/-- A selection holds one field more than the selections below it. -/
theorem weight_eq (s : Selection) : s.weight = 1 + weights s.children := by
  cases s
  simp [weight, children]

/-- Lists of selections add up. -/
@[simp]
theorem weights_append (a b : List Selection) : weights (a ++ b) = weights a + weights b := by
  induction a with
  | nil => simp [weights]
  | cons s rest ih => simp [weights, ih]; omega

/-- Merging one more selection adds no more than its fields. -/
theorem weights_mergeInto_le (merged : List Selection) (s : Selection) :
    weights (mergeInto merged s) ≤ weights merged + s.weight := by
  unfold mergeInto
  induction merged with
  | nil => cases s; simp [upsert, weights, weight, bare, extend, children]
  | cons e rest ih =>
    simp only [upsert]
    split
    · cases e; cases s
      simp [weights, weight, extend, children, weights_append]; omega
    · simp [weights]; omega

/-- Merging keeps no more fields than there are. -/
theorem weights_merge_le (selections : List Selection) :
    weights (merge selections) ≤ weights selections := by
  have go : ∀ (ss merged : List Selection),
      weights (ss.foldl mergeInto merged) ≤ weights merged + weights ss := by
    intro ss
    induction ss with
    | nil => simp [weights]
    | cons s rest ih =>
      intro merged
      have h1 := ih (mergeInto merged s)
      have h2 := weights_mergeInto_le merged s
      simp [weights]; omega
  simpa [merge, weights] using go selections []

/-- The fields selected of the edges are among those below the connection. -/
theorem weights_nodes_le (selections : List Selection) :
    weights (selections.flatMap fun e => if e.name = "node" then e.children else [])
      ≤ weights selections := by
  induction selections with
  | nil => simp [weights]
  | cons e rest ih =>
    have := weight_eq e
    simp only [List.flatMap_cons, weights_append, weights]
    split
    · omega
    · simp [weights]; omega

/-- The fields selected of the rows are among those below the connection. -/
theorem weights_ofRows_le (selections : List Selection) :
    weights (ofRows selections) ≤ weights selections := by
  unfold ofRows
  induction selections with
  | nil => simp [weights]
  | cons s rest ih =>
    have h1 := weight_eq s
    have h2 := weights_nodes_le s.children
    simp only [List.flatMap_cons, weights_append, weights]
    split
    · omega
    · split
      · omega
      · simp [weights]; omega

end Selection

end TableGraph
