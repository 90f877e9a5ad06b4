import TableGraph.Proofs.Filter.Meaning
import TableGraph.Proofs.Formula.Atoms

/-!
# The conditions a filter asks for

The conditions that a `where` argument asks for, read off the argument itself: one for each column
under a comparison with a value that is not `null`, and one for each column that must have no value
or be empty. Beside it stand the conditions of a filter that has been read, which are those of its
words.
-/

namespace TableGraph.Filter

open Formula

/-- The comparisons with values. -/
def valued : List Comparison := [.equals, .contains, .begins, .ends, .greater, .less]

/-- The members with filters. -/
def combined : List String := ["not", "or", "and"]

/-- The members with filters are no comparisons. -/
theorem mem_combinations_of_mem_combined {key : String} (h : key ∈ combined) :
    key ∈ combinations := by
  revert key
  decide

/-- A condition that is asked for. -/
inductive Leaf where
  /-- A comparison of the column of a name, with a value if there is one. -/
  | compared (c : Comparison) (name : String) (operand : Option Json)
  /-- That the column of a name has no value. -/
  | missing (name : String)

/-- The conditions that a member without filters asks for. -/
def ownLeaves (key : String) : Json → List Leaf
  | .obj values => (valued.filter fun c => c.key = key).flatMap fun c =>
    values.filterMap fun m => if m.2.isNull then none else some (.compared c m.1 (some m.2))
  | .str name =>
    if key = "isNull" then [.missing name]
    else if key = "isEmpty" then [.compared .isEmpty name none]
    else []
  | _ => []

mutual

/-- The conditions that a filter, or a list of filters, asks for. -/
def leaves : Json → List Leaf
  | .obj ms => memberLeaves ms
  | .arr items => itemLeaves items
  | _ => []

/-- The conditions that filters ask for. -/
def itemLeaves : List Json → List Leaf
  | [] => []
  | j :: js => leaves j ++ itemLeaves js

/-- The conditions that the members of a filter ask for. -/
def memberLeaves : List (String × Json) → List Leaf
  | [] => []
  | (key, v) :: ms => (if key ∈ combined then leaves v else ownLeaves key v) ++ memberLeaves ms

end

/-- The column that a condition is about. -/
def Leaf.column? (s : Shape) : Leaf → Option Field
  | compared _ name _ => s.column? name
  | missing name => s.column? name

/-- The text of a condition about a column. -/
def Leaf.textAbout (d : Dialect) (table : String) (f : Field) : Leaf → String
  | compared c _ operand => d.condition c table f operand
  | missing _ => d.column table f.name ++ " IS NULL"

/-- The text of a condition, if it is about a column of the table. -/
def Leaf.text? (d : Dialect) (s : Shape) (table : String) (l : Leaf) : Option String :=
  (l.column? s).map fun f => l.textAbout d table f

variable (d : Dialect) (table : String)

mutual

/-- The conditions of a filter. -/
def atoms : Filter → List String
  | .node groups missing noneOf anyOf allOf =>
    groups.flatMap (groupAtoms d table) ++ missingTexts d table missing ++ itemAtoms noneOf
      ++ itemAtoms anyOf ++ itemAtoms allOf

/-- The conditions of filters. -/
def itemAtoms : List Filter → List String
  | [] => []
  | f :: fs => atoms f ++ itemAtoms fs

end

variable {d table}

/-- The conditions that filters ask for, filter by filter. -/
theorem itemLeaves_eq_flatMap (js : List Json) : itemLeaves js = js.flatMap leaves := by
  induction js with
  | nil => rfl
  | cons j js ih => rw [itemLeaves, ih, List.flatMap_cons]

/-- The conditions that members ask for, member by member. -/
theorem memberLeaves_eq_flatMap (ms : List (String × Json)) :
    memberLeaves ms
      = ms.flatMap fun m => if m.1 ∈ combined then leaves m.2 else ownLeaves m.1 m.2 := by
  induction ms with
  | nil => rfl
  | cons m ms ih => rw [memberLeaves, ih, List.flatMap_cons]

/-- A filter under a name is an item of the list there, or the one value there, unless that is
`null`. -/
theorem mem_nested_iff {ms : Members Json} {name : String} {j : Json} :
    j ∈ Members.nested ms name ↔ ∃ v, Members.get? ms name = some v
      ∧ ((∃ js, v = .arr js ∧ j ∈ js) ∨ (j = v ∧ v ≠ .null ∧ ∀ js, v ≠ .arr js)) := by
  unfold Members.nested
  cases Members.get? ms name with
  | none => simp
  | some v =>
    cases v with
    | null => simp
    | arr items => simp
    | _ => simp

/-- The conditions that the filters under a name ask for. -/
theorem flatMap_leaves_nested (ms : Members Json) (name : String) :
    (Members.nested ms name).flatMap leaves = ((Members.get? ms name).map leaves).getD [] := by
  unfold Members.nested
  cases Members.get? ms name with
  | none => rfl
  | some v =>
    cases v with
    | arr items => exact (itemLeaves_eq_flatMap items).symm
    | null => rfl
    | obj ms => exact List.flatMap_singleton _ _
    | str t => rfl
    | num n => rfl
    | bool b => rfl

/-- The conditions among words for conditions. -/
theorem flatMap_atomsOf_atoms (ts : List String) :
    (ts.map fun t => [Token.atom t]).flatMap atomsOf = ts := by
  rw [List.flatMap_map]
  exact List.flatMap_singleton' ts

mutual

/-- The conditions of a filter are those of the words of its parts. -/
@[simp]
theorem flatMap_atomsOf_partTokens : ∀ f : Filter,
    (f.partTokens d table).flatMap atomsOf = f.atoms d table
  | .node groups missing noneOf anyOf allOf => by
    have hgroups : (groups.flatMap fun g =>
          enclosedTokens [] .and ((groupAtoms d table g).map fun t => [.atom t])).flatMap atomsOf
        = groups.flatMap (groupAtoms d table) := by
      rw [List.flatMap_assoc]
      apply List.flatMap_congr
      intro g _
      rw [flatMap_atomsOf_enclosedTokens rfl rfl, flatMap_atomsOf_atoms]
    rw [partTokens, atoms, List.flatMap_append, List.flatMap_append, List.flatMap_append,
      List.flatMap_append, hgroups, flatMap_atomsOf_atoms, flatMap_atomsOf_enclosedTokens rfl rfl,
      flatMap_atomsOf_enclosedTokens rfl rfl, flatMap_atomsOf_enclosedTokens rfl rfl,
      flatMap_atomsOf_itemTokens noneOf, flatMap_atomsOf_itemTokens anyOf,
      flatMap_atomsOf_itemTokens allOf]

/-- The conditions of filters are those of the words of the filters. -/
@[simp]
theorem flatMap_atomsOf_itemTokens : ∀ fs : List Filter,
    (itemTokens d table fs).flatMap atomsOf = itemAtoms d table fs
  | [] => rfl
  | f :: fs => by
    have hf := flatMap_atomsOf_partTokens f
    rw [itemTokens, itemAtoms, List.flatMap_append, flatMap_atomsOf_itemTokens fs, ← hf]
    congr 1
    by_cases h : f.partTokens d table = []
    · rw [if_pos h, h]
    · rw [if_neg h, List.flatMap_singleton, atomsOf_joinedTokens rfl]

end

/-- The conditions of a filter are those of its words. -/
@[simp]
theorem atomsOf_tokens (f : Filter) : atomsOf (f.tokens d table) = f.atoms d table := by
  rw [tokens, atomsOf_joinedTokens rfl, flatMap_atomsOf_partTokens]

end TableGraph.Filter
