import TableGraph.Plan.Planning
import TableGraph.Plan.Statement
import TableGraph.Plan.Hydrate
import TableGraph.Page.Connection

/-!
# Backends

What a graph is answered from: the dialect of the statements, the rows behind a plan, and the value
of a field that came with its parent. A backend may change a state with every plan it fetches.
-/

namespace TableGraph

/-- What a graph is answered from. -/
structure Backend (σ : Type) where
  /-- The dialect of the statements. -/
  dialect : Dialect
  /-- The rows behind a plan, or why there are none. -/
  fetch : Plan → StateM σ (Except String (List Row))
  /-- The value of a field that came with its parent, given the object it belongs to, the parent, the
  response key and the arguments. -/
  held : Option ObjectType → FieldDef → Json → String → Members Json → Except RequestError Json

/-- Results that are given in turn, and the statements they were given for. -/
structure Script where
  /-- The results that are left: rows, or why there are none. -/
  results : List (Except String (List Row))
  /-- The statements so far, the first one first. -/
  statements : List String := []

/-- Gives the next result. When none is left there are no rows. -/
def Script.answer (statement : String) : StateM Script (Except String (List Row)) := fun s =>
  match s.results with
  | [] => (.ok [], ⟨[], s.statements ++ [statement]⟩)
  | r :: rest => (r, ⟨rest, s.statements ++ [statement]⟩)

/-- A backend that gives results in turn and holds every value as it is. -/
def Backend.scripted (d : Dialect) : Backend Script where
  dialect := d
  fetch := fun p => Script.answer (p.sql d)
  held := fun _ _ source key args => Page.ofSource source key args

end TableGraph
