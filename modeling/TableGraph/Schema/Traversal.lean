import TableGraph.Schema.Fields

/-!
# The order in which types are made

Types are made table by table. A table is opened the first time something leads to it; then the
tables its references lead to are visited in order, each followed by the link itself, and then its
groups are made. So the tables are opened in depth-first order, each just once.
-/

namespace TableGraph

/-- One step of a build. -/
inductive BuildStep where
  /-- The object type of a table is made. -/
  | openTable (s : Shape)
  /-- A field leads to the rows of a table: its connection and its inputs are made. -/
  | reach (s : Shape)
  /-- The groups of a table are made. -/
  | makeGroups (s : Shape)
  deriving DecidableEq, Repr

/-- What is still to be done. -/
inductive BuildTask where
  /-- Open the table, unless it has been opened. -/
  | visit (s : Shape)
  /-- Take a step. -/
  | take (step : BuildStep)
  deriving DecidableEq, Repr

namespace BuildTask

/-- The tasks for a field that leads to the rows of a table. -/
def follow (s : Shape) : List BuildTask := [.visit s, .take (.reach s)]

/-- The tasks behind the opening of a table. -/
def inside (shapes : List Shape) (s : Shape) : List BuildTask :=
  ((s.table.fields.filterMap (Shape.target? shapes)).flatMap fun t => follow t.1)
    ++ [.take (.makeGroups s)]

/-- The steps of a list of tasks. `unopened` holds the tables not yet opened. -/
def steps (shapes unopened : List Shape) : List BuildTask → List BuildStep
  | [] => []
  | .take step :: rest => step :: steps shapes unopened rest
  | .visit s :: rest =>
    if s ∈ unopened then
      .openTable s :: steps shapes (unopened.erase s) (inside shapes s ++ rest)
    else steps shapes unopened rest
termination_by tasks => (unopened.length, tasks.length)
decreasing_by
  · exact Prod.Lex.right _ (by simp)
  · rename_i h
    have := List.length_erase_of_mem h
    have := List.length_pos_of_mem h
    exact Prod.Lex.left _ _ (by omega)
  · exact Prod.Lex.right _ (by simp)

end BuildTask

/-- The steps of a build: each table is followed in turn. -/
def BuildStep.ofShapes (shapes : List Shape) : List BuildStep :=
  BuildTask.steps shapes shapes (shapes.flatMap BuildTask.follow)

end TableGraph
