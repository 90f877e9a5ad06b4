import TableGraph.Schema.Basic

/-!
# Handles

What is served while graphs are rebuilt. Beginning to rebuild leaves a graph that is served where it
is; finishing puts the new graph, or the reason there is none, in place of whatever was there.
-/

namespace TableGraph

/-- What is served at a time. -/
inductive Handle (α : Type) where
  /-- Nothing yet. -/
  | building
  /-- The result of the last rebuild. -/
  | ready (served : α)
  /-- Nothing any more: the last rebuild failed. -/
  | failed (reason : String)
  deriving DecidableEq, Repr, Inhabited

namespace Handle

variable {α : Type}

/-- A rebuild begins. -/
def begin : Handle α → Handle α
  | .ready served => .ready served
  | _ => .building

/-- A rebuild has come to its end. -/
def finish : Except SchemaError α → Handle α
  | .ok served => .ready served
  | .error e => .failed e.message

/-- What happens to a handle. -/
inductive Event (α : Type) where
  /-- A rebuild begins. -/
  | begun
  /-- A rebuild has come to its end. -/
  | finished (outcome : Except SchemaError α)

/-- The handle behind one more event. -/
def step (h : Handle α) : Event α → Handle α
  | .begun => h.begin
  | .finished outcome => finish outcome

/-- The handle behind a rebuild that nothing comes between. -/
def rebuild (h : Handle α) (outcome : Except SchemaError α) : Handle α :=
  (h.step .begun).step (.finished outcome)

/-- What is served, or why nothing is. -/
def current : Handle α → Except SchemaError α
  | .ready served => .ok served
  | .building => .error (.unavailable "schema is being built")
  | .failed reason => .error (.unavailable ("last schema build failed: " ++ reason))

end Handle

end TableGraph
