import TableGraph.Query.Answer
import TableGraph.Json.Printer

/-!
# Responses as JSON

The data of a response and, where fields were left out, the errors with their positions in the text.
Errors of values that do not fit also name the steps to them.
-/

namespace TableGraph.Query

/-- A step as JSON. -/
def PathStep.toJson : PathStep → Json
  | .key name => .str name
  | .index place => .nat place

/-- Whether the error of a fault names the steps to it. -/
def FieldFault.namesPath : FieldFault → Bool
  | .absent | .misfit _ => true
  | _ => false

/-- A position as JSON. -/
def Position.toJson (p : Position) : Json :=
  .obj [("line", .nat p.line), ("column", .nat p.column)]

/-- An error as JSON, given the text of the query. -/
def Failure.toJson (text : String) (f : Failure) : Json :=
  .obj ([("message", .str f.fault.message),
      ("locations", .arr [(Position.of text f.remaining).toJson])]
    ++ (if f.fault.namesPath then [("path", .arr (f.path.map PathStep.toJson))] else []))

/-- The errors of a response as JSON, given the text of the query. -/
def Response.errors (text : String) : Response → List Json
  | .refused => [.obj [("message", .str "the request is refused")]]
  | .answered _ failures => failures.map (Failure.toJson text)

/-- The data of a response. -/
def Response.data : Response → Json
  | .refused => .null
  | .answered data _ => data

/-- A response as JSON, given the text of the query. -/
def Response.toJson (text : String) (r : Response) : Json :=
  .obj ([("data", r.data)] ++ (match r.errors text with
    | [] => []
    | errors => [("errors", .arr errors)]))

end TableGraph.Query
