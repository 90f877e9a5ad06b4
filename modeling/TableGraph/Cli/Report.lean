import TableGraph.Text.Joined
import TableGraph.Decimal.Digits

/-!
# Error reports

The text of an error and behind it the texts of what caused it, the nearest cause first. A single
cause is indented; several are numbered.
-/

namespace TableGraph.Cli

/-- An error that ends a command. -/
structure Report where
  /-- Its text. -/
  message : String
  /-- The texts of what caused it, the nearest cause first. -/
  causes : List String := []
  deriving DecidableEq, Repr, Inhabited

namespace Report

/-- A text whose further lines are indented. -/
def hanging (width : Nat) (s : String) : String :=
  Text.substitute (fun c =>
    if c = '\n' then String.ofList ('\n' :: List.replicate width ' ') else String.ofList [c]) s

/-- A number, flush right. -/
def label (n : Nat) : String :=
  let digits := Decimal.digits n
  String.ofList (List.replicate (5 - digits.length) ' ' ++ digits)

/-- The lines of what caused an error. -/
def causeLines : List String → List String
  | [cause] => ["    " ++ hanging 4 cause]
  | causes => causes.zipIdx.map fun (cause, i) => label i ++ ": " ++ hanging 7 cause

/-- The text of a report. -/
def text (r : Report) : String :=
  let behind := match r.causes with
    | [] => ""
    | causes => "\n\nCaused by:\n" ++ Text.joined "\n" (causeLines causes)
  "Error: " ++ r.message ++ behind ++ "\n"

end Report

end TableGraph.Cli
