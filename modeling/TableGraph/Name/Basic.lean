/-!
# Names of the graph

A name of the graph starts with an underscore or an ASCII letter and goes on with underscores,
ASCII letters and digits. Any other text becomes a name when each character that does not fit is
replaced by a placeholder of underscores; the placeholder grows until the name is free.
-/

namespace TableGraph.Name

/-- An ASCII letter. -/
def isLetter (c : Char) : Bool := ('a' ≤ c && c ≤ 'z') || ('A' ≤ c && c ≤ 'Z')

/-- A character a name may start with. -/
def isStart (c : Char) : Bool := c = '_' || isLetter c

/-- A character a name may go on with. -/
def isPart (c : Char) : Bool := isStart c || ('0' ≤ c && c ≤ '9')

/-- Whether a text is a name of the graph. -/
def isValid (s : String) : Bool :=
  match s.toList with
  | [] => false
  | c :: cs => isStart c && cs.all isPart

/-- The text with `placeholder` for each character that does not fit a name. It comes in front as
well when the text is empty or starts with a digit. -/
def substitute (placeholder : List Char) (s : String) : String :=
  let body := s.toList.flatMap fun c => if isPart c then [c] else placeholder
  match s.toList with
  | [] => String.ofList placeholder
  | c :: _ => String.ofList (if '0' ≤ c && c ≤ '9' then placeholder ++ body else body)

/-- The placeholder after `k` steps of growth. -/
def placeholder (k : Nat) : List Char := List.replicate (k + 2) '_'

/-- The first number whose candidate is not taken, among one more than there are taken names. -/
def firstFree (candidate : Nat → String) (taken : List String) : Nat :=
  ((List.range (taken.length + 1)).find? fun k => candidate k ∉ taken).getD taken.length

end TableGraph.Name
