import TableGraph.Graph.TypeSystem
import TableGraph.Text.Joined

/-!
# The schema definition language

The types of a graph as text, sorted by name, each followed by an empty line, then the directives
and the root. The scalars of the language are not written.
-/

namespace TableGraph.Sdl

/-- A text at a level of indentation. -/
def indented (level : Nat) (s : String) : String :=
  String.ofList (List.replicate level '\t' ++ s.toList)

/-- A text with every line behind the first at a level of indentation. -/
def reindented (level : Nat) (s : String) : String :=
  Text.substitute (fun c => if c = '\n' then "\n" ++ indented level "" else String.ofList [c]) s

/-- A line. -/
def line (level : Nat) (s : String) : String := indented level s ++ "\n"

/-- A description between marks on lines of their own. -/
def description (level : Nat) : Option String → String
  | none => ""
  | some s => line level "\"\"\"" ++ line level (reindented level s) ++ line level "\"\"\""

/-- A name with a type. -/
def typed (name : String) (type : TypeRef) : String := name ++ ": " ++ type.text

/-- A field. -/
def field (f : OutField) : String :=
  let args := match f.args with
    | [] => ""
    | args => "(" ++ Text.joined ", " (args.map fun (n, t) => typed n t) ++ ")"
  description 1 f.description ++ line 1 (typed (f.name ++ args) f.type)

/-- A member of an input. -/
def inputField (f : InputField) : String :=
  description 1 f.description ++ line 1 (typed f.name f.type)

/-- A value of an enumeration. -/
def enumValue (v : String × Option String) : String := description 1 v.2 ++ line 1 v.1

/-- A type with its members between braces. -/
def block (keyword name : String) (members : List String) : String :=
  line 0 (keyword ++ " " ++ name ++ " \x7b") ++ Text.joined "" members ++ line 0 "\x7d" ++ "\n"

/-- A type. -/
def typeText (name : String) : TypeDef → String
  | .scalar _ none => ""
  | .scalar _ (some text) =>
    description 0 (some text) ++ line 0 ("scalar " ++ name) ++ "\n"
  | .object text fields => description 0 text ++ block "type" name (fields.map field)
  | .input t => block "input" name (t.fields.map inputField)
  | .enum t => block "enum" name (t.values.map enumValue)

/-- A directive that keeps or leaves out what it stands at. -/
def directive (name text : String) : String :=
  description 0 (some text)
    ++ line 0 ("directive @" ++ name ++ "(if: Boolean!) on FIELD | FRAGMENT_SPREAD | INLINE_FRAGMENT")

/-- The directives and the root. -/
def closing : String :=
  directive "include"
      "Directs the executor to include this field or fragment only when the `if` argument is true."
    ++ directive "skip"
      "Directs the executor to skip this field or fragment when the `if` argument is true."
    ++ line 0 "schema \x7b" ++ line 1 ("query: " ++ TypeSystem.rootName) ++ line 0 "\x7d"

/-- The types by name. -/
def sorted (ts : TypeSystem) : List (String × TypeDef) :=
  List.mergeSort ts fun a b => decide (a.1 ≤ b.1)

/-- The text of the types of a graph. -/
def text (ts : TypeSystem) : String :=
  Text.joined "" ((sorted ts).map fun (n, t) => typeText n t)
    ++ closing

end TableGraph.Sdl
