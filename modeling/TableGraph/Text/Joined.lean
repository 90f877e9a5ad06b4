/-!
# Joined texts

Texts set one after another with a separator between neighbours, and texts rewritten character
by character.
-/

namespace TableGraph.Text

/-- The texts in order with `separator` between neighbours. -/
def joined (separator : String) : List String → String
  | [] => ""
  | [s] => s
  | s :: t :: rest => s ++ separator ++ joined separator (t :: rest)

/-- The text with every character replaced by the text `f` gives for it. -/
def substitute (f : Char → String) (s : String) : String :=
  String.ofList (s.toList.flatMap fun c => (f c).toList)

/-- The text with every `mark` doubled and a `mark` at either end. -/
def delimited (mark : Char) (s : String) : String :=
  String.ofList (mark :: (s.toList.flatMap fun c => if c = mark then [mark, mark] else [c]) ++ [mark])

/-- What follows `lead` in a text that starts with it. -/
def after? (lead : String) (s : String) : Option String :=
  if lead.toList.isPrefixOf s.toList then some (String.ofList (s.toList.drop lead.toList.length))
  else none

end TableGraph.Text
