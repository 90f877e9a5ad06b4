import TableGraph.Json.Basic
import TableGraph.Decimal.Shortest
import TableGraph.Text.Joined

/-!
# JSON text

The compact text of a value, and the text laid out over lines with two spaces for each level.
Quotes, backslashes and control characters are escaped; everything else is written as it is.
-/

namespace TableGraph

/-- A number as text: integers plainly, others by their shortest text. -/
def Number.text : Number → String
  | .int i => String.ofList (Decimal.signed i)
  | .float d => d.text

namespace Json

/-- The hexadecimal digit for a number below 16. -/
def hexDigit (n : Nat) : Char :=
  if n < 10 then Char.ofNat (48 + n) else Char.ofNat (87 + n)

/-- A character inside a quoted text. -/
def escape (c : Char) : List Char :=
  if c = '"' then ['\\', '"']
  else if c = '\\' then ['\\', '\\']
  else if c = '\n' then ['\\', 'n']
  else if c = '\r' then ['\\', 'r']
  else if c = '\t' then ['\\', 't']
  else if c = '\x08' then ['\\', 'b']
  else if c = '\x0c' then ['\\', 'f']
  else if c.toNat < 32 then
    ['\\', 'u', '0', '0', hexDigit (c.toNat / 16), hexDigit (c.toNat % 16)]
  else [c]

/-- A text between quotes. -/
def quoted (s : String) : String :=
  String.ofList ('"' :: s.toList.flatMap escape ++ ['"'])

mutual

/-- The compact text of a value. -/
def text : Json → String
  | .null => "null"
  | .bool true => "true"
  | .bool false => "false"
  | .num n => n.text
  | .str s => quoted s
  | .arr xs => "[" ++ Text.joined "," (texts xs) ++ "]"
  | .obj ms => "\x7b" ++ Text.joined "," (memberTexts ms) ++ "\x7d"

/-- The compact texts of values. -/
def texts : List Json → List String
  | [] => []
  | x :: xs => text x :: texts xs

/-- The compact texts of members. -/
def memberTexts : List (String × Json) → List String
  | [] => []
  | (k, v) :: ms => (quoted k ++ ":" ++ text v) :: memberTexts ms

end

/-- A new line at a level of nesting. -/
def lineBreak (level : Nat) : String :=
  String.ofList ('\n' :: List.replicate (2 * level) ' ')

mutual

/-- The text of a value over lines, starting at a level of nesting. -/
def prettyAt (level : Nat) : Json → String
  | .arr [] => "[]"
  | .arr (x :: xs) =>
    "[" ++ lineBreak (level + 1)
      ++ Text.joined ("," ++ lineBreak (level + 1))
        (prettyAt (level + 1) x :: prettyItems (level + 1) xs)
      ++ lineBreak level ++ "]"
  | .obj [] => "\x7b\x7d"
  | .obj ((k, v) :: ms) =>
    "\x7b" ++ lineBreak (level + 1)
      ++ Text.joined ("," ++ lineBreak (level + 1))
        ((quoted k ++ ": " ++ prettyAt (level + 1) v) :: prettyMembers (level + 1) ms)
      ++ lineBreak level ++ "\x7d"
  | .null => "null"
  | .bool true => "true"
  | .bool false => "false"
  | .num n => n.text
  | .str s => quoted s

/-- The texts of the items of an array. -/
def prettyItems (level : Nat) : List Json → List String
  | [] => []
  | x :: xs => prettyAt level x :: prettyItems level xs

/-- The texts of the members of an object. -/
def prettyMembers (level : Nat) : List (String × Json) → List String
  | [] => []
  | (k, v) :: ms => (quoted k ++ ": " ++ prettyAt level v) :: prettyMembers level ms

end

/-- The text of a value over lines. -/
def pretty (j : Json) : String := prettyAt 0 j

end Json

end TableGraph
