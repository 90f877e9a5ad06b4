import TableGraph.Json.Number
import TableGraph.Json.Parser
import TableGraph.Text.Joined

/-!
# The words of a query text

Blanks, line ends, commas and comments stand between the words and count for nothing. A word need
not be set apart from its neighbours where it ends by itself. Strings stand between double quotes,
or over several lines between triple ones, where the common indentation is taken away.
-/

namespace TableGraph.Query.Lexical

/-- The end of a line. -/
def isLineEnd (c : Char) : Bool := c = '\n' || c = '\r'

/-- A character that counts for nothing between words. -/
def isIgnored (c : Char) : Bool := c = ' ' || c = '\t' || c = ',' || c = '\ufeff' || isLineEnd c

/-- The text without what counts for nothing at its start, inside a comment or outside. -/
def skipFrom (comment : Bool) : List Char → List Char
  | [] => []
  | c :: cs =>
    if comment then skipFrom (!isLineEnd c) cs
    else if c = '#' then skipFrom true cs
    else if isIgnored c then skipFrom false cs
    else c :: cs

/-- The text without what counts for nothing at its start. -/
def skip (cs : List Char) : List Char := skipFrom false cs

/-- The text behind a mark. -/
def mark (c : Char) (cs : List Char) : Option (List Char) :=
  match skip cs with
  | d :: rest => if d = c then some rest else none
  | [] => none

/-- The text behind a word. -/
def word (w : String) (cs : List Char) : Option (List Char) :=
  let cs := skip cs
  if w.toList.isPrefixOf cs then some (cs.drop w.toList.length) else none

/-- A letter of the Latin alphabet or the low line. -/
def isNameStart (c : Char) : Bool := c.isAlpha || c = '_'

/-- A character of a name. -/
def isNamePart (c : Char) : Bool := isNameStart c || c.isDigit

/-- A name right here, and the rest of the text. -/
def nameHere : List Char → Option (String × List Char)
  | c :: cs =>
    if isNameStart c then some (String.ofList (c :: cs.takeWhile isNamePart), cs.dropWhile isNamePart)
    else none
  | [] => none

/-- A name, and the rest of the text. -/
def name (cs : List Char) : Option (String × List Char) := nameHere (skip cs)

/-- Digits before the point: a zero by itself, or digits that do not start with one. -/
def wholeDigits : List Char → Option (List Char × List Char)
  | '0' :: rest => some (['0'], rest)
  | cs =>
    let ds := cs.takeWhile Decimal.isDigit
    if ds = [] then none else some (ds, cs.dropWhile Decimal.isDigit)

/-- A point with digits, if it is there, and the rest of the text. -/
def fractionHere : List Char → List Char × List Char
  | '.' :: rest =>
    let ds := rest.takeWhile Decimal.isDigit
    if ds = [] then ([], '.' :: rest) else ('.' :: ds, rest.dropWhile Decimal.isDigit)
  | cs => ([], cs)

/-- An exponent, if it is there, and the rest of the text. -/
def exponentHere : List Char → List Char × List Char
  | c :: cs =>
    if c = 'e' ∨ c = 'E' then
      let (sign, rest) := match cs with
        | '+' :: rest => (['+'], rest)
        | '-' :: rest => (['-'], rest)
        | rest => ([], rest)
      let ds := rest.takeWhile Decimal.isDigit
      if ds = [] then ([], c :: cs) else (c :: sign ++ ds, rest.dropWhile Decimal.isDigit)
    else ([], c :: cs)
  | [] => ([], [])

/-- The characters of a number right here, and the rest of the text. -/
def numeral (cs : List Char) : Option (List Char × List Char) := do
  let (sign, rest) := match cs with
    | '-' :: rest => (['-'], rest)
    | rest => ([], rest)
  let (whole, rest) ← wholeDigits rest
  let (fraction, rest) := fractionHere rest
  let (exponent, rest) := exponentHere rest
  some (sign ++ whole ++ fraction ++ exponent, rest)

/-- A number right here that no name follows, and the rest of the text. -/
def number (cs : List Char) : Option (Number × List Char) := do
  let (digits, rest) ← numeral cs
  let (n, _) ← Decimal.number? digits
  match rest with
  | c :: _ => if isNameStart c then none else some (n, rest)
  | [] => some (n, rest)

/-- The character of an escape, and the rest of the text. No surrogate may be written. -/
def escaped : List Char → Option (Char × List Char)
  | 'u' :: rest => do
    let (n, rest) ← Json.hexFour rest
    if 0xD800 ≤ n ∧ n < 0xE000 then none else some (Char.ofNat n, rest)
  | cs => Json.escaped cs

/-- The characters up to the closing quote, and the rest of the text. The first argument bounds the
number of characters. -/
def stringBody : Nat → List Char → Option (List Char × List Char)
  | 0, _ => none
  | _ + 1, [] => none
  | n + 1, c :: rest =>
    if c = '"' then some ([], rest)
    else if c = '\\' then do
      let (d, rest) ← escaped rest
      let (ds, rest) ← stringBody n rest
      some (d :: ds, rest)
    else if isLineEnd c then none
    else do
      let (ds, rest) ← stringBody n rest
      some (c :: ds, rest)

/-- The characters up to the closing triple quote, and the rest of the text. -/
def blockBody : List Char → Option (List Char × List Char)
  | '\\' :: '"' :: '"' :: '"' :: rest => do
    let (ds, rest) ← blockBody rest
    some ('"' :: '"' :: '"' :: ds, rest)
  | '"' :: '"' :: '"' :: rest => some ([], rest)
  | c :: rest => do
    let (ds, rest) ← blockBody rest
    some (c :: ds, rest)
  | [] => none

/-- The lines of a text. -/
def lines : List Char → List (List Char)
  | '\r' :: '\n' :: rest => [] :: lines rest
  | c :: rest =>
    if isLineEnd c then [] :: lines rest
    else match lines rest with
      | l :: ls => (c :: l) :: ls
      | [] => [[c]]
  | [] => [[]]

/-- A blank or a tab. -/
def isIndent (c : Char) : Bool := c = ' ' || c = '\t'

/-- Whether a line holds more than indentation. -/
def hasContent (line : List Char) : Bool := line.any fun c => !isIndent c

/-- The indentation that all lines with content share. -/
def commonIndent (ls : List (List Char)) : Nat :=
  (((ls.filter hasContent).map fun l => (l.takeWhile isIndent).length).min?).getD 0

/-- A line without an indentation, if it is long enough. -/
def outdent (n : Nat) (line : List Char) : List Char :=
  if n ≤ line.length then line.drop n else line

/-- The text of a block: without the indentation that the lines behind the first share, and without
the lines at either end that have no content. -/
def blockText (cs : List Char) : String :=
  let ls := match lines cs with
    | first :: rest => first :: rest.map (outdent (commonIndent rest))
    | [] => []
  let kept := ((ls.dropWhile fun l => !hasContent l).reverse.dropWhile fun l => !hasContent l).reverse
  Text.joined "\n" (kept.map String.ofList)

/-- A string behind its opening quote, and the rest of the text. -/
def plainString (cs : List Char) : Option (String × List Char) :=
  (stringBody (cs.length + 1) cs).map fun r => (String.ofList r.1, r.2)

/-- A string behind its opening quote, on one line or over several, and the rest of the text. -/
def string : List Char → Option (String × List Char)
  | '"' :: '"' :: rest => match blockBody rest with
    | some (cs, rest) => some (blockText cs, rest)
    | none => plainString ('"' :: '"' :: rest)
  | cs => plainString cs

/-- As many things as there are one after another, and the rest of the text. The first argument
bounds their number. -/
def repeated {α : Type} (step : List Char → Option (α × List Char)) :
    Nat → List Char → List α × List Char
  | 0, cs => ([], cs)
  | n + 1, cs => match step cs with
    | none => ([], cs)
    | some (a, rest) =>
      let (as, rest) := repeated step n rest
      (a :: as, rest)

/-- As many things as there are one after another, at least one, and the rest of the text. -/
def several {α : Type} (step : List Char → Option (α × List Char)) (cs : List Char) :
    Option (List α × List Char) :=
  match repeated step cs.length cs with
  | ([], _) => none
  | r => some r

end TableGraph.Query.Lexical
