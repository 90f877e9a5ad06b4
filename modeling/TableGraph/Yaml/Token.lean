import TableGraph.Yaml.Scalar

/-!
# Tokens of YAML

A text as marks, scalars and brackets. The brackets of block collections follow from indentation. A
key need not be marked: what stands in front of a colon on the same line is one, so that its mark is
put in place afterwards.
-/

namespace TableGraph.Yaml

/-- A token. -/
inductive Token where
  /-- A directive for the next document. -/
  | directive
  /-- The marked start of a document. -/
  | documentStart
  /-- The marked end of a document. -/
  | documentEnd
  /-- The start of a sequence in block style. -/
  | blockSequence
  /-- The start of a mapping in block style. -/
  | blockMapping
  /-- The end of a collection in block style. -/
  | blockEnd
  /-- The start of a sequence between brackets. -/
  | flowSequence
  /-- The end of a sequence between brackets. -/
  | flowSequenceEnd
  /-- The start of a mapping between braces. -/
  | flowMapping
  /-- The end of a mapping between braces. -/
  | flowMappingEnd
  /-- The mark of an item in block style. -/
  | blockEntry
  /-- The comma between items. -/
  | flowEntry
  /-- The mark of a key. -/
  | key
  /-- The mark of a value. -/
  | value
  /-- A name for the node that follows. -/
  | anchor (name : String)
  /-- The node of a name. -/
  | reference (name : String)
  /-- A tag for the node that follows. -/
  | tag
  /-- A scalar, and whether it is plain. -/
  | scalar (text : String) (plain : Bool)
  deriving DecidableEq, Repr, Inhabited

/-- A token that may turn out to be a key. -/
structure PossibleKey where
  /-- The number of tokens in front of it. -/
  number : Nat
  /-- Where it starts. -/
  place : Place
  /-- Whether it can be nothing else. -/
  required : Bool

/-- What has been read of a text. -/
structure Tokens where
  /-- Where reading goes on. -/
  place : Place
  /-- The tokens so far. -/
  tokens : List Token := []
  /-- The column of the innermost block collection, `-1` outside all of them. -/
  indent : Int := -1
  /-- The columns of the block collections around it. -/
  outer : List Int := []
  /-- What may turn out to be a key in the innermost flow collection, or outside all of them. -/
  possible : Option PossibleKey := none
  /-- What may turn out to be a key around each flow collection. -/
  around : List (Option PossibleKey) := []
  /-- Whether a key may start here. -/
  keyAllowed : Bool := true

namespace Tokens

/-- Whether reading stands in a flow collection. -/
def inFlow (s : Tokens) : Bool := !s.around.isEmpty

/-- Adds a token. -/
def push (s : Tokens) (t : Token) : Tokens := { s with tokens := s.tokens ++ [t] }

/-- The column where reading stands. -/
def column (s : Tokens) : Int := s.place.column

/-- Gives up the possible key, unless it can be nothing else. -/
def dropKey (s : Tokens) : Option Tokens :=
  if s.possible.any (·.required) then none else some { s with possible := none }

/-- Notes that the token here may turn out to be a key. -/
def noteKey (s : Tokens) : Option Tokens :=
  if s.keyAllowed then do
    let s ← s.dropKey
    some { s with possible := some ⟨s.tokens.length, s.place, !s.inFlow && s.indent = s.column⟩ }
  else some s

/-- The greatest distance from a key to its colon. -/
def keyReach : Nat := 1024

/-- Gives up a possible key that starts on another line or too far away. -/
def freshKey (p : Place) : Option PossibleKey → Option (Option PossibleKey)
  | none => some none
  | some k =>
    if k.place.line < p.line ∨ k.place.index + keyReach < p.index then
      if k.required then none else some none
    else some (some k)

/-- Gives up all possible keys that start on another line or too far away. -/
def freshKeys (s : Tokens) : Option Tokens := do
  let possible ← freshKey s.place s.possible
  let around ← s.around.mapM (freshKey s.place)
  some { s with possible := possible, around := around }

/-- Opens a block collection at a column that is deeper than the innermost one. Its mark stands in
front of the last tokens, given how many are in front of it. -/
def deepen (s : Tokens) (column : Int) (number : Nat) (mark : Token) : Tokens :=
  if s.inFlow || column ≤ s.indent then s
  else { s with
    tokens := s.tokens.take number ++ mark :: s.tokens.drop number
    outer := s.indent :: s.outer
    indent := column }

/-- Closes block collections until none is deeper than a column. -/
def closeTo (column : Int) (indent : Int) : List Int → List Token × Int × List Int
  | [] => ([], indent, [])
  | next :: rest =>
    if column < indent then
      let (ends, result) := closeTo column next rest
      (.blockEnd :: ends, result)
    else ([], indent, next :: rest)

/-- Closes the block collections that are deeper than a column. -/
def shallow (s : Tokens) (column : Int) : Tokens :=
  if s.inFlow then s
  else
    let (ends, indent, outer) := closeTo column s.indent s.outer
    { s with tokens := s.tokens ++ ends, indent := indent, outer := outer }

/-- The place of the next token: behind blanks, comments and line ends. A tab counts as a blank only
where no key may start. The first argument bounds the number of characters. -/
def seek : Nat → Bool → Bool → Place → Place × Bool
  | 0, _, allowed, p => (p, allowed)
  | n + 1, flow, allowed, p =>
    match p.char? with
    | none => (p, allowed)
    | some c =>
      if c = ' ' || (c = '\t' && (flow || !allowed)) then seek n flow allowed p.next
      else if c = '#' then seek n flow allowed p.toLineEnd
      else match p.lineBreak? with
        | some (_, q) => seek n flow (allowed || !flow) q
        | none => (p, allowed)

/-- Moves on by a number of characters. -/
def move (s : Tokens) (n : Nat) : Tokens := { s with place := s.place.skip n }

/-- A mark between documents. -/
def document (s : Tokens) (t : Token) : Option Tokens := do
  let s ← (s.shallow (-1)).dropKey
  some ({ s with keyAllowed := false }.push t |>.move 3)

/-- A directive: a version that is known, or a handle for tags. -/
def directive (s : Tokens) : Option Tokens := do
  let s ← (s.shallow (-1)).dropKey
  let line := s.place.rest.takeWhile fun c => !isBreak c
  let words := ((String.ofList line).splitOn " ").filter (· ≠ "")
  let known : Bool := match words with
    | "%YAML" :: version :: rest =>
      ["1.1", "1.2"].contains version && rest.head?.all (·.startsWith "#")
    | ["%TAG", handle, _] => handle.startsWith "!"
    | _ => false
  if known then some ({ s with keyAllowed := false, place := s.place.toLineEnd }.push .directive)
  else none

/-- The start of a flow collection. -/
def openFlow (s : Tokens) (t : Token) : Option Tokens := do
  let s ← s.noteKey
  some ({ s with around := s.possible :: s.around, possible := none, keyAllowed := true }.push t
    |>.move 1)

/-- The end of a flow collection. -/
def closeFlow (s : Tokens) (t : Token) : Option Tokens := do
  let s ← s.dropKey
  let s := match s.around with
    | [] => s
    | k :: rest => { s with possible := k, around := rest }
  some ({ s with keyAllowed := false }.push t |>.move 1)

/-- A comma between items. -/
def flowEntry (s : Tokens) : Option Tokens := do
  let s ← s.dropKey
  some ({ s with keyAllowed := true }.push .flowEntry |>.move 1)

/-- The mark of an item in block style. -/
def blockEntry (s : Tokens) : Option Tokens := do
  if !s.inFlow && !s.keyAllowed then none
  let s ← (s.deepen s.column s.tokens.length .blockSequence).dropKey
  some ({ s with keyAllowed := true }.push .blockEntry |>.move 1)

/-- The mark of a key. -/
def markedKey (s : Tokens) : Option Tokens := do
  if !s.inFlow && !s.keyAllowed then none
  let s ← (s.deepen s.column s.tokens.length .blockMapping).dropKey
  some ({ s with keyAllowed := !s.inFlow }.push .key |>.move 1)

/-- The mark of a value. If a possible key stands in front of it, its mark is put in place. -/
def markedValue (s : Tokens) : Option Tokens :=
  match s.possible with
  | some k =>
    let s := { s with
      tokens := s.tokens.take k.number ++ Token.key :: s.tokens.drop k.number
      possible := none }
    let s := s.deepen k.place.column k.number .blockMapping
    some ({ s with keyAllowed := false }.push .value |>.move 1)
  | none =>
    if !s.inFlow && !s.keyAllowed then none
    else
      let s := s.deepen s.column s.tokens.length .blockMapping
      some ({ s with keyAllowed := !s.inFlow }.push .value |>.move 1)

/-- A character of the name of a node. -/
def isNamePart (c : Char) : Bool := c.isAlphanum || c = '_' || c = '-'

/-- Whether a name may end in front of a character. -/
def endsName : Option Char → Bool
  | none => true
  | some c => isBlank c || isBreak c || ['?', ':', ',', ']', '\x7d', '%', '@', '\x60'].contains c

/-- A name behind its sign. -/
def named (s : Tokens) (token : String → Token) : Option Tokens := do
  let s ← s.noteKey
  let name := s.place.rest.tail.takeWhile isNamePart
  let next := s.place.skip (name.length + 1)
  if name = [] || !endsName next.char? then none
  else some ({ s with keyAllowed := false, place := next }.push (token (String.ofList name)))

/-- A character of a tag. -/
def isTagPart (flow : Bool) (c : Char) : Bool :=
  c.isAlphanum || ['-', '_', ';', '/', '?', ':', '@', '&', '=', '+', '$', '.', '!', '~', '*', '\'', '(',
    ')', '%'].contains c || (!flow && [',', '[', ']'].contains c)

/-- A tag. Its handle is the sign alone, or two of them. -/
def tag (s : Tokens) : Option Tokens := do
  let s ← s.noteKey
  let rest := s.place.rest.tail
  let length ← match rest with
    | '<' :: uri =>
      let part := uri.takeWhile (isTagPart false)
      if part ≠ [] ∧ (uri.drop part.length).head? = some '>' then some (part.length + 3) else none
    | '!' :: suffix =>
      let part := suffix.takeWhile (isTagPart true)
      if part ≠ [] ∧ !part.contains '!' then some (part.length + 2) else none
    | suffix =>
      let part := suffix.takeWhile (isTagPart true)
      if part.contains '!' then none else some (part.length + 1)
  let next := s.place.skip length
  if next.endsAt 0 || (s.inFlow && next.char? = some ',') then
    some ({ s with keyAllowed := false, place := next }.push .tag)
  else none

/-- A scalar between quotes. -/
def quoted (s : Tokens) (quote : Char) : Option Tokens := do
  let s ← s.noteKey
  let r ← quotedScalar quote s.place
  some ({ s with keyAllowed := false, place := r.place }.push (.scalar (String.ofList r.text) false))

/-- A literal or folded block. -/
def block (s : Tokens) (folded : Bool) : Option Tokens := do
  let s ← s.dropKey
  let r ← blockScalar folded s.indent s.place
  some ({ s with keyAllowed := true, place := r.place }.push (.scalar (String.ofList r.text) false))

/-- A plain scalar. -/
def plain (s : Tokens) : Option Tokens := do
  let s ← s.noteKey
  let r ← plainScalar s.inFlow (s.indent + 1).toNat s.place
  some ({ s with keyAllowed := r.broken, place := r.place }.push (.scalar (String.ofList r.text) true))

/-- The characters no plain scalar starts with, unless another one follows some of them. -/
def indicators : List Char :=
  ['-', '?', ':', ',', '[', ']', '\x7b', '\x7d', '#', '&', '*', '!', '|', '>', '\'', '"', '%', '@', '\x60']

/-- Whether a plain scalar starts here. -/
def startsPlain (s : Tokens) (c : Char) : Bool :=
  (!isBlank c && !isBreak c && !indicators.contains c) || (c = '-' && !s.place.endsAt 1)
    || (!s.inFlow && (c = '?' || c = ':') && !s.place.endsAt 1)

/-- One more token that starts with a character. -/
def token (s : Tokens) (c : Char) : Option Tokens :=
  if s.place.column = 0 && c = '%' then s.directive
  else if s.place.marks '-' then s.document .documentStart
  else if s.place.marks '.' then s.document .documentEnd
  else if c = '[' then s.openFlow .flowSequence
  else if c = '\x7b' then s.openFlow .flowMapping
  else if c = ']' then s.closeFlow .flowSequenceEnd
  else if c = '\x7d' then s.closeFlow .flowMappingEnd
  else if c = ',' then s.flowEntry
  else if c = '-' && s.place.endsAt 1 then s.blockEntry
  else if c = '?' && (s.inFlow || s.place.endsAt 1) then s.markedKey
  else if c = ':' && (s.inFlow || s.place.endsAt 1) then s.markedValue
  else if c = '*' then s.named .reference
  else if c = '&' then s.named .anchor
  else if c = '!' then s.tag
  else if c = '|' && !s.inFlow then s.block false
  else if c = '>' && !s.inFlow then s.block true
  else if c = '\'' || c = '"' then s.quoted c
  else if s.startsPlain c then s.plain
  else none

/-- Reads all tokens that are left. The first argument bounds their number. -/
def read : Nat → Tokens → Option (List Token)
  | 0, _ => none
  | n + 1, s => do
    let (place, allowed) := seek (s.place.rest.length + 1) s.inFlow s.keyAllowed s.place
    let s ← { s with place := place, keyAllowed := allowed }.freshKeys
    match s.place.char? with
    | none => do
      let s ← (s.shallow (-1)).dropKey
      some s.tokens
    | some c => do
      let s ← (s.shallow s.column).token c
      read n s

end Tokens

/-- The tokens of a text. A mark of the byte order may stand in front of it. -/
def tokens? (text : String) : Option (List Token) :=
  let cs := match text.toList with
    | '\ufeff' :: rest => rest
    | cs => cs
  if cs.all isAllowed then Tokens.read (cs.length + 2) { place := .ofText cs } else none

end TableGraph.Yaml
