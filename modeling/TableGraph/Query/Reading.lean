import TableGraph.Query.Document
import TableGraph.Query.Lexical

/-!
# Reading query documents

The document of a text. Where one thing can be read in two ways the first that fits is taken: `...`
with `on` and a name, even in one word, begins an inline fragment, and a literal ends where it is
complete.
-/

namespace TableGraph.Query.Reading

open Lexical

/-- A literal or a bare name, and the rest of the text. -/
def literal (cs : List Char) : Option (Value × List Char) :=
  match cs with
  | 't' :: 'r' :: 'u' :: 'e' :: rest => some (.bool true, rest)
  | 'f' :: 'a' :: 'l' :: 's' :: 'e' :: rest => some (.bool false, rest)
  | 'n' :: 'u' :: 'l' :: 'l' :: rest => some (.null, rest)
  | cs => match nameHere cs with
    | some (n, rest) => some (.enum n, rest)
    | none => (number cs).map fun r => (.num r.1, r.2)

/-- A member of an object, given how its value is read. -/
def member (value : List Char → Option (Value × List Char)) (cs : List Char) :
    Option ((String × Value) × List Char) := do
  let (k, rest) ← name cs
  let rest ← mark ':' rest
  let (v, rest) ← value rest
  some ((k, v), rest)

/-- A value, with or without variables in it, and the rest of the text. The number bounds the depth
of nesting. -/
def value (constant : Bool) : Nat → List Char → Option (Value × List Char)
  | 0, _ => none
  | depth + 1, cs =>
    match skip cs with
    | '$' :: rest =>
      if constant then none else (name rest).map fun r => (.variable r.1, r.2)
    | '"' :: rest => (string rest).map fun r => (.str r.1, r.2)
    | '[' :: rest => do
      let (items, rest) := repeated (value constant depth) rest.length rest
      let rest ← mark ']' rest
      some (.list items, rest)
    | '\x7b' :: rest => do
      let (members, rest) := repeated (member (value constant depth)) rest.length rest
      let rest ← mark '\x7d' rest
      some (.obj (Members.ofList members), rest)
    | rest => literal rest

/-- The arguments in parentheses, if they are there, and the rest of the text. -/
def arguments (constant : Bool) (cs : List Char) : Option (List (String × Value) × List Char) :=
  match mark '(' cs with
  | none => some ([], cs)
  | some rest => do
    let (args, rest) ← several (member (value constant (rest.length + 1))) rest
    some (args, ← mark ')' rest)

/-- A directive, and the rest of the text. -/
def directive (constant : Bool) (cs : List Char) : Option (Directive × List Char) := do
  let (n, rest) ← name (← mark '@' cs)
  let (args, rest) ← arguments constant rest
  some (⟨n, args⟩, rest)

/-- The directives that follow, and the rest of the text. -/
def directives (constant : Bool) (cs : List Char) : List Directive × List Char :=
  repeated (directive constant) cs.length cs

/-- The type a fragment is for, and the rest of the text. -/
def condition (cs : List Char) : Option (String × List Char) := do name (← word "on" cs)

/-- A selection set, given how an item is read, and the rest of the text. -/
def selectionSet (item : List Char → Option (Item × List Char)) (cs : List Char) :
    Option (List Item × List Char) := do
  let rest ← mark '\x7b' cs
  let (items, rest) ← several item rest
  some (items, ← mark '\x7d' rest)

/-- A field, given how an item below it is read, and the rest of the text. -/
def field (item : List Char → Option (Item × List Char)) (cs : List Char) :
    Option (Item × List Char) := do
  let start := skip cs
  let (first, rest) ← nameHere start
  let (rename, named, rest) := match (mark ':' rest).bind name with
    | some (second, rest) => (some first, second, rest)
    | none => (none, first, rest)
  let (args, rest) ← arguments false rest
  let (ds, rest) := directives false rest
  let head : FieldHead := ⟨rename, named, args, ds, start.length⟩
  match mark '\x7b' rest with
  | none => some (.field head [], rest)
  | some _ => do
    let (items, rest) ← selectionSet item rest
    some (.field head items, rest)

/-- A fragment behind the three points, given how an item below it is read, and the rest of the
text. -/
def fragmentItem (item : List Char → Option (Item × List Char)) (cs : List Char) :
    Option (Item × List Char) :=
  match condition cs with
  | some (type, rest) => do
    let (ds, rest) := directives false rest
    let (items, rest) ← selectionSet item rest
    some (.inline (some type) ds items, rest)
  | none => match name cs with
    | some (n, rest) =>
      let (ds, rest) := directives false rest
      some (.spread n ds, rest)
    | none => do
      let (ds, rest) := directives false cs
      let (items, rest) ← selectionSet item rest
      some (.inline none ds items, rest)

/-- An item of a selection set, and the rest of the text. The number bounds the depth of nesting. -/
def item : Nat → List Char → Option (Item × List Char)
  | 0, _ => none
  | depth + 1, cs =>
    match word "..." cs with
    | some rest => fragmentItem (item depth) rest
    | none => field (item depth) cs

/-- The selection set at the start of a text, and the rest of the text. -/
def topSet (cs : List Char) : Option (List Item × List Char) :=
  selectionSet (item (cs.length + 1)) cs

/-- A type right here, and the rest of the text. Nothing may stand between its parts. The number
bounds the depth of nesting. -/
def type : Nat → List Char → Option (TypeRef × List Char)
  | 0, _ => none
  | depth + 1, cs => do
    let (t, rest) ← match cs with
      | '[' :: rest => match type depth rest with
        | some (t, ']' :: rest) => some (TypeRef.list t, rest)
        | _ => none
      | cs => (nameHere cs).map fun r => (TypeRef.named r.1, r.2)
    match rest with
    | '!' :: rest => some (.nonNull t, rest)
    | rest => some (t, rest)

/-- The value behind an equals sign, if it is there, and the rest of the text. -/
def defaultValue (cs : List Char) : Option (Option Value × List Char) :=
  match mark '=' cs with
  | none => some (none, cs)
  | some rest => (value true (rest.length + 1) rest).map fun r => (some r.1, r.2)

/-- The declaration of a variable, and the rest of the text. -/
def variableDef (cs : List Char) : Option (VariableDef × List Char) := do
  let (n, rest) ← name (← mark '$' cs)
  let rest ← mark ':' rest
  let (t, rest) ← type (rest.length + 1) (skip rest)
  let (_, rest) := directives true rest
  let (d, rest) ← defaultValue rest
  some (⟨n, t, d⟩, rest)

/-- The declared variables in parentheses, if they are there, and the rest of the text. -/
def variableDefs (cs : List Char) : Option (List VariableDef × List Char) :=
  match mark '(' cs with
  | none => some ([], cs)
  | some rest => do
    let (vs, rest) := repeated variableDef rest.length rest
    some (vs, ← mark ')' rest)

/-- The word for what an operation does, and the rest of the text. -/
def operationKind (cs : List Char) : Option (OperationKind × List Char) :=
  ((word "query" cs).map fun rest => (.query, rest))
    <|> ((word "mutation" cs).map fun rest => (.mutation, rest))
    <|> ((word "subscription" cs).map fun rest => (.subscription, rest))

/-- An operation, and the rest of the text. -/
def operation (cs : List Char) : Option (Operation × List Char) :=
  match operationKind cs with
  | some (kind, rest) => do
    let (n, rest) := match name rest with
      | some (n, rest) => (some n, rest)
      | none => (none, rest)
    let (vs, rest) ← variableDefs rest
    let (ds, rest) := directives false rest
    let (items, rest) ← topSet rest
    some (⟨kind, n, vs, ds, items⟩, rest)
  | none => (topSet cs).map fun r => (⟨.query, none, [], [], r.1⟩, r.2)

/-- A fragment, and the rest of the text. -/
def fragment (cs : List Char) : Option (Fragment × List Char) := do
  let (n, rest) ← name (← word "fragment" cs)
  let (type, rest) ← condition rest
  let (ds, rest) := directives false rest
  let (items, rest) ← topSet rest
  some (⟨n, type, ds, items⟩, rest)

/-- An operation or a fragment, and the rest of the text. -/
def definition (cs : List Char) : Option ((Operation ⊕ Fragment) × List Char) :=
  ((operation cs).map fun r => (.inl r.1, r.2)) <|> ((fragment cs).map fun r => (.inr r.1, r.2))

end TableGraph.Query.Reading

namespace TableGraph.Query

/-- The document of a text. -/
def Document.ofText? (s : String) : Option Document :=
  match Lexical.several Reading.definition s.toList with
  | some (definitions, rest) =>
    let d : Document := ⟨definitions.filterMap (·.getLeft?), definitions.filterMap (·.getRight?)⟩
    if Lexical.skip rest = [] ∧ d.isProper then some d else none
  | none => none

end TableGraph.Query
