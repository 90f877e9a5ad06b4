import TableGraph.Yaml.Token
import TableGraph.Json.Basic

/-!
# Nodes of YAML

The scalars, sequences and mappings of a text with at most one document. A node that is left out is
the empty plain scalar, and a reference stands for the last node of its name in front of it.
-/

namespace TableGraph.Yaml

/-- A node. -/
inductive Node where
  /-- A scalar, and whether it is plain. -/
  | scalar (text : String) (plain : Bool)
  /-- A sequence. -/
  | sequence (items : List Node)
  /-- A mapping with its entries in order. -/
  | mapping (entries : List (Node × Node))
  deriving Repr, Inhabited

/-- The node that is left out. -/
def Node.missing : Node := .scalar "" true

/-- Tokens that are left, with the named nodes in front of them. -/
structure Rest where
  /-- The tokens. -/
  tokens : List Token
  /-- The named nodes. -/
  named : Members Node := []

namespace Node

/-- The rest behind a token. -/
def past (s : Rest) : Rest := { s with tokens := s.tokens.tail }

/-- Whether the next token is one of some, or there is none. -/
def before (s : Rest) (ts : List Token) : Bool := s.tokens.head?.all ts.contains

/-- The name and the tag in front of a node, whether there are any, and the rest. -/
def properties (s : Rest) : Option String × Bool × Rest :=
  match s.tokens with
  | .anchor a :: .tag :: rest => (some a, true, { s with tokens := rest })
  | .tag :: .anchor a :: rest => (some a, true, { s with tokens := rest })
  | .anchor a :: rest => (some a, true, { s with tokens := rest })
  | .tag :: rest => (none, true, { s with tokens := rest })
  | _ => (none, false, s)

/-- The rest with one more named node. -/
def rename (name : Option String) (r : Node × Rest) : Node × Rest :=
  match name with
  | some a => (r.1, { r.2 with named := Members.insert r.2.named a r.1 })
  | none => r

mutual

/-- A node, in block style or not, and the rest. A sequence that is not indented may stand where
`level` says so. The number bounds the steps. -/
def node (block level : Bool) : Nat → Rest → Option (Node × Rest)
  | 0, _ => none
  | n + 1, s =>
    match s.tokens with
    | .reference a :: rest => (Members.get? s.named a).map fun x => (x, { s with tokens := rest })
    | _ =>
      let (name, any, s) := properties s
      (rename name ·) <$> match s.tokens with
      | .scalar text plain :: rest => some (.scalar text plain, { s with tokens := rest })
      | .flowSequence :: rest =>
        (flowItems true n { s with tokens := rest }).map fun r => (.sequence r.1, r.2)
      | .flowMapping :: rest =>
        (flowEntries true n { s with tokens := rest }).map fun r => (.mapping r.1, r.2)
      | .blockEntry :: _ =>
        if level then (levelItems n s).map fun r => (.sequence r.1, r.2)
        else if any then some (.missing, s) else none
      | .blockSequence :: rest =>
        if block then (blockItems n { s with tokens := rest }).map fun r => (.sequence r.1, r.2)
        else if any then some (.missing, s) else none
      | .blockMapping :: rest =>
        if block then (blockEntries n { s with tokens := rest }).map fun r => (.mapping r.1, r.2)
        else if any then some (.missing, s) else none
      | _ => if any then some (.missing, s) else none

/-- A node unless one of some tokens follows, and the rest. -/
def nodeUnless (block level : Bool) (ts : List Token) : Nat → Rest → Option (Node × Rest)
  | 0, _ => none
  | n + 1, s => if before s ts then some (.missing, s) else node block level n s

/-- The items of an indented sequence, and the rest. -/
def blockItems : Nat → Rest → Option (List Node × Rest)
  | 0, _ => none
  | n + 1, s =>
    match s.tokens with
    | .blockEntry :: _ => do
      let (x, s) ← nodeUnless true false [.blockEntry, .blockEnd] n (past s)
      let (xs, s) ← blockItems n s
      some (x :: xs, s)
    | .blockEnd :: _ => some ([], past s)
    | _ => none

/-- The items of a sequence that is not indented, and the rest. -/
def levelItems : Nat → Rest → Option (List Node × Rest)
  | 0, _ => none
  | n + 1, s =>
    match s.tokens with
    | .blockEntry :: _ => do
      let (x, s) ← nodeUnless true false [.blockEntry, .key, .value, .blockEnd] n (past s)
      let (xs, s) ← levelItems n s
      some (x :: xs, s)
    | _ => some ([], s)

/-- The entries of an indented mapping, and the rest. -/
def blockEntries : Nat → Rest → Option (List (Node × Node) × Rest)
  | 0, _ => none
  | n + 1, s =>
    match s.tokens with
    | .key :: _ => do
      let (k, s) ← nodeUnless true true [.key, .value, .blockEnd] n (past s)
      let (v, s) ← match s.tokens with
        | .value :: _ => nodeUnless true true [.key, .value, .blockEnd] n (past s)
        | _ => some (.missing, s)
      let (es, s) ← blockEntries n s
      some ((k, v) :: es, s)
    | .blockEnd :: _ => some ([], past s)
    | _ => none

/-- The items of a sequence between brackets, and the rest. All but the first stand behind a comma,
and a single entry of a mapping may be one. -/
def flowItems (first : Bool) : Nat → Rest → Option (List Node × Rest)
  | 0, _ => none
  | n + 1, s =>
    if s.tokens.head? = some .flowSequenceEnd then some ([], past s)
    else if !first && s.tokens.head? ≠ some .flowEntry then none
    else
      let s := if first then s else past s
      match s.tokens with
      | .flowSequenceEnd :: _ => some ([], past s)
      | .key :: _ => do
        let (k, s) ← nodeUnless false false [.value, .flowEntry, .flowSequenceEnd] n (past s)
        let (v, s) ← match s.tokens with
          | .value :: _ => nodeUnless false false [.flowEntry, .flowSequenceEnd] n (past s)
          | _ => some (.missing, s)
        let (xs, s) ← flowItems false n s
        some (.mapping [(k, v)] :: xs, s)
      | _ => do
        let (x, s) ← node false false n s
        let (xs, s) ← flowItems false n s
        some (x :: xs, s)

/-- The entries of a mapping between braces, and the rest. All but the first stand behind a comma,
and a key may stand without a value. -/
def flowEntries (first : Bool) : Nat → Rest → Option (List (Node × Node) × Rest)
  | 0, _ => none
  | n + 1, s =>
    if s.tokens.head? = some .flowMappingEnd then some ([], past s)
    else if !first && s.tokens.head? ≠ some .flowEntry then none
    else
      let s := if first then s else past s
      match s.tokens with
      | .flowMappingEnd :: _ => some ([], past s)
      | .key :: _ => do
        let (k, s) ← nodeUnless false false [.value, .flowEntry, .flowMappingEnd] n (past s)
        let (v, s) ← match s.tokens with
          | .value :: _ => nodeUnless false false [.flowEntry, .flowMappingEnd] n (past s)
          | _ => some (.missing, s)
        let (es, s) ← flowEntries false n s
        some ((k, v) :: es, s)
      | _ => do
        let (k, s) ← node false false n s
        let (es, s) ← flowEntries false n s
        some ((k, .missing) :: es, s)

end

/-- The document of tokens, if there is one, and what is left of them. -/
def document? (ts : List Token) : Option (Option Node × List Token) :=
  let content := fun (ts : List Token) =>
    (node true false (4 * ts.length + 4) { tokens := ts }).map fun r => (some r.1, r.2.tokens)
  match ts.dropWhile (· = .directive) with
  | .documentStart :: rest =>
    if rest.head?.all [Token.directive, .documentStart, .documentEnd].contains then
      some (some .missing, rest)
    else content rest
  | [] => if ts = [] then some (none, []) else none
  | _ => if ts.head? = some .directive then none else content ts

/-- The node of a text with at most one document; a text without one has none. -/
def ofText? (s : String) : Option (Option Node) := do
  let (node, rest) ← document? (← tokens? s)
  if rest.all (· = .documentEnd) then some node else none

end Node

end TableGraph.Yaml
