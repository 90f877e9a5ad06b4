import TableGraph.Query.Value

/-!
# The rules for queries

A document is accepted as a whole, all of its operations and fragments together: fields, arguments,
types, fragments, directives and variables exist and fit, nothing declared is left unused, and the
fields of a selection set that are answered under one name are the same field with the same
arguments. The name of an object's type can be asked for anywhere and is not looked at.
-/

namespace TableGraph.Query

/-- The field that every object has: the name of its type. -/
def typeNameField : String := "__typename"

/-- How deep selection sets may be nested below that of an operation. -/
def deepestNesting : Nat := 32

/-- The arguments of a directive. -/
def directiveArgs? (name : String) : Option (List (String × TypeRef)) :=
  if name = "skip" ∨ name = "include" then some [("if", .nonNull (.named "Boolean"))] else none

namespace Rules

/-- What the rules are applied with. -/
structure Setting where
  /-- The types. -/
  types : TypeSystem
  /-- The document. -/
  document : Document
  /-- The values given to variables. -/
  given : Members Value

/-- Whether an argument fits, as far as its variables have values. -/
def argumentFits (s : Setting) (type : TypeRef) (v : Value) : Bool :=
  match v.fill? (Members.get? s.given) with
  | some v => v.fits s.types type
  | none => true

/-- Whether arguments are declared, are given once and fit, and none that must be given is missing. -/
def argumentsFit (s : Setting) (declared : List (String × TypeRef)) (args : List (String × Value)) :
    Bool :=
  decide ((args.map (·.1)).Nodup)
    && (args.all fun a => match Members.get? declared a.1 with
      | some type => argumentFits s type a.2
      | none => false)
    && declared.all fun d => !Value.isRequired d.2 || args.any fun a => a.1 = d.1

/-- Whether directives exist, stand once and have arguments that fit. -/
def directivesFit (s : Setting) (ds : List Directive) : Bool :=
  decide ((ds.map (·.name)).Nodup)
    && ds.all fun d => match directiveArgs? d.name with
      | some declared => argumentsFit s declared d.args
      | none => false

/-- The fields that come together in one selection set, fragments spread out, each with the type of
the fragment it stands in. The number bounds the depth of fragments. -/
def answered (d : Document) : Nat → Option String → List Item → List (Option String × FieldHead)
  | 0, _, _ => []
  | depth + 1, condition, items => items.flatMap fun item => match item with
    | .field head _ => [(condition, head)]
    | .inline inner _ below => answered d depth inner below
    | .spread name _ => match d.fragment? name with
      | some f => answered d depth (some f.condition) f.items
      | none => []

/-- Whether two fields are the same field with the same arguments. -/
def sameField (a b : FieldHead) : Bool :=
  a.name = b.name && a.args.length = b.args.length
    && a.args.all fun x => match Members.get? b.args x.1 with
      | some v => x.2.same v
      | none => false

/-- Whether every field is the same as the first one that is answered under its name. -/
def agree (fields : List (Option String × FieldHead)) : Bool :=
  fields.all fun f =>
    match fields.find? fun e => e.1 = f.1 && e.2.responseKey = f.2.responseKey with
    | some e => sameField e.2 f.2
    | none => true

/-- Whether the fields of a selection set agree. -/
def setAgrees (s : Setting) (items : List Item) : Bool :=
  agree (answered s.document (deepestNesting + 1) none items)

/-- The object that is selected from, if a type is one. -/
def isObject (ts : TypeSystem) (name : String) : Bool := (ts.fields? name).isSome

mutual

/-- Whether an item fits an object type. -/
def itemFits (s : Setting) (type : String) : Item → Bool
  | .field head below =>
    head.name = typeNameField || match s.types.field? type head.name with
      | none => false
      | some f =>
        argumentsFit s f.args head.args && directivesFit s head.directives
          && if isObject s.types f.type.core then
              !below.isEmpty && setAgrees s below && itemsFit s f.type.core below
            else below.isEmpty
  | .spread name ds =>
    directivesFit s ds && match s.document.fragment? name with
      | some f => f.condition = type
      | none => false
  | .inline condition ds below =>
    condition.getD type = type && directivesFit s ds && setAgrees s below && itemsFit s type below

/-- Whether items fit an object type. -/
def itemsFit (s : Setting) (type : String) : List Item → Bool
  | [] => true
  | item :: rest => itemFits s type item && itemsFit s type rest

end

/-- Whether a selection set fits an object type. -/
def setFits (s : Setting) (type : String) (items : List Item) : Bool :=
  isObject s.types type && setAgrees s items && itemsFit s type items

/-- The arguments of directives with their types. -/
def directiveValues (ds : List Directive) : List (TypeRef × Value) :=
  ds.flatMap fun d => d.args.filterMap fun a =>
    ((directiveArgs? d.name).bind fun declared => Members.get? declared a.1).map fun type => (type, a.2)

/-- The arguments within reach of a selection set, fragments spread out, with their types. The number
bounds the depth of nesting. -/
def reachedValues (s : Setting) : Nat → String → List Item → List (TypeRef × Value)
  | 0, _, _ => []
  | depth + 1, type, items => items.flatMap fun item => match item with
    | .field head below => match s.types.field? type head.name with
      | some f =>
        (head.args.filterMap fun a => (Members.get? f.args a.1).map fun type => (type, a.2))
          ++ directiveValues head.directives ++ reachedValues s depth f.type.core below
      | none => []
    | .inline _ ds below => directiveValues ds ++ reachedValues s depth type below
    | .spread name ds => directiveValues ds ++ match s.document.fragment? name with
      | some f => reachedValues s depth type f.items
      | none => []

/-- The fragments within reach of a selection set. The number bounds the depth of nesting. -/
def reachedFragments (d : Document) : Nat → List Item → List String
  | 0, _ => []
  | depth + 1, items => items.flatMap fun item => match item with
    | .field _ below => reachedFragments d depth below
    | .inline _ _ below => reachedFragments d depth below
    | .spread name _ => name :: match d.fragment? name with
      | some f => reachedFragments d depth f.items
      | none => []

/-- Whether a declared type can stand where a type is expected. -/
def canStandFor : TypeRef → TypeRef → Bool
  | .nonNull expected, .nonNull declared => canStandFor expected declared
  | .named expected, .nonNull declared => canStandFor (.named expected) declared
  | .named expected, .named declared => expected = declared
  | .list expected, .list declared => canStandFor expected declared
  | _, _ => false

/-- The type of a variable; one with a default is never `null`. -/
def effectiveType (v : VariableDef) : TypeRef :=
  if v.default.isSome && !Value.isRequired v.type then .nonNull v.type else v.type

/-- Whether a variable has a type that can be given, and a default that fits it. -/
def variableFits (s : Setting) (v : VariableDef) : Bool :=
  s.types.has TypeDef.isInput v.type.core
    && match v.default with
      | none => true
      | some d => !Value.isRequired v.type && d.fits s.types v.type

/-- Whether the variables of an operation fit, are declared once, and are all used, in places that
expect them, and no others are. -/
def variablesFit (s : Setting) (o : Operation) : Bool :=
  let reached := reachedValues s (deepestNesting + 1) TypeSystem.rootName o.items
  let used := reached.flatMap fun r => r.2.names
  let declared : List String := o.declared.map (·.name)
  (o.declared.all (variableFits s)) && decide declared.Nodup
    && (used.all fun name => declared.contains name)
    && (declared.all fun name => used.contains name)
    && (reached.flatMap fun r => r.2.places s.types r.1).all fun (name, expected) =>
      match o.declared.find? fun v => v.name = name with
      | some v => canStandFor expected (effectiveType v)
      | none => true

/-- Whether an operation reads and fits. -/
def operationFits (s : Setting) (o : Operation) : Bool :=
  o.kind = .query && o.directives.isEmpty && setFits s TypeSystem.rootName o.items && variablesFit s o

/-- Whether a fragment fits. -/
def fragmentFits (s : Setting) (f : Fragment) : Bool :=
  f.directives.isEmpty && setFits s f.condition f.items

/-- Whether a document is accepted. The nesting comes first, as the other rules follow fragments. -/
def accepts (s : Setting) : Bool :=
  let d := s.document
  (d.operations.all fun o => d.nestedWithin (deepestNesting + 1) o.items)
    && (d.operations.all (operationFits s)) && (d.fragments.all (fragmentFits s))
    && d.fragments.all fun f => d.operations.any fun o =>
      (reachedFragments d (deepestNesting + 1) o.items).contains f.name

end Rules

end TableGraph.Query
