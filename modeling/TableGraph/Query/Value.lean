import TableGraph.Query.Document
import TableGraph.Graph.TypeSystem
import TableGraph.Time.Reading

/-!
# Values in queries

The variables of a value, the value with its variables filled in, and whether a value fits a type.
`null` fits wherever it is not ruled out, a single value stands for a list of one, and a name of an
enumeration may be written as a string. What is no object fits every input.
-/

namespace TableGraph.Query.Value

mutual

/-- A JSON value. -/
def ofJson : Json → Value
  | .null => .null
  | .bool b => .bool b
  | .num n => .num n
  | .str s => .str s
  | .arr xs => .list (ofJsons xs)
  | .obj ms => .obj (ofMembers ms)

/-- JSON values. -/
def ofJsons : List Json → List Value
  | [] => []
  | x :: xs => ofJson x :: ofJsons xs

/-- Members of a JSON object. -/
def ofMembers : List (String × Json) → List (String × Value)
  | [] => []
  | (k, v) :: ms => (k, ofJson v) :: ofMembers ms

end

mutual

/-- The value as JSON. A bare name becomes a string; a variable that is left becomes `null`. -/
def toJson : Value → Json
  | .variable _ => .null
  | .null => .null
  | .bool b => .bool b
  | .num n => .num n
  | .str s => .str s
  | .enum s => .str s
  | .list items => .arr (toJsons items)
  | .obj members => .obj (toMembers members)

/-- Values as JSON. -/
def toJsons : List Value → List Json
  | [] => []
  | v :: vs => toJson v :: toJsons vs

/-- Members as those of a JSON object. -/
def toMembers : List (String × Value) → List (String × Json)
  | [] => []
  | (k, v) :: ms => (k, toJson v) :: toMembers ms

end

mutual

/-- The names of the variables in a value. -/
def names : Value → List String
  | .variable name => [name]
  | .list items => namesInList items
  | .obj members => namesInMembers members
  | _ => []

/-- The names of the variables in values. -/
def namesInList : List Value → List String
  | [] => []
  | v :: vs => names v ++ namesInList vs

/-- The names of the variables in the values of members. -/
def namesInMembers : List (String × Value) → List String
  | [] => []
  | (_, v) :: ms => names v ++ namesInMembers ms

end

mutual

/-- The value with its variables filled in, if all of them have values. -/
def fill? (lookup : String → Option Value) : Value → Option Value
  | .variable name => lookup name
  | .list items => (fillList? lookup items).map .list
  | .obj members => (fillMembers? lookup members).map .obj
  | v => some v

/-- The values with their variables filled in. -/
def fillList? (lookup : String → Option Value) : List Value → Option (List Value)
  | [] => some []
  | v :: vs => do
    let v ← fill? lookup v
    let vs ← fillList? lookup vs
    some (v :: vs)

/-- The members with the variables of their values filled in. -/
def fillMembers? (lookup : String → Option Value) :
    List (String × Value) → Option (List (String × Value))
  | [] => some []
  | (k, v) :: ms => do
    let v ← fill? lookup v
    let ms ← fillMembers? lookup ms
    some ((k, v) :: ms)

end

/-- The type of the items of a list type. -/
def itemType? : TypeRef → Option TypeRef
  | .list item => some item
  | .nonNull (.list item) => some item
  | _ => none

/-- The name of a type that is no list. -/
def plainName? : TypeRef → Option String
  | .named name => some name
  | .nonNull (.named name) => some name
  | _ => none

/-- Whether a type rules out `null`. -/
def isRequired : TypeRef → Bool
  | .nonNull _ => true
  | _ => false

/-- The members an input type declares. -/
def inputMembers? (ts : TypeSystem) (name : String) : Option (List (String × TypeRef)) :=
  match ts.type? name with
  | some (.input t) => some (t.fields.map fun f => (f.name, f.type))
  | _ => none

/-- Whether a number is an integer that fits 64 bits with a sign. -/
def isInt64 : Value → Bool
  | .num (.int i) => Json.fitsInt64 i
  | _ => false

/-- Whether a value is a string. -/
def isString : Value → Bool
  | .str _ => true
  | _ => false

/-- Whether a value fits a scalar; the scalar without a type of its own is an identifier. -/
def fitsScalar (v : Value) : Option Scalar → Bool
  | none => v.isInt64 || v.isString
  | some .int => v.isInt64
  | some .float => match v with
    | .num _ => true
    | _ => false
  | some .boolean => match v with
    | .bool _ => true
    | _ => false
  | some .string => v.isString
  | some .url => v.isString
  | some .date => match v with
    | .str s => (Time.parse? s).isSome
    | _ => false

/-- Whether a value names a value of an enumeration. -/
def fitsEnum (v : Value) (t : EnumType) : Bool :=
  match v with
  | .enum name => t.values.any fun x => x.1 = name
  | .str name => t.values.any fun x => x.1 = name
  | _ => false

/-- Whether a value that is neither `null` nor an object fits a type that is no list. -/
def fitsPlain (ts : TypeSystem) (name : String) (v : Value) : Bool :=
  match ts.type? name with
  | some (.scalar s _) => v.fitsScalar s
  | some (.enum t) => v.fitsEnum t
  | some (.input _) => true
  | _ => true

mutual

/-- Whether a value without variables fits a type. -/
def fits (ts : TypeSystem) (type : TypeRef) : Value → Bool
  | .null => !isRequired type
  | .list items => match itemType? type with
    | some item => fitAll ts item items
    | none => fitsPlain ts type.core (.list items)
  | .obj members => match inputMembers? ts type.core with
    | some declared =>
      fitMembers ts declared members
        && declared.all fun d => !isRequired d.2 || members.any fun m => m.1 = d.1
    | none => fitsPlain ts type.core (.obj members)
  | v => fitsPlain ts type.core v

/-- Whether all values fit a type. -/
def fitAll (ts : TypeSystem) (type : TypeRef) : List Value → Bool
  | [] => true
  | v :: vs => fits ts type v && fitAll ts type vs

/-- Whether all members are declared and their values fit the declared types. -/
def fitMembers (ts : TypeSystem) (declared : List (String × TypeRef)) : List (String × Value) → Bool
  | [] => true
  | (k, v) :: ms =>
    (match Members.get? declared k with
      | some type => fits ts type v
      | none => false) && fitMembers ts declared ms

end

mutual

/-- The variables of a value with the types that are expected in their places, where these are
known. -/
def places (ts : TypeSystem) (type : TypeRef) : Value → List (String × TypeRef)
  | .variable name => [(name, type)]
  | .list items => match itemType? type with
    | some item => listPlaces ts item items
    | none => []
  | .obj members => match (plainName? type).bind (inputMembers? ts) with
    | some declared => memberPlaces ts declared members
    | none => []
  | _ => []

/-- The variables of values with the type that is expected. -/
def listPlaces (ts : TypeSystem) (type : TypeRef) : List Value → List (String × TypeRef)
  | [] => []
  | v :: vs => places ts type v ++ listPlaces ts type vs

/-- The variables of members with the types that are expected. -/
def memberPlaces (ts : TypeSystem) (declared : List (String × TypeRef)) :
    List (String × Value) → List (String × TypeRef)
  | [] => []
  | (k, v) :: ms =>
    (match Members.get? declared k with
      | some type => places ts type v
      | none => []) ++ memberPlaces ts declared ms

end

/-- Whether two numbers are equal: integers as integers, others as numbers. -/
def sameNumber : Number → Number → Bool
  | .int i, .int j => i = j
  | .float a, .float b => a.toFloat == b.toFloat
  | _, _ => false

mutual

/-- Whether two values are equal; the members of objects may come in any order. -/
def same : Value → Value → Bool
  | .variable a, .variable b => a = b
  | .null, .null => true
  | .bool a, .bool b => a = b
  | .num a, .num b => sameNumber a b
  | .str a, .str b => a = b
  | .enum a, .enum b => a = b
  | .list as, .list bs => sameList as bs
  | .obj as, .obj bs => as.length = bs.length && sameMembers as bs
  | _, _ => false

/-- Whether two lists hold equal values. -/
def sameList : List Value → List Value → Bool
  | [], [] => true
  | a :: as, b :: bs => same a b && sameList as bs
  | _, _ => false

/-- Whether each of the members has an equal one among others. -/
def sameMembers : List (String × Value) → List (String × Value) → Bool
  | [], _ => true
  | (k, a) :: as, bs =>
    (match Members.get? bs k with
      | some b => same a b
      | none => false) && sameMembers as bs

end

end TableGraph.Query.Value
