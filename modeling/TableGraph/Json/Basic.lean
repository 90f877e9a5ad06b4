import TableGraph.Decimal.Double

/-!
# JSON values

Values with integers kept apart from numbers that have a fraction or an exponent, and objects whose
members keep the order in which they were written. A member written twice keeps its first place and
its last value.
-/

namespace TableGraph

/-- A number: an integer, or a binary64 value when it is written with a fraction or an exponent or
does not fit 64 bits. -/
inductive Number where
  /-- A whole number. -/
  | int (value : Int)
  /-- A binary64 value. -/
  | float (value : Decimal.Double)
  deriving DecidableEq, Repr, Inhabited

/-- A JSON value. -/
inductive Json where
  /-- `null`. -/
  | null
  /-- `true` or `false`. -/
  | bool (value : Bool)
  /-- A number. -/
  | num (value : Number)
  /-- A string. -/
  | str (value : String)
  /-- An array. -/
  | arr (items : List Json)
  /-- An object with its members in order. -/
  | obj (members : List (String × Json))
  deriving Repr, Inhabited

/-- Names with values, in order. -/
abbrev Members (α : Type) := List (String × α)

namespace Members

variable {α : Type}

/-- The value under a name. -/
def get? (ms : Members α) (name : String) : Option α :=
  match ms with
  | [] => none
  | (k, v) :: rest => if k = name then some v else get? rest name

/-- The members with a value under a name: in the place the name already has, else at the end. -/
def insert (ms : Members α) (name : String) (value : α) : Members α :=
  match ms with
  | [] => [(name, value)]
  | (k, v) :: rest => if k = name then (k, value) :: rest else (k, v) :: insert rest name value

/-- Each name once, at its first place and with its last value. -/
def ofList (entries : List (String × α)) : Members α :=
  entries.foldl (fun ms e => insert ms e.1 e.2) []

/-- The names in order. -/
def names (ms : Members α) : List String := ms.map (·.1)

/-- The values in order. -/
def values (ms : Members α) : List α := ms.map (·.2)

end Members

namespace Json

/-- An integer. -/
def int (i : Int) : Json := .num (.int i)

/-- A natural number. -/
def nat (n : Nat) : Json := .num (.int n)

/-- A list of strings. -/
def strings (ss : List String) : Json := .arr (ss.map .str)

/-- A value if there is one, else `null`. -/
def ofOption {α : Type} (f : α → Json) : Option α → Json
  | some a => f a
  | none => .null

/-- Whether the value is `null`. -/
def isNull : Json → Bool
  | .null => true
  | _ => false

/-- The text of a string. -/
def asString? : Json → Option String
  | .str s => some s
  | _ => none

/-- The value of a boolean. -/
def asBool? : Json → Option Bool
  | .bool b => some b
  | _ => none

/-- The items of an array. -/
def asArray? : Json → Option (List Json)
  | .arr xs => some xs
  | _ => none

/-- The members of an object. -/
def asObject? : Json → Option (Members Json)
  | .obj ms => some ms
  | _ => none

/-- Whether an integer fits 64 bits with a sign. -/
def fitsInt64 (i : Int) : Bool := -(Decimal.twoTo 63 : Int) ≤ i && i < Decimal.twoTo 63

/-- The value of an integer that fits 64 bits with a sign. -/
def asInt64? : Json → Option Int
  | .num (.int i) => if fitsInt64 i then some i else none
  | _ => none

/-- The member of an object; nothing for other values. -/
def member? (name : String) : Json → Option Json
  | .obj ms => Members.get? ms name
  | _ => none

end Json

end TableGraph
