import TableGraph.Page.Cursor
import TableGraph.RequestError

/-!
# Connections

A list cut to a page. The `after` and `before` cursors cut the list first, then `first` keeps items
from the front and `last` items from the back. A cursor that names no item of the list cuts nothing.
The connection knows the length of the whole list and whether items were left out.
-/

namespace TableGraph.Page

/-- The arguments of a page. -/
structure Arguments where
  /-- The most items to keep from the front. -/
  first : Option Int := none
  /-- The cursor of the item in front of the page. -/
  after : Option String := none
  /-- The most items to keep from the back. -/
  last : Option Int := none
  /-- The cursor of the item behind the page. -/
  before : Option String := none
  deriving DecidableEq, Repr, Inhabited

/-- A count among the arguments of a field. -/
def countArgument (args : Members Json) (name : String) : Except RequestError (Option Int) :=
  match Members.get? args name with
  | none => .ok none
  | some .null => .ok none
  | some v => match v.asInt64? with
    | some i => .ok (some i)
    | none => .error (.page (.notAnInteger name))

/-- A cursor among the arguments of a field. -/
def cursorArgument (args : Members Json) (name : String) :
    Except RequestError (Option String) :=
  match Members.get? args name with
  | none => .ok none
  | some .null => .ok none
  | some (.str s) => .ok (some s)
  | some _ => .error (.page (.notACursor name))

/-- The page arguments among the arguments of a field. -/
def Arguments.ofArgs (args : Members Json) : Except RequestError Arguments := do
  let first ← countArgument args "first"
  let after ← cursorArgument args "after"
  let last ← countArgument args "last"
  let before ← cursorArgument args "before"
  return ⟨first, after, last, before⟩

/-- Items from `start` on and in front of `stop`. -/
structure Window where
  /-- The place of the first item. -/
  start : Int
  /-- The place behind the last item. -/
  stop : Int
  deriving DecidableEq, Repr

/-- The place the `after` cursor names; the place in front of the list when it is foreign. -/
def Arguments.afterOffset (a : Arguments) : Int := (a.after.bind offset?).getD (-1)

/-- The place the `before` cursor names; the end of the list when it is foreign. -/
def Arguments.beforeOffset (a : Arguments) (length : Nat) : Int :=
  (a.before.bind offset?).getD length

/-- Whether a place holds an item of a list. -/
def holds (length : Nat) (offset : Int) : Bool := 0 ≤ offset && offset < length

/-- The items between the cursors. -/
def Arguments.between (a : Arguments) (length : Nat) : Window :=
  let after := a.afterOffset
  let before := a.beforeOffset length
  ⟨if holds length after then after + 1 else 0, if holds length before then before else length⟩

/-- Keeps items from the front. -/
def Window.keepFirst (w : Window) : Option Int → Except RequestError Window
  | none => .ok w
  | some n =>
    if n < 0 then .error (.page (.negative "first"))
    else .ok { w with stop := min w.stop (w.start + n) }

/-- Keeps items from the back. -/
def Window.keepLast (w : Window) : Option Int → Except RequestError Window
  | none => .ok w
  | some n =>
    if n < 0 then .error (.page (.negative "last"))
    else .ok { w with start := max w.start (w.stop - n) }

/-- The items of the page. -/
def Arguments.window (a : Arguments) (length : Nat) : Except RequestError Window := do
  (← (a.between length).keepFirst a.first).keepLast a.last

/-- A page of a list. -/
structure Connection (α : Type) where
  /-- The length of the whole list. -/
  total : Nat
  /-- The items of the page with their places. -/
  edges : List (Nat × α)
  /-- Whether `last` left items out in front of the page. -/
  hasPrevious : Bool
  /-- Whether `first` left items out behind the page. -/
  hasNext : Bool
  deriving Repr

variable {α : Type}

/-- The items of a window with their places. -/
def Window.edges (w : Window) (items : List α) : List (Nat × α) :=
  if w.start < w.stop then
    ((items.zipIdx.drop w.start.toNat).take (w.stop - w.start).toNat).map fun (x, i) => (i, x)
  else []

/-- The page of a list. -/
def Connection.ofList (items : List α) (a : Arguments) : Except RequestError (Connection α) := do
  let length := items.length
  let w ← a.window length
  let lower := if a.after.isSome then a.afterOffset + 1 else 0
  let upper : Int := if a.before.isSome then a.beforeOffset length else length
  return {
    total := length
    edges := w.edges items
    hasPrevious := a.last.isSome && lower < w.start
    hasNext := a.first.isSome && w.stop < upper }

/-- The cursor of the first item of the page. -/
def Connection.startCursor (c : Connection α) : Option String := c.edges.head?.map fun e => cursor e.1

/-- The cursor of the last item of the page. -/
def Connection.endCursor (c : Connection α) : Option String :=
  c.edges.getLast?.map fun e => cursor e.1

/-- A connection of values as one value. -/
def Connection.toJson (c : Connection Json) : Json :=
  .obj [("total", .nat c.total),
    ("edges", .arr (c.edges.map fun (i, x) => .obj [("cursor", .str (cursor i)), ("node", x)])),
    ("pageInfo", .obj [("startCursor", .ofOption .str c.startCursor),
      ("endCursor", .ofOption .str c.endCursor), ("hasPreviousPage", .bool c.hasPrevious),
      ("hasNextPage", .bool c.hasNext)])]

/-- The page of a list of values, by the arguments of a field. -/
def connect (items : List Json) (args : Members Json) : Except RequestError Json := do
  return (← Connection.ofList items (← Arguments.ofArgs args)).toJson

/-- A value that came with its parent: the member under the response key, and the page of it when it
is a list. -/
def ofSource (source : Json) (key : String) (args : Members Json) : Except RequestError Json :=
  match source.member? key with
  | some (.arr items) => connect items args
  | some v => .ok v
  | none => .ok .null

end TableGraph.Page
