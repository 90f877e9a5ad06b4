import TableGraph.Text.Base64
import TableGraph.Text.Utf8
import TableGraph.Text.Joined
import TableGraph.Decimal.Digits
import TableGraph.Json.Basic

/-!
# Cursors

The place of an item in a list as an opaque text: the Base64 form of a fixed lead and the number of
items in front of it. Any other text is a foreign cursor and names no place.
-/

namespace TableGraph.Page

/-- What stands in front of the number. -/
def cursorLead : String := "arrayconnection:"

/-- The cursor of a place. -/
def cursor (offset : Nat) : String :=
  String.ofList (Text.Base64.encode Text.Base64.standard
    (Text.utf8 (cursorLead ++ String.ofList (Decimal.digits offset))))

/-- The place a cursor names: a number with an optional sign that fits 64 bits. -/
def offset? (text : String) : Option Int := do
  let bytes ← Text.Base64.decode Text.Base64.standard text.toList
  let plain ← Text.ofUtf8? bytes
  let number ← Text.after? cursorLead plain
  let i ← Decimal.integer? number.toList
  if Json.fitsInt64 i then some i else none

end TableGraph.Page
