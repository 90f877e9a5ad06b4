import Mathlib.Algebra.Group.Nat.Defs
import TableGraph.Page.Cursor
import TableGraph.Proofs.Decimal.Reading
import TableGraph.Proofs.Text.Base64

/-!
# Cursors name their places

The cursor of a place names the place again, as long as the place fits 64 bits. A text names a place
exactly if each of the layers that a cursor is made of can be taken off it: the Base64 text, the
lead and the number.
-/

namespace TableGraph

/-- A natural number below half the range of 64 bits fits with a sign. -/
theorem Json.fitsInt64_natCast {n : Nat} (h : n < 2 ^ 63) : fitsInt64 (n : Int) = true := by
  have hbound : Decimal.twoTo 63 = 2 ^ 63 := rfl
  rw [fitsInt64, hbound, Bool.and_eq_true, decide_eq_true_iff, decide_eq_true_iff]
  omega

/-- Integers of 64 bits are recognized. -/
theorem Json.fitsInt64_iff (i : Int) : fitsInt64 i = true ↔ -2 ^ 63 ≤ i ∧ i < 2 ^ 63 := by
  have hbound : Decimal.twoTo 63 = 2 ^ 63 := rfl
  rw [fitsInt64, hbound, Bool.and_eq_true, decide_eq_true_iff, decide_eq_true_iff]
  omega

namespace Page

/-- The place a cursor was made of is named by it. -/
theorem offset?_cursor {n : Nat} (h : n < 2 ^ 63) : offset? (cursor n) = some (n : Int) := by
  have hbytes : Text.Base64.decode Text.Base64.standard (cursor n).toList
      = some (Text.utf8 (cursorLead ++ String.ofList (Decimal.digits n))) := by
    rw [cursor, String.toList_ofList, Text.Base64.decode_encode Text.Base64.sound_standard]
  rw [offset?, hbytes, Option.bind_eq_bind, Option.bind_some, Text.ofUtf8?_utf8,
    Option.bind_eq_bind, Option.bind_some, Text.after?_append, Option.bind_eq_bind,
    Option.bind_some, String.toList_ofList, Decimal.integer?_digits, Option.bind_some,
    if_pos (Json.fitsInt64_natCast h)]

/-- Different places have different cursors. -/
theorem cursor_injective : Function.Injective cursor := by
  intro m n h
  unfold cursor at h
  have hbytes := congrArg (Text.Base64.decode Text.Base64.standard) (String.ofList_injective h)
  rw [Text.Base64.decode_encode Text.Base64.sound_standard,
    Text.Base64.decode_encode Text.Base64.sound_standard] at hbytes
  have htext := congrArg String.toList (Text.utf8_injective (Option.some.inj hbytes))
  rw [String.toList_append, String.toList_append] at htext
  have hdigits := List.append_cancel_left htext
  rw [String.toList_ofList, String.toList_ofList] at hdigits
  exact Decimal.digits_injective hdigits

/-- A text that names a place: the Base64 text of the lead and of a decimal text behind it, which
stands for an integer of 64 bits. -/
def Names (text : String) (i : Int) : Prop :=
  ∃ number : List Char, Decimal.IsInteger number i ∧ -2 ^ 63 ≤ i ∧ i < 2 ^ 63 ∧
    Text.Base64.IsText (Text.utf8 ("arrayconnection:" ++ String.ofList number)) text.toList

/-- Exactly the texts that name places are read as them. -/
theorem offset?_eq_some_iff (text : String) (i : Int) : offset? text = some i ↔ Names text i := by
  unfold offset? Names
  simp only [Option.bind_eq_bind, Option.bind_eq_some_iff, Text.Base64.decode_standard_eq_some_iff,
    Text.ofUtf8?_eq_some_iff, Text.after?_eq_some_iff, Decimal.integer?_eq_some_iff]
  constructor
  · rintro ⟨bytes, htext, plain, rfl, number, rfl, j, hnumber, hj⟩
    split_ifs at hj with hfits
    obtain rfl := Option.some.inj hj
    obtain ⟨hlow, hhigh⟩ := (Json.fitsInt64_iff j).mp hfits
    refine ⟨number.toList, hnumber, hlow, hhigh, ?_⟩
    rwa [String.ofList_toList]
  · rintro ⟨number, hnumber, hlow, hhigh, htext⟩
    refine ⟨_, htext, _, rfl, String.ofList number, rfl, i, ?_, ?_⟩
    · rwa [String.toList_ofList]
    · rw [if_pos ((Json.fitsInt64_iff i).mpr ⟨hlow, hhigh⟩)]

/-- Cursors name their places, no two places have the same cursor, and of all texts exactly those name
a place that are made of the lead and an integer of 64 bits. -/
theorem cursors_name_places :
    (∀ n < 2 ^ 63, offset? (cursor n) = some (n : Int)) ∧ Function.Injective cursor ∧
      ∀ text i, offset? text = some i ↔ Names text i :=
  ⟨fun _ h => offset?_cursor h, cursor_injective, offset?_eq_some_iff⟩

/-- The last place is named by its cursor, and a sign and a zero in front of a number are read. -/
theorem cursors_name_places_ends :
    9223372036854775807 < 2 ^ 63 ∧
      offset? (cursor 9223372036854775807) = some 9223372036854775807 ∧
      Names "YXJyYXljb25uZWN0aW9uOi0wNw==" (-7) ∧
      offset? "YXJyYXljb25uZWN0aW9uOi0wNw==" = some (-7) := by
  have hnumber : Decimal.IsInteger ['-', '0', '7'] (-7) := .minus
    ⟨by decide, List.forall_mem_cons.mpr ⟨by decide, List.forall_mem_singleton.mpr (by decide)⟩⟩
  have hnames : Names "YXJyYXljb25uZWN0aW9uOi0wNw==" (-7) := by
    refine ⟨['-', '0', '7'], hnumber, by decide, by decide,
      [24, 23, 9, 50, 24, 23, 37, 35, 27, 54, 57, 46, 25, 22, 13, 52, 26, 22, 61, 46, 14, 34, 52, 48,
        13, 48], 2, ?_⟩
    exact ⟨by decide, by decide, by decide, by decide, by decide⟩
  have hread := (cursors_name_places.2.2 "YXJyYXljb25uZWN0aW9uOi0wNw==" (-7)).mpr hnames
  exact ⟨by decide, cursors_name_places.1 9223372036854775807 (by decide), hnames, hread⟩

end Page

end TableGraph
