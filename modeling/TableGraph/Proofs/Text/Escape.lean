import Mathlib.Data.List.Infix
import TableGraph.Proofs.Text.Coding

/-!
# Escapes in addresses

In an address a percent sign with two hexadecimal digits behind it stands for one byte. So a text is
never longer than it is written, and it is as long only if it is written without escapes.
-/

namespace TableGraph.Text

/-- The value of a hexadecimal digit. -/
def hexValue? (c : Char) : Option Nat :=
  if '0' ≤ c ∧ c ≤ '9' then some (c.toNat - 48)
  else if 'A' ≤ c ∧ c ≤ 'F' then some (c.toNat - 55)
  else if 'a' ≤ c ∧ c ≤ 'f' then some (c.toNat - 87)
  else none

/-- The bytes of a text in which a percent sign with two hexadecimal digits stands for a byte. -/
def unescape : List Char → List UInt8
  | [] => []
  | c :: cs =>
    match c, cs with
    | '%', h :: l :: rest =>
      match hexValue? h, hexValue? l with
      | some m, some n => UInt8.ofNat (16 * m + n) :: unescape rest
      | _, _ => String.utf8EncodeChar '%' ++ unescape (h :: l :: rest)
    | c, cs => String.utf8EncodeChar c ++ unescape cs

/-- The text behind the escapes, if they give one. -/
def decoded? (cs : List Char) : Option String := ofUtf8? (unescape cs)

/-- An escape stands for a byte. -/
theorem unescape_escape {u l : Char} {m n : Nat} (hu : hexValue? u = some m)
    (hl : hexValue? l = some n) (rest : List Char) :
    unescape ('%' :: u :: l :: rest) = UInt8.ofNat (16 * m + n) :: unescape rest := by
  rw [unescape, hu, hl]

/-- A percent sign without hexadecimal digits stands for itself. -/
theorem unescape_percent {u l : Char}
    (h : ∀ m n, hexValue? u = some m → hexValue? l = some n → False) (rest : List Char) :
    unescape ('%' :: u :: l :: rest)
      = String.utf8EncodeChar '%' ++ unescape (u :: l :: rest) := by
  rw [unescape]
  split
  next m n hu hl => exact absurd hl (h m n hu)
  next => rfl

/-- Any other character stands for itself. -/
theorem unescape_cons {c : Char} {cs : List Char}
    (h : ∀ u l rest, c = '%' → cs = u :: l :: rest → False) :
    unescape (c :: cs) = String.utf8EncodeChar c ++ unescape cs := by
  rw [unescape]
  exact h

/-- A character has a byte. -/
theorem length_utf8EncodeChar_pos (c : Char) : 0 < (String.utf8EncodeChar c).length := by
  rw [String.length_utf8EncodeChar]
  exact c.utf8Size_pos

/-- A text without escapes: no percent sign has two hexadecimal digits behind it. -/
def IsLiteral (cs : List Char) : Prop :=
  ∀ u l m n, hexValue? u = some m → hexValue? l = some n → ¬['%', u, l] <:+: cs

/-- A text without escapes goes on without escapes. -/
theorem IsLiteral.tail {c : Char} {cs : List Char} (h : IsLiteral (c :: cs)) : IsLiteral cs :=
  fun u l m n hu hl hin => h u l m n hu hl (hin.trans (List.suffix_cons c cs).isInfix)

/-- A text begins without an escape if its first character is no percent sign with two hexadecimal
digits behind it. -/
theorem IsLiteral.cons {c : Char} {cs : List Char} (h : IsLiteral cs)
    (hc : ∀ u l rest m n, hexValue? u = some m → hexValue? l = some n →
      c :: cs ≠ '%' :: u :: l :: rest) : IsLiteral (c :: cs) := by
  intro u l m n hu hl hin
  rcases List.infix_cons_iff.mp hin with hfirst | hrest
  · obtain ⟨rest, hrest⟩ := hfirst
    exact hc u l rest m n hu hl hrest.symm
  · exact h u l m n hu hl hrest

/-- In a text without escapes everything stands for itself. -/
theorem IsLiteral.unescape_eq {cs : List Char} (h : IsLiteral cs) : unescape cs = bytes cs := by
  induction cs using unescape.induct with
  | case1 => rfl
  | case2 u l rest m n hl hu ih =>
    exact absurd (List.prefix_append ['%', u, l] rest).isInfix (h u l m n hu hl)
  | case3 u l rest hnot ih => rw [unescape_percent hnot, ih h.tail, bytes_cons '%']
  | case4 c cs hnot ih => rw [unescape_cons hnot, ih h.tail, bytes_cons c]

/-- Escapes make a text shorter, and without them it is as long as it is written. -/
theorem length_unescape (cs : List Char) :
    (unescape cs).length ≤ (bytes cs).length ∧
      ((unescape cs).length = (bytes cs).length → IsLiteral cs) := by
  induction cs using unescape.induct with
  | case1 =>
    exact ⟨Nat.le_refl 0, fun _ u l m n _ _ hin => absurd (List.eq_nil_of_infix_nil hin) (by simp)⟩
  | case2 u l rest m n hl hu ih =>
    have hpercent := length_utf8EncodeChar_pos '%'
    have hu' := length_utf8EncodeChar_pos u
    have hl' := length_utf8EncodeChar_pos l
    simp only [unescape_escape hu hl, bytes_cons, List.length_cons, List.length_append]
    exact ⟨by omega, fun he => by omega⟩
  | case3 u l rest hnot ih =>
    rw [unescape_percent hnot, bytes_cons '%', List.length_append, List.length_append]
    refine ⟨by omega, fun he => (ih.2 (by omega)).cons ?_⟩
    rintro v k more m n hv hk hcons
    simp only [List.cons.injEq, true_and] at hcons
    obtain ⟨rfl, rfl, rfl⟩ := hcons
    exact hnot m n hv hk
  | case4 c cs hnot ih =>
    rw [unescape_cons hnot, bytes_cons c, List.length_append, List.length_append]
    refine ⟨by omega, fun he => (ih.2 (by omega)).cons ?_⟩
    rintro u l rest m n hu hl hcons
    exact hnot u l rest (List.cons.inj hcons).1 (List.cons.inj hcons).2

/-- A text without escapes stands for itself. -/
theorem IsLiteral.decoded?_eq {s : String} (h : IsLiteral s.toList) : decoded? s.toList = some s := by
  simp [decoded?, h.unescape_eq, ← utf8_eq_bytes]

/-- What a text stands for is not longer than the text. -/
theorem length_le_of_decoded? {cs : List Char} {s : String} (h : decoded? cs = some s) :
    (bytes s.toList).length ≤ (bytes cs).length := by
  rw [← utf8_eq_bytes, ← ofUtf8?_eq_some_iff.mp h]
  exact (length_unescape cs).1

/-- A text that stands for one as long as itself stands for itself and has no escapes. -/
theorem eq_of_decoded?_of_length {cs : List Char} {s : String} (h : decoded? cs = some s)
    (hlength : (bytes s.toList).length = (bytes cs).length) : cs = s.toList ∧ IsLiteral cs := by
  have hs := ofUtf8?_eq_some_iff.mp h
  rw [← utf8_eq_bytes, ← hs] at hlength
  have hliteral := (length_unescape cs).2 hlength
  refine ⟨?_, hliteral⟩
  have hofList : utf8 (String.ofList cs) = unescape cs := by
    rw [utf8_eq_bytes, String.toList_ofList, hliteral.unescape_eq]
  rw [← utf8_injective (hofList.trans hs), String.toList_ofList]

end TableGraph.Text
