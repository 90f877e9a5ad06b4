import TableGraph.Json.Printer
import TableGraph.Json.Parser

/-!
# Quoted texts are read back

A quoted text is read back as it was, up to its closing quote. Strings, integers and booleans are
the values that keys may have.
-/

namespace TableGraph.Json

/-- A hexadecimal digit is read back. -/
theorem hexValue_hexDigit {n : Nat} (h : n < 16) : hexValue (hexDigit n) = some n := by
  revert n
  decide

/-- A control character is read back from its escape with four digits. -/
theorem unicodeEscape_control {c : Char} (h : c.toNat < 32) (rest : List Char) :
    unicodeEscape ('0' :: '0' :: hexDigit (c.toNat / 16) :: hexDigit (c.toNat % 16) :: rest)
      = some (c, rest) := by
  have hz : hexValue '0' = some 0 := by decide
  have hq : hexValue (hexDigit (c.toNat / 16)) = some (c.toNat / 16) :=
    hexValue_hexDigit (by omega)
  have hr : hexValue (hexDigit (c.toNat % 16)) = some (c.toNat % 16) :=
    hexValue_hexDigit (by omega)
  have he : (0 * 16 + 0) * 256 + (c.toNat / 16 * 16 + c.toNat % 16) = c.toNat := by omega
  have hf : hexFour ('0' :: '0' :: hexDigit (c.toNat / 16) :: hexDigit (c.toNat % 16) :: rest)
      = some (c.toNat, rest) := by
    simp only [hexFour, hz, hq, hr, Option.bind_eq_bind, Option.bind_some, he]
  unfold unicodeEscape
  simp only [hf, Option.bind_eq_bind, Option.bind_some]
  rw [if_neg (by omega), if_neg (by omega), Char.ofNat_toNat]

/-- A character inside a quoted text is written as it is, with a backslash and a letter of its own, or,
when it is another control character, with its number. -/
theorem escape_cases (c : Char) :
    (c ≠ '"' ∧ c ≠ '\\' ∧ ¬c.toNat < 32 ∧ escape c = [c])
      ∨ (∃ e ∈ ['"', '\\', 'b', 'f', 'n', 'r', 't'], escape c = ['\\', e]
        ∧ ∀ rest, escaped (e :: rest) = some (c, rest))
      ∨ c.toNat < 32
        ∧ escape c = ['\\', 'u', '0', '0', hexDigit (c.toNat / 16), hexDigit (c.toNat % 16)] := by
  by_cases h1 : c = '"'
  · subst h1; exact .inr (.inl ⟨'"', by decide, rfl, fun _ => rfl⟩)
  by_cases h2 : c = '\\'
  · subst h2; exact .inr (.inl ⟨'\\', by decide, rfl, fun _ => rfl⟩)
  by_cases h3 : c = '\n'
  · subst h3; exact .inr (.inl ⟨'n', by decide, rfl, fun _ => rfl⟩)
  by_cases h4 : c = '\r'
  · subst h4; exact .inr (.inl ⟨'r', by decide, rfl, fun _ => rfl⟩)
  by_cases h5 : c = '\t'
  · subst h5; exact .inr (.inl ⟨'t', by decide, rfl, fun _ => rfl⟩)
  by_cases h6 : c = '\x08'
  · subst h6; exact .inr (.inl ⟨'b', by decide, rfl, fun _ => rfl⟩)
  by_cases h7 : c = '\x0c'
  · subst h7; exact .inr (.inl ⟨'f', by decide, rfl, fun _ => rfl⟩)
  by_cases h8 : c.toNat < 32
  · exact .inr (.inr ⟨h8, by simp [escape, h1, h2, h3, h4, h5, h6, h7, h8]⟩)
  · exact .inl ⟨h1, h2, h8, by simp [escape, h1, h2, h3, h4, h5, h6, h7, h8]⟩

/-- A character of a quoted text is read back. -/
@[simp]
theorem stringBody_escape (n : Nat) (c : Char) (rest : List Char) :
    stringBody (n + 1) (escape c ++ rest)
      = (stringBody n rest).bind fun r => some (c :: r.1, r.2) := by
  rcases escape_cases c with ⟨hquote, hback, hcontrol, he⟩ | ⟨e, _, he, hread⟩ | ⟨hcontrol, he⟩
  · simp [he, stringBody, hquote, hback, hcontrol]
  · simp [he, stringBody, hread]
  · simp [he, stringBody, escaped, unicodeEscape_control hcontrol]

/-- The characters of a quoted text are read back up to the closing quote. -/
theorem stringBody_escapes {n : Nat} {cs : List Char} (h : cs.length < n) (rest : List Char) :
    stringBody n (cs.flatMap escape ++ '"' :: rest) = some (cs, rest) := by
  induction cs generalizing n with
  | nil =>
    obtain ⟨m, rfl⟩ : ∃ m, n = m + 1 := ⟨n - 1, by simp only [List.length_nil] at h; omega⟩
    simp [stringBody]
  | cons c cs ih =>
    obtain ⟨m, rfl⟩ : ∃ m, n = m + 1 := ⟨n - 1, by simp only [List.length_cons] at h; omega⟩
    have hm : cs.length < m := by simp only [List.length_cons] at h; omega
    rw [List.flatMap_cons, List.append_assoc, stringBody_escape, ih hm]
    rfl

/-- The values that a primary key may have: strings, integers and booleans. -/
def IsKey : Json → Prop
  | .str _ => True
  | .num (.int _) => True
  | .bool _ => True
  | _ => False

/-- A key is not `null`. -/
theorem IsKey.isNull_eq_false {j : Json} (h : j.IsKey) : j.isNull = false := by
  cases j <;> first | rfl | exact h.elim

end TableGraph.Json
