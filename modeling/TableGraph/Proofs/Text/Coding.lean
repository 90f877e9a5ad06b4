import Mathlib.Data.List.TakeWhile
import TableGraph.Text.Base64
import TableGraph.Text.Blank
import TableGraph.Text.Joined
import TableGraph.Text.Utf8

/-!
# What is written is read back

The UTF-8 bytes of a text give the text again, and so do the Base64 characters of bytes. Looked at one
by one the bytes of ASCII characters are these characters, and all other bytes are none of them. What
follows a lead and what stands between blanks is found again.
-/

namespace TableGraph.Text

/-- The bytes of a text are read back. -/
@[simp]
theorem ofUtf8?_utf8 (s : String) : ofUtf8? (utf8 s) = some s := by
  have hbytes : (⟨(utf8 s).toArray⟩ : ByteArray) = s.toByteArray := by
    simp only [utf8, String.toUTF8, Array.toArray_toList]
  rw [ofUtf8?, hbytes, String.fromUTF8?, dif_pos s.isValidUTF8]
  rfl

/-- Exactly the bytes of a text are read as it. -/
theorem ofUtf8?_eq_some_iff {bytes : List UInt8} {s : String} :
    ofUtf8? bytes = some s ↔ bytes = utf8 s := by
  constructor
  · intro h
    unfold ofUtf8? String.fromUTF8? at h
    split_ifs at h with hvalid
    rw [← Option.some.inj h]
    rfl
  · rintro rfl
    exact ofUtf8?_utf8 s

/-- Different texts have different bytes. -/
theorem utf8_injective {s t : String} (h : utf8 s = utf8 t) : s = t := by
  simpa using congrArg ofUtf8? h

/-- The bytes of a text as it is written. -/
def bytes (cs : List Char) : List UInt8 := cs.flatMap String.utf8EncodeChar

/-- The bytes of a text are those of its UTF-8 form. -/
theorem utf8_eq_bytes (s : String) : utf8 s = bytes s.toList := by
  rw [utf8, String.toUTF8, ← String.utf8Encode_toList, List.utf8Encode,
    List.toList_data_toByteArray]
  rfl

/-- The bytes of a text are those of its parts. -/
@[simp]
theorem bytes_append (xs ys : List Char) : bytes (xs ++ ys) = bytes xs ++ bytes ys :=
  List.flatMap_append

/-- The bytes of the first character come first. -/
@[simp]
theorem bytes_cons (c : Char) (cs : List Char) :
    bytes (c :: cs) = String.utf8EncodeChar c ++ bytes cs := rfl

/-- The bytes of a text, each as a character. -/
def units (cs : List Char) : List Char := byteChars (bytes cs)

/-- A text without characters has no bytes. -/
@[simp]
theorem units_nil : units [] = [] := rfl

/-- The bytes of a text are those of its parts, also as characters. -/
@[simp]
theorem units_append (xs ys : List Char) : units (xs ++ ys) = units xs ++ units ys := by
  simp [units, byteChars]

/-- An ASCII character is its only byte. -/
@[simp]
theorem units_cons_of_lt {c : Char} (h : c.toNat < 128) (cs : List Char) :
    units (c :: cs) = c :: units cs := by
  have hc : c.utf8Size = 1 := by
    rw [Char.utf8Size_eq_one_iff, UInt32.le_iff_toNat_le]
    exact Nat.le_of_lt_succ h
  have hbyte : Char.ofUInt8 c.toUInt8 = c := by
    have hlt : c.val.toNat < 256 := Nat.lt_trans h (by decide)
    have hvalue : c.val.toUInt8.toNat = c.val.toNat := Nat.mod_eq_of_lt hlt
    exact Char.ext (UInt32.toNat_inj.mp hvalue)
  simp [units, byteChars, String.utf8EncodeChar_eq_singleton hc, hbyte]

/-- ASCII text is what its bytes are. -/
theorem units_eq_self {cs : List Char} (h : ∀ c ∈ cs, c.toNat < 128) : units cs = cs := by
  induction cs with
  | nil => rfl
  | cons c cs ih =>
    rw [List.forall_mem_cons] at h
    simp [h.1, ih h.2]

/-- The bytes of any other character are no ASCII characters. -/
theorem le_of_mem_units {c d : Char} (hc : 128 ≤ c.toNat) (hd : d ∈ units [c]) :
    128 ≤ d.toNat := by
  obtain ⟨b, hb, rfl⟩ := List.mem_map.mp hd
  have hbytes : bytes [c] = String.utf8EncodeChar c := List.append_nil _
  have hc' : ¬c.val.toNat ≤ 127 := Nat.not_le.mpr hc
  have hnat : (Char.ofUInt8 b).toNat = b.toNat := rfl
  rw [hbytes, String.utf8EncodeChar, if_neg hc'] at hb
  rw [hnat]
  split_ifs at hb with h2 h3
  all_goals
    simp only [List.mem_cons, List.not_mem_nil, or_false] at hb
    rcases hb with rfl | rfl | rfl | rfl <;> rw [UInt8.toNat_ofNat'] <;> omega

/-- A text is read from its bytes, also as characters. -/
@[simp]
theorem ofByteChars?_units (cs : List Char) : ofByteChars? (units cs) = some (String.ofList cs) := by
  have hbyte : ∀ b : UInt8, (Char.ofUInt8 b).toUInt8 = b := UInt8.toUInt8_toUInt32
  have hbytes : (units cs).map Char.toUInt8 = utf8 (String.ofList cs) := by
    simp [units, byteChars, Function.comp_def, hbyte, utf8_eq_bytes]
  simp [ofByteChars?, hbytes]

/-- What follows a lead is found. -/
@[simp]
theorem after?_append (lead s : String) : after? lead (lead ++ s) = some s := by
  rw [after?, String.toList_append, if_pos (List.isPrefixOf_iff_prefix.mpr (List.prefix_append _ _)),
    List.drop_left, String.ofList_toList]

/-- Exactly a text that starts with a lead goes on behind it. -/
theorem after?_eq_some_iff {lead s rest : String} : after? lead s = some rest ↔ s = lead ++ rest := by
  constructor
  · intro h
    unfold after? at h
    split_ifs at h with hlead
    obtain ⟨cs, hcs⟩ := List.isPrefixOf_iff_prefix.mp hlead
    rw [← hcs, List.drop_left] at h
    rw [← String.toList_inj, ← hcs, ← Option.some.inj h, String.toList_append, String.toList_ofList]
  · rintro rfl
    exact after?_append lead rest

/-- Blanks around characters that are none are trimmed. -/
theorem trimChars_between {before cs after : List Char} (hbefore : ∀ c ∈ before, isBlank c = true)
    (hcs : ∀ c ∈ cs, isBlank c = false) (hafter : ∀ c ∈ after, isBlank c = true) :
    trimChars (before ++ cs ++ after) = cs := by
  have hnone : ∀ {ds : List Char}, (∀ c ∈ ds, isBlank c = false) → ds.dropWhile isBlank = ds := by
    intro ds hds
    cases ds with
    | nil => rfl
    | cons d ds => rw [List.dropWhile_cons_of_neg (by simp [hds d List.mem_cons_self])]
  unfold trimChars
  rw [List.append_assoc, List.dropWhile_append_of_pos hbefore]
  cases cs with
  | nil =>
    rw [List.nil_append, List.dropWhile_eq_nil_iff.mpr hafter]
    rfl
  | cons c cs =>
    have hfront : (c :: cs ++ after).dropWhile isBlank = c :: cs ++ after := by
      rw [List.cons_append, List.dropWhile_cons_of_neg (by simp [hcs c List.mem_cons_self])]
    have hback : ∀ d ∈ after.reverse, isBlank d = true := fun d hd =>
      hafter d (List.mem_reverse.mp hd)
    rw [hfront, List.reverse_append, List.dropWhile_append_of_pos hback,
      hnone fun d hd => hcs d (List.mem_reverse.mp hd), List.reverse_reverse]

namespace Base64

/-- An alphabet whose characters are told apart, also from the filling. -/
structure Alphabet.Sound (a : Alphabet) : Prop where
  /-- The character for a number stands for it. -/
  value_digit : ∀ n < 64, a.value (a.digit n) = some n
  /-- The filling stands for no number. -/
  value_filling : a.value '=' = none

/-- The alphabet of cursors is sound. -/
theorem sound_standard : standard.Sound := ⟨by decide, by decide⟩

/-- The alphabet of the addresses of blobs is sound. -/
theorem sound_urlSafe : urlSafe.Sound := ⟨by decide, by decide⟩

/-- A character for a number is no filling. -/
theorem Alphabet.Sound.digit_ne_filling {a : Alphabet} (h : a.Sound) {n : Nat} (hn : n < 64) :
    a.digit n ≠ '=' := by
  intro he
  have hv := h.value_digit n hn
  rw [he, h.value_filling] at hv
  cases hv

section

variable {a : Alphabet} (h : a.Sound)

include h

/-- The byte of a last group of two characters is read back. -/
theorem lastOne_digits (x : UInt8) :
    lastOne a (a.digit (x.toNat * 16 / 64)) (a.digit (x.toNat * 16 % 64)) = some [x] := by
  have hx := x.toNat_lt
  have hjoin : x.toNat * 16 / 64 * 64 + x.toNat * 16 % 64 = x.toNat * 16 := by omega
  simp only [lastOne, h.value_digit _ (show x.toNat * 16 / 64 < 64 by omega),
    h.value_digit _ (show x.toNat * 16 % 64 < 64 by omega), Option.bind_eq_bind, Option.bind_some,
    hjoin]
  rw [if_pos (by omega), show x.toNat * 16 / 16 = x.toNat by omega, UInt8.ofNat_toNat]

/-- The bytes of a last group of three characters are read back. -/
theorem lastTwo_digits (x y : UInt8) {n : Nat} (hn : n = (x.toNat * 256 + y.toNat) * 4) :
    lastTwo a (a.digit (n / 4096)) (a.digit (n / 64 % 64)) (a.digit (n % 64)) = some [x, y] := by
  have hx := x.toNat_lt
  have hy := y.toNat_lt
  have hjoin : (n / 4096 * 64 + n / 64 % 64) * 64 + n % 64 = n := by omega
  simp only [lastTwo, h.value_digit _ (show n / 4096 < 64 by omega),
    h.value_digit _ (show n / 64 % 64 < 64 by omega),
    h.value_digit _ (show n % 64 < 64 by omega), Option.bind_eq_bind, Option.bind_some, hjoin]
  rw [if_pos (by omega), show n / 1024 = x.toNat by omega, show n / 4 % 256 = y.toNat by omega,
    UInt8.ofNat_toNat, UInt8.ofNat_toNat]

/-- The bytes of a full group are read back. -/
theorem three_digits (x y z : UInt8) {n : Nat}
    (hn : n = (x.toNat * 256 + y.toNat) * 256 + z.toNat) :
    three a (a.digit (n / 262144)) (a.digit (n / 4096 % 64)) (a.digit (n / 64 % 64))
      (a.digit (n % 64)) = some [x, y, z] := by
  have hx := x.toNat_lt
  have hy := y.toNat_lt
  have hz := z.toNat_lt
  have hjoin : ((n / 262144 * 64 + n / 4096 % 64) * 64 + n / 64 % 64) * 64 + n % 64 = n := by omega
  simp only [three, h.value_digit _ (show n / 262144 < 64 by omega),
    h.value_digit _ (show n / 4096 % 64 < 64 by omega),
    h.value_digit _ (show n / 64 % 64 < 64 by omega),
    h.value_digit _ (show n % 64 < 64 by omega), Option.bind_eq_bind, Option.bind_some, hjoin]
  rw [show n / 65536 = x.toNat by omega, show n / 256 % 256 = y.toNat by omega,
    show n % 256 = z.toNat by omega, UInt8.ofNat_toNat, UInt8.ofNat_toNat, UInt8.ofNat_toNat]

/-- Bytes are read back from their characters. -/
theorem decode_encode (bytes : List UInt8) : decode a (encode a bytes) = some bytes := by
  induction bytes using encode.induct with
  | case1 => rfl
  | case2 x =>
    cases hp : a.padded with
    | true => simp [encode, decode, Alphabet.filling, hp, lastOne_digits h x]
    | false => simp [encode, decode, Alphabet.filling, hp, lastOne_digits h x]
  | case3 x y =>
    have hthird : a.digit ((x.toNat * 256 + y.toNat) * 4 % 64) ≠ '=' :=
      h.digit_ne_filling (by omega)
    cases hp : a.padded with
    | true => simp [encode, decode, Alphabet.filling, hp, hthird, lastTwo_digits h x y rfl]
    | false => simp [encode, decode, Alphabet.filling, hp, lastTwo_digits h x y rfl]
  | case4 x y z rest ih =>
    have hlast : a.digit (((x.toNat * 256 + y.toNat) * 256 + z.toNat) % 64) ≠ '=' :=
      h.digit_ne_filling (by omega)
    simp [encode, decode, hlast, three_digits h x y z rfl, ih]

end

/-- Without filling there are only characters that stand for numbers. -/
theorem exists_digit_of_mem_encode {a : Alphabet} (hp : a.padded = false) {bytes : List UInt8}
    {c : Char} (h : c ∈ encode a bytes) : ∃ n < 64, c = a.digit n := by
  have hbyte : ∀ x : UInt8, x.toNat < 256 := fun x => x.toNat_lt
  induction bytes using encode.induct with
  | case1 => cases h
  | case2 x =>
    have hx := hbyte x
    simp only [encode, Alphabet.filling, hp, Bool.false_eq_true, if_false, List.mem_cons,
      List.not_mem_nil, or_false] at h
    rcases h with rfl | rfl
    · exact ⟨_, by omega, rfl⟩
    · exact ⟨_, by omega, rfl⟩
  | case3 x y =>
    have hx := hbyte x
    have hy := hbyte y
    simp only [encode, Alphabet.filling, hp, Bool.false_eq_true, if_false, List.mem_cons,
      List.not_mem_nil, or_false] at h
    rcases h with rfl | rfl | rfl
    · exact ⟨_, by omega, rfl⟩
    · exact ⟨_, by omega, rfl⟩
    · exact ⟨_, by omega, rfl⟩
  | case4 x y z rest ih =>
    have hx := hbyte x
    have hy := hbyte y
    have hz := hbyte z
    simp only [encode, List.mem_cons] at h
    rcases h with rfl | rfl | rfl | rfl | h
    · exact ⟨_, by omega, rfl⟩
    · exact ⟨_, by omega, rfl⟩
    · exact ⟨_, by omega, rfl⟩
    · exact ⟨_, by omega, rfl⟩
    · exact ih h

end Base64

end TableGraph.Text
