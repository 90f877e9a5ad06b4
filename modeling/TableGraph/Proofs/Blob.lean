import TableGraph.Blob
import TableGraph.Proofs.Json.Skipping
import TableGraph.Proofs.Text.Coding
import TableGraph.Proofs.Text.Cutting

/-!
# Links lead back to their blobs

The text behind `id=` in a link is made of the characters that stand for themselves in an address,
and the id is read back from it: the record is read member by member from its bytes, and the bytes from
their characters.
-/

namespace TableGraph.BlobId

/-- Whether the primary key is a string, an integer as JSON values have them, a boolean or `null`. -/
def Keyed (id : BlobId) : Prop :=
  match id.primaryKey with
  | .str _ => True
  | .num (.int i) => Decimal.FitsWord i
  | .bool _ => True
  | .null => True
  | _ => False

/-- A letter without accents, a digit, a hyphen or an underscore. -/
def IsLinkChar (c : Char) : Prop :=
  ('A' ≤ c ∧ c ≤ 'Z') ∨ ('a' ≤ c ∧ c ≤ 'z') ∨ ('0' ≤ c ∧ c ≤ '9') ∨ c = '-' ∨ c = '_'

/-- The members of the record. -/
def toMembers (id : BlobId) : List (String × Json) :=
  [("table", .str id.table), ("field", .str id.field), ("primaryField", .str id.primaryField),
    ("primaryKey", id.primaryKey)]

/-- A primary key can be read back and is not nested. -/
theorem Keyed.readable {id : BlobId} (h : id.Keyed) :
    id.primaryKey.Readable ∧ id.primaryKey.depth = 0 := by
  unfold Keyed at h
  cases hk : id.primaryKey with
  | null => exact ⟨trivial, rfl⟩
  | bool b => exact ⟨trivial, rfl⟩
  | str s => exact ⟨trivial, rfl⟩
  | num n =>
    cases n with
    | int i => exact ⟨by rwa [hk] at h, rfl⟩
    | float d =>
      rw [hk] at h
      exact h.elim
  | arr xs =>
    rw [hk] at h
    exact h.elim
  | obj ms =>
    rw [hk] at h
    exact h.elim

/-- An id is read of the four members of its record, also among further ones. -/
theorem ofBytes?_text {id : BlobId} {ms : Members Json} (hms : Json.MembersReadable ms)
    (hfour : (ms.filter fun m => m.1 ∈ memberNames) = id.toMembers)
    (hd : id.primaryKey.depth < Json.maxDepth) :
    ofBytes? (Text.utf8 (Json.obj ms).text) = some id := by
  have hne : ms ≠ [] := by
    rintro rfl
    cases hfour
  have hstring : ∀ s, (Json.str s).depth < Json.maxDepth := by
    simp [Json.depth, Json.maxDepth]
  have hdepth : ∀ m ∈ ms, m.1 ∈ memberNames → m.2.depth < Json.maxDepth := by
    intro m hm hname
    have hmem : m ∈ id.toMembers := hfour ▸ List.mem_filter.mpr ⟨hm, decide_eq_true hname⟩
    simp only [toMembers, List.mem_cons, List.not_mem_nil, or_false] at hmem
    rcases hmem with rfl | rfl | rfl | rfl
    · exact hstring _
    · exact hstring _
    · exact hstring _
    · exact hd
  have hvalues : ofMembers? id.toMembers = some id := by
    simp [ofMembers?, memberNames, single?, toMembers, ofValues?]
  rw [ofBytes?, Json.parseMembers?_text hms hne hdepth, hfour]
  exact hvalues

/-- The record is read back from its bytes. -/
theorem ofBytes?_toJson {id : BlobId} (h : id.Keyed) :
    ofBytes? (Text.utf8 id.toJson.text) = some id := by
  obtain ⟨hreadable, hdepth⟩ := h.readable
  refine ofBytes?_text ⟨trivial, trivial, trivial, hreadable, trivial⟩ rfl ?_
  rw [hdepth]
  decide

/-- The text of an id has no filling. -/
theorem exists_digit_of_mem {id : BlobId} {c : Char} (h : c ∈ id.encode.toList) :
    ∃ n < 64, c = Text.Base64.urlSafe.digit n := by
  rw [encode, String.toList_ofList] at h
  exact Text.Base64.exists_digit_of_mem_encode rfl h

/-- An id is read back from its text, also between blanks. -/
theorem decode_encode {id : BlobId} (h : id.Keyed) {before after : String}
    (hbefore : ∀ c ∈ before.toList, Text.isBlank c = true)
    (hafter : ∀ c ∈ after.toList, Text.isBlank c = true) :
    decode (before ++ id.encode ++ after) = .ok id := by
  have hnone : ∀ c ∈ id.encode.toList, Text.isBlank c = false := by
    have hall : ∀ n < 64, Text.isBlank (Text.Base64.urlSafe.digit n) = false := by decide
    intro c hc
    obtain ⟨n, hn, rfl⟩ := exists_digit_of_mem hc
    exact hall n hn
  have htrim : Text.trimChars (before ++ id.encode ++ after).toList
      = Text.Base64.encode Text.Base64.urlSafe (Text.utf8 id.toJson.text) := by
    rw [String.toList_append, String.toList_append, Text.trimChars_between hbefore hnone hafter,
      encode, String.toList_ofList]
  rw [decode, htrim, Text.Base64.decode_encode Text.Base64.sound_urlSafe]
  dsimp only
  rw [ofBytes?_toJson h]

/-- An id is read back from its text. -/
theorem decode_encode_self {id : BlobId} (h : id.Keyed) : decode id.encode = .ok id := by
  have hblank : ∀ c ∈ "".toList, Text.isBlank c = true := fun c hc => nomatch hc
  have hid := decode_encode h hblank hblank
  rwa [String.append_empty, String.empty_append] at hid

/-- The text of an id is what follows the last equals sign of a link. -/
theorem takeWhile_link (id : BlobId) (base : String) :
    (id.link base).toList.reverse.takeWhile (· ≠ '=') = id.encode.toList.reverse := by
  have hnone : '=' ∉ id.encode.toList.reverse := by
    have hall : ∀ n < 64, '=' ≠ Text.Base64.urlSafe.digit n := by decide
    intro hmem
    obtain ⟨n, hn, he⟩ := exists_digit_of_mem (List.mem_reverse.mp hmem)
    exact hall n hn he
  have hlead : ("/blobs?id=" : String).toList.reverse = '=' :: ("/blobs?id" : String).toList.reverse :=
    rfl
  rw [link, String.toList_append, String.toList_append, List.reverse_append, List.reverse_append,
    hlead, List.cons_append]
  exact (Text.cut_at_mark hnone _).1

/-- Links lead to one blob each. -/
theorem eq_of_link_eq {id other : BlobId} (h : id.Keyed) (hother : other.Keyed) {base address : String}
    (he : other.link address = id.link base) : other = id := by
  have hchars : other.encode.toList.reverse = id.encode.toList.reverse := by
    rw [← takeWhile_link other address, he, takeWhile_link]
  have hencode : other.encode = id.encode := String.toList_inj.mp (List.reverse_injective hchars)
  have hdecode := decode_encode_self hother
  rw [hencode, decode_encode_self h] at hdecode
  exact (Except.ok.inj hdecode).symm

/-- An address is a stem that does not end in a slash with slashes behind it. -/
theorem exists_stem (base : String) : ∃ slashes, base.toList
    = (base.toList.reverse.dropWhile (· = '/')).reverse ++ List.replicate slashes '/' := by
  refine ⟨(base.toList.reverse.takeWhile (· = '/')).length, ?_⟩
  have hall : base.toList.reverse.takeWhile (· = '/')
      = List.replicate (base.toList.reverse.takeWhile (· = '/')).length '/' := by
    refine List.eq_replicate_iff.mpr ⟨rfl, fun c hc => ?_⟩
    simpa using List.mem_takeWhile_imp hc
  rw [← List.reverse_replicate, ← hall, ← List.reverse_append, List.takeWhile_append_dropWhile,
    List.reverse_reverse]

/-- A link on an address is made of the address and the text of an id, from which the id is read
back. -/
structure LeadsBack (id : BlobId) (base : String) : Prop where
  /-- The link is the address without the slashes at its end and the text of the id. -/
  form : ∃ (stem : List Char) (slashes : Nat), base.toList = stem ++ List.replicate slashes '/'
    ∧ stem.getLast? ≠ some '/' ∧ id.link base = String.ofList stem ++ "/blobs?id=" ++ id.encode
  /-- The text of the id is made of characters of links only. -/
  chars : ∀ c ∈ id.encode.toList, IsLinkChar c
  /-- The id is read back, also between blanks. -/
  decodes : ∀ before after : String, (∀ c ∈ before.toList, Text.isBlank c = true) →
    (∀ c ∈ after.toList, Text.isBlank c = true) →
      decode (before ++ id.encode ++ after) = .ok id
  /-- No other id has the link, on any address. -/
  own : ∀ (other : BlobId) (address : String), other.Keyed →
    other.link address = id.link base → other = id

/-- Every link leads back to its blob. -/
theorem link_leadsBack (id : BlobId) (h : id.Keyed) (base : String) : id.LeadsBack base where
  form := by
    obtain ⟨slashes, hbase⟩ := exists_stem base
    refine ⟨_, slashes, hbase, ?_, rfl⟩
    rw [List.getLast?_reverse]
    intro hlast
    have hhead := List.head?_dropWhile_not (fun c : Char => decide (c = '/')) base.toList.reverse
    rw [hlast] at hhead
    cases hhead
  chars := by
    have hall : ∀ n < 64, IsLinkChar (Text.Base64.urlSafe.digit n) := by
      unfold IsLinkChar
      decide
    intro c hc
    obtain ⟨n, hn, rfl⟩ := exists_digit_of_mem hc
    exact hall n hn
  decodes _ _ hbefore hafter := decode_encode h hbefore hafter
  own _ _ hother he := eq_of_link_eq h hother he

/-- The content of a column of a row with a number for its primary key. -/
def photo : BlobId := ⟨"PERSON", "PHOTO", "ID", .num (.int 42)⟩

/-- The link of the content leads back to it, from an address that ends in a slash. -/
theorem link_photo_leadsBack : photo.Keyed ∧ photo.LeadsBack "http://localhost:4000/" := by
  have hkeyed : photo.Keyed := by
    constructor <;> decide
  exact ⟨hkeyed, link_leadsBack photo hkeyed "http://localhost:4000/"⟩

end TableGraph.BlobId
