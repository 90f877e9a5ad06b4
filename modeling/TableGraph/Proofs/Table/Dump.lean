import TableGraph.Proofs.Json.Reading
import TableGraph.Table.Json

/-!
# Snapshots survive their dump

Each kind of record is written as a value that can be read back from its text and reads as the
record. Lists keep their items, and a member that is left out reads as the default it was left out
for. So a snapshot of tables is read back from its dump as it was.
-/

namespace TableGraph

namespace Json

/-- Whether a value can be read back from its text and is not nested deeper than a depth. -/
def Fits (n : Nat) (j : Json) : Prop := j.Readable ∧ j.depth ≤ n

/-- A value that fits a depth fits a greater one. -/
theorem Fits.mono {n m : Nat} {j : Json} (h : j.Fits n) (hnm : n ≤ m) : j.Fits m :=
  ⟨h.1, Nat.le_trans h.2 hnm⟩

/-- A string fits any depth. -/
theorem fits_str (n : Nat) (s : String) : Fits n (.str s) := ⟨trivial, Nat.zero_le n⟩

/-- A boolean fits any depth. -/
theorem fits_bool (n : Nat) (b : Bool) : Fits n (.bool b) := ⟨trivial, Nat.zero_le n⟩

/-- An array of values that fit a depth fits the next one. -/
theorem fits_arr {n : Nat} {xs : List Json} (h : ∀ x ∈ xs, x.Fits n) : Fits (n + 1) (.arr xs) := by
  have hitems : ItemsReadable xs ∧ itemsDepth xs ≤ n := by
    induction xs with
    | nil => exact ⟨trivial, Nat.zero_le n⟩
    | cons x xs ih =>
      rw [List.forall_mem_cons] at h
      obtain ⟨hreadable, hdepth⟩ := ih h.2
      exact ⟨⟨h.1.1, hreadable⟩, Nat.max_le.mpr ⟨h.1.2, hdepth⟩⟩
  exact ⟨hitems.1, Nat.succ_le_succ hitems.2⟩

/-- An object of values that fit a depth fits the next one when its members have different names. -/
theorem fits_obj {n : Nat} {ms : List (String × Json)} (hn : (Members.names ms).Nodup)
    (h : ∀ m ∈ ms, m.2.Fits n) : Fits (n + 1) (.obj ms) := by
  have hmembers : MembersReadable ms ∧ membersDepth ms ≤ n := by
    clear hn
    induction ms with
    | nil => exact ⟨trivial, Nat.zero_le n⟩
    | cons m ms ih =>
      rw [List.forall_mem_cons] at h
      obtain ⟨hreadable, hdepth⟩ := ih h.2
      exact ⟨⟨h.1.1, hreadable⟩, Nat.max_le.mpr ⟨h.1.2, hdepth⟩⟩
  exact ⟨⟨hn, hmembers.1⟩, Nat.succ_le_succ hmembers.2⟩

/-- What is kept of something that is written as a value: the value fits a depth and reads as what
was written. -/
structure Keeps {α : Type} (write : α → Json) (read : Json → Option α) (n : Nat) (a : α) :
    Prop where
  /-- The value fits the depth. -/
  fits : (write a).Fits n
  /-- It reads as what was written. -/
  read_eq : read (write a) = some a

section

variable {α : Type} {write : α → Json} {read : Json → Option α} {n : Nat}

/-- Items that read as what was written are read in order, and none is lost. -/
theorem decodeAll_map {xs : List α} (h : ∀ x ∈ xs, read (write x) = some x) :
    decodeAll read (xs.map write) = some xs := by
  induction xs with
  | nil => rfl
  | cons x xs ih =>
    rw [List.forall_mem_cons] at h
    rw [List.map_cons, decodeAll, h.1, ih h.2]
    rfl

/-- A list keeps its items. -/
theorem keeps_list {xs : List α} (h : ∀ x ∈ xs, Keeps write read n x) :
    Keeps (fun xs : List α => .arr (xs.map write)) (decodeList read) (n + 1) xs where
  fits := fits_arr (List.forall_mem_map.mpr fun x hx => (h x hx).fits)
  read_eq := decodeAll_map fun x hx => (h x hx).read_eq

/-- What is kept is read back from its text and from its text over lines. -/
theorem Keeps.parse?_bind {a : α} (h : Keeps write read n a) (hn : n ≤ maxDepth) :
    (parse? (write a).text).bind read = some a ∧ (parse? (write a).pretty).bind read = some a := by
  obtain ⟨hreadable, hdepth⟩ := h.fits.mono hn
  rw [parse?_text hreadable hdepth, parse?_pretty hreadable hdepth, Option.bind_some]
  exact ⟨h.read_eq, h.read_eq⟩

end

end Json

open Json (Keeps Fits decodeList)

/-- A key word is kept. -/
theorem Index.keeps (key : String) : Keeps Index.toJson Index.ofJson? 1 key where
  fits := Json.fits_obj (List.nodup_singleton _)
    (List.forall_mem_singleton.mpr (Json.fits_str 0 key))
  read_eq := rfl

/-- Key words are kept. -/
theorem Index.keeps_list (keys : List String) :
    Keeps (fun keys : List String => .arr (keys.map Index.toJson)) (decodeList Index.ofJson?) 2
      keys :=
  Json.keeps_list fun key _ => Index.keeps key

/-- A type is kept. -/
theorem ColumnType.keeps (type : ColumnType) : Keeps toJson ofJson? 0 type where
  fits := Json.fits_str 0 type.key
  read_eq := by cases type <;> decide

/-- Whether a ref id is a text or a number that fits 64 bits with a sign. -/
def RefId.FitsInt64 : RefId → Prop
  | .number i => Json.fitsInt64 i = true
  | .text _ => True

/-- A ref id is kept: a number as a number, and a text as a text. -/
theorem RefId.keeps {id : RefId} (h : id.FitsInt64) : Keeps toJson ofJson? 0 id := by
  cases id with
  | text s => exact ⟨Json.fits_str 0 s, rfl⟩
  | number i =>
    have hfits : Json.fitsInt64 i = true := h
    have hword : Decimal.FitsWord i := by
      have htwo : Decimal.twoTo 63 = 2 ^ 63 := rfl
      simp only [Json.fitsInt64, Bool.and_eq_true, decide_eq_true_eq, htwo] at hfits
      unfold Decimal.FitsWord
      omega
    refine ⟨⟨hword, Nat.le_refl 0⟩, ?_⟩
    simp [toJson, ofJson?, Json.int, Json.asInt64?, hfits]

/-- A member that may be left out is a string. -/
theorem fits_of_mem_optionalMember {name : String} {value : Option String} {n : Nat} :
    ∀ m ∈ optionalMember name value, m.2.Fits n := by
  cases value with
  | none => exact fun m hm => nomatch hm
  | some s => exact List.forall_mem_singleton.mpr (Json.fits_str n s)

/-- A ref is kept, with its name if it has one. -/
theorem Ref.keeps {r : Ref} (h : r.id.FitsInt64) : Keeps toJson ofJson? 3 r := by
  obtain ⟨id, name, indices⟩ := r
  have hid := RefId.keeps h
  have hindices := Index.keeps_list indices
  have hread := hindices.read_eq
  constructor
  · refine Json.fits_obj ?_ ?_
    · cases name <;> simp [optionalMember, Members.names]
    · simp only [List.forall_mem_append, List.forall_mem_singleton]
      exact ⟨⟨hid.fits.mono (Nat.zero_le 2), fits_of_mem_optionalMember⟩, hindices.fits⟩
  · cases name <;>
      simp [toJson, ofJson?, optionalMember, Json.record?, Json.member, Json.memberOr, Members.get?,
        Json.decodeOption, Json.asString?, hid.read_eq, hread]

/-- Whether the numbers of the refs of a column fit 64 bits with a sign. -/
def Field.FitsInt64 (f : Field) : Prop := ∀ r ∈ f.refs, r.id.FitsInt64

/-- A column is kept, with its references if it has any. -/
theorem Field.keeps {f : Field} (h : f.FitsInt64) : Keeps toJson ofJson? 5 f := by
  obtain ⟨id, name, primary, type, nonNull, tableRef, fieldRef, indices, refs⟩ := f
  have htype := ColumnType.keeps type
  have hindices := Index.keeps_list indices
  have hrefs := Json.keeps_list fun r hr => Ref.keeps (h r hr)
  have hreadIndices := hindices.read_eq
  have hreadRefs := hrefs.read_eq
  constructor
  · refine Json.fits_obj ?_ ?_
    · cases tableRef <;> cases fieldRef <;> simp [optionalMember, Members.names]
    · simp only [List.forall_mem_append, List.forall_mem_cons, List.not_mem_nil, false_imp_iff,
        implies_true, and_true]
      exact ⟨⟨⟨⟨Json.fits_str 4 id, Json.fits_str 4 name, Json.fits_bool 4 primary,
        htype.fits.mono (Nat.zero_le 4), Json.fits_bool 4 nonNull⟩, fits_of_mem_optionalMember⟩,
        fits_of_mem_optionalMember⟩, hindices.fits.mono (by decide), hrefs.fits⟩
  · cases tableRef <;> cases fieldRef <;>
      simp [toJson, ofJson?, optionalMember, Json.record?, Json.member, Json.memberOr, Members.get?,
        Json.decodeOption, Json.asString?, Json.asBool?, htype.read_eq, hreadIndices, hreadRefs]

namespace Table

/-- Whether the numbers of the refs of a table fit 64 bits with a sign. -/
def FitsInt64 (t : Table) : Prop := ∀ f ∈ t.fields, f.FitsInt64

/-- A table is kept. -/
theorem keeps {t : Table} (h : t.FitsInt64) : Keeps toJson ofJson? 7 t := by
  obtain ⟨id, name, indices, fields⟩ := t
  have hindices := Index.keeps_list indices
  have hfields := Json.keeps_list fun f hf => Field.keeps (h f hf)
  have hreadIndices := hindices.read_eq
  have hreadFields := hfields.read_eq
  constructor
  · refine Json.fits_obj (by simp [Members.names]) ?_
    simp only [List.forall_mem_cons, List.not_mem_nil, false_imp_iff, implies_true, and_true]
    exact ⟨Json.fits_str 6 id, Json.fits_str 6 name, hindices.fits.mono (by decide), hfields.fits⟩
  · simp [toJson, ofJson?, Json.record?, Json.member, Json.memberOr, Members.get?, Json.asString?,
      hreadIndices, hreadFields]

/-- A snapshot is kept. -/
theorem keeps_list {ts : List Table} (h : ∀ t ∈ ts, t.FitsInt64) :
    Keeps listToJson listOfJson? 8 ts := Json.keeps_list fun t ht => keeps (h t ht)

/-- Reads a snapshot of tables from a text. -/
def ofDump? (s : String) : Option (List Table) := (Json.parse? s).bind listOfJson?

/-- A snapshot survives its dump. -/
structure Survives (ts : List Table) : Prop where
  /-- It is read back from its text. -/
  compact : ofDump? (listToJson ts).text = some ts
  /-- It is read back from its text over lines. -/
  lines : ofDump? (listToJson ts).pretty = some ts
  /-- No other snapshot has its text. -/
  own : ∀ others : List Table, (∀ t ∈ others, t.FitsInt64) →
    (listToJson others).text = (listToJson ts).text → others = ts
  /-- No other snapshot has its text over lines. -/
  ownLines : ∀ others : List Table, (∀ t ∈ others, t.FitsInt64) →
    (listToJson others).pretty = (listToJson ts).pretty → others = ts

/-- Every snapshot whose numbers fit 64 bits survives its dump. -/
theorem survives (ts : List Table) (h : ∀ t ∈ ts, t.FitsInt64) : Survives ts := by
  have hkept : ∀ ts : List Table, (∀ t ∈ ts, t.FitsInt64) →
      ofDump? (listToJson ts).text = some ts ∧ ofDump? (listToJson ts).pretty = some ts :=
    fun ts h => (keeps_list h).parse?_bind (by decide)
  obtain ⟨hcompact, hlines⟩ := hkept ts h
  refine ⟨hcompact, hlines, ?_, ?_⟩
  · intro others hothers he
    have hother := (hkept others hothers).1
    rw [he, hcompact] at hother
    exact (Option.some.inj hother).symm
  · intro others hothers he
    have hother := (hkept others hothers).2
    rw [he, hlines] at hother
    exact (Option.some.inj hother).symm

/-- Tables with a name that needs escapes, with a number and a text of the same digits for groups,
and with references and without. -/
def mixedTables : List Table :=
  [⟨"T", "a \"b\"\n", ["key"], [(Field.plain "T" "ID" .int).asPrimary,
    (((Field.plain "T" "U_ID" .blob).references "U" "ID").withRef ⟨.number 12, none, []⟩).withRef
      ⟨.text "12", some "G", ["x", "y"]⟩]⟩, Table.empty "U"]

/-- These tables survive their dump. -/
theorem survives_mixedTables : (∀ t ∈ mixedTables, t.FitsInt64) ∧ Survives mixedTables := by
  have hfits : ∀ t ∈ mixedTables, t.FitsInt64 := by
    simp [mixedTables, Table.empty, FitsInt64, Field.FitsInt64, RefId.FitsInt64, Field.plain,
      Field.asPrimary, Field.references, Field.withRef]
    decide
  exact ⟨hfits, survives mixedTables hfits⟩

end Table

end TableGraph
