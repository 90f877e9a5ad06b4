import TableGraph.Plan.Planning
import TableGraph.Proofs.Schema.Entries

/-!
# Names that belong to the language

A name that begins with two underscores belongs to the language, and planning passes it over. Links
and groups never have such a name. A column has one just when its own name begins in a way that the
escaping turns into two underscores, so whether a field is passed over can be told from its column.
-/

namespace TableGraph

namespace Name

/-- Whether the form of a text in the graph begins with two underscores: the text is empty, begins
with a character that no name begins with, or begins with an underscore before another one or before
a character that does not fit a name. -/
def startsReserved (name : String) : Bool :=
  match name.toList with
  | [] => true
  | [c] => !isStart c
  | c :: c' :: _ => !isStart c || (c = '_' && (c' = '_' || !isPart c'))

/-- No name begins with a digit. -/
theorem isStart_of_digit {c : Char} (h : ('0' ≤ c && c ≤ '9') = true) : isStart c = false := by
  obtain ⟨hlow, hhigh⟩ := Bool.and_eq_true_iff.mp h
  simp only [decide_eq_true_eq, Char.le_def, UInt32.le_iff_toNat_le] at hlow hhigh
  simp only [isStart, isLetter, Bool.or_eq_false_iff, decide_eq_false_iff_not, Bool.and_eq_false_iff,
    Char.le_def, UInt32.le_iff_toNat_le, not_le]
  refine ⟨?_, Or.inl ?_, Or.inl ?_⟩
  · rintro rfl
    simp at hhigh
  · simp at *
    omega
  · simp at *
    omega

/-- Where the first character begins no name, the form begins with two underscores. -/
theorem startsReserved_of_not_isStart {name : String} {c : Char} {cs : List Char}
    (hname : name.toList = c :: cs) (h : isStart c = false) : startsReserved name = true := by
  unfold startsReserved
  rw [hname]
  cases cs with
  | nil => exact congrArg (! ·) h
  | cons c' cs =>
    dsimp only
    rw [h, Bool.not_false, Bool.true_or]

end Name

namespace Plan

open Name

/-- The first two characters tell whether a name belongs to the language. -/
theorem isPrefixOf_cons_cons (c c' : Char) (cs : List Char) :
    ['_', '_'].isPrefixOf (c :: c' :: cs) = (c = '_' && c' = '_') := by
  rw [List.isPrefixOf, List.isPrefixOf, List.isPrefixOf, Bool.and_true, Bool.beq_comm,
    Bool.beq_comm (a := '_')]
  rfl

/-- A name of the graph belongs to the language just when it begins like that. -/
theorem isReserved_of_isValid {name : String} (h : isValid name = true) :
    isReserved name = startsReserved name := by
  unfold isReserved startsReserved
  unfold isValid at h
  cases hname : name.toList with
  | nil =>
    rw [hname] at h
    cases h
  | cons c cs =>
    rw [hname] at h
    obtain ⟨hstart, hparts⟩ := Bool.and_eq_true_iff.mp h
    cases cs with
    | nil =>
      have hshort : ['_', '_'].isPrefixOf [c] = false := Bool.and_false _
      dsimp only
      rw [hstart, hshort, Bool.not_true]
    | cons c' cs =>
      have hpart : isPart c' = true := List.all_eq_true.mp hparts c' List.mem_cons_self
      dsimp only
      rw [isPrefixOf_cons_cons, hstart, hpart, Bool.not_true, Bool.false_or, Bool.or_false]

/-- A text in which characters have been replaced belongs to the language just when the text begins
with one of them or with an underscore before one. -/
theorem isReserved_substitute {name : String} (h : isValid name = false) (k : Nat) :
    isReserved (substitute (placeholder k) name) = startsReserved name := by
  have hplaceholder : placeholder k = '_' :: '_' :: List.replicate k '_' := rfl
  have hlead : ∀ cs, ['_', '_'].isPrefixOf (placeholder k ++ cs) = true := by
    intro cs
    rw [hplaceholder, List.cons_append, List.cons_append, isPrefixOf_cons_cons]
    rfl
  unfold isReserved substitute
  unfold isValid at h
  cases hname : name.toList with
  | nil =>
    have hreserved : startsReserved name = true := by rw [startsReserved, hname]
    dsimp only
    rw [hreserved, String.toList_ofList, ← List.append_nil (placeholder k)]
    exact hlead []
  | cons c cs =>
    rw [hname] at h
    dsimp only
    rw [String.toList_ofList]
    by_cases hdigit : ('0' ≤ c && c ≤ '9') = true
    · rw [if_pos hdigit, hlead, startsReserved_of_not_isStart hname (isStart_of_digit hdigit)]
    · rw [if_neg hdigit, List.flatMap_cons]
      have hsame : isPart c = isStart c := by
        rw [isPart, Bool.eq_false_of_not_eq_true hdigit, Bool.or_false]
      cases hstart : isStart c with
      | false =>
        rw [hsame, hstart, if_neg Bool.false_ne_true, hlead,
          startsReserved_of_not_isStart hname hstart]
      | true =>
        rw [hsame, hstart, if_pos rfl]
        cases cs with
        | nil =>
          have hvalid : (isStart c && [].all isPart) = true := by rw [hstart]; rfl
          exact absurd (h.symm.trans hvalid) Bool.false_ne_true
        | cons c' cs =>
          rw [List.flatMap_cons, startsReserved, hname]
          dsimp only
          rw [hstart, Bool.not_true, Bool.false_or]
          cases hpart : isPart c' with
          | true =>
            rw [if_pos rfl, List.singleton_append, List.singleton_append, isPrefixOf_cons_cons,
              Bool.not_true, Bool.or_false]
          | false =>
            rw [if_neg Bool.false_ne_true, hplaceholder, List.singleton_append, List.cons_append,
              isPrefixOf_cons_cons, Bool.not_false, Bool.or_true]
            rfl

/-- The form of a name belongs to the language just when the name begins like that. -/
theorem isReserved_pick (all issued : List String) (name : String) :
    isReserved (Scope.pick all issued name) = startsReserved name := by
  unfold Scope.pick
  cases h : isValid name with
  | true => exact isReserved_of_isValid h
  | false => exact isReserved_substitute h _

end Plan

namespace Shape

variable {shapes : List Shape} {s : Shape} {f : Field}

/-- The field of a plain column belongs to the language just when the column's name begins like
that. -/
theorem isReserved_columnField (hs : s = ofTable s.table s.name) (hf : f ∈ s.table.fields) :
    Plan.isReserved (s.columnField f.name) = Name.startsReserved f.name := by
  have hform : s.columns.escaped? f.name = some (s.columnField f.name) := by
    rw [hs] at hf ⊢
    exact escaped?_columnField hf
  have hcolumns : s.columns = Name.Scope.ofNames (s.table.fields.map (·.name)) := by
    rw [hs]
    rfl
  rw [hcolumns] at hform
  obtain ⟨issued, hissued⟩ := Name.Scope.eq_pick_of_escaped? hform
  rw [hissued, Plan.isReserved_pick]

/-- The name of a link or group does not belong to the language. -/
theorem isReserved_linkName (hs : s = ofTable s.table s.name) {of : String}
    (hb : linkBase of ∈ linkBases s.table) : Plan.isReserved (s.linkName (linkBase of)) = false := by
  rw [hs]
  have hlead : "link_".toList <+: (linkBase of).toList := by
    rw [linkBase, String.toList_append]
    exact List.prefix_append _ _
  have hstem := Name.Derived.prefix_stem (by decide) (List.all_eq_true.mp (by decide)) hlead
  have hsound := sound_links s.table s.name
  have hname := hstem.trans <| hsound.stem_prefix (get?_linkName hb)
  obtain ⟨rest, hrest⟩ := hname
  rw [Plan.isReserved, ← hrest]
  rfl

end Shape

namespace Schema

variable {tables : List Table} {schema : Schema} {o : ObjectType}

/-- The fields of an object type stand under their own names. -/
theorem name_of_mem_fields (hbuild : (build tables).outcome = .ok schema)
    (ho : o ∈ Members.values schema.types.objects) {e : String × FieldDef} (he : e ∈ o.fields) :
    e.1 = e.2.name := by
  have hcolumns : ∀ {s : Shape} {fields : List Field},
      ∀ e ∈ Shape.columnFields schema.tables s fields, e.1 = e.2.name := by
    intro s fields e he
    obtain ⟨d, _, rfl⟩ := List.mem_map.mp (Members.mem_ofList he)
    rfl
  rcases object_cases hbuild (get?_of_mem_objects hbuild ho) with ⟨s, hs, hname⟩ | ⟨g, _, _, _, hg⟩
  · obtain ⟨gs, _, hget⟩ := object_of_table hbuild hs
    rw [hname, get?_of_mem_objects hbuild ho, Option.some.injEq] at hget
    rw [hget] at he
    exact ObjectType.name_of_mem_withFields hcolumns he
  · rw [hg] at he
    exact hcolumns e he

/-- A field is a value, which belongs to the language just when its column begins like that, or a
link or group, which does not. -/
theorem isReserved_cases (hbuild : (build tables).outcome = .ok schema)
    (ho : o ∈ Members.values schema.types.objects) {e : String × FieldDef} (he : e ∈ o.fields) :
    (∃ type column, e.2.kind = .scalar type ∧ e.2.column = some column
        ∧ Plan.isReserved e.1 = Name.startsReserved column)
      ∨ (∀ type, e.2.kind ≠ .scalar type) ∧ Plan.isReserved e.1 = false := by
  rw [name_of_mem_fields hbuild ho he]
  obtain ⟨s, hs, hrows⟩ := exists_rowsOf hbuild ho
  have hshape := eq_ofTable hbuild hs
  rcases hrows.fields e he with ⟨c, hc, hd⟩ | ⟨g, hg, o', key, _, _, _, hd⟩
  · rcases Shape.fieldOf?_cases hd with ⟨_, hd⟩ | ⟨t, ht, hd⟩
    · rw [hd]
      exact Or.inl ⟨_, c.name, rfl, rfl, Shape.isReserved_columnField hshape hc⟩
    · have href : c.tableRef.isSome := by rw [Shape.tableRef_of_target? ht]; rfl
      rw [hd]
      exact Or.inr ⟨nofun, Shape.isReserved_linkName hshape (Shape.linkBase_mem_of_reference hc href)⟩
  · obtain ⟨hlisted, rfl⟩ := Shape.mem_listedGroups.mp hg
    have href := (mem_of_listed hbuild hlisted).2
    rw [hd]
    exact Or.inr ⟨nofun, Shape.isReserved_linkName hshape (Shape.linkBase_mem_of_group href)⟩

end Schema

end TableGraph
