import TableGraph.Proofs.Schema.FieldNames
import TableGraph.Proofs.Schema.Rows

/-!
# Columns that tell rows apart

Where a table has no primary key, the columns that tell its rows apart are the plain ones that are no
contents. References are not among them, though they may be all in which two rows differ. Of plain
columns with one name the last one has the field, so it alone counts.
-/

namespace TableGraph

namespace Table

/-- The last plain column of a name. -/
def lastPlain? (t : Table) (name : String) : Option Field :=
  (t.fields.filter fun f => f.tableRef.isNone && f.name = name).getLast?

/-- Whether a column tells the rows of a table without primary key apart: it is plain, and it is no
content. -/
def TellsRows (t : Table) (name : String) : Prop := ∃ f, t.lastPlain? name = some f ∧ f.type ≠ .blob

/-- Whether a table has a column that holds values: one that is no content. -/
def HoldsValues (t : Table) (name : String) : Prop := ∃ f ∈ t.fields, f.name = name ∧ f.type ≠ .blob

variable {t : Table} {name : String} {f : Field}

/-- The last plain column of a name is a plain column with the name. -/
theorem mem_of_lastPlain? (h : t.lastPlain? name = some f) :
    f ∈ t.fields ∧ f.tableRef = none ∧ f.name = name := by
  obtain ⟨hf, hplain⟩ := List.mem_filter.mp (List.mem_of_getLast? h)
  rw [Bool.and_eq_true, Option.isNone_iff_eq_none, decide_eq_true_iff] at hplain
  exact ⟨hf, hplain⟩

/-- Where columns have different names, those that tell rows apart are the plain ones that are no
contents. -/
theorem tellsRows_iff (hn : (t.fields.map (·.name)).Nodup) (hf : f ∈ t.fields) :
    t.TellsRows f.name ↔ f.tableRef = none ∧ f.type ≠ .blob := by
  have hsame : ∀ {g}, t.lastPlain? f.name = some g → g = f := by
    intro g hg
    obtain ⟨hmem, _, hname⟩ := mem_of_lastPlain? hg
    exact List.inj_on_of_nodup_map hn hmem hf hname
  constructor
  · rintro ⟨g, hg, htype⟩
    obtain rfl := hsame hg
    exact ⟨(mem_of_lastPlain? hg).2.1, htype⟩
  · rintro ⟨hplain, htype⟩
    have hmem : f ∈ t.fields.filter fun g => g.tableRef.isNone && g.name = f.name := by
      refine List.mem_filter.mpr ⟨hf, ?_⟩
      rw [hplain, decide_eq_true rfl]
      rfl
    have hlast := List.getLast?_eq_some_getLast (List.ne_nil_of_mem hmem)
    exact ⟨_, hlast, (hsame hlast).symm ▸ htype⟩

end Table

namespace Shape

variable {shapes : List Shape} {s : Shape} {c : String}

/-- The field of a column has the name of a column just when it is plain and has the name. -/
theorem filter_fieldOf? (hs : s = ofTable s.table s.name) (hc : s.table.HasColumn c) {f : Field}
    (hf : f ∈ s.table.fields) :
    (fieldOf? shapes s f).filter (fun d => d.name = s.columnField c)
      = if f.tableRef.isNone && f.name = c then some (s.scalarField f) else none := by
  obtain ⟨g, hg, rfl⟩ := hc
  cases href : f.tableRef with
  | none =>
    have hname : (s.scalarField f).name = s.columnField g.name ↔ f.name = g.name := by
      refine ⟨fun he => ?_, fun he => congrArg s.columnField he⟩
      rw [hs] at hf hg he
      exact columnField_eq hf hg he
    unfold fieldOf?
    rw [href]
    simp only [Option.filter_some, hname, Option.isNone_none, Bool.true_and]
  | some target =>
    have hname : ∀ t column, (s.linkDef f t column).name ≠ s.columnField g.name := by
      intro t column he
      have href' : f.tableRef.isSome := by rw [href]; rfl
      rw [hs] at hf hg he
      exact linkName_ne_columnField (linkBase_mem_of_reference hf href') hg he
    unfold fieldOf?
    rw [href]
    cases target? shapes f with
    | none => rfl
    | some t => simp only [Option.map_some, Option.filter_some, hname, decide_false,
        Option.isNone_some, Bool.false_and, Bool.false_eq_true, if_false]

/-- Under the name of a column stands the field of the last plain column with its name, if no group
takes the name. -/
theorem get?_fields (hs : s = ofTable s.table s.name) (hc : s.table.HasColumn c)
    {gs : List FieldDef} (hgs : ∀ d ∈ gs, d.name ≠ s.columnField c) :
    Members.get? (Members.ofList ((s.table.fields.filterMap (fieldOf? shapes s) ++ gs).map
        fun d => (d.name, d))) (s.columnField c)
      = (s.table.lastPlain? c).map s.scalarField := by
  have hgroups : gs.filter (fun d => d.name = s.columnField c) = [] :=
    List.filter_eq_nil_iff.mpr fun d hd => by simpa using hgs d hd
  have hcolumns : (s.table.fields.filterMap (fieldOf? shapes s)).filter
        (fun d => d.name = s.columnField c)
      = (s.table.fields.filter fun f => f.tableRef.isNone && f.name = c).map s.scalarField := by
    rw [List.filter_filterMap, ← List.filterMap_eq_map, List.filterMap_filter]
    exact List.filterMap_congr fun f hf => filter_fieldOf? hs hc hf
  rw [Members.get?_ofList_keyed, List.filter_append, hgroups, List.append_nil, hcolumns,
    List.getLast?_map]
  rfl

end Shape

namespace Schema

variable {tables : List Table} {schema : Schema} {s : Shape} {o : ObjectType} {c : String}

/-- The fields of the object type of a table are those of its columns and then those of its groups,
under their own names. -/
theorem fields_of_table (hbuild : (build tables).outcome = .ok schema) (hs : s ∈ schema.tables)
    (ho : Members.get? schema.types.objects s.name = some o) :
    ∃ gs, List.Forall₂ (Group.ShownBy schema) (s.listedGroups schema.tables) gs
      ∧ o.fields = Members.ofList
        ((s.table.fields.filterMap (Shape.fieldOf? schema.tables s) ++ gs).map fun d => (d.name, d)) := by
  obtain ⟨gs, hgs, hget⟩ := object_of_table hbuild hs
  rw [ho, Option.some.injEq] at hget
  exact ⟨gs, hgs, hget ▸ ObjectType.fields_withFields rfl gs⟩

/-- In the object type of a table the field of the last plain column with a name stands under the
name of the column. -/
theorem get?_columnField (hbuild : (build tables).outcome = .ok schema) (hs : s ∈ schema.tables)
    (ho : Members.get? schema.types.objects s.name = some o) (hc : s.table.HasColumn c) :
    Members.get? o.fields (s.columnField c) = (s.table.lastPlain? c).map s.scalarField := by
  obtain ⟨gs, hgs, hfields⟩ := fields_of_table hbuild hs ho
  have hshape := eq_ofTable hbuild hs
  have hgroups : ∀ d ∈ gs, d.name ≠ s.columnField c := by
    intro d hd
    have hname : d.name ∈ gs.map (·.name) := List.mem_map_of_mem hd
    rw [names_of_shownBy hgs] at hname
    obtain ⟨g, hg, he⟩ := List.mem_map.mp hname
    have hbase := Shape.linkBase_mem_of_group (ref_mem_of_listedGroups hbuild hg)
    obtain ⟨f, hf, rfl⟩ := hc
    rw [← he]
    rw [hshape] at hbase hf ⊢
    exact Shape.linkName_ne_columnField hbase hf
  rw [hfields]
  exact Shape.get?_fields hshape hc hgroups

/-- A value of a table is that of the last plain column of its name. -/
theorem lastPlain?_of_mem_fields (hbuild : (build tables).outcome = .ok schema)
    (hs : s ∈ schema.tables) (ho : Members.get? schema.types.objects s.name = some o)
    {e : String × FieldDef} (he : e ∈ o.fields) {type : Scalar} (hk : e.2.kind = .scalar type) :
    ∃ f, s.table.lastPlain? f.name = some f ∧ e.2 = s.scalarField f := by
  obtain ⟨f, hf, hd⟩ : ∃ f ∈ s.table.fields, Shape.fieldOf? schema.tables s f = some e.2 := by
    rcases (rowsOf_table hbuild hs ho).fields e he with hcolumn | ⟨g, _, _, _, _, _, _, hd⟩
    · exact hcolumn
    · rw [hd] at hk
      cases hk
  obtain ⟨_, hd⟩ : f.tableRef = none ∧ e.2 = s.scalarField f := by
    rcases Shape.fieldOf?_cases hd with h | ⟨t, _, hd⟩
    · exact h
    · rw [hd] at hk
      cases hk
  obtain ⟨gs, _, hfields⟩ := fields_of_table hbuild hs ho
  have hfound : Members.get? o.fields (s.columnField f.name) = some e.2 := by
    have hname : e.1 = s.columnField f.name := by
      rw [hfields] at he
      obtain ⟨d, _, rfl⟩ := List.mem_map.mp (Members.mem_ofList he)
      exact congrArg FieldDef.name hd
    rw [← hname]
    exact Members.get?_of_mem (hfields ▸ Members.nodup_names_ofList _) he
  rw [get?_columnField hbuild hs ho ⟨f, hf, rfl⟩] at hfound
  obtain ⟨g, hg, he⟩ := Option.map_eq_some_iff.mp hfound
  have hname : g.name = f.name := (Table.mem_of_lastPlain? hg).2.2
  exact ⟨g, hname.symm ▸ hg, he.symm⟩

/-- Without a primary key the values that are no contents tell rows apart. -/
theorem mem_identityColumns (h : o.primary = none) : c ∈ Plan.identityColumns o
    ↔ ∃ e ∈ o.fields, ∃ type, e.2.kind = .scalar type ∧ type ≠ .url ∧ e.2.column = some c := by
  unfold Plan.identityColumns
  rw [h]
  dsimp only
  rw [List.mem_filterMap]
  constructor
  · rintro ⟨d, hd, hc⟩
    obtain ⟨e, he, rfl⟩ := List.mem_map.mp hd
    refine ⟨e, he, ?_⟩
    split at hc
    next => cases hc
    next type hne hk => exact ⟨type, hk, hne, hc⟩
    next => cases hc
    next => cases hc
  · rintro ⟨e, he, type, hk, hne, hc⟩
    refine ⟨e.2, List.mem_map_of_mem he, ?_⟩
    rw [hk]
    cases type <;> first | exact hc | exact absurd rfl hne

/-- The columns that identify the rows of a table without primary key are those that tell its rows
apart. -/
theorem mem_identityColumns_iff (hbuild : (build tables).outcome = .ok schema)
    (hs : s ∈ schema.tables) (hkeyless : s.primary? = none)
    (ho : Members.get? schema.types.objects s.name = some o) :
    c ∈ Plan.identityColumns o ↔ s.table.TellsRows c := by
  have hprimary : o.primary = none := (rowsOf_table hbuild hs ho).primary.trans hkeyless
  have hcontents : ∀ type : ColumnType, Scalar.ofColumn type = .url ↔ type = .blob := by
    intro type
    cases type <;> simp [Scalar.ofColumn]
  rw [mem_identityColumns hprimary]
  constructor
  · rintro ⟨e, he, type, hk, hne, hc⟩
    obtain ⟨f, hlast, hfield⟩ := lastPlain?_of_mem_fields hbuild hs ho he hk
    rw [hfield] at hk hc
    obtain rfl := FieldKind.scalar.inj hk
    obtain rfl := Option.some.inj hc
    exact ⟨f, hlast, fun hb => hne ((hcontents _).mpr hb)⟩
  · rintro ⟨f, hlast, htype⟩
    obtain ⟨hf, _, rfl⟩ := Table.mem_of_lastPlain? hlast
    have hfound := get?_columnField hbuild hs ho ⟨f, hf, rfl⟩
    rw [hlast, Option.map_some] at hfound
    exact ⟨_, Members.mem_of_get? hfound, _, rfl, fun hu => htype ((hcontents _).mp hu), rfl⟩

end Schema

end TableGraph
