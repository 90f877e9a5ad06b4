import Mathlib.Data.List.Forall2
import TableGraph.Proofs.Schema.Exposed

/-!
# The fields of columns

A column that stays has one field, a scalar or a link, which is read from the column. The fields of
columns with different names have different names, so none takes the place of another.
-/

namespace TableGraph

/-- A field is that of a column: the value of a plain column, or a link along a reference to the
rows of a table that is shown, joined on the column there. -/
inductive FieldDef.Shows (shapes : List Shape) (f : Field) (d : FieldDef) : Prop
  /-- A plain column. -/
  | value (hplain : f.tableRef = none) (hkind : d.kind = .scalar (Scalar.ofColumn f.type))
    (hcolumn : d.column = some f.name)
  /-- A reference. -/
  | link {target : Shape} {column : String} (htarget : target ∈ shapes)
    (href : f.tableRef = some target.table.name) (hjoin : f.joinColumn? target.table = some column)
    (hkind : d.kind = .link target.name) (hkeys : d.join = some ⟨f.name, column⟩)
    (hcolumn : d.column = some f.name)

namespace Shape

variable {shapes : List Shape} {s : Shape} {f : Field} {d : FieldDef}

/-- The target of a reference is the table it names. -/
theorem tableRef_of_target? {t : Shape × String} (h : target? shapes f = some t) :
    f.tableRef = some t.1.table.name := by
  unfold target? at h
  obtain ⟨table, hr, h⟩ := Option.bind_eq_some_iff.mp h
  obtain ⟨s, hs, h⟩ := Option.bind_eq_some_iff.mp h
  obtain ⟨column, hc, h⟩ := Option.bind_eq_some_iff.mp h
  cases h
  have hname := List.find?_some hs
  rw [hr, of_decide_eq_true hname]

/-- The field of a column is a scalar or a link. -/
theorem fieldOf?_cases (h : fieldOf? shapes s f = some d) :
    f.tableRef = none ∧ d = s.scalarField f
      ∨ ∃ t, target? shapes f = some t ∧ d = s.linkDef f t.1 t.2 := by
  unfold fieldOf? at h
  split at h
  · rename_i hr
    exact Or.inl ⟨hr, (Option.some.inj h).symm⟩
  · obtain ⟨t, ht, rfl⟩ := Option.map_eq_some_iff.mp h
    exact Or.inr ⟨t, ht, rfl⟩

/-- The field of a column shows it. -/
theorem fieldOf?_shows (h : fieldOf? shapes s f = some d) : d.Shows shapes f := by
  rcases fieldOf?_cases h with ⟨hr, rfl⟩ | ⟨t, ht, rfl⟩
  · exact .value hr rfl rfl
  · obtain ⟨hmem, hjoin⟩ := target?_eq_some ht
    exact .link hmem (tableRef_of_target? ht) hjoin rfl rfl rfl

/-- The columns that stay have a field each. -/
theorem forall₂_fieldOf? (shapes : List Shape) (s : Shape) (fields : List Field) :
    List.Forall₂ (fun f d => fieldOf? shapes s f = some d)
      (fields.filter (Table.keepsField (shapes.map (·.table))))
      (fields.filterMap (fieldOf? shapes s)) := by
  induction fields with
  | nil => exact .nil
  | cons f fields ih =>
    have hkeeps : (fieldOf? shapes s f).isSome
        = Table.keepsField (shapes.map (·.table)) f := isSome_fieldOf?
    cases hf : fieldOf? shapes s f with
    | none =>
      rw [hf, Option.isSome_none] at hkeeps
      rw [List.filterMap_cons_none hf, List.filter_cons_of_neg (by rw [← hkeeps]; decide)]
      exact ih
    | some d =>
      rw [hf, Option.isSome_some] at hkeeps
      rw [List.filterMap_cons_some hf, List.filter_cons_of_pos hkeeps.symm]
      exact .cons hf ih

/-- What the name of a column's field is: the form of the column, or the name of its link. -/
theorem name_fieldOf? (h : fieldOf? shapes s f = some d) :
    f.tableRef = none ∧ d.name = s.columnField f.name
      ∨ f.tableRef.isSome ∧ d.name = s.linkName (linkBase f.name) := by
  rcases fieldOf?_cases h with ⟨hr, rfl⟩ | ⟨t, ht, rfl⟩
  · exact Or.inl ⟨hr, rfl⟩
  · exact Or.inr ⟨by rw [tableRef_of_target? ht]; rfl, rfl⟩

/-- Fields of the columns of a table have the same name only if the columns have. -/
theorem fieldOf?_name_eq {t : Table} {name : String} (hs : s = ofTable t name) {g : Field}
    {e : FieldDef} (hf : f ∈ t.fields) (hg : g ∈ t.fields) (hd : fieldOf? shapes s f = some d)
    (he : fieldOf? shapes s g = some e) (hname : d.name = e.name) : f.name = g.name := by
  subst hs
  rcases name_fieldOf? hd with ⟨_, hdn⟩ | ⟨hfr, hdn⟩ <;>
    rcases name_fieldOf? he with ⟨_, hen⟩ | ⟨hgr, hen⟩
  all_goals rw [hdn, hen] at hname
  · exact columnField_eq hf hg hname
  · exact absurd hname.symm (linkName_ne_columnField (linkBase_mem_of_reference hg hgr) hf)
  · exact absurd hname (linkName_ne_columnField (linkBase_mem_of_reference hf hfr) hg)
  · exact linkBase_injective (linkName_eq (linkBase_mem_of_reference hf hfr)
      (linkBase_mem_of_reference hg hgr) hname)

/-- The fields of columns with different names have different names. -/
theorem nodup_names_fieldOf? {t : Table} {name : String} (hs : s = ofTable t name)
    {fields : List Field} (hsub : ∀ f ∈ fields, f ∈ t.fields)
    (hn : (fields.map (·.name)).Nodup) :
    ((fields.filterMap (fieldOf? shapes s)).map (·.name)).Nodup := by
  rw [List.Nodup, List.pairwise_map] at hn ⊢
  rw [List.pairwise_filterMap]
  refine hn.imp_of_mem ?_
  intro f g hf hg hne d hd e he hname
  exact hne (fieldOf?_name_eq hs (hsub f hf) (hsub g hg) hd he hname)

/-- The fields of columns with different names stand as they are. -/
theorem columnFields_eq {t : Table} {name : String} (hs : s = ofTable t name)
    {fields : List Field} (hsub : ∀ f ∈ fields, f ∈ t.fields)
    (hn : (fields.map (·.name)).Nodup) :
    columnFields shapes s fields
      = (fields.filterMap (fieldOf? shapes s)).map fun d => (d.name, d) := by
  refine Members.ofList_of_nodup ?_
  simpa using nodup_names_fieldOf? hs hsub hn

/-- The fields of columns with different names show the columns that stay. -/
theorem exists_columnFields {t : Table} {name : String} (hs : s = ofTable t name)
    {fields : List Field} (hsub : ∀ f ∈ fields, f ∈ t.fields)
    (hn : (fields.map (·.name)).Nodup) :
    ∃ ds, List.Forall₂ (fun f d => FieldDef.Shows shapes f d)
        (fields.filter (Table.keepsField (shapes.map (·.table)))) ds
      ∧ columnFields shapes s fields = ds.map fun d => (d.name, d) :=
  ⟨_, (forall₂_fieldOf? shapes s fields).imp fun _ _ h => fieldOf?_shows h,
    columnFields_eq hs hsub hn⟩

end Shape

end TableGraph
