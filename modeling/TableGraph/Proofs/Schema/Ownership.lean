import Mathlib.Data.List.Permutation
import TableGraph.Proofs.Decimal.Digits
import TableGraph.Proofs.Schema.Built

/-!
# The types of groups

The type of a group goes by a text made of the name of its table and the label of its ref. Each
group that has a field has a type of its own just when no two of them have the same text; when two
have, both lead to the type of the one made first.
-/

namespace TableGraph

namespace Group

variable {shapes : List Shape} {g : Group}

/-- An object type is that of a group alone: it has the rows of the table, joined on its primary
key, and a field for each column that carries the ref and stays. -/
structure Owns (shapes : List Shape) (g : Group) (o : ObjectType) : Prop where
  /-- The table of the rows. -/
  table : o.table = g.shape.table.name
  /-- The primary key. -/
  primary : o.primary = g.shape.primary?
  /-- The columns that carry the ref. -/
  fields : ∃ ds, List.Forall₂ (fun f d => FieldDef.Shows shapes f d)
      ((g.shape.groupMembers g.ref).filter (Table.keepsField (shapes.map (·.table)))) ds
    ∧ o.fields = ds.map fun d => (d.name, d)

/-- A group whose columns have different names owns the type that is made for it. -/
theorem owns_type (hshape : g.shape = Shape.ofTable g.shape.table g.shape.name)
    (hn : (g.shape.table.fields.map (·.name)).Nodup) (name : String) :
    g.Owns shapes (g.type shapes name) where
  table := rfl
  primary := rfl
  fields := Shape.exists_columnFields hshape (fun _ hf => List.mem_of_mem_filter hf)
    ((List.filter_sublist.map _).nodup hn)

end Group

section

variable {tables : List Table} {schema : Schema}

/-- Each group that has a field has a type of its own. -/
structure Schema.GroupsApart (schema : Schema) : Prop where
  /-- The field of a group leads to a type that the group owns. -/
  owned : ∀ g ∈ Group.listed schema.tables, ∃ o, schema.groupType? g = some o
    ∧ g.Owns schema.tables o
  /-- No two groups share a type. -/
  apart : ∀ g ∈ Group.listed schema.tables, ∀ g' ∈ Group.listed schema.tables,
    schema.groupType? g = schema.groupType? g' → g = g'

/-- Groups with different texts have a type of their own each. -/
theorem Schema.groupsApart_of_texts (hbuild : (build tables).outcome = .ok schema)
    (hcolumns : ∀ t ∈ tables, (t.fields.map (·.name)).Nodup)
    (htexts : ∀ g ∈ Group.listed schema.tables, ∀ g' ∈ Group.listed schema.tables,
      g.base = g'.base → g = g') : schema.GroupsApart := by
  obtain ⟨names, hsound, htypes⟩ := groupType?_of_listed hbuild
  constructor
  · intro g hg
    obtain ⟨first, name, hfirst, _, htype⟩ := htypes g hg
    obtain ⟨hmade, hshown, hbase⟩ := Group.first?_eq_some hfirst
    cases htexts first (Group.mem_listedFrom_of_isShown hmade hshown) g hg hbase
    have hs := (mem_of_listed hbuild hg).1
    exact ⟨_, htype, Group.owns_type (eq_ofTable hbuild hs) (hcolumns _ (table_mem hbuild hs)) name⟩
  · intro g hg g' hg' he
    obtain ⟨first, name, _, hname, htype⟩ := htypes g hg
    obtain ⟨first', name', _, hname', htype'⟩ := htypes g' hg'
    rw [htype, htype'] at he
    have hnames : name = name' := congrArg ObjectType.name (Option.some.inj he)
    subst hnames
    exact htexts g hg g' hg' (hsound.base_eq hname hname')

/-- Each group that has a field has a type of its own just when no two of these groups have the same
text. -/
theorem Schema.groupsApart_iff (tables : List Table) (schema : Schema)
    (hbuild : (build tables).outcome = .ok schema)
    (hcolumns : ∀ t ∈ tables, (t.fields.map (·.name)).Nodup) :
    schema.GroupsApart ↔ ∀ g ∈ Group.listed schema.tables, ∀ g' ∈ Group.listed schema.tables,
      g.base = g'.base → g = g' := by
  constructor
  · intro h g hg g' hg' hbase
    obtain ⟨names, _, htypes⟩ := groupType?_of_listed hbuild
    obtain ⟨first, name, hfirst, hname, htype⟩ := htypes g hg
    obtain ⟨first', name', hfirst', hname', htype'⟩ := htypes g' hg'
    rw [hbase, hfirst', Option.some.injEq] at hfirst
    rw [hbase, hname', Option.some.injEq] at hname
    refine h.apart g hg g' hg' ?_
    rw [htype, htype', hfirst, hname]
  · exact groupsApart_of_texts hbuild hcolumns

end

/-- What follows the last underscore of a text is known when it has no underscore. -/
theorem append_underscore_eq {as bs ls ms : List Char} (hl : '_' ∉ ls) (hm : '_' ∉ ms)
    (h : as ++ '_' :: ls = bs ++ '_' :: ms) : as = bs ∧ ls = ms := by
  rcases List.append_eq_append_iff.mp h with ⟨cs, rfl, hcs⟩ | ⟨cs, rfl, hcs⟩
  · cases cs with
    | nil => exact ⟨(List.append_nil _).symm, (List.cons.inj hcs).2⟩
    | cons c cs =>
      rw [(List.cons.inj hcs).2] at hl
      exact absurd (List.mem_append_right _ List.mem_cons_self) hl
  · cases cs with
    | nil => exact ⟨List.append_nil _, (List.cons.inj hcs).2.symm⟩
    | cons c cs =>
      rw [(List.cons.inj hcs).2] at hm
      exact absurd (List.mem_append_right _ List.mem_cons_self) hm

/-- Groups that are named by numbers have the same text only if table and number are the same. -/
theorem Group.table_eq_of_base_eq {g g' : Group} {i j : Int} (hi : g.ref.id = .number i)
    (hj : g'.ref.id = .number j) (h : g.base = g'.base) :
    g.shape.table.name = g'.shape.table.name ∧ i = j := by
  have hdigits : ∀ i, '_' ∉ Decimal.signed i := by
    intro i hmem
    rcases Decimal.mem_signed hmem with hc | hc
    · exact absurd hc (by decide)
    · exact absurd hc (by decide)
  have hchars := congrArg String.toList h
  simp only [Group.base, BuildState.groupBase, hi, hj, RefId.label, String.toList_append,
    String.toList_ofList, List.append_assoc] at hchars
  obtain ⟨hname, hsigned⟩ :=
    append_underscore_eq (hdigits i) (hdigits j) (List.append_cancel_left hchars)
  exact ⟨String.toList_inj.mp hname, Decimal.signed_injective hsigned⟩

/-- Groups of tables with different names have different texts when they are named by numbers. -/
theorem Group.eq_of_base_eq {shapes : List Shape}
    (hn : (shapes.map fun s => s.table.name).Nodup)
    (hnumbers : ∀ s ∈ shapes, ∀ r ∈ s.groups, ∃ i, r.id = .number i) {g g' : Group}
    (hg : g.IsOf shapes) (hg' : g'.IsOf shapes) (hbase : g.base = g'.base) : g = g' := by
  obtain ⟨hs, href⟩ := hg
  obtain ⟨hs', href'⟩ := hg'
  obtain ⟨i, hi⟩ := hnumbers _ hs _ href
  obtain ⟨j, hj⟩ := hnumbers _ hs' _ href'
  obtain ⟨hname, rfl⟩ := Group.table_eq_of_base_eq hi hj hbase
  have hshape : g.shape = g'.shape := List.inj_on_of_nodup_map hn hs hs' hname
  have hsame : g.ref = g'.ref := by
    refine List.inj_on_of_nodup_map (nodup_map_distinctFrom (·.id) [] _) href ?_ (hi.trans hj.symm)
    rw [hshape]
    exact href'
  obtain ⟨s, r⟩ := g
  obtain ⟨s', r'⟩ := g'
  cases hshape
  cases hsame
  rfl

/-- Groups are named by numbers when all refs are numbers. -/
theorem Shape.exists_number_of_groups {tables : List Table}
    (hnumbers : ∀ t ∈ tables, ∀ f ∈ t.fields, ∀ r ∈ f.refs, ∃ i, r.id = .number i) {s : Shape}
    (hs : s.table ∈ tables) {r : Ref} (hr : r ∈ s.groups) : ∃ i, r.id = .number i := by
  obtain ⟨f, hf, hr⟩ := List.mem_flatMap.mp (mem_of_mem_distinctFrom hr)
  exact hnumbers _ hs f hf _ hr

/-- Groups that are named by numbers have different texts. -/
theorem Schema.eq_of_base_eq {tables : List Table} {schema : Schema}
    (hbuild : (build tables).outcome = .ok schema)
    (hnumbers : ∀ t ∈ tables, ∀ f ∈ t.fields, ∀ r ∈ f.refs, ∃ i, r.id = .number i) {g g' : Group}
    (hg : g ∈ Group.listed schema.tables) (hg' : g' ∈ Group.listed schema.tables)
    (hbase : g.base = g'.base) : g = g' :=
  Group.eq_of_base_eq (nodup_tableNames hbuild)
    (fun _ hs _ hr => Shape.exists_number_of_groups hnumbers (table_mem hbuild hs) hr)
    (mem_of_listed hbuild hg) (mem_of_listed hbuild hg') hbase

/-- Groups that are named by numbers have a type of their own each. -/
theorem Schema.groupsApart_of_numbers {tables : List Table} {schema : Schema}
    (hbuild : (build tables).outcome = .ok schema)
    (hcolumns : ∀ t ∈ tables, (t.fields.map (·.name)).Nodup)
    (hnumbers : ∀ t ∈ tables, ∀ f ∈ t.fields, ∀ r ∈ f.refs, ∃ i, r.id = .number i) :
    schema.GroupsApart :=
  groupsApart_of_texts hbuild hcolumns fun _ hg _ hg' => eq_of_base_eq hbuild hnumbers hg hg'

/-- Two tables with a group each, whose texts are the same. -/
def sharedTextTables : List Table :=
  [⟨"A", "A", [], [(Field.plain "A" "ID" .int).asPrimary,
      (Field.plain "A" "X" .string).withRef ⟨.text "B_C", none, []⟩]⟩,
    ⟨"A_B", "A_B", [], [(Field.plain "A_B" "KEY" .int).asPrimary,
      (Field.plain "A_B" "Y" .string).withRef ⟨.text "C", none, []⟩]⟩]

/-- The groups of the two tables have one type. -/
theorem Schema.not_groupsApart_sharedText :
    ∃ schema, (build sharedTextTables).outcome = .ok schema ∧ ¬ schema.GroupsApart := by
  have hshared : ((built? sharedTextTables).map fun schema =>
      (Group.listed schema.tables).map fun g => (g.base, g.shape.table.name))
        = some [("EMULATED_A_B_C", "A"), ("EMULATED_A_B_C", "A_B")] := by cbv
  obtain ⟨schema, hschema, hgroups⟩ := Option.map_eq_some_iff.mp hshared
  have hbuild := build_eq_ok_iff.mpr hschema
  refine ⟨schema, hbuild, fun happart => ?_⟩
  have hcolumns : ∀ t ∈ sharedTextTables, (t.fields.map (·.name)).Nodup := by decide
  have hiff := groupsApart_iff sharedTextTables schema hbuild hcolumns
  obtain ⟨g, rest, hlisted, hg, hrest⟩ := List.map_eq_cons_iff.mp hgroups
  obtain ⟨g', rest', rfl, hg', hnil⟩ := List.map_eq_cons_iff.mp hrest
  rw [Prod.mk.injEq] at hg hg'
  have hsame : g = g' := hiff.mp happart g (by rw [hlisted]; exact List.mem_cons_self) g'
    (by rw [hlisted]; exact List.mem_cons_of_mem _ List.mem_cons_self) (hg.1.trans hg'.1.symm)
  have hname : "A" = "A_B" := by rw [← hg.2, ← hg'.2, hsame]
  exact absurd hname (by decide)

end TableGraph
