import TableGraph.Proofs.Plan.Identity
import TableGraph.Proofs.Plan.Labels
import TableGraph.Proofs.Plan.Merging
import TableGraph.Proofs.Plan.Unmatched
import TableGraph.Proofs.Schema.Identity

/-!
# Rows of tables without primary key

A statement shows the rows of a table without primary key by the columns that identify them and by
the selected ones. Rows become one object when the values of these columns have one text, which is to
say when the values are the same. So rows that differ in an identifying column are kept apart and none
of them is lost, while two rows that differ in another column only, such as a reference, become one
object.
-/

namespace TableGraph

/-- A row of a table: a value for each column. -/
abbrev TableRow := String → Json

/-- The numbers in a row are finite, as they are in every text of a value. -/
def TableRow.Finite (r : TableRow) : Prop := ∀ c, (r c).Finite

/-- What is shown of a column that is read from a row of a table. -/
def ColumnSelect.shows (c : ColumnSelect) (r : TableRow) : Json :=
  if c.presence then .bool (!(r c.column).isNull) else r c.column

/-- The names of members with different names lead to their values. -/
theorem Row.map_value_names {row : Row} (hn : (Members.names row).Nodup) :
    (Members.names row).map (Row.value row) = Members.values row := by
  rw [Members.names, Members.values, List.map_map]
  refine List.map_congr_left fun e he => ?_
  rw [Function.comp_apply, Row.value, Members.get?_of_mem hn he, Option.getD_some]

namespace Occurrence

/-- What a row of a table shows where there is nothing that tells its place: the identifying columns
and the selected ones. -/
def shows (o : Occurrence) (r : TableRow) : Row :=
  (o.identity.map fun x => (x.2, r x.1)) ++ o.columns.map fun c => (c.label, c.shows r)

variable {o : Occurrence} {d : Dialect} {r r' : TableRow}

/-- The labels of what a row shows. -/
theorem names_shows (o : Occurrence) (r : TableRow) :
    Members.names (o.shows r) = o.identity.map (·.2) ++ o.columns.map (·.label) := by
  simp [shows]

/-- In a dialect that knows no place of a row these are the labels of a statement. -/
theorem names_shows_eq_written (hp : o.primary = none) (hd : d.rowIdentity o.aliasName = none)
    (r : TableRow) : Members.names (o.shows r) = o.written d := by
  rw [names_shows, written, hp, hd]
  rfl

/-- The values that identify the object of a row are all that it shows. -/
theorem identifying_shows (hp : o.primary = none) (hn : o.labels.Nodup) (r : TableRow) :
    o.identifying (o.shows r) = Members.values (o.shows r) := by
  rw [labels, hp, List.cons_append, ← names_shows o r] at hn
  obtain ⟨hrow, hnames⟩ := List.nodup_cons.mp hn
  have hnull : Row.value (o.shows r) o.rowLabel = .null := by
    rw [Row.value, Members.get?_eq_none_iff.mpr hrow]
    rfl
  unfold identifying
  rw [hp, hnull]
  dsimp only
  rw [if_neg (by decide), ← names_shows o r, Row.map_value_names hnames]

/-- What rows with finite numbers show has finite numbers. -/
theorem finite_shows (hr : r.Finite) : (o.shows r).Finite := by
  intro m hm
  rw [shows] at hm
  rcases List.mem_append.mp hm with hm | hm
  · obtain ⟨x, _, rfl⟩ := List.mem_map.mp hm
    exact hr x.1
  · obtain ⟨c, _, rfl⟩ := List.mem_map.mp hm
    dsimp only
    unfold ColumnSelect.shows
    split
    · exact .bool _
    · exact hr c.column

/-- Rows that tell one object have the same values in the identifying columns. -/
theorem eq_of_identityOf?_shows (hp : o.primary = none) (hn : o.labels.Nodup)
    (hr : r.Finite) (hr' : r'.Finite) {key : String}
    (h : o.identityOf? (o.shows r) = some key) (h' : o.identityOf? (o.shows r') = some key)
    {c : String} (hc : c ∈ o.identity.map (·.1)) : r c = r' c := by
  have hvalues := identifying_eq_of_identityOf? (finite_identifying (finite_shows hr))
    (finite_identifying (finite_shows hr')) h h'
  rw [identifying_shows hp hn, identifying_shows hp hn] at hvalues
  have hidentity : o.identity.map (fun x => r x.1) = o.identity.map fun x => r' x.1 := by
    simp only [shows, Members.values_append, Members.values_map] at hvalues
    exact (List.append_inj hvalues (by simp)).1
  obtain ⟨x, hx, rfl⟩ := List.mem_map.mp hc
  exact List.map_inj_left.mp hidentity x hx

/-- A row with a value in an identifying column tells an object. -/
theorem identityOf?_shows_ne_none (hp : o.primary = none) (hn : o.labels.Nodup) {c : String}
    (hc : c ∈ o.identity.map (·.1)) (hr : r c ≠ .null) : o.identityOf? (o.shows r) ≠ none := by
  obtain ⟨x, hx, rfl⟩ := List.mem_map.mp hc
  intro hnone
  have hmem : r x.1 ∈ o.identifying (o.shows r) := by
    rw [identifying_shows hp hn, shows, Members.values_append, Members.values_map]
    exact List.mem_append_left _ (List.mem_map.mpr ⟨x, hx, rfl⟩)
  have hnull := identityOf?_eq_none_iff.mp hnone _ hmem
  cases hv : r x.1 <;> rw [hv] at hnull <;> first | exact hr hv | cases hnull

end Occurrence

namespace Plan

/-- The rows that the objects of a plan are made of, one list for each object. -/
def sources (p : Plan) (rows : List Row) : List (List Row) := (p.head.groupRows rows).map (·.2)

/-- The object that is made of rows. -/
def objectOf (p : Plan) (rows : List Row) : Json :=
  .obj (Members.ofList (p.head.ownMembers rows ++ hydrateJoins p.joins rows))

/-- There is one object for each list of rows, made of them. -/
theorem hydrate_eq_map_sources (p : Plan) (rows : List Row) :
    p.hydrate rows = (p.sources rows).map p.objectOf := by
  obtain ⟨head, joins⟩ := p
  rw [hydrate, sources, List.map_map]
  rfl

/-- The rows of one object have one identity. -/
theorem exists_identity_of_mem_sources {p : Plan} {rows g : List Row} (h : g ∈ p.sources rows) :
    ∃ key, ∀ row ∈ g, p.head.identityOf? row = some key := by
  rw [sources, Occurrence.groupRows_eq, List.map_map] at h
  obtain ⟨key, _, rfl⟩ := List.mem_map.mp h
  exact ⟨key, fun row hrow => of_decide_eq_true (List.mem_filter.mp hrow).2⟩

/-- A row with an identity has an object. -/
theorem exists_mem_sources {p : Plan} {rows : List Row} {row : Row} (h : row ∈ rows)
    (hrow : p.head.identityOf? row ≠ none) : ∃ g ∈ p.sources rows, row ∈ g := by
  obtain ⟨key, hkey⟩ := Option.ne_none_iff_exists'.mp hrow
  rw [sources, Occurrence.groupRows_eq, List.map_map]
  refine ⟨_, List.mem_map_of_mem (mem_distinctBy.mpr (List.mem_filterMap.mpr ⟨row, h, hkey⟩)), ?_⟩
  exact List.mem_filter.mpr ⟨h, decide_eq_true hkey⟩

/-- In the objects of some table rows, rows that differ in some columns are told apart. -/
structure Separates (p : Plan) (columns : String → Prop) (rows : List TableRow) : Prop where
  /-- There is one object for each list of rows, made of them. -/
  objects : p.hydrate (rows.map p.head.shows)
    = (p.sources (rows.map p.head.shows)).map p.objectOf
  /-- Rows of one object have the same values in the columns. -/
  apart : ∀ g ∈ p.sources (rows.map p.head.shows), ∀ r ∈ rows, ∀ r' ∈ rows,
    p.head.shows r ∈ g → p.head.shows r' ∈ g → ∀ c, columns c → r c = r' c
  /-- A row with a value in one of the columns has an object. -/
  kept : ∀ r ∈ rows, (∃ c, columns c ∧ r c ≠ .null) →
    ∃ g ∈ p.sources (rows.map p.head.shows), p.head.shows r ∈ g

/-- Rows that differ in some columns never become one object, and none with a value in one of the
columns is lost. -/
def KeepsApart (p : Plan) (columns : String → Prop) : Prop :=
  ∀ rows : List TableRow, (∀ r ∈ rows, r.Finite) → p.Separates columns rows

section

variable {p : Plan} {columns : String → Prop}

/-- Rows are kept apart by identifying columns. -/
theorem keepsApart_of_identity (hp : p.head.primary = none) (hn : p.head.labels.Nodup)
    (hcolumns : ∀ c, columns c → c ∈ p.head.identity.map (·.1)) : p.KeepsApart columns := by
  intro rows hfinite
  refine ⟨p.hydrate_eq_map_sources _, ?_, ?_⟩
  · intro g hg r hr r' hr' hrg hrg' c hc
    obtain ⟨key, hkey⟩ := exists_identity_of_mem_sources hg
    exact Occurrence.eq_of_identityOf?_shows hp hn (hfinite r hr) (hfinite r' hr')
      (hkey _ hrg) (hkey _ hrg') (hcolumns c hc)
  · rintro r hr ⟨c, hc, hvalue⟩
    exact exists_mem_sources (List.mem_map_of_mem hr)
      (Occurrence.identityOf?_shows_ne_none hp hn (hcolumns c hc) hvalue)

/-- A row with the same value in all columns. -/
def evenRow : TableRow := fun _ => .bool true

/-- A row that differs from it in one column only. -/
def oddRow (column : String) : TableRow := fun c => .bool (c != column)

/-- The numbers of the two rows are finite. -/
theorem finite_evenRow_oddRow (column : String) : ∀ r ∈ [evenRow, oddRow column], r.Finite :=
  List.forall_mem_cons.mpr ⟨fun _ => .bool _, List.forall_mem_singleton.mpr fun _ => .bool _⟩

/-- Rows that differ in one column only, of which nothing is shown but its presence, show the same. -/
theorem shows_oddRow {o : Occurrence} {column : String} (hidentity : column ∉ o.identity.map (·.1))
    (hselected : ∀ c ∈ o.columns, c.column = column → c.presence = true) :
    o.shows (oddRow column) = o.shows evenRow := by
  have hother : ∀ {c : String}, c ≠ column → oddRow column c = evenRow c :=
    fun hc => congrArg Json.bool (bne_iff_ne.mpr hc)
  unfold Occurrence.shows
  congr 1
  · refine List.map_congr_left fun x hx => ?_
    have hx' : x.1 ≠ column := fun he => hidentity (he ▸ List.mem_map_of_mem hx)
    rw [hother hx']
  · refine List.map_congr_left fun c hc => ?_
    unfold ColumnSelect.shows
    by_cases he : c.column = column
    · rw [hselected c hc he]
      rfl
    · rw [hother he]

/-- Rows are not kept apart by a column of which nothing is shown but its presence. -/
theorem not_keepsApart {column : String} (hcolumn : columns column)
    (hidentity : column ∉ p.head.identity.map (·.1))
    (hselected : ∀ c ∈ p.head.columns, c.column = column → c.presence = true) :
    ¬p.KeepsApart columns := by
  intro h
  have hrows := h [evenRow, oddRow column] (finite_evenRow_oddRow column)
  obtain ⟨g, hg, hmem⟩ := hrows.kept evenRow List.mem_cons_self ⟨column, hcolumn, nofun⟩
  have hsame := hrows.apart g hg evenRow List.mem_cons_self (oddRow column)
    (List.mem_cons_of_mem _ (List.mem_singleton_self _)) hmem
    ((shows_oddRow hidentity hselected).symm ▸ hmem) column hcolumn
  have hvalue : true = (column != column) := Json.bool.inj hsame
  rw [bne_self_eq_false] at hvalue
  cases hvalue

end

section

variable {d : Dialect} {types : Members ObjectType}

/-- Where only values are selected nothing is joined, and each column is that of a value. -/
theorem Planned.values {o : ObjectType} {aliasName : String} {placed next : Nat}
    {ss : List Selection} {b : Body} (h : Planned d types o aliasName placed next ss b)
    (hvalues : ∀ x ∈ ss, isReserved x.name = true
      ∨ ∃ f type, Members.get? o.fields x.name = some f ∧ f.kind = .scalar type) :
    b.joins = [] ∧ ∀ c ∈ b.columns, ∃ e ∈ o.fields, ∃ type, e.2.kind = .scalar type
      ∧ e.2.column = some c.column ∧ c.presence = decide (type = .url) := by
  induction h with
  | nil => exact ⟨rfl, nofun⟩
  | reserved _ _ ih => exact ih (List.forall_mem_cons.mp hvalues).2
  | unread _ _ _ _ _ ih => exact ih (List.forall_mem_cons.mp hvalues).2
  | column _ hf hk hc _ ih =>
    obtain ⟨hjoins, hcolumns⟩ := ih (List.forall_mem_cons.mp hvalues).2
    exact ⟨hjoins, List.forall_mem_cons.mpr
      ⟨⟨_, Members.mem_of_get? hf, _, hk, hc, rfl⟩, hcolumns⟩⟩
  | join hr hf hb =>
    obtain ⟨f, type, hf', hk⟩ := (hvalues _ List.mem_cons_self).resolve_left
      (by rw [hr]; exact Bool.false_ne_true)
    obtain rfl := Option.some.inj (hf.symm.trans hf')
    exact absurd ((below?_scalar hk).symm.trans hb) nofun

/-- The identifying columns of an occurrence are those of its object type. -/
theorem map_fst_identity (o : ObjectType) (aliasName : String) :
    ((identityColumns o).zipIdx.map fun x => (x.1, identityLabel aliasName x.2)).map (·.1)
      = identityColumns o := by
  rw [List.map_map]
  exact List.zipIdx_map_fst 0 _

/-- What is planned below a table without primary key where only values are selected: its rows are
identified by the columns that tell them apart, nothing is joined, and of a column that does not tell
rows apart nothing is read but its presence. -/
theorem ofRoot_keyless {tables : List Table} {schema : Schema}
    (hbuild : (Schema.build tables).outcome = .ok schema) {s : Shape} (hs : s ∈ schema.tables)
    (hkeyless : s.primary? = none) {o : ObjectType}
    (ho : Members.get? schema.types.objects s.name = some o) {sel : Selection}
    (hvalues : ∀ x ∈ Selection.ofRows sel.children, isReserved x.name = true
      ∨ ∃ f type, Members.get? o.fields x.name = some f ∧ f.kind = .scalar type) {p : Plan}
    (hp : ofRoot d schema.types.objects s.rootDef sel = .ok p) :
    p.head.primary = none ∧ p.joins = []
      ∧ (∀ c, c ∈ p.head.identity.map (·.1) ↔ s.table.TellsRows c)
      ∧ ∀ c ∈ p.head.columns, ¬s.table.TellsRows c.column → c.presence = true := by
  obtain ⟨target, b, inner, hkind, hbelow, hplanned, ha⟩ := ofRoot_eq_ok_iff.mp hp
  obtain ⟨o', ho', rfl⟩ := Option.map_eq_some_iff.mp hbelow
  obtain rfl := Option.some.inj (ho.symm.trans ho')
  obtain ⟨filter, order, _, _, rfl⟩ := assemble_cases ha
  have hprimary : o.primary = none := (Schema.rowsOf_table hbuild hs ho).primary.trans hkeyless
  have hidentity : ∀ c, c ∈ identityColumns o ↔ s.table.TellsRows c := fun c =>
    Schema.mem_identityColumns_iff hbuild hs hkeyless ho
  obtain ⟨hjoins, hcolumns⟩ := hplanned.values fun x hx => by
    obtain ⟨t, ht, rfl⟩ := Selection.exists_of_mem_merge hx
    obtain ⟨name, rename, args, children⟩ := t
    exact hvalues (.field name rename args children) ht
  refine ⟨hprimary, hjoins, fun c => ?_, fun c hc htells => ?_⟩
  · rw [← hidentity c]
    exact iff_of_eq (congrArg (c ∈ ·) (map_fst_identity o (aliasOf 0)))
  · obtain ⟨e, he, type, hk, hcolumn, hpresence⟩ := hcolumns c hc
    rw [hpresence, decide_eq_true_iff]
    by_contra hne
    exact htells ((hidentity _).mp
      ((Schema.mem_identityColumns hprimary).mpr ⟨e, he, type, hk, hne, hcolumn⟩))

/-- Where only values of a table without primary key are selected, in a dialect that knows no place of
a row, the rows of the table are kept apart by the plain columns that are no contents, whatever is
selected. They are kept apart by all columns that are no contents just when each of these tells rows
apart, which is to say, if columns have different names, when none of them is a reference. -/
theorem ofRoot_keepsApart_iff (tables : List Table) (schema : Schema)
    (hbuild : (Schema.build tables).outcome = .ok schema) (s : Shape) (hs : s ∈ schema.tables)
    (hkeyless : s.primary? = none) (d : Dialect) (hplace : ∀ a, d.rowIdentity a = none)
    (o : ObjectType) (ho : Members.get? schema.types.objects s.name = some o) (sel : Selection)
    (hvalues : ∀ x ∈ Selection.ofRows sel.children, isReserved x.name = true
      ∨ ∃ f type, Members.get? o.fields x.name = some f ∧ f.kind = .scalar type) (p : Plan)
    (hp : ofRoot d schema.types.objects s.rootDef sel = .ok p) :
    (∀ r, Members.names (p.head.shows r) = p.written d)
      ∧ p.KeepsApart s.table.TellsRows
      ∧ (p.KeepsApart s.table.HoldsValues
          ↔ ∀ c, s.table.HoldsValues c → s.table.TellsRows c)
      ∧ ((s.table.fields.map (·.name)).Nodup →
          (p.KeepsApart s.table.HoldsValues
            ↔ ∀ f ∈ s.table.fields, f.type ≠ .blob → f.tableRef = none)) := by
  obtain ⟨hprimary, hjoins, hidentity, hpresence⟩ := ofRoot_keyless hbuild hs hkeyless ho hvalues hp
  have hoccurrences : p.occurrences = [p.head] := by
    obtain ⟨head, joins⟩ := p
    obtain rfl : joins = [] := hjoins
    simp
  have hnumbered : p.head.Numbered :=
    ofRoot_numbered hp p.head (hoccurrences ▸ List.mem_singleton_self _)
  have hapart : ∀ {columns : String → Prop}, (∀ c, columns c → s.table.TellsRows c) →
      p.KeepsApart columns := fun hcolumns => keepsApart_of_identity hprimary hnumbered.nodup_labels
        fun c hc => (hidentity c).mpr (hcolumns c hc)
  have hiff : p.KeepsApart s.table.HoldsValues
      ↔ ∀ c, s.table.HoldsValues c → s.table.TellsRows c := by
    refine ⟨fun h c hc => ?_, hapart⟩
    by_contra htells
    refine not_keepsApart hc (fun hmem => htells ((hidentity c).mp hmem)) ?_ h
    rintro x hx rfl
    exact hpresence x hx htells
  refine ⟨fun r => ?_, hapart fun _ hc => hc, hiff, fun hn => hiff.trans ?_⟩
  · rw [written, hoccurrences, List.flatMap_singleton,
      Occurrence.names_shows_eq_written hprimary (hplace _)]
  · constructor
    · intro h f hf htype
      exact ((Table.tellsRows_iff hn hf).mp (h f.name ⟨f, hf, rfl, htype⟩)).1
    · rintro h c ⟨f, hf, rfl, htype⟩
      exact (Table.tellsRows_iff hn hf).mpr ⟨h f hf htype, htype⟩

/-- Steps of work without a primary key, each with a task and the task that it comes after. -/
def stepTables : List Table :=
  [⟨"STEP", "STEP", [], [Field.plain "STEP" "TASK" .string,
    (Field.plain "STEP" "AFTER" .string).references "STEP" "TASK"]⟩]

/-- A request for the tasks of the steps. -/
def stepTasks : Selection :=
  .field "STEP" none [] [.field "nodes" none [] [.field "TASK" none [] []]]

/-- A dialect that knows no place of a row. -/
def placeless : Dialect := { Postgres.dialect "public" with rowIdentity := fun _ => none }

/-- Steps of one task that come after different ones become one object. -/
theorem not_keepsApart_stepTasks :
    ∃ schema s o p, (Schema.build stepTables).outcome = .ok schema ∧ s ∈ schema.tables
      ∧ s.primary? = none ∧ Members.get? schema.types.objects s.name = some o
      ∧ ofRoot placeless schema.types.objects s.rootDef stepTasks = .ok p
      ∧ p.KeepsApart s.table.TellsRows ∧ s.table.HoldsValues "AFTER"
      ∧ ¬p.KeepsApart s.table.HoldsValues := by
  have hbuilt : ((Schema.built? stepTables).bind fun schema =>
      (schema.tables.find? fun s => s.name = "STEP").bind fun s =>
        (Members.get? schema.types.objects s.name).bind fun o =>
          (Members.get? o.fields "TASK").bind fun task =>
            (ofRootWithin? placeless schema.types.objects 5 s.rootDef stepTasks).map fun _ =>
              (s.primary?, s.table, task.kind))
      = some (none, stepTables[0], .scalar .string) := by cbv
  obtain ⟨schema, hschema, hbuilt⟩ := Option.bind_eq_some_iff.mp hbuilt
  obtain ⟨s, hs, hbuilt⟩ := Option.bind_eq_some_iff.mp hbuilt
  obtain ⟨o, ho, hbuilt⟩ := Option.bind_eq_some_iff.mp hbuilt
  obtain ⟨task, htask, hbuilt⟩ := Option.bind_eq_some_iff.mp hbuilt
  obtain ⟨p, hp, hbuilt⟩ := Option.map_eq_some_iff.mp hbuilt
  simp only [Prod.mk.injEq] at hbuilt
  obtain ⟨hkeyless, htable, hkind⟩ := hbuilt
  have hbuild := Schema.build_eq_ok_iff.mpr hschema
  have hmem := List.mem_of_find?_eq_some hs
  have hroot := (ofRootWithin?_eq_some_iff (by decide)).mp hp
  obtain ⟨_, htells, _, hiff⟩ := ofRoot_keepsApart_iff stepTables schema hbuild s hmem hkeyless
    placeless (fun _ => rfl) o ho stepTasks
    (List.forall_mem_singleton.mpr (Or.inr ⟨task, .string, htask, hkind⟩)) p hroot
  have hafter : (Field.plain "STEP" "AFTER" .string).references "STEP" "TASK"
      ∈ s.table.fields := by
    rw [htable]
    exact List.mem_cons_of_mem _ (List.mem_singleton_self _)
  have hnames : (s.table.fields.map (·.name)).Nodup := by
    rw [htable]
    decide
  refine ⟨schema, s, o, p, hbuild, hmem, hkeyless, ho, hroot, htells,
    ⟨_, hafter, rfl, by decide⟩, fun hkeeps => ?_⟩
  have hplain := (hiff hnames).mp hkeeps _ hafter (by decide)
  cases hplain

end

end Plan

end TableGraph
