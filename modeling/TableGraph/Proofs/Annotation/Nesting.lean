import TableGraph.Annotation.Basic
import TableGraph.Proofs.Firsts

/-!
# Annotation rows and what they are nested into

Rows are entered one by one, each into the table, the column and the group it speaks of. Whatever the
order of the rows, this is what collecting them by table, then those of a table by column and those
of a column by group makes: entering one more row at each of the three levels is the same as
collecting one more row there. What is found in the nested annotations is read off the rows that are
collected, so a row that comes again adds nothing.
-/

namespace TableGraph.AnnotationRow

section

/-- The key words that are given: trimmed, and none that is blank. -/
def given (keys : List (Option String)) : List String :=
  keys.filterMap fun key => (key.map Text.trim).filter (· ≠ "")

/-- The key words that are given, each once. -/
def keyWords (keys : List (Option String)) : List String := distinctBy id (given keys)

/-- The groups that the rows of a column make. -/
def refsOf (rows : List AnnotationRow) : List Ref :=
  grouped (·.ref)
    (fun group rows => ⟨group, rows.head?.bind (·.refName), keyWords (rows.map (·.refIndex))⟩) rows

/-- The columns that the rows of a table make. -/
def fieldsOf (rows : List AnnotationRow) : List FieldAnnotation :=
  grouped (·.field)
    (fun column rows => ⟨column, keyWords (rows.map (·.fieldIndex)), refsOf rows⟩) rows

/-- The tables that rows make. -/
def tablesOf (rows : List AnnotationRow) : List TableAnnotation :=
  grouped (fun row => some row.table)
    (fun table rows => ⟨table, keyWords (rows.map (·.tableIndex)), fieldsOf rows⟩) rows

/-- One more key word is added as it is when a row is entered. -/
theorem keyWords_concat (keys : List (Option String)) (key : Option String) :
    keyWords (keys ++ [key]) = addIndex key (keyWords keys) := by
  have hgiven : given (keys ++ [key]) = given keys ++ given [key] := List.filterMap_append
  unfold keyWords
  rw [hgiven]
  cases key with
  | none => exact congrArg _ (List.append_nil _)
  | some k =>
    unfold addIndex
    dsimp only
    by_cases hblank : Text.trim k = ""
    · have hnone : given [some k] = [] := by simp [given, Option.filter, hblank]
      rw [hnone, List.append_nil, if_pos (Or.inl hblank)]
    · have hsome : given [some k] = [Text.trim k] := by simp [given, Option.filter, hblank]
      rw [hsome, distinctBy_concat]
      by_cases hmem : Text.trim k ∈ given keys
      · simp [hmem]
      · simp [hmem, hblank]

variable (rows : List AnnotationRow) (row : AnnotationRow)

/-- One more row adds to the groups of a column as it does when it is entered. -/
theorem refsOf_concat : refsOf (rows ++ [row]) = row.enterRef (refsOf rows) := by
  unfold enterRef
  cases hrow : row.ref with
  | none => exact grouped_concat_none hrow rows
  | some group =>
    refine grouped_concat_some Ref.id (fun _ _ => rfl) hrow ?_ ?_ rows
    · exact congrArg (Ref.mk group row.refName) (keyWords_concat [] row.refIndex)
    · intro items hitems
      rw [List.head?_append_of_ne_nil _ hitems, List.map_append]
      exact congrArg (Ref.mk group _) (keyWords_concat _ row.refIndex)

/-- One more row adds to the columns of a table as it does when it is entered. -/
theorem fieldsOf_concat : fieldsOf (rows ++ [row]) = row.enterField (fieldsOf rows) := by
  have hbuilt : ∀ column items, FieldAnnotation.mk column
        (keyWords ((items ++ [row]).map (·.fieldIndex))) (refsOf (items ++ [row]))
      = ⟨column, addIndex row.fieldIndex (keyWords (items.map (·.fieldIndex))),
          row.enterRef (refsOf items)⟩ := by
    intro column items
    rw [refsOf_concat, List.map_append]
    exact congrArg (⟨column, ·, _⟩ : _ → FieldAnnotation) (keyWords_concat _ row.fieldIndex)
  unfold enterField
  cases hrow : row.field with
  | none => exact grouped_concat_none hrow rows
  | some column =>
    exact grouped_concat_some FieldAnnotation.id (fun _ _ => rfl) hrow
      (hbuilt column []) (fun items _ => hbuilt column items) rows

/-- One more row adds to the tables as it does when it is entered. -/
theorem tablesOf_concat : tablesOf (rows ++ [row]) = row.enter (tablesOf rows) := by
  have hbuilt : ∀ items, TableAnnotation.mk row.table
        (keyWords ((items ++ [row]).map (·.tableIndex))) (fieldsOf (items ++ [row]))
      = ⟨row.table, addIndex row.tableIndex (keyWords (items.map (·.tableIndex))),
          row.enterField (fieldsOf items)⟩ := by
    intro items
    rw [fieldsOf_concat, List.map_append]
    exact congrArg (⟨row.table, ·, _⟩ : _ → TableAnnotation) (keyWords_concat _ row.tableIndex)
  refine grouped_concat_some TableAnnotation.name (fun _ _ => rfl) ?_ (hbuilt [])
    (fun items _ => hbuilt items) rows
  rfl

/-- Rows entered one by one make the tables that they make when they are collected. -/
theorem nest_eq : nest rows = tablesOf rows := by
  induction rows using List.reverseRecOn with
  | nil => rfl
  | append_singleton rows row ih =>
    rw [tablesOf_concat, ← ih, nest, List.foldl_append]
    rfl

end

section

variable {rows more : List AnnotationRow}

/-- Rows that are there already add no key words. -/
theorem keyWords_append (hmore : ∀ row ∈ more, row ∈ rows) (key : AnnotationRow → Option String) :
    keyWords (rows.map key ++ more.map key) = keyWords (rows.map key) := by
  unfold keyWords given
  rw [List.filterMap_append]
  refine distinctBy_append_of_subset fun k hk => ?_
  rw [List.filterMap_map, List.mem_filterMap] at hk ⊢
  obtain ⟨row, hrow, hkey⟩ := hk
  exact ⟨row, hmore row hrow, hkey⟩

/-- Of rows that are there already, those with some property are among those with it. -/
theorem filter_of_mem (hmore : ∀ row ∈ more, row ∈ rows) (p : AnnotationRow → Bool) :
    ∀ row ∈ more.filter p, row ∈ rows.filter p := by
  intro row hrow
  obtain ⟨hmem, hp⟩ := List.mem_filter.mp hrow
  exact List.mem_filter.mpr ⟨hmore row hmem, hp⟩

/-- Rows that are there already add no groups to a column. -/
theorem refsOf_append (hmore : ∀ row ∈ more, row ∈ rows) : refsOf (rows ++ more) = refsOf rows := by
  refine grouped_append hmore fun group => ?_
  have hmem := filter_of_mem hmore fun row => row.ref = some group
  rw [List.map_append, keyWords_append hmem]
  have hfirst : ∀ xs ys : List AnnotationRow, (∀ y ∈ ys, y ∈ xs) → (xs ++ ys).head? = xs.head? := by
    intro xs ys hsub
    cases xs with
    | nil =>
      have hnil : ys = [] := List.eq_nil_iff_forall_not_mem.mpr fun y hy => List.not_mem_nil (hsub y hy)
      rw [hnil, List.append_nil]
    | cons x xs => rfl
  rw [hfirst _ _ hmem]

/-- Rows that are there already add no columns to a table. -/
theorem fieldsOf_append (hmore : ∀ row ∈ more, row ∈ rows) :
    fieldsOf (rows ++ more) = fieldsOf rows := by
  refine grouped_append hmore fun column => ?_
  have hmem := filter_of_mem hmore fun row => row.field = some column
  rw [List.map_append, keyWords_append hmem, refsOf_append hmem]

/-- Rows that are there already add no tables. -/
theorem tablesOf_append (hmore : ∀ row ∈ more, row ∈ rows) :
    tablesOf (rows ++ more) = tablesOf rows := by
  refine grouped_append hmore fun table => ?_
  have hmem := filter_of_mem hmore fun row => some row.table = some table
  rw [List.map_append, keyWords_append hmem, fieldsOf_append hmem]

end

section

/-- A group made of the rows of a column. -/
structure IsRef (rows : List AnnotationRow) (r : Ref) : Prop where
  /-- Its name is that of the first row that speaks of it. -/
  named : ∃ row, rows.find? (fun row => row.ref = some r.id) = some row ∧ r.name = row.refName
  /-- Its key words are those given for it. -/
  indices : FirstAppearances
    (given ((rows.filter fun row => row.ref = some r.id).map (·.refIndex))) r.indices

/-- A column made of the rows of a table. -/
structure IsField (rows : List AnnotationRow) (f : FieldAnnotation) : Prop where
  /-- Its key words are those given for it. -/
  indices : FirstAppearances
    (given ((rows.filter fun row => row.field = some f.id).map (·.fieldIndex))) f.indices
  /-- Its groups are those its rows speak of. -/
  ids : FirstAppearances ((rows.filter fun row => row.field = some f.id).filterMap (·.ref))
    (f.refs.map (·.id))
  /-- Its groups are made of its rows. -/
  refs : ∀ r ∈ f.refs, IsRef (rows.filter fun row => row.field = some f.id) r

/-- A table made of rows. -/
structure IsTable (rows : List AnnotationRow) (t : TableAnnotation) : Prop where
  /-- Its key words are those given for it. -/
  indices : FirstAppearances
    (given ((rows.filter fun row => row.table = t.name).map (·.tableIndex))) t.indices
  /-- Its columns are those its rows speak of. -/
  ids : FirstAppearances ((rows.filter fun row => row.table = t.name).filterMap (·.field))
    (t.fields.map (·.id))
  /-- Its columns are made of its rows. -/
  fields : ∀ f ∈ t.fields, IsField (rows.filter fun row => row.table = t.name) f

/-- The tables are those the rows speak of, and each is made of its rows. -/
structure Nests (rows : List AnnotationRow) (tables : List TableAnnotation) : Prop where
  /-- The tables are those the rows speak of. -/
  names : FirstAppearances (rows.map (·.table)) (tables.map (·.name))
  /-- The tables are made of the rows. -/
  tables : ∀ t ∈ tables, IsTable rows t

/-- The groups of a column are made of its rows. -/
theorem isRef_of_mem {rows : List AnnotationRow} {r : Ref} (h : r ∈ refsOf rows) : IsRef rows r := by
  obtain ⟨group, hgroup, rfl⟩ := mem_grouped h
  refine ⟨?_, firstAppearances_distinctBy _⟩
  obtain ⟨row, hrow, hkey⟩ := List.mem_filterMap.mp hgroup
  have hsome : (rows.find? fun row => row.ref = some group).isSome :=
    List.find?_isSome.mpr ⟨row, hrow, decide_eq_true hkey⟩
  obtain ⟨first, hfirst⟩ := Option.isSome_iff_exists.mp hsome
  refine ⟨first, hfirst, ?_⟩
  rw [List.head?_filter, hfirst, Option.bind_some]

/-- The columns of a table are made of its rows. -/
theorem isField_of_mem {rows : List AnnotationRow} {f : FieldAnnotation} (h : f ∈ fieldsOf rows) :
    IsField rows f := by
  obtain ⟨column, _, rfl⟩ := mem_grouped h
  refine ⟨firstAppearances_distinctBy _, ?_, fun r hr => isRef_of_mem hr⟩
  have hids : (refsOf (rows.filter fun row => row.field = some column)).map (·.id) = _ :=
    map_grouped _ (fun _ _ => rfl) _
  rw [hids]
  exact firstAppearances_distinctBy _

/-- The tables are made of the rows. -/
theorem isTable_of_mem {rows : List AnnotationRow} {t : TableAnnotation} (h : t ∈ tablesOf rows) :
    IsTable rows t := by
  obtain ⟨table, _, rfl⟩ := mem_grouped h
  simp only [Option.some.injEq]
  refine ⟨firstAppearances_distinctBy _, ?_, fun f hf => isField_of_mem hf⟩
  have hids : (fieldsOf (rows.filter fun row => row.table = table)).map (·.id) = _ :=
    map_grouped _ (fun _ _ => rfl) _
  rw [hids]
  exact firstAppearances_distinctBy _

/-- Nested rows are the tables the rows speak of, in the order of first appearance, each with the
columns its rows speak of, each with the groups its rows speak of; key words are trimmed, and kept
once unless they are blank. Rows that come again change nothing. -/
theorem nests_nest (rows : List AnnotationRow) : Nests rows (nest rows)
    ∧ ∀ more, (∀ row ∈ more, row ∈ rows) → nest (rows ++ more) = nest rows := by
  rw [nest_eq]
  refine ⟨⟨?_, fun t ht => isTable_of_mem ht⟩, fun more hmore => ?_⟩
  · have hnames : (tablesOf rows).map (·.name) = _ := map_grouped _ (fun _ _ => rfl) rows
    have hspoken : rows.filterMap (fun row => some row.table) = rows.map (·.table) :=
      congrFun List.filterMap_eq_map rows
    rw [hnames, hspoken]
    exact firstAppearances_distinctBy _
  · rw [nest_eq, tablesOf_append hmore]

/-- Rows of two tables that interleave: a group that is named differently later, key words with
blanks around them or nothing else, and a row without a column. -/
def interleavedRows : List AnnotationRow :=
  [⟨"CITY", some "CITY_NAME", some " town ", some "name", some (.number 1), some "place", none⟩,
    ⟨"RIVER", none, some "water", some "ignored", some (.number 1), none, some "ignored"⟩,
    ⟨"CITY", some "CITY_NAME", some "town", some " ", some (.number 1), some "other", some "where"⟩]

/-- The rows and the same rows twice are nested into the same two tables. -/
theorem nests_interleavedRows :
    Nests interleavedRows
        [⟨"CITY", ["town"], [⟨"CITY_NAME", ["name"], [⟨.number 1, some "place", ["where"]⟩]⟩]⟩,
          ⟨"RIVER", ["water"], []⟩]
      ∧ nest (interleavedRows ++ interleavedRows) = nest interleavedRows := by
  obtain ⟨hnests, hagain⟩ := nests_nest interleavedRows
  have hnest : nest interleavedRows
      = [⟨"CITY", ["town"], [⟨"CITY_NAME", ["name"], [⟨.number 1, some "place", ["where"]⟩]⟩]⟩,
          ⟨"RIVER", ["water"], []⟩] := by decide
  have htwice := hagain interleavedRows fun _ hrow => hrow
  rw [hnest] at hnests
  exact ⟨hnests, htwice⟩

end

end TableGraph.AnnotationRow
