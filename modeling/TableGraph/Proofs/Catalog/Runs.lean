import Mathlib.Data.List.Forall2
import Mathlib.Data.List.SplitBy
import TableGraph.Catalog.Column
import TableGraph.Proofs.Listing

/-!
# Columns in runs

The catalogue lists the columns of a table in a run, and each run becomes a table: entered row by
row, a list of columns is cut where the name of the table changes. A run that comes to its end is
never taken up again, so each column stands in the table of its run, in the order of the rows, and
where the rows of each table are in one run no name comes twice. Which column alone is the primary
key is told from all rows of the run.
-/

namespace TableGraph

namespace ColumnRow

/-- The runs of rows of one table. -/
def runs (rows : List ColumnRow) : List (List ColumnRow) :=
  rows.splitBy fun a b => a.table = b.table

/-- The table of a run: that of its first row. -/
def runTable (run : List ColumnRow) : String := (run.head?.map (·.table)).getD ""

/-- Rows of one table, at least one. -/
structure IsRun (run : List ColumnRow) : Prop where
  /-- There is a row. -/
  filled : run ≠ []
  /-- The rows are of the table. -/
  named : ∀ row ∈ run, row.table = runTable run

/-- The rows of each table are listed without rows of another one in between. -/
def Contiguous (rows : List ColumnRow) : Prop :=
  ∀ x y z : ColumnRow, [x, y, z].Sublist rows → x.table = z.table → y.table = x.table

/-- A run has a row, and all its rows are of one table. -/
theorem isRun_of_mem_runs {rows run : List ColumnRow} (h : run ∈ runs rows) : IsRun run := by
  refine ⟨List.ne_nil_of_mem_splitBy h, ?_⟩
  have hchain := List.isChain_of_mem_splitBy h
  cases run with
  | nil => exact fun _ hrow => nomatch hrow
  | cons first rest =>
    have hsame : ((first :: rest).map (·.table)).IsChain (· = ·) :=
      (List.isChain_map _).mpr (hchain.imp fun _ _ hab => of_decide_eq_true hab)
    have hfirst := (List.pairwise_cons.mp (List.isChain_iff_pairwise.mp hsame)).1
    intro row hrow
    rcases List.mem_cons.mp hrow with rfl | hrow
    · rfl
    · exact (hfirst _ (List.mem_map_of_mem hrow)).symm

/-- Neighbouring runs are of different tables. -/
theorem isChain_runs (rows : List ColumnRow) :
    (runs rows).IsChain fun r s => runTable r ≠ runTable s := by
  refine (List.isChain_getLast_head_splitBy _ rows).imp_of_mem_imp ?_
  rintro r s hr hs ⟨hrne, hsne, hrs⟩ hsame
  refine of_decide_eq_false hrs ?_
  rw [(isRun_of_mem_runs hr).named _ (List.getLast_mem hrne),
    (isRun_of_mem_runs hs).named _ (List.head_mem hsne)]
  exact hsame

end ColumnRow

namespace Table

open ColumnRow

/-- The table that a run of rows is entered as. -/
def ofRun (run : List ColumnRow) : Table :=
  { empty (runTable run) with fields := run.map (·.toField) }

/-- Rows of the table that comes last are entered into it. -/
theorem foldl_enter_same (t : Table) (tables : List Table) {run : List ColumnRow}
    (h : ∀ row ∈ run, row.table = t.name) :
    run.foldl enter (t :: tables)
      = { t with fields := t.fields ++ run.map (·.toField) } :: tables := by
  induction run generalizing t with
  | nil => rw [List.map_nil, List.append_nil]; rfl
  | cons row run ih =>
    obtain ⟨hrow, hrun⟩ := List.forall_mem_cons.mp h
    rw [List.foldl_cons, enter, if_pos hrow.symm, ih (t.withField row.toField) hrun, withField]
    simp only [List.append_assoc, List.map_cons, List.singleton_append]

/-- A run of another table than the one that comes last is entered as a table of its own. -/
theorem foldl_enter_run {tables : List Table} {run : List ColumnRow} (h : IsRun run)
    (hlast : ∀ t ∈ tables.head?, t.name ≠ runTable run) :
    run.foldl enter tables = ofRun run :: tables := by
  cases run with
  | nil => exact absurd rfl h.filled
  | cons row run =>
    have hnew : enter tables row = (empty row.table).withField row.toField :: tables := by
      cases tables with
      | nil => rfl
      | cons t tables => exact if_neg (hlast t rfl)
    have hrun : ∀ r ∈ run, r.table = ((empty row.table).withField row.toField).name :=
      fun r hr => h.named r (List.mem_cons_of_mem _ hr)
    rw [List.foldl_cons, hnew, foldl_enter_same _ _ hrun]
    rfl

/-- Runs are entered one after another as tables, the last one first. -/
theorem foldl_enter_runs {runs : List (List ColumnRow)} (hruns : ∀ run ∈ runs, IsRun run)
    (hapart : runs.IsChain fun r s => runTable r ≠ runTable s) {tables : List Table}
    (hlast : ∀ t ∈ tables.head?, ∀ run ∈ runs.head?, t.name ≠ runTable run) :
    runs.flatten.foldl enter tables = (runs.map ofRun).reverse ++ tables := by
  induction runs generalizing tables with
  | nil => rfl
  | cons run runs ih =>
    obtain ⟨hrun, hruns⟩ := List.forall_mem_cons.mp hruns
    obtain ⟨hnext, hapart⟩ := List.isChain_cons.mp hapart
    have hnext' : ∀ t ∈ (ofRun run :: tables).head?, ∀ s ∈ runs.head?, t.name ≠ runTable s := by
      rintro t ⟨⟩ s hs
      exact hnext s hs
    rw [List.flatten_cons, List.foldl_append, foldl_enter_run hrun fun t ht => hlast t ht run rfl,
      ih hruns hapart hnext', List.map_cons, List.reverse_cons, List.append_assoc,
      List.singleton_append]

/-- The tables of a list of columns are made of its runs. -/
theorem ofColumns_eq (rows : List ColumnRow) :
    ofColumns rows = (runs rows).map fun run => (ofRun run).withSinglePrimary := by
  have hflatten : (runs rows).flatten = rows := List.flatten_splitBy _ rows
  have henter : rows.foldl enter [] = ((runs rows).map ofRun).reverse ++ [] := by
    conv_lhs => rw [← hflatten]
    exact foldl_enter_runs (fun _ => isRun_of_mem_runs) (isChain_runs rows) fun _ ht => nomatch ht
  rw [ofColumns, henter, List.append_nil, List.reverse_reverse, List.map_map]
  rfl

/-- The column of a row in the table of its run: primary if no other row of the run is. -/
def fieldIn (run : List ColumnRow) (row : ColumnRow) : Field :=
  { row.toField with primary := row.primary && decide ((run.filter (·.primary)).length ≤ 1) }

/-- What the table of a run is in the end. -/
theorem withSinglePrimary_ofRun (run : List ColumnRow) :
    (ofRun run).withSinglePrimary = { empty (runTable run) with fields := run.map (fieldIn run) } := by
  have hcount : ((ofRun run).fields.filter (·.primary)).length
      = (run.filter (·.primary)).length := by
    rw [ofRun, List.filter_map, List.length_map]
    rfl
  unfold withSinglePrimary
  rw [hcount]
  split
  case isTrue hmany =>
    have hfield : ∀ row ∈ run, { row.toField with primary := false } = fieldIn run row := by
      intro row _
      rw [fieldIn, decide_eq_false (Nat.not_le.mpr hmany), Bool.and_false]
    rw [ofRun, List.map_map]
    exact congrArg (fun fields => { empty (runTable run) with fields }) (List.map_congr_left hfield)
  case isFalse hone =>
    have hfield : ∀ row ∈ run, row.toField = fieldIn run row := by
      intro row _
      rw [fieldIn, decide_eq_true (Nat.not_lt.mp hone), Bool.and_true]
      rfl
    exact congrArg (fun fields => { empty (runTable run) with fields }) (List.map_congr_left hfield)

/-- A column is primary if its row is the only one of the run that is. -/
theorem primary_fieldIn {run : List ColumnRow} {row : ColumnRow} (h : row ∈ run) :
    (fieldIn run row).primary = true ↔ run.filter (·.primary) = [row] := by
  have hmem : row.primary = true → row ∈ run.filter (·.primary) :=
    fun hp => List.mem_filter.mpr ⟨h, hp⟩
  rw [fieldIn, Bool.and_eq_true, decide_eq_true_eq]
  constructor
  · rintro ⟨hp, hone⟩
    obtain ⟨only, honly⟩ := List.length_eq_one_iff.mp
      (Nat.le_antisymm hone (List.length_pos_of_mem (hmem hp)))
    have hrow := hmem hp
    rw [honly] at hrow ⊢
    rw [List.mem_singleton.mp hrow]
  · intro honly
    have hrow : row ∈ run.filter (·.primary) := honly ▸ List.mem_singleton_self row
    exact ⟨(List.mem_filter.mp hrow).2, by rw [honly]; rfl⟩

/-- At most one column of a run is primary. -/
theorem length_filter_fieldIn_le (run : List ColumnRow) :
    ((run.map (fieldIn run)).filter (·.primary)).length ≤ 1 := by
  rw [List.filter_map, List.length_map]
  by_cases hone : (run.filter (·.primary)).length ≤ 1
  · refine le_trans (List.Sublist.length_le ?_) hone
    exact List.monotone_filter_right run fun row hp => (Bool.and_eq_true_iff.mp hp).1
  · have hnone : run.filter ((·.primary) ∘ fieldIn run) = [] := by
      refine List.filter_eq_nil_iff.mpr fun row _ hp => ?_
      exact hone (of_decide_eq_true (Bool.and_eq_true_iff.mp hp).2)
    rw [hnone]
    exact Nat.zero_le 1

end Table

namespace ColumnRow

/-- A column as a row describes it. -/
structure Describes (row : ColumnRow) (f : Field) : Prop where
  /-- It is identified by table and column. -/
  id : f.id = row.table ++ "_" ++ row.column
  /-- It has the name. -/
  name : f.name = row.column
  /-- It has the type. -/
  type : f.type = columnType row.dataType
  /-- It points where the row points. -/
  references : f.tableRef = row.foreignTable ∧ f.fieldRef = row.foreignColumn
  /-- It always has a value if the row is part of the primary key or may not be empty. -/
  nonNull : f.nonNull = true ↔ row.primary = true ∨ row.nullable = false

/-- The column of a row is as the row describes it. -/
theorem describes_fieldIn (run : List ColumnRow) (row : ColumnRow) :
    row.Describes (Table.fieldIn run row) := by
  refine ⟨rfl, rfl, rfl, ⟨rfl, rfl⟩, ?_⟩
  have hnonNull : (Table.fieldIn run row).nonNull = (!row.nullable || row.primary) := rfl
  rw [hnonNull, Bool.or_eq_true, Bool.not_eq_true', or_comm]

/-- Rows in the order of their tables are listed table by table, whatever the order is. -/
theorem contiguous_of_pairwise {R : String → String → Prop} (hR : ∀ a b, R a b → R b a → a = b)
    {rows : List ColumnRow} (h : rows.Pairwise fun a b => R a.table b.table) : Contiguous rows := by
  intro x y z hsub hsame
  obtain ⟨hx, hyz⟩ := List.pairwise_cons.mp (h.sublist hsub)
  have hxy := hx y List.mem_cons_self
  have hzy := (List.pairwise_cons.mp hyz).1 z List.mem_cons_self
  exact hR _ _ (hsame ▸ hzy) hxy

/-- Where the rows of each table are in one run, no two runs are of one table. -/
theorem nodup_map_runTable {runs : List (List ColumnRow)} (hruns : ∀ run ∈ runs, IsRun run)
    (hapart : runs.IsChain fun r s => runTable r ≠ runTable s) (h : Contiguous runs.flatten) :
    (runs.map runTable).Nodup := by
  induction runs with
  | nil => exact List.nodup_nil
  | cons run runs ih =>
    obtain ⟨hrun, hruns⟩ := List.forall_mem_cons.mp hruns
    obtain ⟨hnext, hapart⟩ := List.isChain_cons.mp hapart
    have hrest : Contiguous runs.flatten := fun x y z hsub =>
      h x y z (hsub.trans (List.sublist_append_right run _))
    rw [List.map_cons, List.nodup_cons]
    refine ⟨?_, ih hruns hapart hrest⟩
    intro hmem
    obtain ⟨later, hlater, hname⟩ := List.mem_map.mp hmem
    cases runs with
    | nil => cases hlater
    | cons next runs =>
      have hne := hnext next rfl
      -- The next run stands between two of one table, and rows of all three show that this cannot be.
      have hlater : later ∈ runs := by
        rcases List.mem_cons.mp hlater with rfl | hlater
        · exact absurd hname.symm hne
        · exact hlater
      obtain ⟨hnextRun, hruns⟩ := List.forall_mem_cons.mp hruns
      obtain ⟨x, hx⟩ := List.exists_mem_of_ne_nil _ hrun.filled
      obtain ⟨y, hy⟩ := List.exists_mem_of_ne_nil _ hnextRun.filled
      obtain ⟨z, hz⟩ := List.exists_mem_of_ne_nil _ (hruns later hlater).filled
      have hz' : z ∈ runs.flatten := List.mem_flatten_of_mem hlater hz
      have hsub : [x, y, z].Sublist (run :: next :: runs).flatten :=
        (List.singleton_sublist.mpr hx).append
          ((List.singleton_sublist.mpr hy).append (List.singleton_sublist.mpr hz'))
      have hxt := hrun.named x hx
      have hzt := (hruns later hlater).named z hz
      have hsame := h x y z hsub (by rw [hxt, hzt, hname])
      rw [hnextRun.named y hy, hxt] at hsame
      exact hne hsame.symm

/-- Where runs are of different tables, the rows of a table are its run. -/
theorem filter_flatten_runs {runs : List (List ColumnRow)} (hruns : ∀ run ∈ runs, IsRun run)
    (hnodup : (runs.map runTable).Nodup) {run : List ColumnRow} (h : run ∈ runs) :
    runs.flatten.filter (fun row => row.table = runTable run) = run := by
  have hparts : ∀ r ∈ runs, r.filter (fun row => row.table = runTable run)
      = if runTable r = runTable run then r else [] := by
    intro r hr
    by_cases hname : runTable r = runTable run
    · rw [if_pos hname, List.filter_eq_self]
      exact fun row hrow => decide_eq_true (((hruns r hr).named row hrow).trans hname)
    · rw [if_neg hname, List.filter_eq_nil_iff]
      intro row hrow hp
      exact hname (((hruns r hr).named row hrow).symm.trans (of_decide_eq_true hp))
  rw [List.filter_flatten, ← List.flatMap_def, List.flatMap_congr hparts]
  exact flatMap_ite_key runTable id hnodup h

end ColumnRow

namespace Table

open ColumnRow

/-- A table with the columns of rows, all of them rows of it. -/
structure Gathers (rows : List ColumnRow) (t : Table) : Prop where
  /-- There is a row. -/
  filled : rows ≠ []
  /-- The rows are of the table. -/
  named : ∀ row ∈ rows, row.table = t.name
  /-- The columns are those the rows describe, in their order, and a column is primary if its row is
  the only one that is. -/
  columns : List.Forall₂
    (fun row f => row.Describes f ∧ (f.primary = true ↔ rows.filter (·.primary) = [row])) rows t.fields
  /-- At most one column is primary. -/
  single : (t.fields.filter (·.primary)).length ≤ 1

/-- Tables that a list of columns makes. -/
structure Lists (rows : List ColumnRow) (tables : List Table) : Prop where
  /-- The columns of all tables are those of the rows, in their order. -/
  columns : List.Forall₂ Describes rows (tables.flatMap (·.fields))
  /-- The rows can be cut into parts, of which each makes one table. -/
  gathered : ∃ parts : List (List ColumnRow), parts.flatten = rows ∧ List.Forall₂ Gathers parts tables
  /-- Neighbouring tables have different names. -/
  apart : tables.IsChain fun t u => t.name ≠ u.name
  /-- If the rows are listed table by table, no two tables have one name, and each has the columns of
  all rows of its name. -/
  distinct : Contiguous rows → (tables.map (·.name)).Nodup
    ∧ ∀ t ∈ tables, t.Gathers (rows.filter fun row => row.table = t.name)

/-- The table of a run gathers its rows. -/
theorem gathers_ofRun {run : List ColumnRow} (h : IsRun run) :
    (ofRun run).withSinglePrimary.Gathers run := by
  rw [withSinglePrimary_ofRun]
  refine ⟨h.filled, h.named, ?_, length_filter_fieldIn_le run⟩
  refine List.forall₂_map_right_iff.mpr (List.forall₂_same.mpr fun row hrow => ?_)
  exact ⟨describes_fieldIn run row, primary_fieldIn hrow⟩

/-- A list of columns makes one table of each run, with a column for each row, one of them primary if
its row is the only one of the run that is, and with distinct names if the rows are listed table by
table. -/
theorem lists_ofColumns (rows : List ColumnRow) : Lists rows (ofColumns rows) := by
  have hflatten : (runs rows).flatten = rows := List.flatten_splitBy _ rows
  have hruns : ∀ run ∈ runs rows, IsRun run := fun _ => isRun_of_mem_runs
  have hgathers : List.Forall₂ Gathers (runs rows) (ofColumns rows) := by
    rw [ofColumns_eq]
    refine List.forall₂_map_right_iff.mpr (List.forall₂_same.mpr fun run hrun => ?_)
    exact gathers_ofRun (hruns run hrun)
  have hname : ∀ run, (ofRun run).withSinglePrimary.name = runTable run := by
    intro run
    rw [withSinglePrimary_ofRun]
    rfl
  refine ⟨?_, ⟨runs rows, hflatten, hgathers⟩, ?_, fun hrows => ?_⟩
  · have hcolumns := List.rel_flatten (R := Describes)
      (List.forall₂_map_right_iff.mpr (hgathers.imp fun _ _ ht => ht.columns.imp fun _ _ hf => hf.1))
    rwa [hflatten, ← List.flatMap_def] at hcolumns
  · rw [ofColumns_eq, List.isChain_map]
    exact (isChain_runs rows).imp fun r s hrs => by rwa [hname, hname]
  · have hnodup : ((runs rows).map runTable).Nodup :=
      nodup_map_runTable hruns (isChain_runs rows) (by rwa [hflatten])
    rw [ofColumns_eq]
    refine ⟨?_, fun t ht => ?_⟩
    · have hnames := List.map_congr_left (l := runs rows) fun run _ => hname run
      rw [List.map_map]
      exact hnames.symm ▸ hnodup
    · obtain ⟨run, hrun, rfl⟩ := List.mem_map.mp ht
      have hfilter := filter_flatten_runs hruns hnodup hrun
      rw [hflatten] at hfilter
      rw [hname, hfilter]
      exact gathers_ofRun (hruns run hrun)

/-- Rows of two tables, the first with a primary key of two columns. -/
def pairAndStep : List ColumnRow :=
  [⟨"PAIR", "A", "integer", true, true, none, none⟩,
    ⟨"PAIR", "B", "integer", true, true, some "STEP", some "ID"⟩,
    ⟨"STEP", "ID", "bigint", false, true, none, none⟩, ⟨"STEP", "AT", "date", false, false, none, none⟩]

/-- The rows are in the order of their tables. Two columns make none of them primary, but both always
have a value; one column is primary. -/
theorem lists_pairAndStep : Contiguous pairAndStep ∧
    let tables : List Table :=
      [⟨"PAIR", "PAIR", [], [.required (.plain "PAIR" "A" .int),
          .references (.required (.plain "PAIR" "B" .int)) "STEP" "ID"]⟩,
        ⟨"STEP", "STEP", [], [.asPrimary (.plain "STEP" "ID" .int),
          .required (.plain "STEP" "AT" .date)]⟩]
    Lists pairAndStep tables ∧ (tables.map (·.name)).Nodup := by
  have hcontiguous : Contiguous pairAndStep :=
    contiguous_of_pairwise (R := (· ≤ ·)) (fun _ _ => String.le_antisymm) (by decide)
  refine ⟨hcontiguous, ?_⟩
  intro tables
  have htables : ofColumns pairAndStep = tables := by decide
  have h := lists_ofColumns pairAndStep
  rw [htables] at h
  exact ⟨h, (h.distinct hcontiguous).1⟩

end Table

end TableGraph
