import TableGraph.Plan.Statement
import TableGraph.Proofs.Filter.About
import TableGraph.Proofs.Order
import TableGraph.Proofs.Plan.Forest
import TableGraph.Proofs.Schema.Rows

/-!
# Texts that keep to a scope

The texts of a statement are put together from words of the language, labels, and columns qualified
by an alias. A text keeps to the occurrences of a scope when every alias in it is that of one of them
and every column so qualified is a column of its table. What is read from an occurrence, ordered by
and filtered keeps to the occurrence, if its plan names columns of its table only.
-/

namespace TableGraph

namespace Occurrence

variable (tables : List Table) (o : Occurrence)

/-- Whether the table of an occurrence has a column, given by its field. -/
def Has (f : Field) : Prop := ∃ t, Table.byName? tables o.table = some t ∧ f ∈ t.fields

/-- Whether the table of an occurrence has a column. -/
def HasColumn (column : String) : Prop := ∃ f, o.Has tables f ∧ f.name = column

end Occurrence

/-- The words that stand between columns and labels. -/
def Dialect.words : List String :=
  ["", " ", "(", ")", " = ", " AS ", " AND ", " AND (", " OR ", "NOT ", " IS NULL", " IS NOT NULL)",
    "ASC", "DESC"]

/-- Texts that keep to the occurrences of a scope and to labels. -/
inductive Dialect.Phrase (d : Dialect) (tables : List Table) (scope : List Occurrence)
    (labels : List String) : String → Prop
  /-- A word. -/
  | word {text : String} (h : text ∈ Dialect.words) : Phrase d tables scope labels text
  /-- A label. -/
  | label {text : String} (h : text ∈ labels) : Phrase d tables scope labels (d.quote text)
  /-- A column of an occurrence. -/
  | column {o : Occurrence} {f : Field} (ho : o ∈ scope) (hf : o.Has tables f) :
    Phrase d tables scope labels (d.column o.aliasName f.name)
  /-- A condition on a column of an occurrence. -/
  | condition {o : Occurrence} {f : Field} (ho : o ∈ scope) (hf : o.Has tables f)
    (comparison : Comparison) (value : Option Json) :
    Phrase d tables scope labels (d.condition comparison o.aliasName f value)
  /-- What tells the rows of an occurrence apart. -/
  | row {o : Occurrence} {text : String} (ho : o ∈ scope) (h : d.rowIdentity o.aliasName = some text) :
    Phrase d tables scope labels text
  /-- One text after another. -/
  | append {a b : String} (ha : Phrase d tables scope labels a)
    (hb : Phrase d tables scope labels b) : Phrase d tables scope labels (a ++ b)

namespace Dialect.Phrase

variable {d : Dialect} {tables : List Table} {scope : List Occurrence} {labels : List String}

/-- A column of an occurrence, by its name. -/
theorem ofColumn {o : Occurrence} (ho : o ∈ scope) {column : String}
    (hc : o.HasColumn tables column) : d.Phrase tables scope labels (d.column o.aliasName column) := by
  obtain ⟨f, hf, rfl⟩ := hc
  exact .column ho hf

/-- Texts that keep to a scope keep to it when they are joined. -/
theorem joined {separator : String} (hs : d.Phrase tables scope labels separator)
    {texts : List String} (ht : ∀ x ∈ texts, d.Phrase tables scope labels x) :
    d.Phrase tables scope labels (Text.joined separator texts) := by
  induction texts with
  | nil =>
    have hempty : "" ∈ Dialect.words := by decide
    exact .word hempty
  | cons x texts ih =>
    have hx := ht x List.mem_cons_self
    cases texts with
    | nil => exact hx
    | cons y texts => exact (hx.append hs).append (ih fun z hz => ht z (List.mem_cons_of_mem _ hz))

/-- Texts that keep to a scope keep to it inside parentheses. -/
theorem enclosed {lead separator : String} (hl : d.Phrase tables scope labels lead)
    (hs : d.Phrase tables scope labels separator) {texts : List String}
    (ht : ∀ x ∈ texts, d.Phrase tables scope labels x) :
    ∀ x ∈ Filter.enclosed lead separator texts, d.Phrase tables scope labels x := by
  intro x hx
  unfold Filter.enclosed at hx
  split at hx
  · cases hx
  · rw [List.mem_singleton.mp hx]
    exact ((hl.append (.word (by decide))).append (joined hs ht)).append (.word (by decide))

/-- A filter on an occurrence that speaks of its columns keeps to it, part by part. -/
theorem parts {o : Occurrence} (ho : o ∈ scope) {f : Filter} (h : f.About (o.Has tables)) :
    ∀ x ∈ f.parts d o.aliasName, d.Phrase tables scope labels x := by
  induction h with
  | @node groups missing noneOf anyOf allOf hgroups hmissing _ _ _ hnone hany hall =>
    have hitems : ∀ {fs : List Filter},
        (∀ f ∈ fs, ∀ x ∈ f.parts d o.aliasName, d.Phrase tables scope labels x) →
        ∀ x ∈ Filter.texts d o.aliasName fs, d.Phrase tables scope labels x := by
      intro fs hfs
      induction fs with
      | nil => exact fun x hx => absurd hx List.not_mem_nil
      | cons f fs ih =>
        intro x hx
        rcases List.mem_append.mp hx with hx | hx
        · rw [List.mem_singleton.mp (List.mem_of_mem_filter hx)]
          exact joined (.word (by decide)) (hfs f List.mem_cons_self)
        · exact ih (fun f hf => hfs f (List.mem_cons_of_mem _ hf)) x hx
    intro x hx
    rw [Filter.parts, List.mem_append, List.mem_append, List.mem_append, List.mem_append] at hx
    rcases hx with (((hx | hx) | hx) | hx) | hx
    · obtain ⟨g, hg, hx⟩ := List.mem_flatMap.mp hx
      refine enclosed (.word (by decide)) (.word (by decide)) ?_ x hx
      intro y hy
      obtain ⟨c, hc, rfl⟩ := List.mem_map.mp (List.mem_of_mem_filter hy)
      exact .condition ho (hgroups g hg c hc) c.comparison c.value
    · cases missing with
      | none => cases hx
      | some f =>
        rw [List.mem_singleton.mp hx]
        exact (Dialect.Phrase.column ho (hmissing f rfl)).append (.word (by decide))
    · exact enclosed (.word (by decide)) (.word (by decide)) (hitems hnone) x hx
    · exact enclosed (.word (by decide)) (.word (by decide)) (hitems hany) x hx
    · exact enclosed (.word (by decide)) (.word (by decide)) (hitems hall) x hx

/-- A filter on an occurrence that speaks of its columns keeps to it. -/
theorem filter {o : Occurrence} (ho : o ∈ scope) {f : Filter} (h : f.About (o.Has tables)) :
    d.Phrase tables scope labels (f.text d o.aliasName) :=
  joined (.word (by decide)) (parts ho h)

end Dialect.Phrase

/-- An occurrence that names columns of its table only. -/
structure Occurrence.Fits (d : Dialect) (tables : List Table) (o : Occurrence) : Prop where
  /-- The table is there. -/
  known : ∃ t, Table.byName? tables o.table = some t
  /-- The primary key. -/
  primary : ∀ column, o.primary = some column → o.HasColumn tables column
  /-- The columns that tell rows apart without a primary key. -/
  identity : ∀ x ∈ o.identity, o.HasColumn tables x.1
  /-- With a primary key there are none. -/
  identity_nil : o.primary.isSome → o.identity = []
  /-- The selected columns. -/
  columns : ∀ c ∈ o.columns, o.HasColumn tables c.column
  /-- The columns that are ordered by. -/
  order : ∀ x ∈ o.order, o.HasColumn tables x.1
  /-- The columns of the filter. -/
  filter : ∃ f : Filter, f.About (o.Has tables) ∧ o.filter = f.text d o.aliasName

namespace Occurrence.Fits

variable {d : Dialect} {tables : List Table} {o : Occurrence} {scope : List Occurrence}
  {labels : List String}

/-- The filter of an occurrence keeps to it. -/
theorem phrase_filter (h : o.Fits d tables) (ho : o ∈ scope) :
    d.Phrase tables scope labels o.filter := by
  obtain ⟨f, hf, he⟩ := h.filter
  rw [he]
  exact .filter ho hf

/-- What an occurrence is ordered by keeps to it. -/
theorem phrase_terms (h : o.Fits d tables) (ho : o ∈ scope) :
    ∀ x ∈ o.terms d, d.Phrase tables scope labels x := by
  intro x hx
  obtain ⟨term, hterm, rfl⟩ := List.mem_map.mp hx
  have hcolumn : d.Phrase tables scope labels (d.column o.aliasName term.1) :=
    .ofColumn ho (h.order term hterm)
  have hdirection : d.Phrase tables scope labels term.2.sql := by
    cases term.2 <;> exact .word (by decide)
  exact (hcolumn.append (.word (by decide))).append hdirection

/-- What is read from an occurrence keeps to it. -/
theorem phrase_selects (h : o.Fits d tables) (ho : o ∈ scope) (hl : o.labels ⊆ labels) :
    ∀ x ∈ o.selects d, d.Phrase tables scope labels x := by
  have hlabelled : ∀ {expression label}, d.Phrase tables scope labels expression →
      label ∈ o.labels → d.Phrase tables scope labels (d.labelled expression label) :=
    fun he hmem => (he.append (.word (by decide))).append (.label (hl hmem))
  intro x hx
  rw [selects, List.mem_append, List.mem_append] at hx
  rcases hx with (hx | hx) | hx
  · cases hp : o.primary with
    | some column =>
      rw [hp] at hx
      rw [List.mem_singleton.mp hx]
      refine hlabelled (.ofColumn ho (h.primary column hp)) (List.mem_append_left _ ?_)
      rw [hp]
      exact List.mem_singleton_self _
    | none =>
      rw [hp] at hx
      dsimp only at hx
      cases hr : d.rowIdentity o.aliasName with
      | none =>
        rw [hr] at hx
        cases hx
      | some text =>
        rw [hr] at hx
        rw [List.mem_singleton.mp hx]
        refine hlabelled (.row ho hr) (List.mem_append_left _ ?_)
        rw [hp]
        exact List.mem_cons_self
  · obtain ⟨y, hy, rfl⟩ := List.mem_map.mp hx
    refine hlabelled (.ofColumn ho (h.identity y hy)) (List.mem_append_left _ ?_)
    cases hp : o.primary with
    | some column =>
      rw [h.identity_nil (by rw [hp]; rfl)] at hy
      cases hy
    | none => exact List.mem_cons_of_mem _ (List.mem_map_of_mem hy)
  · obtain ⟨c, hc, rfl⟩ := List.mem_map.mp hx
    refine hlabelled ?_ (List.mem_append_right _ (List.mem_map_of_mem hc))
    have hcolumn : d.Phrase tables scope labels (d.column o.aliasName c.column) :=
      .ofColumn ho (h.columns c hc)
    unfold ColumnSelect.expression
    split
    · exact ((Dialect.Phrase.word (by decide)).append hcolumn).append (.word (by decide))
    · exact hcolumn

end Occurrence.Fits

end TableGraph
