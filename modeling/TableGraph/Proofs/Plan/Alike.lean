import TableGraph.Plan.Statement
import TableGraph.Proofs.Plan.Forest
import TableGraph.Proofs.Plan.Same

/-!
# Statements spelt alike

The statements of plans that are the same but for strings are spelt alike, part by part: what is
read, the joins, and what is ordered by.
-/

namespace TableGraph

open Sql Postgres

variable {R : String → String → Prop} {N : String → Prop} (db : String)

namespace Occurrence

variable {o : Occurrence}

/-- A labelled expression is spelt with its label. -/
theorem labelled_spelt {expression label : String} (he : Spelt R N expression expression)
    (hl : N label) : Spelt R N ((dialect db).labelled expression label)
      ((dialect db).labelled expression label) :=
  he.between (by decide) (by decide) (spelt_identifier hl)

/-- A selected column is spelt with its name. -/
theorem expression_spelt {aliasName : String} (ha : Plain aliasName) {c : ColumnSelect}
    (hc : N c.column) : Spelt R N (c.expression (dialect db) aliasName)
      (c.expression (dialect db) aliasName) := by
  have hcolumn : Spelt R N ((dialect db).column aliasName c.column)
      ((dialect db).column aliasName c.column) := column_spelt ha hc
  unfold ColumnSelect.expression
  split
  · exact (hcolumn.behind (by decide) (by decide)).spelt.before (by decide)
  · exact hcolumn

/-- What is read from an occurrence is spelt with known names and labels. -/
theorem selects_spelt (ho : o.Named N) (hl : ∀ label ∈ o.labels, N label) :
    List.Forall₂ (Spelt R N) (o.selects (dialect db)) (o.selects (dialect db)) := by
  have hcolumns : List.Forall₂ (Spelt R N)
      (o.columns.map fun c => (dialect db).labelled (c.expression (dialect db) o.aliasName) c.label)
      (o.columns.map fun c =>
        (dialect db).labelled (c.expression (dialect db) o.aliasName) c.label) := by
    rw [List.forall₂_same]
    intro x hx
    obtain ⟨c, hc, rfl⟩ := List.mem_map.mp hx
    refine labelled_spelt db (expression_spelt db ho.aliasName (ho.columns c hc)) (hl _ ?_)
    exact List.mem_append_right _ (List.mem_map_of_mem hc)
  unfold selects
  refine List.rel_append ?_ hcolumns
  cases hp : o.primary with
  | some column =>
    have hkey : N o.keyLabel := by
      refine hl _ (List.mem_append_left _ ?_)
      rw [hp]
      exact List.mem_singleton_self _
    rw [ho.identity_nil (by rw [hp]; rfl)]
    exact .cons (labelled_spelt db (column_spelt ho.aliasName (ho.primary column hp)) hkey) .nil
  | none =>
    have hlabels : ∀ label ∈ o.rowLabel :: o.identity.map (·.2), N label := by
      intro label hmem
      refine hl _ (List.mem_append_left _ ?_)
      rw [hp]
      exact hmem
    have hrow : Plain (o.aliasName ++ ".ctid::text") := ho.aliasName.append (by decide)
    refine List.rel_append
      (.cons (labelled_spelt db hrow.spelt.spelt (hlabels _ List.mem_cons_self)) .nil) ?_
    rw [List.forall₂_same]
    intro x hx
    obtain ⟨y, hy, rfl⟩ := List.mem_map.mp hx
    exact labelled_spelt db (column_spelt ho.aliasName (ho.identity y hy))
      (hlabels _ (List.mem_cons_of_mem _ (List.mem_map_of_mem hy)))

/-- The terms an occurrence is ordered by are spelt with known names. -/
theorem terms_spelt (ho : o.Named N) :
    List.Forall₂ (Spelt R N) (o.terms (dialect db)) (o.terms (dialect db)) := by
  unfold terms
  rw [List.forall₂_same]
  intro x hx
  obtain ⟨t, ht, rfl⟩ := List.mem_map.mp hx
  have hterm : Spelt R N ((dialect db).column o.aliasName t.1 ++ " ")
      ((dialect db).column o.aliasName t.1 ++ " ") :=
    (column_spelt ho.aliasName (ho.order t ht)).before (by decide)
  refine hterm.before ?_
  cases t.2 <;> decide

end Occurrence

variable {db}

/-- A table is spelt with its schema. -/
theorem tableRef_spelt (hdb : N db) {table : String} (ht : N table) :
    Spelt R N ((dialect db).tableRef table) ((dialect db).tableRef table) :=
  (spelt_identifier hdb).between (by decide) (by decide) (spelt_identifier ht)

namespace Plan

section

variable (db)

mutual

/-- What is read for plans that are the same but for strings is spelt alike. -/
theorem Same.selectList_alike : ∀ {p p' : Plan}, Same R N p p' → (∀ label ∈ p.labels, N label) →
    List.Forall₂ (Spelt R N) (p.selectList (dialect db)) (p'.selectList (dialect db))
  | _, _, .node named _ hjoins, hl => by
    unfold selectList
    have hhead := Occurrence.selects_spelt (R := R) db named fun label hmem =>
      hl label (List.mem_append_left _ hmem)
    exact List.rel_append hhead
      (SameJoins.joinSelects_alike hjoins fun label hmem => hl label (List.mem_append_right _ hmem))

/-- What is read for joins that are the same but for strings is spelt alike. -/
theorem SameJoins.joinSelects_alike : ∀ {joins joins' : List (JoinHead × Plan)},
    SameJoins R N joins joins' → (∀ label ∈ joinLabels joins, N label) →
      List.Forall₂ (Spelt R N) (joinSelects (dialect db) joins) (joinSelects (dialect db) joins')
  | _, _, .nil, _ => .nil
  | _, _, .cons _ head tail, hl =>
    List.rel_append
      (Same.selectList_alike head fun label hmem => hl label (List.mem_append_left _ hmem))
      (SameJoins.joinSelects_alike tail fun label hmem => hl label (List.mem_append_right _ hmem))

end

mutual

/-- What plans that are the same but for strings are ordered by is the same, and is spelt with known
names. -/
theorem Same.orderTerms_alike : ∀ {p p' : Plan}, Same R N p p' →
    p.orderTerms (dialect db) = p'.orderTerms (dialect db)
      ∧ List.Forall₂ (Spelt R N) (p.orderTerms (dialect db)) (p.orderTerms (dialect db))
  | _, _, .node named _ hjoins => by
    obtain ⟨heq, hspelt⟩ := SameJoins.joinTerms_alike hjoins
    unfold orderTerms
    refine ⟨?_, List.rel_append (Occurrence.terms_spelt db named) hspelt⟩
    rw [heq]
    rfl

/-- What joins that are the same but for strings are ordered by is the same, and is spelt with known
names. -/
theorem SameJoins.joinTerms_alike : ∀ {joins joins' : List (JoinHead × Plan)},
    SameJoins R N joins joins' →
      joinTerms (dialect db) joins = joinTerms (dialect db) joins'
        ∧ List.Forall₂ (Spelt R N) (joinTerms (dialect db) joins) (joinTerms (dialect db) joins)
  | _, _, .nil => ⟨rfl, .nil⟩
  | _, _, .cons _ head tail => by
    obtain ⟨heq, hspelt⟩ := Same.orderTerms_alike head
    obtain ⟨heqs, hspelts⟩ := SameJoins.joinTerms_alike tail
    unfold joinTerms
    exact ⟨by rw [heq, heqs], List.rel_append hspelt hspelts⟩

end

end

mutual

/-- The joins below plans that are the same but for strings are spelt alike. -/
theorem Same.joinClauses_alike (hdb : N db) : ∀ {p p' : Plan}, Same R N p p' →
    SpeltLed R N (p.joinClauses (dialect db)) (p'.joinClauses (dialect db))
  | _, _, .node _ _ hjoins => SameJoins.joinTexts_alike hdb hjoins

/-- The texts of joins that are the same but for strings are spelt alike. -/
theorem SameJoins.joinTexts_alike (hdb : N db) : ∀ {joins joins' : List (JoinHead × Plan)},
    SameJoins R N joins joins' →
      SpeltLed R N (joinTexts (dialect db) joins) (joinTexts (dialect db) joins')
  | _, _, .nil => by
    have hempty : Plain "" := by decide
    exact hempty.spelt
  | _, _, .cons hcondition head tail => by
    obtain ⟨named, _, heq⟩ := head.head
    have hlead := (tableRef_spelt (R := R) hdb named.table).behind
      (show Plain " LEFT JOIN " by decide) (by decide)
    have hspace : Plain " " := by decide
    have hnamed := (hlead.append hspace.spelt).append named.aliasName.spelt
    have hon := hnamed.between (show Plain " ON " by decide) (by decide) hcondition
    unfold joinTexts
    rw [heq]
    exact (hon.append (Same.joinClauses_alike hdb head)).append (SameJoins.joinTexts_alike hdb tail)

end

/-- The root tables with their joins are spelt alike. -/
theorem Same.fromClause_alike (hdb : N db) {p p' : Plan} (h : Same R N p p') :
    Spelt R N (p.fromClause (dialect db)) (p'.fromClause (dialect db)) := by
  obtain ⟨named, _, heq⟩ := h.head
  have hspace : Plain " " := by decide
  have htable := ((tableRef_spelt (R := R) hdb named.table).append hspace.spelt).append
    named.aliasName.spelt
  unfold fromClause
  rw [heq]
  exact htable.append (h.joinClauses_alike hdb)

/-- Clauses with texts that are spelt alike are spelt alike. -/
theorem clause_alike {lead text text' : String} (hp : Plain lead) (hne : lead ≠ "")
    (h : Filter.SpokenAlike R N text text') :
    SpeltLed R N (clause lead text) (clause lead text') := by
  unfold clause
  by_cases he : text = ""
  · rw [if_pos he, if_pos (h.2.mp he)]
    have hempty : Plain "" := by decide
    exact hempty.spelt
  · rw [if_neg he, if_neg fun he' => he (h.2.mpr he')]
    exact h.1.behind hp hne

/-- The statements of plans that are the same but for strings are spelt alike. -/
theorem Same.rowObjects_alike (hdb : N db) (hrow : N "$row") {p p' : Plan} (h : Same R N p p')
    (hl : ∀ label ∈ p.labels, N label) :
    Spelt R N (p.rowObjects (dialect db)) (p'.rowObjects (dialect db)) := by
  have hcomma : Plain ", " := by decide
  have hselects := (spelt_joined hcomma (by decide) (h.selectList_alike db hl)).behind
    (show Plain "SELECT row_to_json(q) AS row FROM (SELECT " by decide) (by decide)
  have hover := hselects.append (show Plain ", row_number() OVER (" by decide).spelt
  have horder : SpeltLed R N
      (clause "ORDER BY " (Text.joined ", " (p.orderTerms (dialect db))))
      (clause "ORDER BY " (Text.joined ", " (p'.orderTerms (dialect db)))) := by
    obtain ⟨heq, hspelt⟩ := h.orderTerms_alike db
    rw [← heq]
    exact clause_alike (by decide) (by decide) ⟨spelt_joined hcomma (by decide) hspelt, Iff.rfl⟩
  have hwhere := clause_alike (show Plain " WHERE " by decide) (by decide) h.head.2.1
  -- The number of the row is the one identifier that the statement brings along by itself.
  have hnumber : ") AS \"$row\" FROM " = ") AS " ++ Catalog.quoteIdentifier "$row" ++ " FROM " := by
    decide
  have hlast : ") q ORDER BY q.\"$row\"" = ") q ORDER BY q." ++ Catalog.quoteIdentifier "$row" := by
    decide
  unfold rowObjects
  rw [hnumber, hlast]
  simp only [← String.append_assoc]
  have hnumbered := (hover.append horder).between (show Plain ") AS " by decide) (by decide)
    (spelt_identifier hrow)
  have hfrom := hnumbered.between (show Plain " FROM " by decide) (by decide)
    (h.fromClause_alike hdb)
  exact ((hfrom.append hwhere).between (show Plain ") q ORDER BY q." by decide) (by decide)
    (spelt_identifier hrow)).spelt

end Plan

end TableGraph
