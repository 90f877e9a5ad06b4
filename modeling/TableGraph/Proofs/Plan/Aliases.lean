import TableGraph.Proofs.Decimal.Digits
import TableGraph.Proofs.Plan.Asked
import TableGraph.Proofs.Plan.Joined

/-!
# Aliases and labels

Planning hands out the aliases of occurrences one after another, depth first. The labels of an
occurrence are made of its alias, and its columns are numbered one after another, so no two labels
of a statement are the same.
-/

namespace TableGraph

namespace Plan

/-- Different occurrences have different aliases. -/
theorem aliasOf_injective : Function.Injective aliasOf := by
  intro m n h
  have hchars := congrArg String.toList h
  simp only [aliasOf, String.toList_append, String.toList_ofList] at hchars
  exact Decimal.digits_injective (List.append_cancel_left hchars)

/-- An alias has no underscore. -/
theorem underscore_not_mem_aliasOf (n : Nat) : '_' ∉ (aliasOf n).toList := by
  intro hmem
  simp only [aliasOf, String.toList_append, String.toList_ofList] at hmem
  rcases List.mem_append.mp hmem with hmem | hmem
  · exact absurd hmem (by decide)
  · exact absurd (Decimal.isDigit_of_mem_digits hmem) (by decide)

end Plan

/-- An occurrence has an alias that was handed out, and its labels are numbered. -/
structure Occurrence.Numbered (o : Occurrence) : Prop where
  /-- The alias. -/
  place : ∃ n, o.aliasName = Plan.aliasOf n
  /-- The labels of the columns that tell rows apart. -/
  identity : o.identity.map (·.2)
    = (List.range o.identity.length).map (Plan.identityLabel o.aliasName)
  /-- The labels of the selected columns. -/
  columns : o.columns.map (·.label)
    = (List.range o.columns.length).map (Plan.columnLabel o.aliasName)

namespace Occurrence.Numbered

variable {o o' : Occurrence} {label : String}

/-- A label consists of the alias and, behind an underscore, an ending without one. -/
theorem label_eq (h : o.Numbered) (hl : label ∈ o.labels) :
    ∃ ending, label.toList = o.aliasName.toList ++ '_' :: ending ∧ '_' ∉ ending := by
  have hdigits : ∀ n, '_' ∉ Decimal.digits n := fun n hmem =>
    absurd (Decimal.isDigit_of_mem_digits hmem) (by decide)
  have hcolumn : label ∈ o.columns.map (·.label) →
      ∃ ending, label.toList = o.aliasName.toList ++ '_' :: ending ∧ '_' ∉ ending := by
    intro hmem
    rw [h.columns] at hmem
    obtain ⟨n, _, rfl⟩ := List.mem_map.mp hmem
    refine ⟨'c' :: Decimal.digits n, by simp [Plan.columnLabel], ?_⟩
    exact List.not_mem_cons_of_ne_of_not_mem (by decide) (hdigits n)
  rw [labels, List.mem_append] at hl
  rcases hl with hl | hl
  · cases hp : o.primary with
    | some column =>
      rw [hp] at hl
      rw [List.mem_singleton.mp hl]
      exact ⟨['p', 'k'], by simp [keyLabel], by decide⟩
    | none =>
      rw [hp] at hl
      rcases List.mem_cons.mp hl with rfl | hl
      · exact ⟨['r', 'i', 'd'], by simp [rowLabel], by decide⟩
      · rw [h.identity] at hl
        obtain ⟨n, _, rfl⟩ := List.mem_map.mp hl
        refine ⟨'k' :: Decimal.digits n, by simp [Plan.identityLabel], ?_⟩
        exact List.not_mem_cons_of_ne_of_not_mem (by decide) (hdigits n)
  · exact hcolumn hl

/-- A label belongs to the occurrences of one alias. -/
theorem aliasName_eq (h : o.Numbered) (h' : o'.Numbered) (hl : label ∈ o.labels)
    (hl' : label ∈ o'.labels) : o.aliasName = o'.aliasName := by
  obtain ⟨ending, he, _⟩ := h.label_eq hl
  obtain ⟨ending', he', hending'⟩ := h'.label_eq hl'
  obtain ⟨n, hn⟩ := h'.place
  have halias : '_' ∉ o'.aliasName.toList := hn ▸ Plan.underscore_not_mem_aliasOf n
  have hcut := (List.append_cons_inj_of_notMem halias hending').mp (he'.symm.trans he)
  exact String.toList_inj.mp hcut.1.symm

/-- The labels of an occurrence are different. -/
theorem nodup_labels (h : o.Numbered) : o.labels.Nodup := by
  have hdigits : ∀ {m n}, String.ofList (Decimal.digits m) = String.ofList (Decimal.digits n) →
      m = n := fun he => Decimal.digits_injective (String.ofList_injective he)
  have hcolumns : (o.columns.map (·.label)).Nodup := by
    rw [h.columns]
    refine List.nodup_range.map fun m n he => hdigits ?_
    exact (String.append_right_inj _).mp he
  have hidentity : (o.identity.map (·.2)).Nodup := by
    rw [h.identity]
    refine List.nodup_range.map fun m n he => hdigits ?_
    exact (String.append_right_inj _).mp he
  rw [labels, List.nodup_append]
  refine ⟨?_, hcolumns, ?_⟩
  · cases o.primary with
    | some column => exact List.nodup_singleton _
    | none =>
      refine List.nodup_cons.mpr ⟨?_, hidentity⟩
      rw [h.identity]
      intro hmem
      obtain ⟨n, _, he⟩ := List.mem_map.mp hmem
      have hchars := congrArg String.toList he
      simp [Plan.identityLabel, rowLabel] at hchars
  · intro a ha b hb
    rw [h.columns] at hb
    obtain ⟨n, _, rfl⟩ := List.mem_map.mp hb
    rintro rfl
    cases hp : o.primary with
    | some column =>
      rw [hp] at ha
      have hchars := congrArg String.toList (List.mem_singleton.mp ha)
      simp [Plan.columnLabel, keyLabel] at hchars
    | none =>
      rw [hp] at ha
      rcases List.mem_cons.mp ha with he | ha
      · have hchars := congrArg String.toList he
        simp [Plan.columnLabel, rowLabel] at hchars
      · rw [h.identity] at ha
        obtain ⟨m, _, he⟩ := List.mem_map.mp ha
        have hchars := congrArg String.toList he
        simp [Plan.columnLabel, Plan.identityLabel] at hchars

end Occurrence.Numbered

namespace Plan

section

variable {d : Dialect} {types : Members ObjectType}

/-- What an assembled plan is made of. -/
theorem assemble_cases {f : FieldDef} {o : ObjectType} {aliasName : String} {args : Members Json}
    {b : Body} {p : Plan} (h : assemble d f o aliasName args b = .ok p) :
    ∃ filter order, Filter.argumentText d f.shape aliasName (Members.get? args "where") = .ok filter
      ∧ Ordering.ofArgument f.shape (Members.get? args "order") = .ok order
      ∧ p = .node ⟨aliasName, o.table, o.primary,
          (identityColumns o).zipIdx.map fun x => (x.1, identityLabel aliasName x.2), b.columns,
          filter, order.getD []⟩ b.joins := by
  obtain ⟨filter, hfilter, h⟩ := bind_eq_ok_iff.mp h
  obtain ⟨order, horder, h⟩ := bind_eq_ok_iff.mp h
  cases h
  exact ⟨filter, order, hfilter, horder, rfl⟩

/-- The joins of an assembled plan are those below its occurrence. -/
theorem joined_of_assemble {f : FieldDef} {o : ObjectType} {aliasName : String}
    {args : Members Json} {b : Body} {p : Plan} (h : assemble d f o aliasName args b = .ok p) :
    p.joined = joinedBelow p.head b.joins := by
  obtain ⟨filter, order, _, _, rfl⟩ := assemble_cases h
  simp [joined]

/-- The occurrences of an assembled plan are its own and those of the joins below it. -/
theorem occurrences_of_assemble {f : FieldDef} {o : ObjectType} {aliasName : String}
    {args : Members Json} {b : Body} {p : Plan} (h : assemble d f o aliasName args b = .ok p) :
    p.occurrences = p.head :: joinOccurrences b.joins := by
  simp [occurrences, joined_of_assemble h]

/-- The occurrences below another one have the aliases that come next. -/
theorem Planned.aliases {o : ObjectType} {aliasName : String} {placed next : Nat}
    {ss : List Selection} {b : Body} (h : Planned d types o aliasName placed next ss b) :
    next ≤ b.next ∧ (joinOccurrences b.joins).map (·.aliasName)
      = (List.range' next (b.next - next)).map aliasOf := by
  induction h with
  | nil o aliasName placed next => exact ⟨Nat.le_refl _, by simp⟩
  | reserved _ _ ih => exact ih
  | unread _ _ _ _ _ ih => exact ih
  | column _ _ _ _ _ ih => exact ih
  | @join o aliasName placed next s rest inner more f b child _ _ _ _ ha _ ihb ih =>
    obtain ⟨hinner, hbelow⟩ := ihb
    obtain ⟨hmore, hrest⟩ := ih
    have hnext : next ≤ more.next := by omega
    refine ⟨hnext, ?_⟩
    have hchild : (occurrences child).map (·.aliasName)
        = (List.range' next (inner.next - next)).map aliasOf := by
      have hlength : inner.next - next = inner.next - (next + 1) + 1 := by omega
      rw [occurrences_of_assemble ha, List.map_cons, hbelow, aliasName_of_assemble ha, hlength,
        List.range'_succ, List.map_cons]
    have hsplit : List.range' next (more.next - next)
        = List.range' next (inner.next - next) ++ List.range' inner.next (more.next - inner.next) := by
      have hstart : inner.next = next + (inner.next - next) := by omega
      have hlength : more.next - next = inner.next - next + (more.next - inner.next) := by omega
      rw [hlength, ← List.range'_append_1, ← hstart]
    simp [hchild, hrest, hsplit]

/-- An assembled occurrence is numbered. -/
theorem numbered_head {n : Nat} {o : ObjectType} {columns : List ColumnSelect} {filter : String}
    {order : Ordering.Terms} (h : columns.map (·.label)
      = (List.range' 0 columns.length).map (columnLabel (aliasOf n))) :
    Occurrence.Numbered ⟨aliasOf n, o.table, o.primary,
      (identityColumns o).zipIdx.map fun x => (x.1, identityLabel (aliasOf n) x.2), columns, filter,
      order⟩ where
  place := ⟨n, rfl⟩
  identity := by
    rw [List.map_map, List.length_map, List.length_zipIdx, List.range_eq_range',
      ← List.zipIdx_map_snd 0 (identityColumns o), List.map_map]
    rfl
  columns := by rw [h, List.range_eq_range']

/-- The columns of an occurrence are numbered, and so are those of the occurrences below it. -/
theorem Planned.numbered {o : ObjectType} {aliasName : String} {placed next : Nat}
    {ss : List Selection} {b : Body} (h : Planned d types o aliasName placed next ss b) :
    b.columns.map (·.label)
        = (List.range' placed b.columns.length).map (columnLabel aliasName)
      ∧ ∀ q ∈ joinOccurrences b.joins, q.Numbered := by
  induction h with
  | nil => exact ⟨rfl, fun q hq => absurd hq List.not_mem_nil⟩
  | reserved _ _ ih => exact ih
  | unread _ _ _ _ _ ih => exact ih
  | column _ _ _ _ _ ih =>
    obtain ⟨hcolumns, hjoins⟩ := ih
    refine ⟨?_, hjoins⟩
    rw [List.map_cons, hcolumns, List.length_cons, List.range'_succ, List.map_cons]
    rfl
  | @join o aliasName placed next s rest inner more f b child _ _ _ _ ha _ ihb ih =>
    refine ⟨ih.1, fun q hq => ?_⟩
    rw [joinOccurrences, List.mem_append] at hq
    rcases hq with hq | hq
    · obtain ⟨filter, order, _, _, rfl⟩ := assemble_cases ha
      rw [occurrences_node] at hq
      rcases List.mem_cons.mp hq with rfl | hq
      · exact numbered_head ihb.1
      · exact ihb.2 q hq
    · exact ih.2 q hq

/-- The aliases of the occurrences of a plan, depth first, are numbered from zero on. -/
theorem ofRoot_aliases {f : FieldDef} {s : Selection} {p : Plan} (h : ofRoot d types f s = .ok p) :
    p.occurrences.map (·.aliasName) = (List.range p.occurrences.length).map aliasOf := by
  obtain ⟨_, b, inner, _, _, hplanned, ha⟩ := ofRoot_eq_ok_iff.mp h
  obtain ⟨hnext, hnumbered⟩ := hplanned.aliases
  have haliases : p.occurrences.map (·.aliasName) = (List.range inner.next).map aliasOf := by
    have hlength : inner.next = inner.next - 1 + 1 := by omega
    rw [occurrences_of_assemble ha, List.map_cons, hnumbered, aliasName_of_assemble ha, hlength,
      List.range_eq_range', List.range'_succ, List.map_cons, Nat.add_sub_cancel]
  have hlength := congrArg List.length haliases
  rw [List.length_map, List.length_map, List.length_range] at hlength
  rw [haliases, hlength]

/-- Different occurrences of a plan have different aliases. -/
theorem ofRoot_nodup_aliases {f : FieldDef} {s : Selection} {p : Plan}
    (h : ofRoot d types f s = .ok p) : (p.occurrences.map (·.aliasName)).Nodup := by
  rw [ofRoot_aliases h]
  exact List.nodup_range.map aliasOf_injective

/-- The occurrences of a plan are numbered. -/
theorem ofRoot_numbered {f : FieldDef} {s : Selection} {p : Plan} (h : ofRoot d types f s = .ok p) :
    ∀ q ∈ p.occurrences, q.Numbered := by
  obtain ⟨_, b, inner, _, _, hplanned, ha⟩ := ofRoot_eq_ok_iff.mp h
  obtain ⟨filter, order, _, _, rfl⟩ := assemble_cases ha
  intro q hq
  rw [occurrences_node] at hq
  rcases List.mem_cons.mp hq with rfl | hq
  · exact numbered_head hplanned.numbered.1
  · exact hplanned.numbered.2 q hq

/-- The labels of a plan are different. -/
theorem ofRoot_nodup_labels {f : FieldDef} {s : Selection} {p : Plan}
    (h : ofRoot d types f s = .ok p) : p.labels.Nodup := by
  have hdistinct : p.occurrences.Pairwise fun a b => a.aliasName ≠ b.aliasName :=
    List.pairwise_map.mp (ofRoot_nodup_aliases h)
  have hnumbered := ofRoot_numbered h
  rw [labels_eq, List.nodup_flatMap]
  refine ⟨fun q hq => (hnumbered q hq).nodup_labels, hdistinct.imp_of_mem ?_⟩
  intro a b ha hb hne label hla hlb
  exact hne ((hnumbered a ha).aliasName_eq (hnumbered b hb) hla hlb)

end

end Plan

end TableGraph
