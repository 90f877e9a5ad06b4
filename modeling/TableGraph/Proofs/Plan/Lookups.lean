import TableGraph.Proofs.Plan.Asked
import TableGraph.Proofs.Plan.Entities
import TableGraph.Proofs.Plan.Identity

/-!
# Labels that are looked up

A plan looks a label up when the objects it tells depend on the value under the label. These are the
labels of its occurrences and no others: rows that agree under them tell the same objects, and under
each of them there are rows that tell others when the value is another.
-/

namespace TableGraph

namespace Row

/-- The row with a value set under a label. -/
def set (label : String) (v : Json) (row : Row) : Row := (label, v) :: row

/-- Nothing is found in an empty row. -/
@[simp]
theorem value_nil (label : String) : value [] label = .null := rfl

/-- What is found under a label of a row with a value set. -/
@[simp]
theorem value_set (label : String) (v : Json) (row : Row) (other : String) :
    (row.set label v).value other = if label = other then v else row.value other := by
  by_cases h : label = other
  · simp [value, set, h]
  · simp [value, set, h]

/-- Rows with the same values under labels. -/
def Agree (labels : List String) (a b : Row) : Prop := ∀ label ∈ labels, a.value label = b.value label

end Row

namespace Occurrence

variable {o : Occurrence}

/-- The label under which a value tells that there is an object. -/
def anchor (o : Occurrence) : String :=
  match o.primary with
  | some _ => o.keyLabel
  | none => o.rowLabel

/-- The anchor is the first label. -/
theorem exists_labels_eq (o : Occurrence) : ∃ rest, o.labels = o.anchor :: rest := by
  unfold labels anchor
  cases o.primary with
  | some column => exact ⟨_, rfl⟩
  | none => exact ⟨_, rfl⟩

/-- Rows that agree under the labels of an occurrence have the same identity. -/
theorem identityOf?_congr {a b : Row} (h : Row.Agree o.labels a b) :
    o.identityOf? a = o.identityOf? b := by
  have hv : o.identifying a = o.identifying b := by
    unfold Row.Agree labels at h
    unfold identifying
    cases hp : o.primary with
    | some column =>
      rw [hp] at h
      rw [h o.keyLabel List.mem_cons_self]
    | none =>
      rw [hp] at h
      have hrest : ∀ label ∈ o.identity.map (·.2) ++ o.columns.map (·.label),
          a.value label = b.value label := fun label hl => h label (List.mem_cons_of_mem _ hl)
      rw [h o.rowLabel List.mem_cons_self, List.map_congr_left hrest]
  exact identityOf?_eq_of_identifying hv

/-- A row in which the anchor is there has an identity. -/
theorem identityOf?_ne_none_of_anchor {row : Row} (h : (row.value o.anchor).isNull = false) :
    o.identityOf? row ≠ none := by
  unfold anchor at h
  unfold identityOf? identifying
  cases hp : o.primary with
  | some column =>
    rw [hp] at h
    simp [h]
  | none =>
    rw [hp] at h
    simp [h]

/-- An empty row has no identity. -/
@[simp]
theorem identityOf?_empty (o : Occurrence) : o.identityOf? [] = none := by
  unfold identityOf? identifying
  cases o.primary <;> simp [Json.isNull]

/-- Without a primary key any value tells that there is an object. -/
theorem identityOf?_set_ne_none (hp : o.primary = none) {label : String} (hl : label ∈ o.labels) :
    o.identityOf? (Row.set label (.bool true) []) ≠ none := by
  have hvalue : (Row.value (Row.set label (.bool true) []) label).isNull = false := by
    simp [Json.isNull]
  rw [labels, hp] at hl
  rcases List.mem_cons.mp hl with rfl | hl
  · apply identityOf?_ne_none_of_anchor
    unfold anchor
    rwa [hp]
  · by_cases hrow : (Row.value (Row.set label (.bool true) []) o.rowLabel).isNull = true
    · intro hnone
      have hall := identityOf?_eq_none_iff.mp hnone
      have hmem : Row.value (Row.set label (.bool true) []) label
          ∈ o.identifying (Row.set label (.bool true) []) := by
        unfold identifying
        simp only [hp, hrow, Bool.not_true, Bool.false_eq_true, if_false]
        exact List.mem_map_of_mem hl
      rw [hall _ hmem] at hvalue
      cases hvalue
    · apply identityOf?_ne_none_of_anchor
      unfold anchor
      rw [hp]
      simpa using hrow

section

variable {β : Type} {f g : β → Row} {xs : List β}

/-- Rows that agree under the labels of an occurrence are grouped alike. -/
theorem exists_groups (h : ∀ x ∈ xs, Row.Agree o.labels (f x) (g x)) :
    ∃ groups : List (String × List β), (∀ e ∈ groups, e.2 ⊆ xs)
      ∧ o.groupRows (xs.map f) = groups.map (fun e => (e.1, e.2.map f))
      ∧ o.groupRows (xs.map g) = groups.map (fun e => (e.1, e.2.map g)) := by
  have hkeys : xs.filterMap (fun x => o.identityOf? (f x))
      = xs.filterMap fun x => o.identityOf? (g x) :=
    List.filterMap_congr fun x hx => identityOf?_congr (h x hx)
  have hrows : ∀ k, xs.filter (fun x => o.identityOf? (f x) = some k)
      = xs.filter fun x => o.identityOf? (g x) = some k := fun k =>
    List.filter_congr fun x hx => by rw [identityOf?_congr (h x hx)]
  refine ⟨(distinctBy id (xs.filterMap fun x => o.identityOf? (f x))).map fun k =>
    (k, xs.filter fun x => o.identityOf? (f x) = some k), ?_, ?_, ?_⟩
  · intro e he
    obtain ⟨k, _, rfl⟩ := List.mem_map.mp he
    exact fun x hx => (List.mem_filter.mp hx).1
  · rw [groupRows_eq, List.map_map, List.filterMap_map]
    refine List.map_congr_left fun k _ => ?_
    rw [rowsOf, List.filter_map]
    rfl
  · rw [groupRows_eq, List.map_map, List.filterMap_map, hkeys]
    refine List.map_congr_left fun k _ => ?_
    rw [rowsOf, List.filter_map, Function.comp_apply, hrows]
    rfl

/-- Rows that agree under the labels of an occurrence give an object the same members of its own. -/
theorem ownMembers_congr (h : ∀ x ∈ xs, Row.Agree o.labels (f x) (g x)) :
    o.ownMembers (xs.map f) = o.ownMembers (xs.map g) := by
  cases xs with
  | nil => rfl
  | cons x xs =>
    have hx := h x List.mem_cons_self
    unfold Row.Agree labels at hx
    have hcolumns : ∀ c ∈ o.columns, (c.key, (f x).value c.label) = (c.key, (g x).value c.label) := by
      intro c hc
      rw [hx c.label (List.mem_append_right _ (List.mem_map_of_mem hc))]
    unfold ownMembers
    simp only [List.map_cons, List.head?_cons, Option.getD_some]
    rw [List.map_congr_left hcolumns]
    cases hp : o.primary with
    | some column =>
      rw [hp] at hx
      dsimp only
      rw [hx o.keyLabel List.mem_cons_self]
    | none => rfl

end

end Occurrence

namespace Plan

mutual

/-- Rows that agree under the labels of a plan tell the same objects. -/
theorem hydrate_map_congr {β : Type} {f g : β → Row} : ∀ (p : Plan) (xs : List β),
    (∀ x ∈ xs, Row.Agree p.labels (f x) (g x)) → p.hydrate (xs.map f) = p.hydrate (xs.map g)
  | .node head joins, xs, h => by
    have hhead : ∀ x ∈ xs, Row.Agree head.labels (f x) (g x) := fun x hx label hl =>
      h x hx label (by rw [labels]; exact List.mem_append_left _ hl)
    have hjoins : ∀ x ∈ xs, Row.Agree (joinLabels joins) (f x) (g x) := fun x hx label hl =>
      h x hx label (by rw [labels]; exact List.mem_append_right _ hl)
    obtain ⟨groups, hsub, hf, hg⟩ := Occurrence.exists_groups hhead
    rw [hydrate, hydrate, hf, hg, List.map_map, List.map_map]
    refine List.map_congr_left fun e he => ?_
    have hown := Occurrence.ownMembers_congr fun x hx => hhead x (hsub e he hx)
    have hbelow := hydrateJoins_map_congr joins e.2 fun x hx => hjoins x (hsub e he hx)
    simp only [Function.comp_apply, hown, hbelow]

/-- Rows that agree under the labels of joins tell the same members for them. -/
theorem hydrateJoins_map_congr {β : Type} {f g : β → Row} : ∀ (joins : List (JoinHead × Plan))
    (xs : List β), (∀ x ∈ xs, Row.Agree (joinLabels joins) (f x) (g x)) →
      hydrateJoins joins (xs.map f) = hydrateJoins joins (xs.map g)
  | [], _, _ => rfl
  | (j, p) :: rest, xs, h => by
    have hp := hydrate_map_congr p xs fun x hx label hl =>
      h x hx label (by rw [joinLabels]; exact List.mem_append_left _ hl)
    have hrest := hydrateJoins_map_congr rest xs fun x hx label hl =>
      h x hx label (by rw [joinLabels]; exact List.mem_append_right _ hl)
    rw [hydrateJoins, hydrateJoins, hp, hrest]

end

/-- Rows that agree under the labels of a plan tell the same object. -/
theorem hydrate_singleton_congr {p : Plan} {a b : Row} (h : Row.Agree p.labels a b) :
    p.hydrate [a] = p.hydrate [b] :=
  hydrate_map_congr (f := fun _ => a) (g := fun _ => b) p [()] fun _ _ => h

/-- Whether a label is looked up: other values under it make other objects. -/
def LooksUp (p : Plan) (label : String) : Prop :=
  ∃ (rows : List Row) (v : Row → Json),
    p.hydrate (rows.map fun row => row.set label (v row)) ≠ p.hydrate rows

/-- Only the labels of a plan are looked up. -/
theorem mem_labels_of_looksUp {p : Plan} {label : String} (h : p.LooksUp label) :
    label ∈ p.labels := by
  obtain ⟨rows, v, hne⟩ := h
  by_contra hl
  apply hne
  have hagree : ∀ row ∈ rows, Row.Agree p.labels (row.set label (v row)) (id row) := by
    intro row _ other ho
    have hother : label ≠ other := by
      rintro rfl
      exact hl ho
    simp [hother]
  rw [hydrate_map_congr p rows hagree, List.map_id]

mutual

/-- No two members of an object have the same response key. -/
def KeysApart : Plan → Prop
  | .node head joins =>
    (head.columns.map (·.key) ++ joins.map (·.1.key)).Nodup ∧ JoinsKeysApart joins

/-- No two members of an object of joins have the same response key. -/
def JoinsKeysApart : List (JoinHead × Plan) → Prop
  | [] => True
  | (_, p) :: rest => KeysApart p ∧ JoinsKeysApart rest

end

/-- The members of an object that a row tells on its own. -/
def rowMembers (head : Occurrence) (joins : List (JoinHead × Plan)) (row : Row) :
    List (String × Json) := head.ownMembers [row] ++ hydrateJoins joins [row]

section

variable {head : Occurrence} {joins : List (JoinHead × Plan)} {row row' : Row}

/-- A row without an identity tells no object. -/
theorem hydrate_singleton_of_none (h : head.identityOf? row = none) :
    hydrate (.node head joins) [row] = [] := by
  simp [hydrate, Occurrence.groupRows, h]

/-- A row with an identity tells one object. -/
theorem hydrate_singleton (h : head.identityOf? row ≠ none) :
    hydrate (.node head joins) [row] = [.obj (Members.ofList (rowMembers head joins row))] := by
  obtain ⟨key, hkey⟩ := Option.ne_none_iff_exists'.mp h
  simp [hydrate, Occurrence.groupRows, hkey, upsert, rowMembers]

/-- A row tells at most one object. -/
theorem hydrate_singleton_cases (p : Plan) (row : Row) :
    p.hydrate [row] = [] ∨ ∃ ms, p.hydrate [row] = [.obj ms] := by
  obtain ⟨head, joins⟩ := p
  by_cases h : head.identityOf? row = none
  · exact Or.inl (hydrate_singleton_of_none h)
  · exact Or.inr ⟨_, hydrate_singleton h⟩

/-- Different objects of a row are different values of the join. -/
theorem value_singleton_ne {p : Plan} (j : JoinHead)
    (h : p.hydrate [row] ≠ p.hydrate [row']) :
    j.value (p.hydrate [row]) ≠ j.value (p.hydrate [row']) := by
  intro he
  apply h
  unfold JoinHead.value at he
  cases hc : j.cardinality with
  | many =>
    rw [hc] at he
    exact Json.arr.inj he
  | one =>
    rw [hc] at he
    rcases hydrate_singleton_cases p row with hr | ⟨ms, hr⟩
    · rcases hydrate_singleton_cases p row' with hr' | ⟨ms', hr'⟩
      · rw [hr, hr']
      · rw [hr, hr'] at he
        cases he
    · rcases hydrate_singleton_cases p row' with hr' | ⟨ms', hr'⟩
      · rw [hr, hr'] at he
        cases he
      · rw [hr, hr'] at he ⊢
        exact congrArg (fun x => [x]) he

/-- A row that tells an object when a label has a value, and none before, looks the label up. -/
theorem hydrate_set_ne_of_identity {label : String} (hnone : head.identityOf? row = none)
    (hsome : head.identityOf? (row.set label (.bool true)) ≠ none) :
    hydrate (.node head joins) [row.set label (.bool true)] ≠ hydrate (.node head joins) [row] := by
  rw [hydrate_singleton hsome, hydrate_singleton_of_none hnone]
  exact List.cons_ne_nil _ _

/-- Objects that have different values under a response key are different. -/
theorem hydrate_singleton_ne (key : String) (h : head.identityOf? row ≠ none)
    (h' : head.identityOf? row' ≠ none)
    (hv : Members.get? (Members.ofList (rowMembers head joins row)) key
      ≠ Members.get? (Members.ofList (rowMembers head joins row')) key) :
    hydrate (.node head joins) [row] ≠ hydrate (.node head joins) [row'] := by
  rw [hydrate_singleton h, hydrate_singleton h']
  intro he
  rw [Json.obj.inj (List.cons.inj he).1] at hv
  exact hv rfl

/-- The member of an object for a column. -/
theorem get?_rowMembers_column (hn : (head.columns.map (·.key) ++ joins.map (·.1.key)).Nodup)
    {c : ColumnSelect} (hc : c ∈ head.columns) (row : Row) :
    Members.get? (Members.ofList (rowMembers head joins row)) c.key = some (row.value c.label) := by
  obtain ⟨before, after, hsplit⟩ := List.append_of_mem hc
  rw [hsplit, List.map_append, List.map_cons, List.append_assoc, List.cons_append,
    List.nodup_append] at hn
  have hnew := (List.nodup_cons.mp hn.2.1).1
  have hmembers : ∃ front, rowMembers head joins row = front ++ (c.key, row.value c.label)
      :: (after.map (fun c => (c.key, row.value c.label)) ++ hydrateJoins joins [row]) := by
    refine ⟨(match head.primary with
        | some _ => [(keyMember, row.value head.keyLabel)]
        | none => []) ++ before.map fun c => (c.key, row.value c.label), ?_⟩
    rw [rowMembers, Occurrence.ownMembers, hsplit, List.map_append, List.map_cons]
    simp only [List.append_assoc, List.cons_append]
    rfl
  obtain ⟨front, hfront⟩ := hmembers
  rw [hfront]
  apply Members.get?_ofList_append_cons
  simpa using hnew

/-- The members for joins stand in the order of the joins. -/
@[simp]
theorem hydrateJoins_append (before after : List (JoinHead × Plan)) (rows : List Row) :
    hydrateJoins (before ++ after) rows = hydrateJoins before rows ++ hydrateJoins after rows := by
  induction before with
  | nil => rfl
  | cons e before ih =>
    obtain ⟨j, p⟩ := e
    simp [hydrateJoins, ih]

/-- The member of an object for a join. -/
theorem get?_rowMembers_join (hn : (head.columns.map (·.key) ++ joins.map (·.1.key)).Nodup)
    {j : JoinHead} {q : Plan} (hj : (j, q) ∈ joins) (row : Row) :
    Members.get? (Members.ofList (rowMembers head joins row)) j.key
      = some (j.value (q.hydrate [row])) := by
  obtain ⟨before, after, rfl⟩ := List.append_of_mem hj
  have hnew : j.key ∉ after.map (·.1.key) := by
    rw [List.map_append, List.map_cons, ← List.append_assoc, List.nodup_append] at hn
    exact (List.nodup_cons.mp hn.2.1).1
  rw [rowMembers, hydrateJoins_append, hydrateJoins, ← List.append_assoc]
  apply Members.get?_ofList_append_cons
  rwa [names_hydrateJoins]

end

mutual

/-- Under each label of a plan there is a row that tells another object when the value is another. -/
theorem exists_row_of_mem_labels {label : String} : ∀ (p : Plan), p.labels.Nodup → p.KeysApart →
    label ∈ p.labels → ∃ row v, p.hydrate [Row.set label v row] ≠ p.hydrate [row]
  | .node head joins, hn, hk, hl => by
    rw [labels, List.nodup_append] at hn
    rw [labels] at hl
    obtain ⟨hhead, hjoins, hdisjoint⟩ := hn
    obtain ⟨hkeys, hbelow⟩ := hk
    have hanchor : head.anchor ∈ head.labels := by
      obtain ⟨rest, hrest⟩ := head.exists_labels_eq
      rw [hrest]
      exact List.mem_cons_self
    have hthere : ∀ {row : Row}, row.value head.anchor = .bool true →
        head.identityOf? row ≠ none := fun hrow =>
      Occurrence.identityOf?_ne_none_of_anchor (by rw [hrow]; rfl)
    rcases List.mem_append.mp hl with hl | hl
    · by_cases hidentity : label = head.anchor ∨ head.primary = none
      · -- The value tells whether there is an object.
        refine ⟨[], .bool true, hydrate_set_ne_of_identity head.identityOf?_empty ?_⟩
        rcases hidentity with rfl | hp
        · exact hthere (by simp)
        · exact Occurrence.identityOf?_set_ne_none hp hl
      · -- The value is that of a column of an object that is there.
        obtain ⟨hne, hp⟩ := not_or.mp hidentity
        obtain ⟨column, hcolumn⟩ := Option.ne_none_iff_exists'.mp hp
        have hselected : ∃ c ∈ head.columns, c.label = label := by
          rw [Occurrence.labels_of_primary (by rw [hcolumn]; rfl)] at hl
          rcases List.mem_cons.mp hl with he | hl
          · exact absurd (by rw [he, Occurrence.anchor, hcolumn]) hne
          · exact List.mem_map.mp hl
        obtain ⟨c, hc, rfl⟩ := hselected
        refine ⟨Row.set head.anchor (.bool true) [], .bool true,
          hydrate_singleton_ne c.key (hthere ?_) (hthere ?_) ?_⟩
        · simp [hne]
        · simp
        · simp [get?_rowMembers_column hkeys hc, Ne.symm hne]
    · -- The value is one of an object below an object that is there.
      obtain ⟨j, q, row, v, hj, hsub, hrow⟩ := exists_join_of_mem_labels joins hjoins hbelow hl
      have hne : ∀ other ∈ q.labels, head.anchor ≠ other := fun other ho =>
        hdisjoint _ hanchor _ (hsub ho)
      have habove : q.hydrate [Row.set head.anchor (.bool true) row] = q.hydrate [row] := by
        refine hydrate_singleton_congr fun other ho => ?_
        simp [hne other ho]
      have hset : q.hydrate [Row.set label v (Row.set head.anchor (.bool true) row)]
          = q.hydrate [Row.set label v row] := by
        refine hydrate_singleton_congr fun other ho => ?_
        simp [hne other ho]
      refine ⟨Row.set head.anchor (.bool true) row, v,
        hydrate_singleton_ne j.key (hthere ?_) (hthere ?_) ?_⟩
      · simp [(hdisjoint _ hanchor _ hl).symm]
      · simp
      · rw [get?_rowMembers_join hkeys hj, get?_rowMembers_join hkeys hj, hset, habove]
        exact fun he => value_singleton_ne j hrow (Option.some.inj he)

/-- A label of joins is one of a join in which it tells objects apart. -/
theorem exists_join_of_mem_labels {label : String} : ∀ (joins : List (JoinHead × Plan)),
    (joinLabels joins).Nodup → JoinsKeysApart joins → label ∈ joinLabels joins →
      ∃ j q row v, (j, q) ∈ joins ∧ q.labels ⊆ joinLabels joins
        ∧ q.hydrate [Row.set label v row] ≠ q.hydrate [row]
  | [], _, _, hl => absurd hl List.not_mem_nil
  | (j, q) :: rest, hn, hk, hl => by
    rw [joinLabels, List.nodup_append] at hn
    rw [joinLabels] at hl ⊢
    rcases List.mem_append.mp hl with hl | hl
    · obtain ⟨row, v, hrow⟩ := exists_row_of_mem_labels q hn.1 hk.1 hl
      exact ⟨j, q, row, v, List.mem_cons_self, List.subset_append_left _ _, hrow⟩
    · obtain ⟨i, r, row, v, hr, hsub, hrow⟩ := exists_join_of_mem_labels rest hn.2.1 hk.2 hl
      exact ⟨i, r, row, v, List.mem_cons_of_mem _ hr,
        List.Subset.trans hsub (List.subset_append_right _ _), hrow⟩

end

/-- The labels of a plan are those that are looked up. -/
theorem looksUp_iff {p : Plan} (hn : p.labels.Nodup) (hk : p.KeysApart) {label : String} :
    p.LooksUp label ↔ label ∈ p.labels := by
  refine ⟨mem_labels_of_looksUp, fun hl => ?_⟩
  obtain ⟨row, v, hrow⟩ := exists_row_of_mem_labels p hn hk hl
  exact ⟨[row], fun _ => v, hrow⟩

end Plan

end TableGraph
