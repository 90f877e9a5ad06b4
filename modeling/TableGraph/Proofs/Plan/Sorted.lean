import TableGraph.Proofs.Firsts
import TableGraph.Proofs.Plan.RankedRows

/-!
# Answers in order

Rows in the order of the statement answer every list of objects in the order of its own occurrence.
Joins multiply rows, so the rows of one object are scattered in the order of its joins; but where
each object is shown first, it is shown with the same parts around it as the object before, and of
those two rows the terms of the object decide. Nothing but the first appearances counts for an
answer, and they stay in order from the rows of a plan to the rows of each join of each object.
-/

namespace TableGraph

namespace RankedRow

variable {le : Json → Json → Prop} {terms : List SortTerm} {labels : List String}
  {rows others : List RankedRow}

/-- What a row shows under labels, with its values under the terms. -/
def view (labels : List String) (r : RankedRow) : (String → Json) × List Json :=
  (Row.shown labels r.row, r.ranks)

/-- A row with a part of its values under the terms. -/
def cut (part : List Json → List Json) (r : RankedRow) : RankedRow := ⟨r.row, part r.ranks⟩

/-- Rows that show what others show, in the order of terms where they show it first. -/
def InOrder (le : Json → Json → Prop) (terms : List SortTerm) (labels : List String)
    (rows others : List RankedRow) : Prop :=
  FirstsInOrder (fun v w => SortTerm.Le le terms v.2 w.2) (rows.map (view labels))
    (others.map (view labels))

/-- What is read of a row does not depend on its values under the terms. -/
theorem map_row_cut (part : List Json → List Json) (rows : List RankedRow) :
    (rows.map (cut part)).map row = rows.map row := by
  rw [List.map_map]
  rfl

/-- What is read of the rows with a key. -/
theorem map_row_rowsOf (o : Occurrence) (key : String) (rows : List RankedRow) :
    (rows.filter fun r => o.identityOf? r.row = some key).map row = o.rowsOf key (rows.map row) := by
  rw [Occurrence.rowsOf, List.filter_map]
  rfl

/-- Rows in order show what the others show. -/
theorem InOrder.sameShown (h : InOrder le terms labels rows others) :
    Row.SameShown labels (rows.map row) (others.map row) := by
  have hview : ∀ xs : List RankedRow,
      (xs.map row).map (Row.shown labels) = (xs.map (view labels)).map Prod.fst := by
    intro xs
    rw [List.map_map, List.map_map]
    rfl
  intro v
  rw [hview, hview, List.mem_map, List.mem_map]
  simp only [h.same]

section

variable {fewer : List String} {part : List Json → List Json} {q : Row → Bool}
  {w : (String → Json) → Bool}

/-- What is seen under fewer labels and values, if it is chosen. -/
def narrow? (fewer : List String) (part : List Json → List Json) (w : (String → Json) → Bool)
    (v : (String → Json) × List Json) : Option ((String → Json) × List Json) :=
  if w v.1 then some (fun label => if label ∈ fewer then v.1 label else .null, part v.2) else none

/-- What is seen of a row under fewer labels and values is part of what is seen of it. -/
theorem narrow?_view (part : List Json → List Json) (hf : fewer ⊆ labels)
    (hq : ∀ row, q row = w (Row.shown labels row)) (r : RankedRow) :
    narrow? fewer part w (view labels r)
      = if q r.row then some ((r.cut part).view fewer) else none := by
  simp only [narrow?, view, cut, ← hq, Row.shown_narrow hf r.row]

/-- What is seen of chosen rows under fewer labels and values. -/
theorem map_view_cut (part : List Json → List Json) (hf : fewer ⊆ labels)
    (hq : ∀ row, q row = w (Row.shown labels row)) (rows : List RankedRow) :
    ((rows.filter fun r => q r.row).map (cut part)).map (view fewer)
      = (rows.map (view labels)).filterMap (narrow? fewer part w) := by
  rw [List.filterMap_map, List.map_map, ← List.filterMap_eq_map, List.filterMap_filter]
  apply List.filterMap_congr
  intro r _
  exact (narrow?_view part hf hq r).symm

/-- Rows in order stay in order when they are chosen by what they show and looked at under fewer
labels and values, if of two rows the values are in order whenever the one stands before all rows of
which the same is seen as of the other. -/
theorem InOrder.cut {terms' : List SortTerm} (h : InOrder le terms labels rows others)
    (part : List Json → List Json) (hf : fewer ⊆ labels)
    (hq : ∀ row, q row = w (Row.shown labels row))
    (ho : ∀ r ∈ others, ∀ s ∈ others, q r.row → q s.row →
      (∀ t ∈ others, q t.row → (t.cut part).view fewer = (s.cut part).view fewer →
        SortTerm.Le le terms r.ranks t.ranks) →
      SortTerm.Le le terms' (part r.ranks) (part s.ranks)) :
    InOrder le terms' fewer ((rows.filter fun r => q r.row).map (RankedRow.cut part))
      ((others.filter fun r => q r.row).map (RankedRow.cut part)) := by
  unfold InOrder at h ⊢
  rw [map_view_cut part hf hq, map_view_cut part hf hq]
  apply h.filterMap
  intro x hx b c hb hc hbefore
  obtain ⟨r, hr, rfl⟩ := List.mem_map.mp hx
  rw [← map_view_cut part hf hq] at hc
  obtain ⟨_, hchosen, rfl⟩ := List.mem_map.mp hc
  obtain ⟨s, hs, rfl⟩ := List.mem_map.mp hchosen
  obtain ⟨hs, hqs⟩ := List.mem_filter.mp hs
  rw [narrow?_view part hf hq, Option.ite_none_right_eq_some, Option.some.injEq] at hb
  obtain ⟨hqr, rfl⟩ := hb
  refine ho r hr s hs hqr hqs fun t ht hqt hts => hbefore (view labels t) (List.mem_map_of_mem ht) ?_
  rw [narrow?_view part hf hq, if_pos hqt, hts]

/-- Rows in order stay in order when all are looked at under fewer labels and values. -/
theorem InOrder.cut_all {terms' : List SortTerm} (h : InOrder le terms labels rows others)
    (part : List Json → List Json) (hf : fewer ⊆ labels)
    (ho : ∀ r ∈ others, ∀ s ∈ others,
      (∀ t ∈ others, (t.cut part).view fewer = (s.cut part).view fewer →
        SortTerm.Le le terms r.ranks t.ranks) →
      SortTerm.Le le terms' (part r.ranks) (part s.ranks)) :
    InOrder le terms' fewer (rows.map (RankedRow.cut part)) (others.map (RankedRow.cut part)) := by
  have hall := h.cut (q := fun _ => true) (w := fun _ => true) part hf (fun _ => rfl)
    fun r hr s hs _ _ hrs => ho r hr s hs fun t ht => hrs t ht rfl
  simpa only [List.filter_true] using hall

end

/-- What is seen of the other rows counts. -/
theorem InOrder.congr {others' : List RankedRow} (h : InOrder le terms labels rows others)
    (hs : ∀ v, v ∈ others.map (view labels) ↔ v ∈ others'.map (view labels)) :
    InOrder le terms labels rows others' :=
  ⟨fun v => (h.same v).trans (hs v), h.ordered⟩

end RankedRow

namespace Plan

section

variable {le : Json → Json → Prop} {head : Occurrence} {joins : List (JoinHead × Plan)}
  {es : List Ranked} {rows : List RankedRow}

/-- A row of a join shows its own labels beside its object. -/
theorem view_cut_objectRow (hp : ∀ o ∈ joinOccurrences joins, o.primary.isSome) {e : Ranked}
    (hh : JoinsHold joins (Ranked.childEntities e.children))
    (hlength : e.ranks.length = head.order.length)
    (hc : ∀ b ∈ rankedRows joins e.children, (objectRow head e b).row.Consistent) {b : RankedRow}
    (hb : b ∈ rankedRows joins e.children) :
    ((objectRow head e b).cut (List.drop head.order.length)).view (joinLabels joins)
      = b.view (joinLabels joins) := by
  have hrow : b.row ∈ joinRows joins (Ranked.childEntities e.children) := by
    rw [← map_row_rankedRows]
    exact List.mem_map_of_mem hb
  have hnames := names_joinRows joins _ hp hh b.row hrow
  rw [RankedRow.view, RankedRow.view, Prod.mk.injEq]
  exact ⟨(hc b hb).shown_right hnames, List.drop_left' hlength⟩

/-- Rows in the order of a plan are, with the key of an object, in the order of its joins. -/
theorem inOrder_rowsOf (hle : ∀ v, le v v)
    (hp : ∀ o ∈ (Plan.node head joins).occurrences, o.primary.isSome)
    (hh : (Plan.node head joins).Holds (Ranked.entities es)) (hr : (Plan.node head joins).Ranks es)
    (hc : ∀ r ∈ (Plan.node head joins).rankedMatched es, r.row.Consistent)
    (h : RankedRow.InOrder le (Plan.node head joins).sortTerms (Plan.node head joins).labels rows
      ((Plan.node head joins).rankedMatched es)) {e : Ranked} (he : e ∈ es) :
    RankedRow.InOrder le (joinSortTerms joins) (joinLabels joins)
      ((rows.filter fun r => head.identityOf? r.row = some (Occurrence.keyText e.key)).map
        (RankedRow.cut (List.drop head.order.length)))
      (rankedRows joins e.children) := by
  rw [occurrences_node, List.forall_mem_cons] at hp
  have hmem := fun r : RankedRow => mem_rankedMatched_keyText_iff hp.1 hh he (r := r)
  have hlength := (hr e he).1
  have hview := fun b hb => view_cut_objectRow hp.2 (hh.of_mem he).2.2 hlength
    (fun b hb => hc _ ((hmem _).mpr ⟨b, hb, rfl⟩).1) (b := b) hb
  refine (h.cut (q := fun row => head.identityOf? row = some (Occurrence.keyText e.key))
    (w := fun view => head.identityShown view = some (Occurrence.keyText e.key))
    (List.drop head.order.length) (List.subset_append_right _ _) ?_ ?_).congr ?_
  · intro row
    rw [Occurrence.identityOf?_eq_shown hp.1 (keyLabel_mem_labels hp.1)]
  · intro r hr s hs hqr hqs hbefore
    obtain ⟨b, hb, rfl⟩ := (hmem r).mp ⟨hr, of_decide_eq_true hqr⟩
    obtain ⟨b', hb', rfl⟩ := (hmem s).mp ⟨hs, of_decide_eq_true hqs⟩
    have hall := hbefore _ hs hqs rfl
    have hterms : e.ranks.length = head.sortTerms.length := by
      rw [hlength, Occurrence.sortTerms, List.length_map]
    -- The object is tied with itself, so that the terms of the joins decide.
    have hrest := ((SortTerm.le_append_iff hterms hterms).mp hall).2 (SortTerm.Le.refl hle _ _)
    rwa [objectRow, objectRow, RankedRow.append, RankedRow.append, List.drop_left' hlength,
      List.drop_left' hlength]
  · intro v
    simp only [List.mem_map, List.mem_filter, decide_eq_true_eq]
    constructor
    · rintro ⟨_, ⟨r, hr, rfl⟩, rfl⟩
      obtain ⟨b, hb, rfl⟩ := (hmem r).mp hr
      exact ⟨b, hb, (hview b hb).symm⟩
    · rintro ⟨b, hb, rfl⟩
      exact ⟨_, ⟨objectRow head e b, (hmem _).mpr ⟨b, hb, rfl⟩, rfl⟩, hview b hb⟩

variable {j : JoinHead} {p : Plan} {rest : List (JoinHead × Plan)} {children : List (List Ranked)}

/-- Rows in the order of joins are in the order of the first. -/
theorem inOrder_first (hp : ∀ o ∈ p.occurrences, o.primary.isSome)
    (hh : p.Holds (Ranked.entities es)) (hr : p.Ranks es)
    (h : RankedRow.InOrder le (joinSortTerms ((j, p) :: rest)) (joinLabels ((j, p) :: rest)) rows
      (rankedRows ((j, p) :: rest) (es :: children))) :
    RankedRow.InOrder le p.sortTerms p.labels
      (rows.map (RankedRow.cut (List.take p.sortTerms.length))) (p.rankedMatched es) := by
  have hlength := length_ranks_rankedMatched p es hr
  have hview : ∀ a ∈ p.rankedMatched es, ∀ b : RankedRow,
      ((a.append b).cut (List.take p.sortTerms.length)).view p.labels = a.view p.labels := by
    intro a ha b
    have hrow : a.row ∈ p.matched (Ranked.entities es) := by
      rw [← map_row_rankedMatched]
      exact List.mem_map_of_mem ha
    rw [RankedRow.view, RankedRow.view, Prod.mk.injEq]
    exact ⟨Row.shown_append_left (names_matched hp hh a.row hrow) b.row,
      List.take_left' (hlength a ha)⟩
  refine (h.cut_all (List.take p.sortTerms.length) (List.subset_append_left _ _) ?_).congr ?_
  · intro r hr s hs hbefore
    obtain ⟨a, ha, b, hb, rfl⟩ := mem_rankedRows_cons_iff.mp hr
    obtain ⟨a', ha', b', hb', rfl⟩ := mem_rankedRows_cons_iff.mp hs
    have hall := hbefore _ hs rfl
    have hfirst := ((SortTerm.le_append_iff (hlength a ha) (hlength a' ha')).mp hall).1
    rwa [RankedRow.append, RankedRow.append, List.take_left' (hlength a ha),
      List.take_left' (hlength a' ha')]
  · intro v
    simp only [List.mem_map]
    constructor
    · rintro ⟨_, ⟨r, hr, rfl⟩, rfl⟩
      obtain ⟨a, ha, b, _, rfl⟩ := mem_rankedRows_cons_iff.mp hr
      exact ⟨a, ha, (hview a ha b).symm⟩
    · rintro ⟨a, ha, rfl⟩
      obtain ⟨b, hb⟩ := List.exists_mem_of_ne_nil _ (rankedRows_ne_nil rest children)
      exact ⟨_, ⟨a.append b, mem_rankedRows_cons_iff.mpr ⟨a, ha, b, hb, rfl⟩, rfl⟩, hview a ha b⟩

/-- Rows in the order of joins are in the order of all but the first. -/
theorem inOrder_others (hle : ∀ v, le v v) (hp : ∀ o ∈ joinOccurrences rest, o.primary.isSome)
    (hh : JoinsHold rest (Ranked.childEntities children)) (hr : p.Ranks es)
    (hc : ∀ r ∈ rankedRows ((j, p) :: rest) (es :: children), r.row.Consistent)
    (h : RankedRow.InOrder le (joinSortTerms ((j, p) :: rest)) (joinLabels ((j, p) :: rest)) rows
      (rankedRows ((j, p) :: rest) (es :: children))) :
    RankedRow.InOrder le (joinSortTerms rest) (joinLabels rest)
      (rows.map (RankedRow.cut (List.drop p.sortTerms.length))) (rankedRows rest children) := by
  have hlength := length_ranks_rankedMatched p es hr
  have hview : ∀ a ∈ p.rankedMatched es, ∀ b ∈ rankedRows rest children,
      ((a.append b).cut (List.drop p.sortTerms.length)).view (joinLabels rest)
        = b.view (joinLabels rest) := by
    intro a ha b hb
    have hrow : b.row ∈ joinRows rest (Ranked.childEntities children) := by
      rw [← map_row_rankedRows]
      exact List.mem_map_of_mem hb
    have hconsistent := hc _ (mem_rankedRows_cons_iff.mpr ⟨a, ha, b, hb, rfl⟩)
    rw [RankedRow.view, RankedRow.view, Prod.mk.injEq]
    exact ⟨hconsistent.shown_right (names_joinRows rest _ hp hh b.row hrow),
      List.drop_left' (hlength a ha)⟩
  refine (h.cut_all (List.drop p.sortTerms.length) (List.subset_append_right _ _) ?_).congr ?_
  · intro r hr s hs hbefore
    obtain ⟨a, ha, b, hb, rfl⟩ := mem_rankedRows_cons_iff.mp hr
    obtain ⟨a', ha', b', hb', rfl⟩ := mem_rankedRows_cons_iff.mp hs
    -- The rows of the others appear beside every row of the first, so also beside this one.
    have hall := hbefore (a.append b') (mem_rankedRows_cons_iff.mpr ⟨a, ha, b', hb', rfl⟩)
      ((hview a ha b' hb').trans (hview a' ha' b' hb').symm)
    have hrest := ((SortTerm.le_append_iff (hlength a ha) (hlength a ha)).mp hall).2
      (SortTerm.Le.refl hle _ _)
    rwa [RankedRow.append, RankedRow.append, List.drop_left' (hlength a ha),
      List.drop_left' (hlength a' ha')]
  · intro v
    simp only [List.mem_map]
    constructor
    · rintro ⟨_, ⟨r, hr, rfl⟩, rfl⟩
      obtain ⟨a, ha, b, hb, rfl⟩ := mem_rankedRows_cons_iff.mp hr
      exact ⟨b, hb, (hview a ha b hb).symm⟩
    · rintro ⟨b, hb, rfl⟩
      obtain ⟨a, ha⟩ := List.exists_mem_of_ne_nil _ (rankedMatched_ne_nil p es)
      exact ⟨_, ⟨a.append b, mem_rankedRows_cons_iff.mpr ⟨a, ha, b, hb, rfl⟩, rfl⟩,
        hview a ha b hb⟩

/-- In what a join contributes each label has one value if it has in the rows. -/
theorem consistent_rankedMatched
    (hc : ∀ r ∈ rankedRows ((j, p) :: rest) (es :: children), r.row.Consistent) :
    ∀ a ∈ p.rankedMatched es, a.row.Consistent := by
  intro a ha
  obtain ⟨b, hb⟩ := List.exists_mem_of_ne_nil _ (rankedRows_ne_nil rest children)
  exact (hc _ (mem_rankedRows_cons_iff.mpr ⟨a, ha, b, hb, rfl⟩)).left

/-- In the rows of the other joins each label has one value if it has in the rows. -/
theorem consistent_rankedRows
    (hc : ∀ r ∈ rankedRows ((j, p) :: rest) (es :: children), r.row.Consistent) :
    ∀ b ∈ rankedRows rest children, b.row.Consistent := by
  intro b hb
  obtain ⟨a, ha⟩ := List.exists_mem_of_ne_nil _ (rankedMatched_ne_nil p es)
  exact (hc _ (mem_rankedRows_cons_iff.mpr ⟨a, ha, b, hb, rfl⟩)).right

/-- Rows in the order of a plan have the identities of objects in the order of the objects. -/
theorem pairwise_identities
    (hp : ∀ o ∈ (Plan.node head joins).occurrences, o.primary.isSome)
    (hh : (Plan.node head joins).Holds (Ranked.entities es)) (hr : (Plan.node head joins).Ranks es)
    (h : RankedRow.InOrder le (Plan.node head joins).sortTerms (Plan.node head joins).labels rows
      ((Plan.node head joins).rankedMatched es)) :
    (distinctBy id ((rows.map RankedRow.row).filterMap head.identityOf?)).Pairwise fun k k' =>
      ∀ e ∈ es, ∀ e' ∈ es, Occurrence.keyText e.key = k → Occurrence.keyText e'.key = k' →
        SortTerm.Le le head.sortTerms e.ranks e'.ranks := by
  rw [occurrences_node, List.forall_mem_cons] at hp
  have hlabel : head.keyLabel ∈ (Plan.node head joins).labels := keyLabel_mem_labels hp.1
  have hidentity := Occurrence.identityOf?_eq_shown hp.1 hlabel
  have hmem := fun {e : Ranked} (he : e ∈ es) (r : RankedRow) =>
    mem_rankedMatched_keyText_iff hp.1 hh he (r := r)
  have hterms : ∀ e ∈ es, e.ranks.length = head.sortTerms.length := by
    intro e he
    rw [(hr e he).1, Occurrence.sortTerms, List.length_map]
  have hfirsts := FirstsInOrder.filterMap (f := fun v => head.identityShown v.1)
    (S := fun k k' => ∀ e ∈ es, ∀ e' ∈ es, Occurrence.keyText e.key = k →
      Occurrence.keyText e'.key = k' → SortTerm.Le le head.sortTerms e.ranks e'.ranks) h ?_
  · rw [Occurrence.filterMap_identityOf? hp.1 hlabel, List.filterMap_map, List.filterMap_map]
    rw [List.filterMap_map] at hfirsts
    exact hfirsts.pairwise
  · rintro _ hx k _ hk hk' hbefore e he e' he' rfl rfl
    obtain ⟨r, hr, rfl⟩ := List.mem_map.mp hx
    obtain ⟨_, hy, hk'⟩ := List.mem_filterMap.mp hk'
    obtain ⟨r', hr', rfl⟩ := List.mem_map.mp hy
    have hall := hbefore _ hy hk'
    obtain ⟨b, _, rfl⟩ := (hmem he r).mp ⟨hr, (hidentity r.row).trans hk⟩
    obtain ⟨b', _, rfl⟩ := (hmem he' r').mp ⟨hr', (hidentity r'.row).trans hk'⟩
    exact ((SortTerm.le_append_iff (hterms e he) (hterms e' he')).mp hall).1

end

mutual

/-- Rows in the order of a plan are answered as its objects in order. -/
theorem arranged_hydrate {le : Json → Json → Prop} (hle : ∀ v, le v v) : ∀ (p : Plan)
    (es : List Ranked) (rows : List RankedRow), (∀ o ∈ p.occurrences, o.primary.isSome) →
    p.Holds (Ranked.entities es) → p.Ranks es → (∀ r ∈ p.rankedMatched es, r.row.Consistent) →
    RankedRow.InOrder le p.sortTerms p.labels rows (p.rankedMatched es) →
    p.Arranged le es (p.hydrate (rows.map RankedRow.row))
  | .node head joins, es, rows, hp, hh, hr, hc, h => by
    have hordered := pairwise_identities hp hh hr h
    have hinner := fun e (he : e ∈ es) => inOrder_rowsOf hle hp hh hr hc h he
    rw [occurrences_node, List.forall_mem_cons] at hp
    have hs : Row.SameShown (Plan.node head joins).labels (rows.map RankedRow.row)
        ((Plan.node head joins).matched (Ranked.entities es)) := by
      rw [← map_row_rankedMatched]
      exact h.sameShown
    have hkeys := hh.perm_identities hp.1 hs
    rw [map_keyText_entities] at hkeys
    -- The objects in the order in which the rows show their identities first.
    obtain ⟨es', hes', hperm⟩ := (congrFun₂ (List.eq_map_comp_perm _) _ es).mpr hkeys.symm
    have hmem : ∀ e ∈ es', e ∈ es := fun e he => hperm.subset he
    refine ⟨es', hperm, ?_, ?_⟩
    · rw [hes', List.pairwise_map] at hordered
      exact hordered.imp_of_mem fun he he' hle => hle _ (hmem _ he) _ (hmem _ he') rfl rfl
    · rw [hydrate, Occurrence.groupRows_eq, hes', List.map_map, List.map_map,
        List.forall₂_map_right_iff, List.forall₂_same]
      intro e he
      have hjoins := joinsArranged_hydrateJoins hle joins e.children _ hp.2
        (hh.of_mem (hmem e he)).2.2 (hr e (hmem e he)).2
        (fun b hb => (hc _ ((mem_rankedMatched_keyText_iff hp.1 hh (hmem e he)).mpr
          ⟨b, hb, rfl⟩).1).right) (hinner e (hmem e he))
      rw [RankedRow.map_row_cut, RankedRow.map_row_rowsOf] at hjoins
      refine ⟨_, hjoins, ?_⟩
      have hentity : e.entity ∈ Ranked.entities es := by
        rw [Ranked.entities_eq_map]
        exact List.mem_map_of_mem (hmem e he)
      -- The same rows tell the key and the values of the object.
      have htold := entityOf_rowsOf hp.1 hh (by rwa [← map_row_rankedMatched, List.forall_mem_map])
        hs hentity
      rw [Ranked.key_entity, Ranked.values_entity] at htold
      rw [entityOf, Entity.node.injEq] at htold
      simp only [Function.comp_apply, Occurrence.ownMembers_of_primary hp.1, htold.1, htold.2.1,
        List.cons_append]

/-- Rows in the order of joins are answered as their objects in order. -/
theorem joinsArranged_hydrateJoins {le : Json → Json → Prop} (hle : ∀ v, le v v) :
    ∀ (joins : List (JoinHead × Plan)) (children : List (List Ranked)) (rows : List RankedRow),
    (∀ o ∈ joinOccurrences joins, o.primary.isSome) →
    JoinsHold joins (Ranked.childEntities children) → JoinsRank joins children →
    (∀ r ∈ rankedRows joins children, r.row.Consistent) →
    RankedRow.InOrder le (joinSortTerms joins) (joinLabels joins) rows (rankedRows joins children) →
    JoinsArranged le joins children (hydrateJoins joins (rows.map RankedRow.row))
  | [], _, _, _, _, _, _, _ => rfl
  | (j, p) :: rest, es :: children, rows, hp, hh, hr, hc, h => by
    rw [joinOccurrences, List.forall_mem_append] at hp
    have hfirst := arranged_hydrate hle p es _ hp.1 hh.2.1 hr.1
      (consistent_rankedMatched hc) (inOrder_first hp.1 hh.2.1 hr.1 h)
    have hothers := joinsArranged_hydrateJoins hle rest children _ hp.2 hh.2.2 hr.2
      (consistent_rankedRows hc) (inOrder_others hle hp.2 hh.2.2 hr.1 hc h)
    rw [RankedRow.map_row_cut] at hfirst hothers
    exact ⟨_, _, hfirst, hothers, rfl⟩
  | _ :: _, [], _, _, _, hr, _, _ => hr.elim

end

/-- Objects come back in order from rows in the order of the statement: whatever the rows of objects
under left joins are arranged like, as long as they follow the terms of the statement, those of the
root first and then those of its joins, depth first, the answer holds the objects and the children
of each of them in the order of their own occurrence. Nothing is asked of the comparison of values
but that a value may stand before itself, and of the labels only that none has two values in one
row. -/
theorem hydrate_sorted (p : Plan) (forest : List Ranked) {le : Json → Json → Prop}
    (hle : ∀ v, le v v) (hp : ∀ o ∈ p.occurrences, o.primary.isSome)
    (hh : p.Holds (Ranked.entities forest)) (hr : p.Ranks forest)
    (hc : ∀ row ∈ p.leftJoin (Ranked.entities forest), Row.Consistent row) (rows : List RankedRow)
    (hrows : ∀ r, r ∈ rows ↔ r ∈ p.rankedJoin forest)
    (hsorted : rows.Pairwise fun r s => SortTerm.Le le p.sortTerms r.ranks s.ranks) :
    (p.rankedJoin forest).map RankedRow.row = p.leftJoin (Ranked.entities forest)
      ∧ (∀ d, p.orderTerms d = p.sortTerms.map (SortTerm.text d))
      ∧ p.Arranged le forest (p.hydrate (rows.map RankedRow.row)) := by
  refine ⟨map_row_rankedJoin p forest, fun d => orderTerms_eq_map d p, ?_⟩
  -- Without objects there are no rows; otherwise the rows are those of matches.
  by_cases hf : forest = []
  · subst hf
    have hnil : rows = [] := by
      apply List.eq_nil_iff_forall_not_mem.mpr
      intro r hmem
      have hnone := List.mem_map_of_mem (f := RankedRow.row) ((hrows r).mp hmem)
      rw [map_row_rankedJoin, Ranked.entities, leftJoin_nil] at hnone
      exact List.not_mem_nil hnone
    rw [hnil, List.map_nil, hydrate_nil]
    cases p
    exact ⟨[], List.Perm.refl [], List.Pairwise.nil, List.Forall₂.nil⟩
  · have hmatched : p.rankedMatched forest = p.rankedJoin forest := if_neg hf
    refine arranged_hydrate hle p forest rows hp hh hr ?_ ?_
    · rw [hmatched]
      intro r hmem
      apply hc
      rw [← map_row_rankedJoin]
      exact List.mem_map_of_mem hmem
    · rw [hmatched]
      refine FirstsInOrder.of_pairwise ?_ (List.pairwise_map.mpr hsorted)
      intro v
      simp only [List.mem_map, hrows]

/-- A plan for authors by age, the oldest first, with their books by year and their prizes, the
latest first. -/
def authorPlan : Plan :=
  .node ⟨"t0", "authors", some "id", [], [], "", [("age", .descending)]⟩
    [(⟨"books", .many, ""⟩,
      .node ⟨"t1", "books", some "id", [], [], "", [("year", .ascending)]⟩ []),
      (⟨"prizes", .many, ""⟩,
      .node ⟨"t2", "prizes", some "id", [], [], "", [("year", .descending)]⟩ [])]

/-- An author with two books and two prizes, and an older one with nothing. -/
def authors : List Ranked :=
  [.node (.num (.int 1)) [] [.num (.int 40)]
      [[.node (.str "b") [] [.num (.int 1990)] [], .node (.str "a") [] [.num (.int 1985)] []],
        [.node (.str "p") [] [.num (.int 2001)] [], .node (.str "q") [] [.num (.int 2002)] []]],
    .node (.num (.int 2)) [] [.num (.int 50)] [[], []]]

/-- The number in a value. -/
def numberIn : Json → Int
  | .num (.int n) => n
  | _ => 0

/-- The rows of the authors in reverse are in the order of the statement, and answered in order. -/
theorem hydrate_sorted_authors :
    ((authorPlan.rankedJoin authors).reverse.Pairwise fun r s =>
        SortTerm.Le (fun v w => numberIn v ≤ numberIn w) authorPlan.sortTerms r.ranks s.ranks)
      ∧ authorPlan.Arranged (fun v w => numberIn v ≤ numberIn w) authors
          (authorPlan.hydrate ((authorPlan.rankedJoin authors).reverse.map RankedRow.row)) := by
  have hp : ∀ o ∈ authorPlan.occurrences, o.primary.isSome := by decide
  have hh : authorPlan.Holds (Ranked.entities authors) := by
    simp [authorPlan, authors, Holds, JoinsHold, Ranked.entities, Ranked.entity,
      Ranked.childEntities, Entity.key, Entity.values, Entity.children, Json.IsKey]
  have hr : authorPlan.Ranks authors := by
    simp [authorPlan, authors, Ranks, JoinsRank, Ranked.ranks, Ranked.children]
  have hl : authorPlan.labels.Nodup := by decide
  have hc : ∀ row ∈ authorPlan.leftJoin (Ranked.entities authors), Row.Consistent row :=
    consistent_matched hp hl hh
  have hsorted : (authorPlan.rankedJoin authors).reverse.Pairwise fun r s =>
      SortTerm.Le (fun v w => numberIn v ≤ numberIn w) authorPlan.sortTerms r.ranks s.ranks := by
    simp [authorPlan, authors, rankedJoin, rankedRows, RankedRow.append, sortTerms, joinSortTerms,
      Occurrence.sortTerms, SortTerm.Le, Direction.Le, numberIn, Ranked.ranks, Ranked.children,
      unrankedRow]
  exact ⟨hsorted, (hydrate_sorted authorPlan authors (fun v => Int.le_refl (numberIn v)) hp hh hr hc
    _ (fun _ => List.mem_reverse) hsorted).2.2⟩

end Plan

end TableGraph
