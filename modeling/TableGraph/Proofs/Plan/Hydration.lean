import TableGraph.Proofs.Json.Injective
import TableGraph.Proofs.Plan.Flattening

/-!
# What is answered for left joins

Hydrating the rows of objects under left joins answers the objects.
-/

namespace TableGraph

namespace Plan

section

variable {head : Occurrence} {joins : List (JoinHead × Plan)} {es : List Entity}

/-- The key texts of objects that fit a plan are different. -/
theorem Holds.nodup_keyText (hh : (Plan.node head joins).Holds es) :
    (es.map fun e => Occurrence.keyText e.key).Nodup := by
  have hm : (es.map fun e => Occurrence.keyText e.key)
      = (es.map Entity.key).map Occurrence.keyText := by rw [List.map_map]; rfl
  rw [hm]
  refine List.Nodup.map_on ?_ hh.1
  intro a ha b hb hab
  obtain ⟨e, he, rfl⟩ := List.mem_map.mp ha
  obtain ⟨e', he', rfl⟩ := List.mem_map.mp hb
  exact Json.IsKey.list_text_injective (hh.2 e he).1 (hh.2 e' he').1 hab

/-- The rows of one object. -/
def block (head : Occurrence) (joins : List (JoinHead × Plan)) (e : Entity) : List Row :=
  (joinRows joins e.children).map fun r => head.keyedRow e.key e.values ++ r

/-- The identities of the rows contributed by objects are their key texts, in order. -/
theorem distinct_identities (hp : head.primary.isSome) (hh : (Plan.node head joins).Holds es) :
    distinctBy id (((Plan.node head joins).matched es).filterMap head.identityOf?)
      = es.map fun e => Occurrence.keyText e.key := by
  by_cases he : es = []
  · subst he
    rw [matched, if_pos rfl, emptyRow, List.filterMap_cons_none
      (Occurrence.identityOf?_emptyRow hp _)]
    rfl
  · have hr : ((Plan.node head joins).leftJoin es).filterMap head.identityOf?
        = es.flatMap fun e =>
            List.replicate (joinRows joins e.children).length (Occurrence.keyText e.key) := by
      rw [leftJoin, List.filterMap_flatMap]
      apply List.flatMap_congr
      intro e hmem
      rw [List.filterMap_map, List.eq_replicate_iff]
      have hs : (head.identityOf? ∘ fun r => head.keyedRow e.key e.values ++ r)
          = some ∘ fun _ => Occurrence.keyText e.key := by
        funext r
        exact Occurrence.identityOf?_keyedRow hp (hh.2 e hmem).1 _ r
      rw [hs, List.filterMap_eq_map, List.length_map]
      refine ⟨rfl, ?_⟩
      intro k hk
      obtain ⟨_, _, rfl⟩ := List.mem_map.mp hk
      rfl
    have hd : distinctFrom id [] (es.map fun e => Occurrence.keyText e.key)
        = es.map fun e => Occurrence.keyText e.key := by
      apply distinctFrom_of_nodup
      · rw [List.map_id]
        exact hh.nodup_keyText
      · intro _ _
        exact List.not_mem_nil
    rw [matched, if_neg he, hr, distinctBy, distinctFrom_replicate, hd]
    intro e _
    exact List.length_pos_iff.mpr (joinRows_ne_nil joins e.children)

/-- The label of the primary key is looked up. -/
theorem keyLabel_mem_labels (hp : head.primary.isSome) :
    head.keyLabel ∈ (Plan.node head joins).labels := by
  rw [labels, Occurrence.labels_of_primary hp]
  exact List.mem_append_left _ List.mem_cons_self

/-- Rows that show the same as those of objects have the key texts of the objects as identities. -/
theorem Holds.perm_identities {rows : List Row} (hh : (Plan.node head joins).Holds es)
    (hp : head.primary.isSome)
    (hs : Row.SameShown (Plan.node head joins).labels rows ((Plan.node head joins).matched es)) :
    (es.map fun e => Occurrence.keyText e.key).Perm
      (distinctBy id (rows.filterMap head.identityOf?)) := by
  rw [List.perm_ext_iff_of_nodup hh.nodup_keyText (nodup_distinctBy _)]
  intro k
  rw [← distinct_identities hp hh, mem_distinctBy, mem_distinctBy]
  exact (hs.identities hp (keyLabel_mem_labels hp) k).symm

/-- The rows with the key of an object are the rows of the object. -/
theorem rowsOf_matched (hp : head.primary.isSome) (hh : (Plan.node head joins).Holds es)
    {e : Entity} (he : e ∈ es) :
    head.rowsOf (Occurrence.keyText e.key) ((Plan.node head joins).matched es)
      = block head joins e := by
  rw [matched, if_neg (List.ne_nil_of_mem he), leftJoin, Occurrence.rowsOf, List.filter_flatMap]
  refine Eq.trans (List.flatMap_congr ?_) (flatMap_ite_key _ (block head joins) hh.nodup_keyText he)
  intro e' he'
  have hi : ∀ r, head.identityOf? (head.keyedRow e'.key e'.values ++ r)
      = some (Occurrence.keyText e'.key) := Occurrence.identityOf?_keyedRow hp (hh.2 e' he').1 _
  rw [List.filter_map]
  by_cases hk : Occurrence.keyText e'.key = Occurrence.keyText e.key
  · rw [if_pos hk, List.filter_eq_self.mpr]
    · rfl
    · intro r _
      rw [Function.comp_apply, hi, hk, decide_eq_true rfl]
  · rw [if_neg hk, List.filter_eq_nil_iff.mpr]
    · rfl
    · intro r _
      rw [Function.comp_apply, hi, decide_eq_true_eq, Option.some.injEq]
      exact hk

/-- Of the rows of an object, the joins see what their own rows show. -/
theorem map_shown_block (hp : head.primary.isSome)
    (hd : ∀ label ∈ joinLabels joins, label ∉ head.labels) {e : Entity}
    (hv : e.values.length = head.columns.length) :
    (block head joins e).map (Row.shown (joinLabels joins))
      = (joinRows joins e.children).map (Row.shown (joinLabels joins)) := by
  rw [block, List.map_map]
  apply List.map_congr_left
  intro r _
  apply Row.shown_append_right
  intro label hl
  rw [Occurrence.names_keyedRow hp _ hv]
  exact hd label hl

/-- The object that a row which shows the same as some row of an object tells. -/
theorem values_of_shown_block (hp : head.primary.isSome) {e : Entity}
    (hc : ∀ r ∈ block head joins e, Row.Consistent r)
    (hv : e.values.length = head.columns.length) {row : Row}
    (h : Row.shown head.labels row ∈ (block head joins e).map (Row.shown head.labels)) :
    Row.value row head.keyLabel = e.key
      ∧ head.columns.map (fun c => Row.value row c.label) = e.values := by
  obtain ⟨r, hr, he⟩ := List.mem_map.mp h
  have hconsistent := hc r hr
  obtain ⟨rest, _, rfl⟩ := List.mem_map.mp hr
  have hval : ∀ label ∈ head.labels,
      Row.value row label = Row.value (head.keyedRow e.key e.values ++ rest) label := by
    intro label hmem
    rw [← Row.shown_of_mem hmem, ← Row.shown_of_mem hmem, he]
  rw [Occurrence.labels_of_primary hp] at hval
  constructor
  · simp [hval _ List.mem_cons_self]
  · refine Eq.trans (List.map_congr_left ?_) (Occurrence.map_value_keyedRow hv hconsistent)
    intro c hc
    exact hval _ (List.mem_cons_of_mem _ (List.mem_map_of_mem hc))

/-- The rows of an object are among those of all objects. -/
theorem block_subset_matched {e : Entity} (he : e ∈ es) :
    block head joins e ⊆ (Plan.node head joins).matched es := by
  rw [matched, if_neg (List.ne_nil_of_mem he), leftJoin]
  exact fun r hr => List.mem_flatMap.mpr ⟨e, he, hr⟩

/-- In rows with different labels each label has one value. -/
theorem consistent_matched {p : Plan} (hp : ∀ o ∈ p.occurrences, o.primary.isSome)
    (hl : p.labels.Nodup) (hh : p.Holds es) : ∀ r ∈ p.matched es, Row.Consistent r := by
  intro r hr
  apply Row.consistent_of_nodup
  rwa [names_matched hp hh r hr]

variable {rows : List Row}

/-- The object that rows with one identity tell. -/
def entityOf (head : Occurrence) (joins : List (JoinHead × Plan)) (rows : List Row) : Entity :=
  .node (Row.value (rows.head?.getD []) head.keyLabel)
    (head.columns.map fun c => Row.value (rows.head?.getD []) c.label) (joinEntities joins rows)

/-- The objects in rows are told by the rows of each identity. -/
theorem entities_eq (head : Occurrence) (joins : List (JoinHead × Plan)) (rows : List Row) :
    entities (.node head joins) rows
      = (distinctBy id (rows.filterMap head.identityOf?)).map fun k =>
          entityOf head joins (head.rowsOf k rows) := by
  rw [entities, Occurrence.groupRows_eq, List.map_map]
  rfl

/-- Rows that show the same as those of objects tell each object by the rows with its key, but for
the children. -/
theorem entityOf_rowsOf (hp : head.primary.isSome) (hh : (Plan.node head joins).Holds es)
    (hc : ∀ r ∈ (Plan.node head joins).matched es, Row.Consistent r)
    (hs : Row.SameShown (Plan.node head joins).labels rows ((Plan.node head joins).matched es))
    {e : Entity} (he : e ∈ es) :
    entityOf head joins (head.rowsOf (Occurrence.keyText e.key) rows)
      = .node e.key e.values
          (joinEntities joins (head.rowsOf (Occurrence.keyText e.key) rows)) := by
  have hv := (hh.2 e he).2.1
  have hb : Row.SameShown head.labels (head.rowsOf (Occurrence.keyText e.key) rows)
      (block head joins e) := by
    rw [← rowsOf_matched hp hh he]
    exact hs.rowsOf hp (keyLabel_mem_labels hp) (List.subset_append_left _ _) _
  cases hr : head.rowsOf (Occurrence.keyText e.key) rows with
  | nil =>
    rw [hr] at hb
    obtain ⟨r, hmem⟩ := List.exists_mem_of_ne_nil _ (joinRows_ne_nil joins e.children)
    have hmem' := List.mem_map_of_mem (f := Row.shown head.labels)
      (List.mem_map_of_mem (f := fun r => head.keyedRow e.key e.values ++ r) hmem)
    exact absurd ((hb _).mpr hmem') List.not_mem_nil
  | cons row rest =>
    rw [hr] at hb
    have hrow := (hb _).mp (List.mem_map_of_mem List.mem_cons_self)
    obtain ⟨hkey, hvalues⟩ := values_of_shown_block hp
      (fun r hr => hc r (block_subset_matched he hr)) hv hrow
    rw [entityOf, List.head?_cons, Option.getD_some, hkey, hvalues]

/-- Looked at under the labels of the joins, the rows of an object among rows that show the same as
those of objects are those of its joins. -/
theorem sameShown_rowsOf (hp : head.primary.isSome) (hl : (Plan.node head joins).labels.Nodup)
    (hh : (Plan.node head joins).Holds es)
    (hs : Row.SameShown (Plan.node head joins).labels rows ((Plan.node head joins).matched es))
    {e : Entity} (he : e ∈ es) :
    Row.SameShown (joinLabels joins) (head.rowsOf (Occurrence.keyText e.key) rows)
      (joinRows joins e.children) := by
  have hf : joinLabels joins ⊆ (Plan.node head joins).labels := List.subset_append_right _ _
  have hb := hs.rowsOf hp (keyLabel_mem_labels hp) hf (Occurrence.keyText e.key)
  rw [rowsOf_matched hp hh he, Row.SameShown,
    map_shown_block hp (fun label hj hm => (List.nodup_append.mp hl).2.2 label hm label hj rfl)
      (hh.2 e he).2.1] at hb
  exact hb

/-- Looked at under the labels of the joins, the rows of an object among rows that show the same as
those of objects, in the same order, are those of its joins, in the same order. -/
theorem sameFirsts_rowsOf (hp : head.primary.isSome) (hl : (Plan.node head joins).labels.Nodup)
    (hh : (Plan.node head joins).Holds es)
    (hs : Row.SameFirsts (Plan.node head joins).labels rows ((Plan.node head joins).matched es))
    {e : Entity} (he : e ∈ es) :
    Row.SameFirsts (joinLabels joins) (head.rowsOf (Occurrence.keyText e.key) rows)
      (joinRows joins e.children) := by
  have hf : joinLabels joins ⊆ (Plan.node head joins).labels := List.subset_append_right _ _
  have hb := hs.rowsOf hp (keyLabel_mem_labels hp) hf (Occurrence.keyText e.key)
  rw [rowsOf_matched hp hh he, Row.SameFirsts,
    map_shown_block hp (fun label hj hm => (List.nodup_append.mp hl).2.2 label hm label hj rfl)
      (hh.2 e he).2.1] at hb
  exact hb

end

section

variable {j : JoinHead} {p : Plan} {rest : List (JoinHead × Plan)} {es : List Entity}
  {children : List (List Entity)}

/-- The rows of joins are the product of what the first contributes and the rows of the others. -/
theorem joinRows_cons : joinRows ((j, p) :: rest) (es :: children)
    = (p.matched es).flatMap fun a => (joinRows rest children).map fun b => a ++ b := rfl

/-- The rows of joins show what the first contributes. -/
theorem sameFirsts_first (j : JoinHead) (rest : List (JoinHead × Plan))
    (children : List (List Entity)) (hk : p.Keyed) (hh : p.Holds es) :
    Row.SameFirsts p.labels (joinRows ((j, p) :: rest) (es :: children)) (p.matched es) := by
  rw [joinRows_cons]
  exact Row.sameFirsts_product_left (names_matched hk.primary hh) (joinRows_ne_nil rest children)

/-- The rows of joins show the rows of all but the first. -/
theorem sameFirsts_others (hk : p.Keyed) (hl : (joinLabels ((j, p) :: rest)).Nodup)
    (hh : p.Holds es) :
    Row.SameFirsts (joinLabels rest) (joinRows ((j, p) :: rest) (es :: children))
      (joinRows rest children) := by
  rw [joinRows_cons]
  refine Row.sameFirsts_product_right ?_ (matched_ne_nil p es)
  intro a ha label hr hm
  rw [names_matched hk.primary hh a ha] at hm
  exact (List.nodup_append.mp hl).2.2 label hm label hr rfl

end

mutual

/-- Rows that show the same as those of objects, in the same order, tell the objects. -/
theorem entities_of_sameFirsts : ∀ (p : Plan) (es : List Entity) (rows : List Row), p.Keyed →
    p.labels.Nodup → p.Holds es → Row.SameFirsts p.labels rows (p.matched es) →
    p.entities rows = es
  | .node head joins, es, rows, hk, hl, hh, hs => by
    have hkeys := hs.identities hk.1 (keyLabel_mem_labels hk.1)
    rw [distinct_identities hk.1 hh] at hkeys
    rw [entities_eq, hkeys, List.map_map]
    refine Eq.trans (List.map_congr_left ?_) (List.map_id es)
    intro e he
    have hjoins := joinEntities_of_sameFirsts joins e.children
      (head.rowsOf (Occurrence.keyText e.key) rows) hk.2.2 (List.nodup_append.mp hl).2.1
      (hh.2 e he).2.2 (sameFirsts_rowsOf hk.1 hl hh hs he)
    rw [Function.comp_apply, entityOf_rowsOf hk.1 hh (consistent_matched hk.primary hl hh) hs.sameShown he,
      hjoins, Entity.eta, id_eq]

/-- Rows that show the same as those of joins, in the same order, tell the children. -/
theorem joinEntities_of_sameFirsts : ∀ (joins : List (JoinHead × Plan))
    (children : List (List Entity)) (rows : List Row), JoinsKeyed joins →
    (joinLabels joins).Nodup → JoinsHold joins children →
    Row.SameFirsts (joinLabels joins) rows (joinRows joins children) →
    joinEntities joins rows = children
  | [], children, rows, _, _, hh, _ => hh.symm
  | (j, p) :: rest, es :: children, rows, hk, hl, hh, hs => by
    have hn := List.nodup_append.mp hl
    have hfirst := (hs.narrow (List.subset_append_left _ _)).trans
      (sameFirsts_first j rest children hk.1 hh.2.1)
    have hothers := (hs.narrow (List.subset_append_right _ _)).trans
      (sameFirsts_others hk.1 hl hh.2.1)
    rw [joinEntities, entities_of_sameFirsts p es rows hk.1 hn.1 hh.2.1 hfirst,
      joinEntities_of_sameFirsts rest children rows hk.2 hn.2.1 hh.2.2 hothers]
  | _ :: _, [], _, _, _, hh, _ => hh.elim

end

mutual

/-- Rows that show the same as those of objects tell the objects but for the order of siblings. -/
theorem entities_of_sameShown : ∀ (p : Plan) (es : List Entity) (rows : List Row), p.Keyed →
    p.labels.Nodup → p.Holds es → Row.SameShown p.labels rows (p.matched es) →
    Entity.SameForest es (p.entities rows)
  | .node head joins, es, rows, hk, hl, hh, hs => by
    have hkeys := hh.perm_identities hk.1 hs
    have hchanged : Entity.SameForest es
        (es.map fun e => entityOf head joins (head.rowsOf (Occurrence.keyText e.key) rows)) := by
      apply Entity.SameForest.map
      intro e he
      have hjoins := joinEntities_of_sameShown joins e.children
        (head.rowsOf (Occurrence.keyText e.key) rows) hk.2.2 (List.nodup_append.mp hl).2.1
        (hh.2 e he).2.2 (sameShown_rowsOf hk.1 hl hh hs he)
      have hsame := Entity.Same.node e.key e.values hjoins
      rw [Entity.eta] at hsame
      rw [entityOf_rowsOf hk.1 hh (consistent_matched hk.primary hl hh) hs he]
      exact hsame
    have hmoved := hkeys.map fun k => entityOf head joins (head.rowsOf k rows)
    rw [List.map_map] at hmoved
    rw [entities_eq]
    exact hchanged.trans (Entity.SameForest.of_perm hmoved)

/-- Rows that show the same as those of joins tell the children but for the order of siblings. -/
theorem joinEntities_of_sameShown : ∀ (joins : List (JoinHead × Plan))
    (children : List (List Entity)) (rows : List Row), JoinsKeyed joins →
    (joinLabels joins).Nodup → JoinsHold joins children →
    Row.SameShown (joinLabels joins) rows (joinRows joins children) →
    Entity.SameChildren children (joinEntities joins rows)
  | [], children, rows, _, _, hh, _ => hh ▸ Entity.SameChildren.nil
  | (j, p) :: rest, es :: children, rows, hk, hl, hh, hs => by
    have hn := List.nodup_append.mp hl
    have hfirst := (hs.narrow (List.subset_append_left _ _)).trans
      (sameFirsts_first j rest children hk.1 hh.2.1).sameShown
    have hothers := (hs.narrow (List.subset_append_right _ _)).trans
      (sameFirsts_others hk.1 hl hh.2.1).sameShown
    exact Entity.SameChildren.cons (entities_of_sameShown p es rows hk.1 hn.1 hh.2.1 hfirst)
      (joinEntities_of_sameShown rest children rows hk.2 hn.2.1 hh.2.2 hothers)
  | _ :: _, [], _, _, _, hh, _ => hh.elim

end

/-- Hydration undoes left joins: the rows of objects are answered as the objects in order, and in
any order, with any rows repeated, as the same objects but for the order of siblings. -/
theorem hydrate_leftJoin (p : Plan) (forest : List Entity) (hk : p.Keyed) (hl : p.labels.Nodup)
    (hh : p.Holds forest) :
    p.hydrate (p.leftJoin forest) = forest.map p.render
      ∧ ∀ rows : List Row, (∀ row, row ∈ rows ↔ row ∈ p.leftJoin forest) →
          ∃ forest', Entity.SameForest forest forest' ∧ p.hydrate rows = forest'.map p.render := by
  by_cases hf : forest = []
  · subst hf
    have hnil : p.leftJoin [] = [] := leftJoin_nil p
    rw [hnil, hydrate_nil]
    refine ⟨rfl, ?_⟩
    intro rows hrows
    have hr : rows = [] := List.eq_nil_iff_forall_not_mem.mpr fun row hm =>
      List.not_mem_nil ((hrows row).mp hm)
    exact ⟨[], Entity.SameForest.nil, by rw [hr, hydrate_nil]; rfl⟩
  · have hm : p.matched forest = p.leftJoin forest := if_neg hf
    constructor
    · rw [hydrate_eq_render p _ hk,
        entities_of_sameFirsts p forest _ hk hl hh (by rw [hm]; rfl)]
    · intro rows hrows
      refine ⟨p.entities rows, entities_of_sameShown p forest rows hk hl hh ?_,
        hydrate_eq_render p rows hk⟩
      intro view
      rw [hm, List.mem_map, List.mem_map]
      simp only [hrows]

/-- A plan for orders with their items, the notes on each item, and a delivery. -/
def orderPlan : Plan :=
  .node ⟨"t0", "orders", some "id", [], [⟨"total", "total", "t0_c0", false⟩], "", []⟩
    [(⟨"items", .many, ""⟩,
      .node ⟨"t1", "items", some "id", [], [⟨"file", "file", "t1_c0", true⟩], "", []⟩
        [(⟨"notes", .many, ""⟩, .node ⟨"t2", "notes", some "id", [], [], "", []⟩ [])]),
      (⟨"delivery", .one, ""⟩, .node ⟨"t3", "orders", some "id", [], [], "", []⟩ [])]

/-- An order with two items, one of them with notes, and an order with nothing. -/
def orders : List Entity :=
  [.node (.num (.int 7)) [.str "12"]
      [[.node (.str "a") [.bool true] [[.node (.num (.int 1)) [] [], .node (.num (.int 2)) [] []]],
        .node (.str "b") [.bool false] [[]]],
       [.node (.num (.int 7)) [] []]],
    .node (.num (.int 8)) [.null] [[], []]]

/-- The orders are answered for their rows, and for the rows in reverse. -/
theorem hydrate_leftJoin_orders :
    (orderPlan.Keyed ∧ orderPlan.labels.Nodup ∧ orderPlan.Holds orders)
      ∧ orderPlan.hydrate (orderPlan.leftJoin orders) = orders.map orderPlan.render
      ∧ ∃ forest, Entity.SameForest orders forest
          ∧ orderPlan.hydrate (orderPlan.leftJoin orders).reverse
            = forest.map orderPlan.render := by
  have hk : orderPlan.Keyed := by simp [orderPlan, Keyed, JoinsKeyed, keyMember]
  have hl : orderPlan.labels.Nodup := by decide
  have hh : orderPlan.Holds orders := by
    simp [orderPlan, orders, Holds, JoinsHold, Entity.key, Entity.values, Entity.children,
      Json.IsKey]
  obtain ⟨hsame, hany⟩ := hydrate_leftJoin orderPlan orders hk hl hh
  exact ⟨⟨hk, hl, hh⟩, hsame, hany _ fun _ => List.mem_reverse⟩

end Plan

end TableGraph
