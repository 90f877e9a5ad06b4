import TableGraph.Proofs.Filter.Alike
import TableGraph.Proofs.Order
import TableGraph.Proofs.Plan.Asked
import TableGraph.Proofs.Schema.Naming

/-!
# Plans of selections that differ in strings only

Two selections that are the same but for the strings that columns are compared with, at any level.
If one of them can be planned then so can the other, and the plans differ in their filters and join
conditions only, which are spelt alike.
-/

namespace TableGraph

open Sql Postgres

namespace Selection

section

variable (R : String → String → Prop)

/-- Arguments that are the same but for the strings of filters, of which `R` holds. -/
inductive SameArg : String × Json → String × Json → Prop
  /-- Filters. -/
  | filter {v w : Json} (h : Filter.Same R v w) : SameArg ("where", v) ("where", w)
  /-- Any other argument. -/
  | other {name : String} (v : Json) (h : name ≠ "where") : SameArg (name, v) (name, v)

/-- Selections that are the same but for the strings of filters at any level. `R` holds of the
strings at the same place. -/
inductive Same : Selection → Selection → Prop
  /-- The same field, with arguments and fields below it that are the same but for strings. -/
  | field (name : String) (rename : Option String) {args args' : Members Json}
    {children children' : List Selection} (hargs : List.Forall₂ (SameArg R) args args')
    (hchildren : List.Forall₂ Same children children') :
    Same (.field name rename args children) (.field name rename args' children')

end

variable {R : String → String → Prop} {s s' : Selection}

/-- The same name. -/
theorem Same.name_eq (h : Same R s s') : s.name = s'.name := by
  cases h
  rfl

/-- The same response key. -/
theorem Same.responseKey_eq (h : Same R s s') : s.responseKey = s'.responseKey := by
  cases h
  rfl

/-- Arguments that are the same but for strings. -/
theorem Same.args_same (h : Same R s s') : List.Forall₂ (SameArg R) s.args s'.args := by
  cases h with
  | field _ _ hargs _ => exact hargs

/-- Fields below that are the same but for strings. -/
theorem Same.children_same (h : Same R s s') : List.Forall₂ (Same R) s.children s'.children := by
  cases h with
  | field _ _ _ hchildren => exact hchildren

/-- Fields with nothing below them. -/
theorem Same.bare (h : Same R s s') : Same R s.bare s'.bare := by
  cases h with
  | field name rename hargs _ => exact .field name rename hargs .nil

/-- Fields with more below them. -/
theorem Same.extend (h : Same R s s') {more more' : List Selection}
    (hm : List.Forall₂ (Same R) more more') : Same R (s.extend more) (s'.extend more') := by
  cases h with
  | field name rename hargs hchildren =>
    exact .field name rename hargs (List.rel_append hchildren hm)

/-- The same merged with the same. -/
theorem mergeInto_same {merged merged' : List Selection}
    (hm : List.Forall₂ (Same R) merged merged') (h : Same R s s') :
    List.Forall₂ (Same R) (mergeInto merged s) (mergeInto merged' s') := by
  induction hm with
  | nil => exact .cons (h.bare.extend h.children_same) .nil
  | cons he hrest ih =>
    rw [mergeInto_cons, mergeInto_cons, he.responseKey_eq, h.responseKey_eq]
    split
    · exact .cons (he.extend h.children_same) hrest
    · exact .cons he ih

/-- Merged selections are the same but for strings. -/
theorem merge_same {ss ss' : List Selection} (h : List.Forall₂ (Same R) ss ss') :
    List.Forall₂ (Same R) (merge ss) (merge ss') := by
  unfold merge
  exact List.rel_foldl (P := List.Forall₂ (Same R)) (R := Same R)
    (fun _ _ hm _ _ hs => mergeInto_same hm hs) .nil h

/-- The fields selected of rows are the same but for strings. -/
theorem ofRows_same {ss ss' : List Selection} (h : List.Forall₂ (Same R) ss ss') :
    List.Forall₂ (Same R) (ofRows ss) (ofRows ss') := by
  refine List.rel_flatMap h ?_
  intro s s' hs
  dsimp only
  rw [hs.name_eq]
  split
  · exact hs.children_same
  · split
    · refine List.rel_flatMap hs.children_same ?_
      intro e e' he
      dsimp only
      rw [he.name_eq]
      split
      · exact he.children_same
      · exact .nil
    · exact .nil

/-- The filters among arguments are the same but for strings. -/
theorem get?_where_same {args args' : Members Json} (h : List.Forall₂ (SameArg R) args args') :
    Option.Rel (Filter.Same R) (Members.get? args "where") (Members.get? args' "where") := by
  induction h with
  | nil => exact .none
  | cons hx _ ih =>
    cases hx with
    | filter hv => exact .some hv
    | other v hne => simpa [hne] using ih

/-- The other arguments are the same. -/
theorem get?_same {name : String} (hn : name ≠ "where") {args args' : Members Json}
    (h : List.Forall₂ (SameArg R) args args') :
    Members.get? args name = Members.get? args' name := by
  induction h with
  | nil => rfl
  | cons hx _ ih =>
    cases hx with
    | filter hv => simp [Ne.symm hn, ih]
    | other v hne => simp [ih]

end Selection

section

variable (R : String → String → Prop) (N : String → Prop)

/-- An occurrence of which `N` holds of the table and every column, with an alias without marks. -/
structure Occurrence.Named (o : Occurrence) : Prop where
  /-- The alias. -/
  aliasName : Plain o.aliasName
  /-- The table. -/
  table : N o.table
  /-- The primary key. -/
  primary : ∀ column, o.primary = some column → N column
  /-- With a primary key no other columns tell rows apart. -/
  identity_nil : o.primary.isSome → o.identity = []
  /-- The columns that tell rows apart. -/
  identity : ∀ x ∈ o.identity, N x.1
  /-- The selected columns. -/
  columns : ∀ c ∈ o.columns, N c.column
  /-- The columns that are ordered by. -/
  order : ∀ t ∈ o.order, N t.1

namespace Plan

mutual

/-- Plans with known names that are the same but for filters and join conditions, which are spelt
alike. -/
inductive Same : Plan → Plan → Prop
  /-- The same occurrence but for the filter, with joins that are the same. -/
  | node {o : Occurrence} {filter : String} {joins joins' : List (JoinHead × Plan)}
    (named : o.Named N) (hfilter : Filter.SpokenAlike R N o.filter filter)
    (hjoins : SameJoins joins joins') :
    Same (.node o joins) (.node { o with filter := filter } joins')

/-- Joins that are the same but for filters and conditions, which are spelt alike. -/
inductive SameJoins : List (JoinHead × Plan) → List (JoinHead × Plan) → Prop
  /-- No joins. -/
  | nil : SameJoins [] []
  /-- One more join on either side. -/
  | cons {j : JoinHead} {condition : String} {p p' : Plan} {joins joins' : List (JoinHead × Plan)}
    (hcondition : Spelt R N j.condition condition) (head : Same p p')
    (tail : SameJoins joins joins') :
    SameJoins ((j, p) :: joins) (({ j with condition := condition }, p') :: joins')

end

end Plan

end

namespace Plan

variable {R : String → String → Prop} {N : String → Prop}

/-- The columns that tell rows apart have known names. -/
theorem identityColumns_named {o : ObjectType} (ho : o.Named N) : ∀ c ∈ identityColumns o, N c := by
  intro c hc
  unfold identityColumns at hc
  cases hp : o.primary with
  | some key =>
    rw [hp] at hc
    cases hc
  | none =>
    rw [hp] at hc
    obtain ⟨f, hf, hc⟩ := List.mem_filterMap.mp hc
    obtain ⟨e, he, rfl⟩ := List.mem_map.mp hf
    have hcolumn := (ho.fields e he).column c
    revert hc
    cases e.2.kind with
    | scalar type => cases type <;> intro hc <;> first | exact hcolumn hc | cases hc
    | link target => exact fun hc => by cases hc
    | group target => exact fun hc => by cases hc

/-- If the arguments of an occurrence can be read then so can arguments that are the same but for
strings, and the plans are the same but for strings. -/
theorem assemble_same {db : String} {f : FieldDef} (hf : f.Named N)
    {o : ObjectType} (ho : o.Named N) {aliasName : String} (ha : Plain aliasName)
    {args args' : Members Json} (hargs : List.Forall₂ (Selection.SameArg R) args args')
    {a b : Body} (hcolumns : b.columns = a.columns) (hnamed : ∀ c ∈ a.columns, N c.column)
    (hjoins : SameJoins R N a.joins b.joins)
    {p : Plan} (h : assemble (dialect db) f o aliasName args a = .ok p) :
    ∃ p', assemble (dialect db) f o aliasName args' b = .ok p' ∧ Same R N p p' := by
  obtain ⟨filter, hfilter, h⟩ := bind_eq_ok_iff.mp h
  obtain ⟨order, horder, h⟩ := bind_eq_ok_iff.mp h
  cases h
  obtain ⟨filter', hfilter', halike⟩ :=
    Filter.argumentText_alike db ha hf.shape (Selection.get?_where_same hargs) hfilter
  have horder' : f.ordering? args' = .ok order := by
    unfold FieldDef.ordering? at horder ⊢
    rw [← Selection.get?_same (by decide) hargs]
    exact horder
  refine ⟨_, bind_eq_ok_iff.mpr ⟨filter', hfilter', bind_eq_ok_iff.mpr ⟨order, horder', rfl⟩⟩, ?_⟩
  rw [hcolumns]
  refine .node ⟨ha, ho.table, ho.primary, ?_, ?_, hnamed, ?_⟩ halike hjoins
  · intro hp
    rw [identityColumns_of_primary hp]
    rfl
  · intro x hx
    obtain ⟨y, hy, rfl⟩ := List.mem_map.mp hx
    exact identityColumns_named ho y.1 (List.fst_mem_of_mem_zipIdx hy)
  · intro t ht
    obtain ⟨g, hg, he⟩ := Ordering.ofArgument_within horder t ht
    rw [← he]
    exact hf.shape g hg

/-- What is selected of the objects below a field is the same but for strings. -/
theorem picked_same {cardinality : Cardinality} {ss ss' : List Selection}
    (h : List.Forall₂ (Selection.Same R) ss ss') :
    List.Forall₂ (Selection.Same R) (picked cardinality ss) (picked cardinality ss') := by
  cases cardinality with
  | many => exact Selection.ofRows_same h
  | one => exact h

/-- A field leads to an object type of the schema. -/
theorem below?_type_named {types : Members ObjectType} (ht : ∀ e ∈ types, e.2.Named N)
    {children : List Selection} {kind : FieldKind} {b : Below}
    (h : below? types children kind = some b) : b.type.Named N := by
  cases kind with
  | scalar type => cases h
  | link target =>
    obtain ⟨o, ho, rfl⟩ := Option.map_eq_some_iff.mp h
    exact ht _ (Members.mem_of_get? ho)
  | group target =>
    obtain ⟨o, ho, rfl⟩ := Option.map_eq_some_iff.mp h
    exact ht _ (Members.mem_of_get? ho)

/-- The occurrences at the roots of plans are the same but for the filter. -/
theorem Same.head {p p' : Plan} (h : Same R N p p') :
    p.head.Named N ∧ Filter.SpokenAlike R N p.head.filter p'.head.filter
      ∧ p'.head = { p.head with filter := p'.head.filter } := by
  cases h with
  | node named hfilter _ => exact ⟨named, hfilter, rfl⟩

/-- A condition with a filter; without one it stays alone. -/
def filtered (condition filter : String) : String :=
  if filter = "" then condition else condition ++ " AND (" ++ filter ++ ")"

/-- Conditions and filters that are spelt alike, put together. -/
theorem filtered_alike {condition condition' filter filter' : String}
    (hc : Spelt R N condition condition') (hf : Filter.SpokenAlike R N filter filter') :
    Spelt R N (filtered condition filter) (filtered condition' filter') := by
  unfold filtered
  by_cases he : filter = ""
  · rw [if_pos he, if_pos (hf.2.mp he)]
    exact hc
  · rw [if_neg he, if_neg fun he' => he (hf.2.mpr he')]
    exact (hc.between (by decide) (by decide) hf.1).before (by decide)

/-- Conditions of joins with plans that are the same but for strings are spelt alike. -/
theorem onText_same {db parent : String} (hp : Plain parent) {f : FieldDef} (hf : f.Named N)
    {p p' : Plan} (h : Same R N p p') :
    Spelt R N (onText (dialect db) f parent p) (onText (dialect db) f parent p') := by
  obtain ⟨named, hfilter, heq⟩ := h.head
  cases hkey : f.join with
  | none =>
    have htext : ∀ q : Plan, onText (dialect db) f parent q = filtered "TRUE" q.head.filter := by
      intro q
      rw [onText, hkey]
      rfl
    have htrue : Plain "TRUE" := by decide
    rw [htext, htext]
    exact filtered_alike htrue.spelt.spelt hfilter
  | some key =>
    have htext : ∀ q : Plan, onText (dialect db) f parent q = filtered
        (FieldDef.joinText (dialect db) parent q.head.aliasName key) q.head.filter := by
      intro q
      rw [onText, hkey]
      rfl
    obtain ⟨hparent, hchild⟩ := hf.join key hkey
    rw [htext, htext]
    refine filtered_alike ?_ hfilter
    rw [heq]
    exact (column_spelt hp hparent).between (by decide) (by decide)
      (column_spelt named.aliasName hchild)

/-- If selections can be planned then so can selections that are the same but for strings, with the
same columns and with joins that are the same but for strings. -/
theorem Planned.same {db : String} {types : Members ObjectType}
    (ht : ∀ e ∈ types, e.2.Named N) {o : ObjectType} {aliasName : String} {placed next : Nat}
    {ss : List Selection} {b : Body} (h : Planned (dialect db) types o aliasName placed next ss b)
    (ho : o.Named N) (ha : Plain aliasName) {ss' : List Selection}
    (hs : List.Forall₂ (Selection.Same R) ss ss') :
    ∃ joins', Planned (dialect db) types o aliasName placed next ss' ⟨b.columns, joins', b.next⟩
      ∧ SameJoins R N b.joins joins' ∧ ∀ c ∈ b.columns, N c.column := by
  induction h generalizing ss' with
  | nil o aliasName placed next =>
    cases hs
    exact ⟨[], .nil o aliasName placed next, .nil, fun c hc => absurd hc List.not_mem_nil⟩
  | reserved hr tail ih =>
    cases hs with
    | cons head rest =>
      obtain ⟨joins', hplanned, hjoins, hcolumns⟩ := ih ho ha rest
      exact ⟨joins', .reserved (head.name_eq ▸ hr) hplanned, hjoins, hcolumns⟩
  | unread hr hf hk hc tail ih =>
    cases hs with
    | cons head rest =>
      obtain ⟨joins', hplanned, hjoins, hcolumns⟩ := ih ho ha rest
      exact ⟨joins', .unread (head.name_eq ▸ hr) (head.name_eq ▸ hf) hk hc hplanned, hjoins,
        hcolumns⟩
  | @column o aliasName placed next s rest more f type column hr hf hk hc tail ih =>
    cases hs with
    | @cons _ s' _ rest' head hrest =>
      obtain ⟨joins', hplanned, hjoins, hcolumns⟩ := ih ho ha hrest
      have hselect : columnSelect aliasName placed s type column
          = columnSelect aliasName placed s' type column := by
        rw [columnSelect, head.responseKey_eq, columnSelect]
      refine ⟨joins', ?_, hjoins, ?_⟩
      · rw [hselect]
        exact .column (head.name_eq ▸ hr) (head.name_eq ▸ hf) hk hc hplanned
      · intro c hmem
        rcases List.mem_cons.mp hmem with rfl | hmem
        · exact (ho.fields _ (Members.mem_of_get? hf)).column column hc
        · exact hcolumns c hmem
  | @join o aliasName placed next s rest inner more f b child hr hf hb below hassemble tail ihb
    ih =>
    cases hs with
    | @cons _ s' _ rest' head hrest =>
      have hfield := ho.fields _ (Members.mem_of_get? hf)
      have hbelow := below?_children hb s'.children
      have hselected : List.Forall₂ (Selection.Same R) (Selection.merge b.selected)
          (Selection.merge (picked b.cardinality s'.children)) := by
        rw [selected_eq_picked hb]
        exact Selection.merge_same (picked_same head.children_same)
      have htype := below?_type_named ht hb
      obtain ⟨inner', hinner, hinnerJoins, hinnerColumns⟩ :=
        ihb htype (plain_aliasOf next) hselected
      obtain ⟨child', hchild, hsame⟩ := assemble_same hfield htype (plain_aliasOf next)
        head.args_same (a := inner) (b := ⟨inner.columns, inner', inner.next⟩) rfl hinnerColumns
        hinnerJoins hassemble
      obtain ⟨joins', hplanned, hjoins, hcolumns⟩ := ih ho ha hrest
      refine ⟨_, ?_, .cons (onText_same ha hfield hsame) hsame hjoins, hcolumns⟩
      have hjoin :=
        Planned.join (head.name_eq ▸ hr) (head.name_eq ▸ hf) hbelow hinner hchild hplanned
      rw [← head.responseKey_eq] at hjoin
      exact hjoin

/-- If a root field can be planned then so can one that is the same but for strings, and the plans
are the same but for strings. -/
theorem ofRoot_same {db : String} {types : Members ObjectType}
    (ht : ∀ e ∈ types, e.2.Named N) {f : FieldDef} (hf : f.Named N) {s s' : Selection}
    (hs : Selection.Same R s s') {p : Plan} (h : ofRoot (dialect db) types f s = .ok p) :
    ∃ p', ofRoot (dialect db) types f s' = .ok p' ∧ Same R N p p' := by
  obtain ⟨target, b, inner, hk, hb, hplanned, hassemble⟩ := ofRoot_eq_ok_iff.mp h
  have htype := below?_type_named ht hb
  have hselected : List.Forall₂ (Selection.Same R) (Selection.merge b.selected)
      (Selection.merge (picked b.cardinality s'.children)) := by
    rw [selected_eq_picked hb]
    exact Selection.merge_same (picked_same hs.children_same)
  obtain ⟨joins', hinner, hjoins, hcolumns⟩ :=
    hplanned.same ht htype (plain_aliasOf 0) hselected
  obtain ⟨p', hp', hsame⟩ := assemble_same hf htype (plain_aliasOf 0) hs.args_same
    (a := inner) (b := ⟨inner.columns, joins', inner.next⟩) rfl hcolumns hjoins hassemble
  exact ⟨p', ofRoot_eq_ok_iff.mpr ⟨target, _, _, hk, below?_children hb s'.children, hinner, hp'⟩,
    hsame⟩

end Plan

end TableGraph
