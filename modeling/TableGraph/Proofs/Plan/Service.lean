import Mathlib.Data.List.Basic
import TableGraph.Proofs.Plan.Asked

/-!
# Selections that share a plan

The fields below several selections of rows are pooled by response key before they are planned. The
plan serves each of them exactly when those pooled under one response key ask for the same, at every
level.
-/

namespace TableGraph.Plan

/-- A selected field with the object type it is selected on. -/
abbrev Pooled := ObjectType × Selection

variable (d : Dialect) (types : Members ObjectType)

/-- An occurrence serves a field with what stands under its response key, and nothing else does: the
column it asks for, or the join it asks for with plans that serve the fields below. -/
inductive Serves :
    String → List ColumnSelect → List (JoinHead × Plan) → ObjectType → Selection → Prop
  /-- A field that asks for nothing is served. -/
  | nothing {aliasName child : String} {columns : List ColumnSelect}
    {joins : List (JoinHead × Plan)} {o : ObjectType} {s : Selection}
    (hw : asked? d types o aliasName child s = some .nothing) (hs : s.children = []) :
    Serves aliasName columns joins o s
  /-- A value is served by its column. -/
  | column {aliasName child : String} {columns : List ColumnSelect}
    {joins : List (JoinHead × Plan)} {o : ObjectType} {s : Selection} {c : ColumnSelect}
    (hc : columns.filter (fun c => c.key = s.responseKey) = [c])
    (hj : joins.filter (fun j => j.1.key = s.responseKey) = [])
    (hw : asked? d types o aliasName child s = some (.column c.column c.presence)) :
    Serves aliasName columns joins o s
  /-- Objects are served by their join. -/
  | objects {aliasName : String} {columns : List ColumnSelect}
    {joins : List (JoinHead × Plan)} {o : ObjectType} {s : Selection} {j : JoinHead} {p : Plan}
    {b : Below}
    (hc : columns.filter (fun c => c.key = s.responseKey) = [])
    (hj : joins.filter (fun j => j.1.key = s.responseKey) = [(j, p)])
    (hw : asked? d types o aliasName p.head.aliasName s
      = some (.objects j.cardinality j.condition (withColumns p.head [])))
    (hb : belowOf? types o s = some b)
    (below : ∀ t ∈ b.selected, Serves p.head.aliasName p.head.columns p.joins b.type t) :
    Serves aliasName columns joins o s

/-- The fields pooled below a field. -/
def pooledBelow (y : Pooled) : List Pooled :=
  match belowOf? types y.1 y.2 with
  | some b => b.selected.map fun t => (b.type, t)
  | none => []

/-- The pooled fields under a response key. -/
def sharing (key : String) (pool : List Pooled) : List Pooled :=
  pool.filter fun y => y.2.responseKey = key

/-- The pooled fields under other response keys. -/
def others (key : String) (pool : List Pooled) : List Pooled :=
  pool.filter fun y => y.2.responseKey ≠ key

/-- A pooled field asks for a thing, or for nothing at all. -/
def Wants (aliasName child : String) (w : Asked) (y : Pooled) : Prop :=
  asked? d types y.1 aliasName child y.2 = some w
    ∨ asked? d types y.1 aliasName child y.2 = some .nothing ∧ y.2.children = []

/-- Pooled fields that an occurrence can serve. `next` is the number of the next alias before and
after: those that share a response key ask for the same as the first of them, and the fields below
them can be served in turn. -/
inductive Compatible : ObjectType → String → Nat → List Pooled → Nat → Prop
  /-- No fields. -/
  | nil (o : ObjectType) (aliasName : String) (next : Nat) : Compatible o aliasName next [] next
  /-- Fields that ask for nothing. -/
  | nothing {o : ObjectType} {aliasName : String} {next after : Nat} {x : Pooled}
    {pool : List Pooled}
    (hw : asked? d types o aliasName (aliasOf next) x.2 = some .nothing)
    (hs : ∀ y ∈ sharing x.2.responseKey (x :: pool),
      asked? d types y.1 aliasName (aliasOf next) y.2 = some .nothing ∧ y.2.children = [])
    (rest : Compatible o aliasName next (others x.2.responseKey pool) after) :
    Compatible o aliasName next (x :: pool) after
  /-- Fields that ask for one column. -/
  | column {o : ObjectType} {aliasName : String} {next after : Nat} {x : Pooled}
    {pool : List Pooled} {name : String} {presence : Bool}
    (hw : asked? d types o aliasName (aliasOf next) x.2 = some (.column name presence))
    (hs : ∀ y ∈ sharing x.2.responseKey (x :: pool),
      Wants d types aliasName (aliasOf next) (.column name presence) y)
    (rest : Compatible o aliasName next (others x.2.responseKey pool) after) :
    Compatible o aliasName next (x :: pool) after
  /-- Fields that ask for the same objects. -/
  | objects {o : ObjectType} {aliasName : String} {next inner after : Nat} {x : Pooled}
    {pool : List Pooled} {cardinality : Cardinality} {condition : String}
    {occurrence : Occurrence} {b : Below}
    (hw : asked? d types o aliasName (aliasOf next) x.2
      = some (.objects cardinality condition occurrence))
    (hb : belowOf? types o x.2 = some b)
    (hs : ∀ y ∈ sharing x.2.responseKey (x :: pool),
      Wants d types aliasName (aliasOf next) (.objects cardinality condition occurrence) y)
    (below : Compatible b.type (aliasOf next) (next + 1)
      ((sharing x.2.responseKey (x :: pool)).flatMap (pooledBelow types)) inner)
    (rest : Compatible o aliasName inner (others x.2.responseKey pool) after) :
    Compatible o aliasName next (x :: pool) after

variable {d : Dialect} {types : Members ObjectType}

/-- The first pooled field, with what is below all fields that share its response key. -/
def leader (x : Pooled) (pool : List Pooled) : Selection :=
  x.2.extend ((sharing x.2.responseKey pool).flatMap fun y => y.2.children)

/-- Merged pooled fields by the first of them. -/
theorem merge_pool (x : Pooled) (pool : List Pooled) :
    Selection.merge ((x :: pool).map Prod.snd)
      = leader x pool :: Selection.merge ((others x.2.responseKey pool).map Prod.snd) := by
  rw [List.map_cons, Selection.merge_cons, Selection.withKey, Selection.withoutKey, List.filter_map,
    List.filter_map, List.flatMap_map]
  rfl

/-- The response key is that of the first pooled field. -/
@[simp]
theorem responseKey_leader (x : Pooled) (pool : List Pooled) :
    (leader x pool).responseKey = x.2.responseKey := Selection.responseKey_extend _ _

/-- The name is that of the first pooled field. -/
@[simp]
theorem name_leader (x : Pooled) (pool : List Pooled) : (leader x pool).name = x.2.name :=
  Selection.name_extend _ _

/-- The arguments are those of the first pooled field. -/
@[simp]
theorem args_leader (x : Pooled) (pool : List Pooled) : (leader x pool).args = x.2.args :=
  Selection.args_extend _ _

/-- The fields below all fields that share the response key come together. -/
theorem children_leader (x : Pooled) (pool : List Pooled) :
    (leader x pool).children
      = (sharing x.2.responseKey (x :: pool)).flatMap fun y => y.2.children := by
  have hx : sharing x.2.responseKey (x :: pool) = x :: sharing x.2.responseKey pool :=
    List.filter_cons_of_pos (decide_eq_true rfl)
  simp [leader, hx]

/-- What is picked below several fields. -/
@[simp]
theorem picked_flatMap {α : Type} (c : Cardinality) (f : α → List Selection) (xs : List α) :
    picked c (xs.flatMap f) = xs.flatMap fun x => picked c (f x) := by
  cases c with
  | many => exact Selection.ofRows_flatMap f xs
  | one => rfl

/-- Nothing is picked below a field with nothing below it. -/
@[simp]
theorem picked_nil (c : Cardinality) : picked c [] = [] := by cases c <;> rfl

/-- Objects that are asked for have fields selected below. -/
theorem belowOf?_of_asked {o : ObjectType} {parent child : String} {s : Selection}
    {cardinality : Cardinality} {condition : String} {occurrence : Occurrence}
    (h : asked? d types o parent child s = some (.objects cardinality condition occurrence)) :
    ∃ b, belowOf? types o s = some b ∧ b.cardinality = cardinality
      ∧ b.selected = picked cardinality s.children := by
  obtain ⟨_, f, b, hf, hb, _, rfl, _⟩ := objects_of_asked h
  exact ⟨b, by rw [belowOf?, hf, Option.bind_some, hb], rfl, selected_eq_picked hb⟩

/-- Nothing is pooled below a field with nothing below it. -/
theorem pooledBelow_of_children_nil {y : Pooled} (h : y.2.children = []) :
    pooledBelow types y = [] := by
  unfold pooledBelow belowOf?
  cases hf : Members.get? y.1.fields y.2.name with
  | none => rfl
  | some f =>
    cases hb : below? types y.2.children f.kind with
    | none => simp [hb]
    | some b =>
      have hselected : b.selected = [] := by simp [selected_eq_picked hb, h]
      simp [hb, hselected]

/-- The fields pooled below fields that ask for the same objects are those picked below all. -/
theorem map_pooledBelow {pool : List Pooled} {aliasName child : String} {cardinality : Cardinality}
    {condition : String} {occurrence : Occurrence}
    (h : ∀ y ∈ pool, Wants d types aliasName child (.objects cardinality condition occurrence) y) :
    (pool.flatMap (pooledBelow types)).map Prod.snd
      = picked cardinality (pool.flatMap fun y => y.2.children) := by
  rw [List.map_flatMap, picked_flatMap]
  apply List.flatMap_congr
  intro y hy
  rcases h y hy with hw | ⟨_, hs⟩
  · obtain ⟨b, hb, _, hsel⟩ := belowOf?_of_asked hw
    rw [pooledBelow, hb, ← hsel, List.map_map]
    exact List.map_id _
  · simp [pooledBelow_of_children_nil hs, hs]

section

variable {aliasName : String} {columns : List ColumnSelect} {joins : List (JoinHead × Plan)}
  {o : ObjectType} {s : Selection}

/-- Only what stands under the response key of a field serves it. -/
theorem Serves.congr (h : Serves d types aliasName columns joins o s)
    {columns' : List ColumnSelect} {joins' : List (JoinHead × Plan)}
    (hc : columns'.filter (fun c => c.key = s.responseKey)
      = columns.filter fun c => c.key = s.responseKey)
    (hj : joins'.filter (fun j => j.1.key = s.responseKey)
      = joins.filter fun j => j.1.key = s.responseKey) :
    Serves d types aliasName columns' joins' o s := by
  cases h with
  | nothing hw hs => exact Serves.nothing hw hs
  | column hc' hj' hw => exact Serves.column (hc.trans hc') (hj.trans hj') hw
  | objects hc' hj' hw hb below => exact Serves.objects (hc.trans hc') (hj.trans hj') hw hb below

/-- Where nothing stands under its response key, a field is served that asks for nothing. -/
theorem Serves.of_none (h : Serves d types aliasName columns joins o s)
    (hc : columns.filter (fun c => c.key = s.responseKey) = [])
    (hj : joins.filter (fun j => j.1.key = s.responseKey) = []) (child : String) :
    asked? d types o aliasName child s = some .nothing ∧ s.children = [] := by
  cases h with
  | nothing hw hs => exact ⟨asked?_child hw (fun _ _ _ h => by cases h) child, hs⟩
  | column hc' hj' hw =>
    rw [hc] at hc'
    cases hc'
  | objects hc' hj' hw hb below =>
    rw [hj] at hj'
    cases hj'

/-- Where a column stands under its response key, a field is served that asks for the column. -/
theorem Serves.of_column (h : Serves d types aliasName columns joins o s) {c : ColumnSelect}
    (hc : columns.filter (fun c => c.key = s.responseKey) = [c]) (child : String) :
    Wants d types aliasName child (.column c.column c.presence) (o, s) := by
  cases h with
  | nothing hw hs => exact Or.inr ⟨asked?_child hw (fun _ _ _ h => by cases h) child, hs⟩
  | column hc' hj' hw =>
    rw [hc] at hc'
    cases hc'
    exact Or.inl (asked?_child hw (fun _ _ _ h => by cases h) child)
  | objects hc' hj' hw hb below =>
    rw [hc] at hc'
    cases hc'

/-- Where a join stands under its response key, a field is served that asks for the join, with
everything below it. -/
theorem Serves.of_join (h : Serves d types aliasName columns joins o s) {j : JoinHead} {p : Plan}
    (hj : joins.filter (fun j => j.1.key = s.responseKey) = [(j, p)]) :
    Wants d types aliasName p.head.aliasName
        (.objects j.cardinality j.condition (withColumns p.head [])) (o, s)
      ∧ ∀ z ∈ pooledBelow types (o, s),
        Serves d types p.head.aliasName p.head.columns p.joins z.1 z.2 := by
  cases h with
  | nothing hw hs =>
    refine ⟨Or.inr ⟨asked?_child hw (fun _ _ _ h => by cases h) _, hs⟩, ?_⟩
    rw [pooledBelow_of_children_nil hs]
    intro z hz
    cases hz
  | column hc' hj' hw =>
    rw [hj] at hj'
    cases hj'
  | objects hc' hj' hw hb below =>
    rw [hj] at hj'
    cases hj'
    refine ⟨Or.inl hw, ?_⟩
    rw [pooledBelow, hb]
    intro z hz
    obtain ⟨t, ht, rfl⟩ := List.mem_map.mp hz
    exact below t ht

/-- What is planned for fields under other response keys does not stand under a response key. -/
theorem Planned.filter_others {placed next : Nat} {key : String} {pool : List Pooled} {b : Body}
    (h : Planned d types o aliasName placed next
      (Selection.merge ((others key pool).map Prod.snd)) b) :
    b.columns.filter (fun c => c.key = key) = []
      ∧ b.joins.filter (fun j => j.1.key = key) = [] := by
  refine h.filter_nil fun hmem => ?_
  obtain ⟨s, hs, rfl⟩ := List.mem_map.mp hmem
  obtain ⟨t, ht, he⟩ := List.mem_map.mp (Selection.responseKey_mem_of_merge hs)
  obtain ⟨y, hy, rfl⟩ := List.mem_map.mp ht
  exact of_decide_eq_true (List.mem_filter.mp hy).2 he

end

/-- The first of several items is alone under its key if none of the others has it. -/
theorem filter_cons_key {α : Type} {f : α → String} {key : String} {x : α} {xs : List α}
    (hx : f x = key) (hxs : xs.filter (fun y => f y = key) = []) :
    (x :: xs).filter (fun y => f y = key) = [x] := by
  rw [List.filter_cons_of_pos, hxs]
  exact decide_eq_true hx

/-- What holds of all pooled fields holds of those that share a response key with the first of them
and of the others. -/
theorem forall_pool_iff {P : Pooled → Prop} {x : Pooled} {pool : List Pooled} :
    (∀ y ∈ x :: pool, P y) ↔ (∀ y ∈ sharing x.2.responseKey (x :: pool), P y)
      ∧ ∀ y ∈ others x.2.responseKey pool, P y := by
  constructor
  · intro h
    exact ⟨fun y hy => h y (List.mem_filter.mp hy).1,
      fun y hy => h y (List.mem_cons_of_mem _ (List.mem_filter.mp hy).1)⟩
  · rintro ⟨hsharing, hothers⟩ y hy
    by_cases hk : y.2.responseKey = x.2.responseKey
    · exact hsharing y (List.mem_filter.mpr ⟨hy, decide_eq_true hk⟩)
    · rcases List.mem_cons.mp hy with rfl | hy
      · exact absurd rfl hk
      · exact hothers y (List.mem_filter.mpr ⟨hy, decide_eq_true hk⟩)

/-- A field that shares a response key has it. -/
theorem responseKey_of_mem_sharing {key : String} {pool : List Pooled} {y : Pooled}
    (h : y ∈ sharing key pool) : y.2.responseKey = key := of_decide_eq_true (List.mem_filter.mp h).2

/-- Other response keys than that of the first field are not the one it is merged under. -/
theorem responseKey_leader_ne {x : Pooled} {pool : List Pooled} {y : Pooled}
    (h : y ∈ others x.2.responseKey pool) : ¬(leader x pool).responseKey = y.2.responseKey := by
  have hne : y.2.responseKey ≠ x.2.responseKey := of_decide_eq_true (List.mem_filter.mp h).2
  simpa using Ne.symm hne

/-- Merged pooled fields start with those that share a response key with the first of them. -/
theorem eq_leader_of_merge {s : Selection} {rest : List Selection} {pool : List Pooled}
    (h : s :: rest = Selection.merge (pool.map Prod.snd)) :
    ∃ x xs, pool = x :: xs ∧ s = leader x xs
      ∧ rest = Selection.merge ((others x.2.responseKey xs).map Prod.snd) := by
  cases pool with
  | nil => cases h
  | cons x xs =>
    rw [merge_pool] at h
    obtain ⟨hs, hrest⟩ := List.cons.inj h
    exact ⟨x, xs, rfl, hs, hrest⟩

section

variable {aliasName : String} {columns : List ColumnSelect} {joins : List (JoinHead × Plan)}
  {o : ObjectType} {s : Selection}

/-- A column under another response key serves nothing. -/
theorem Serves.cons_column_iff {c : ColumnSelect} (hc : ¬c.key = s.responseKey) :
    Serves d types aliasName (c :: columns) joins o s
      ↔ Serves d types aliasName columns joins o s := by
  have hfilter : (c :: columns).filter (fun c => c.key = s.responseKey)
      = columns.filter fun c => c.key = s.responseKey :=
    List.filter_cons_of_neg (by simpa only [decide_eq_true_eq] using hc)
  exact ⟨fun h => h.congr hfilter.symm rfl, fun h => h.congr hfilter rfl⟩

/-- A join under another response key serves nothing. -/
theorem Serves.cons_join_iff {j : JoinHead × Plan} (hj : ¬j.1.key = s.responseKey) :
    Serves d types aliasName columns (j :: joins) o s
      ↔ Serves d types aliasName columns joins o s := by
  have hfilter : (j :: joins).filter (fun j => j.1.key = s.responseKey)
      = joins.filter fun j => j.1.key = s.responseKey :=
    List.filter_cons_of_neg (by simpa only [decide_eq_true_eq] using hj)
  exact ⟨fun h => h.congr rfl hfilter.symm, fun h => h.congr rfl hfilter⟩

end

section

variable {o : ObjectType} {aliasName : String} {placed next : Nat} {x : Pooled} {pool : List Pooled}
  {b : Body}

/-- What is planned for other response keys serves a field that asks for nothing. -/
theorem Planned.serves_nothing_iff {key : String} (h : Planned d types o aliasName placed next
      (Selection.merge ((others key pool).map Prod.snd)) b) {y : Pooled}
    (hy : y.2.responseKey = key) (child : String) :
    Serves d types aliasName b.columns b.joins y.1 y.2
      ↔ asked? d types y.1 aliasName child y.2 = some .nothing ∧ y.2.children = [] :=
  ⟨fun hserves => hserves.of_none (hy ▸ h.filter_others.1) (hy ▸ h.filter_others.2) child,
    fun hw => Serves.nothing hw.1 hw.2⟩

/-- With a column under its response key, a field is served that wants the column. -/
theorem Planned.serves_column_iff (h : Planned d types o aliasName placed next
      (Selection.merge ((others x.2.responseKey pool).map Prod.snd)) b) {c : ColumnSelect}
    (hc : c.key = (leader x pool).responseKey) {y : Pooled}
    (hy : y.2.responseKey = x.2.responseKey) (child : String) :
    Serves d types aliasName (c :: b.columns) b.joins y.1 y.2
      ↔ Wants d types aliasName child (.column c.column c.presence) y := by
  have hkey : c.key = y.2.responseKey := by simp [hc, hy]
  have hcolumns := filter_cons_key hkey (hy ▸ h.filter_others.1)
  constructor
  · exact fun hserves => hserves.of_column hcolumns child
  · rintro (hw | ⟨hw, hnil⟩)
    · exact Serves.column hcolumns (hy ▸ h.filter_others.2) hw
    · exact Serves.nothing hw hnil

/-- With a join under its response key, a field is served that wants the join, when the fields
below it are served by what is below the join. -/
theorem Planned.serves_objects_iff (h : Planned d types o aliasName placed next
      (Selection.merge ((others x.2.responseKey pool).map Prod.snd)) b) {j : JoinHead}
    {child : Plan} (hj : j.key = (leader x pool).responseKey) {y : Pooled}
    (hy : y.2.responseKey = x.2.responseKey) :
    Serves d types aliasName b.columns ((j, child) :: b.joins) y.1 y.2
      ↔ Wants d types aliasName child.head.aliasName
          (.objects j.cardinality j.condition (withColumns child.head [])) y
        ∧ ∀ z ∈ pooledBelow types y,
          Serves d types child.head.aliasName child.head.columns child.joins z.1 z.2 := by
  have hkey : j.key = y.2.responseKey := by simp [hj, hy]
  have hjoins := filter_cons_key (f := fun j : JoinHead × Plan => j.1.key) (x := (j, child)) hkey
    (hy ▸ h.filter_others.2)
  constructor
  · exact fun hserves => hserves.of_join hjoins
  · rintro ⟨hw | ⟨hw, hnil⟩, hbelow⟩
    · obtain ⟨own, hown, _, _⟩ := belowOf?_of_asked hw
      refine Serves.objects (hy ▸ h.filter_others.1) hjoins hw hown ?_
      intro t ht
      refine hbelow (_, t) ?_
      rw [pooledBelow, hown]
      exact List.mem_map_of_mem ht
    · exact Serves.nothing hw hnil

/-- What is planned for other response keys serves all pooled fields when those that share the
response key of the first ask for nothing. -/
theorem Planned.forall_serves_nothing_iff (h : Planned d types o aliasName placed next
      (Selection.merge ((others x.2.responseKey pool).map Prod.snd)) b) (child : String) :
    (∀ y ∈ x :: pool, Serves d types aliasName b.columns b.joins y.1 y.2)
      ↔ (∀ y ∈ sharing x.2.responseKey (x :: pool),
          asked? d types y.1 aliasName child y.2 = some .nothing ∧ y.2.children = [])
        ∧ ∀ y ∈ others x.2.responseKey pool,
          Serves d types aliasName b.columns b.joins y.1 y.2 := by
  refine forall_pool_iff.trans (and_congr_left' (forall₂_congr fun y hy => ?_))
  exact h.serves_nothing_iff (responseKey_of_mem_sharing hy) child

/-- With a column for the first pooled field all of them are served when those that share its
response key want the column. -/
theorem Planned.forall_serves_column_iff (h : Planned d types o aliasName placed next
      (Selection.merge ((others x.2.responseKey pool).map Prod.snd)) b) {c : ColumnSelect}
    (hc : c.key = (leader x pool).responseKey) (child : String) :
    (∀ y ∈ x :: pool, Serves d types aliasName (c :: b.columns) b.joins y.1 y.2)
      ↔ (∀ y ∈ sharing x.2.responseKey (x :: pool),
          Wants d types aliasName child (.column c.column c.presence) y)
        ∧ ∀ y ∈ others x.2.responseKey pool,
          Serves d types aliasName b.columns b.joins y.1 y.2 := by
  refine forall_pool_iff.trans (and_congr (forall₂_congr fun y hy => ?_)
    (forall₂_congr fun y hy => ?_))
  · exact h.serves_column_iff hc (responseKey_of_mem_sharing hy) child
  · exact Serves.cons_column_iff (hc ▸ responseKey_leader_ne hy)

/-- With a join for the first pooled field all of them are served when those that share its response
key want the join, and the fields below these are served by what is below the join. -/
theorem Planned.forall_serves_objects_iff (h : Planned d types o aliasName placed next
      (Selection.merge ((others x.2.responseKey pool).map Prod.snd)) b) {j : JoinHead}
    {child : Plan} (hj : j.key = (leader x pool).responseKey) :
    (∀ y ∈ x :: pool, Serves d types aliasName b.columns ((j, child) :: b.joins) y.1 y.2)
      ↔ (∀ y ∈ sharing x.2.responseKey (x :: pool), Wants d types aliasName child.head.aliasName
            (.objects j.cardinality j.condition (withColumns child.head [])) y
          ∧ ∀ z ∈ pooledBelow types y,
            Serves d types child.head.aliasName child.head.columns child.joins z.1 z.2)
        ∧ ∀ y ∈ others x.2.responseKey pool,
          Serves d types aliasName b.columns b.joins y.1 y.2 := by
  refine forall_pool_iff.trans (and_congr (forall₂_congr fun y hy => ?_)
    (forall₂_congr fun y hy => ?_))
  · exact h.serves_objects_iff hj (responseKey_of_mem_sharing hy)
  · exact Serves.cons_join_iff (hj ▸ responseKey_leader_ne hy)

/-- A join of the objects of the first pooled field serves all fields when those that share its
response key want the objects, and the fields below these are served by what is planned for them. -/
theorem Planned.forall_serves_join_iff (h : Planned d types o aliasName placed next
      (Selection.merge ((others x.2.responseKey pool).map Prod.snd)) b) {f : FieldDef}
    {below : Below} {number : Nat} {head : Occurrence} {inner : Body}
    (hhead : assemble d f below.type (aliasOf number) x.2.args ⟨[], [], 0⟩ = .ok (.node head [])) :
    (∀ y ∈ x :: pool, Serves d types aliasName b.columns
        ((⟨(leader x pool).responseKey, below.cardinality,
          onText d f aliasName (.node (withColumns head inner.columns) inner.joins)⟩,
          .node (withColumns head inner.columns) inner.joins) :: b.joins) y.1 y.2)
      ↔ ((∀ y ∈ sharing x.2.responseKey (x :: pool), Wants d types aliasName (aliasOf number)
            (.objects below.cardinality (onText d f aliasName (.node head [])) head) y)
          ∧ ∀ z ∈ (sharing x.2.responseKey (x :: pool)).flatMap (pooledBelow types),
            Serves d types (aliasOf number) inner.columns inner.joins z.1 z.2)
        ∧ ∀ y ∈ others x.2.responseKey pool,
          Serves d types aliasName b.columns b.joins y.1 y.2 := by
  have halias : head.aliasName = aliasOf number := aliasName_of_assemble hhead
  have hwants : withColumns (withColumns head inner.columns) [] = head :=
    withColumns_of_assemble hhead
  refine (h.forall_serves_objects_iff rfl).trans (and_congr_left' ?_)
  rw [← halias]
  constructor
  · intro hall
    refine ⟨fun y hy => ?_, fun z hz => ?_⟩
    · exact hwants ▸ (hall y hy).1
    · obtain ⟨y, hy, hz⟩ := List.mem_flatMap.mp hz
      exact (hall y hy).2 z hz
  · rintro ⟨hwant, hbelow⟩ y hy
    refine ⟨hwants.symm ▸ hwant y hy, fun z hz => ?_⟩
    exact hbelow z (List.mem_flatMap.mpr ⟨y, hy, hz⟩)

end

/-- Fields that are all served by what is planned for them can be served. -/
theorem Planned.compatible {o : ObjectType} {aliasName : String} {placed next : Nat}
    {ss : List Selection} {b : Body} (h : Planned d types o aliasName placed next ss b) :
    ∀ pool : List Pooled, ss = Selection.merge (pool.map Prod.snd) →
      (∀ y ∈ pool, Serves d types aliasName b.columns b.joins y.1 y.2) →
      Compatible d types o aliasName next pool b.next := by
  induction h with
  | nil o aliasName placed next =>
    intro pool hss hserves
    cases pool with
    | nil => exact Compatible.nil o aliasName next
    | cons x pool =>
      rw [merge_pool] at hss
      cases hss
  | @reserved o aliasName placed next s rest more hr tail ih =>
    intro pool hss hserves
    obtain ⟨x, pool, rfl, rfl, rfl⟩ := eq_leader_of_merge hss
    obtain ⟨hs, hrest⟩ := (tail.forall_serves_nothing_iff (aliasOf next)).mp hserves
    exact Compatible.nothing (asked?_reserved (by simpa using hr)) hs (ih _ rfl hrest)
  | @unread o aliasName placed next s rest more f type hr hf hk hc tail ih =>
    intro pool hss hserves
    obtain ⟨x, pool, rfl, rfl, rfl⟩ := eq_leader_of_merge hss
    simp only [name_leader] at hr hf
    obtain ⟨hs, hrest⟩ := (tail.forall_serves_nothing_iff (aliasOf next)).mp hserves
    exact Compatible.nothing (asked?_unread hr hf hk hc) hs (ih _ rfl hrest)
  | @column o aliasName placed next s rest more f type column hr hf hk hc tail ih =>
    intro pool hss hserves
    obtain ⟨x, pool, rfl, rfl, rfl⟩ := eq_leader_of_merge hss
    simp only [name_leader] at hr hf
    obtain ⟨hs, hrest⟩ := (tail.forall_serves_column_iff rfl (aliasOf next)).mp hserves
    exact Compatible.column (asked?_column hr hf hk hc) hs (ih _ rfl hrest)
  | @join o aliasName placed next s rest inner more f b child hr hf hb below ha tail ihb ih =>
    intro pool hss hserves
    obtain ⟨x, pool, rfl, rfl, rfl⟩ := eq_leader_of_merge hss
    simp only [name_leader, args_leader] at hr hf ha
    obtain ⟨head, hhead, rfl⟩ := assemble_eq_ok_iff.mp ha
    obtain ⟨⟨hs, hbelow⟩, hrest⟩ := (tail.forall_serves_join_iff hhead).mp hserves
    have hb' := below?_children hb x.2.children
    have hown : belowOf? types o x.2
        = some ⟨b.type, b.cardinality, picked b.cardinality x.2.children⟩ := by
      rw [belowOf?, hf]
      exact hb'
    refine Compatible.objects (asked?_objects hr hf hb' hhead) hown hs (ihb _ ?_ hbelow)
      (ih _ rfl hrest)
    rw [map_pooledBelow hs, ← children_leader, selected_eq_picked hb]

/-- Fields that can be served are planned, and all of them are served. -/
theorem Compatible.planned {o : ObjectType} {aliasName : String} {next after : Nat}
    {pool : List Pooled} (h : Compatible d types o aliasName next pool after) :
    ∀ placed, ∃ b, Planned d types o aliasName placed next
        (Selection.merge (pool.map Prod.snd)) b
      ∧ b.next = after ∧ ∀ y ∈ pool, Serves d types aliasName b.columns b.joins y.1 y.2 := by
  induction h with
  | nil o aliasName next =>
    intro placed
    exact ⟨_, Planned.nil o aliasName placed next, rfl, nofun⟩
  | @nothing o aliasName next after x pool hw hs rest ih =>
    intro placed
    obtain ⟨b, hb, hafter, hserves⟩ := ih placed
    refine ⟨b, ?_, hafter, (hb.forall_serves_nothing_iff _).mpr ⟨hs, hserves⟩⟩
    rw [merge_pool]
    rcases nothing_of_asked hw with hr | ⟨hr, f, type, hf, hk, hc⟩
    · exact Planned.reserved (by simpa using hr) hb
    · exact Planned.unread (by simpa using hr) (by simpa using hf) hk hc hb
  | @column o aliasName next after x pool name presence hw hs rest ih =>
    intro placed
    obtain ⟨b, hb, hafter, hserves⟩ := ih (placed + 1)
    obtain ⟨hr, f, type, hf, hk, hc, rfl⟩ := column_of_asked hw
    rw [merge_pool]
    exact ⟨_, Planned.column (by simpa using hr) (by simpa using hf) hk hc hb, hafter,
      (hb.forall_serves_column_iff rfl _).mpr ⟨hs, hserves⟩⟩
  | @objects o aliasName next inner after x pool cardinality condition occurrence b hw hb hs below
      rest ihb ih =>
    intro placed
    obtain ⟨more, hmore, hafter, hserves⟩ := ih placed
    obtain ⟨body, hbody, hinner, hbelow⟩ := ihb 0
    obtain ⟨hr, f, b', hf, hb', hhead, rfl, rfl⟩ := objects_of_asked hw
    rw [belowOf?, hf, Option.bind_some, hb'] at hb
    cases hb
    have hchild : assemble d f b.type (aliasOf next) (leader x pool).args body
        = .ok (.node (withColumns occurrence body.columns) body.joins) := by
      simpa using assemble_eq_ok_iff.mpr ⟨occurrence, hhead, rfl⟩
    have hb'' := below?_children hb' (leader x pool).children
    rw [map_pooledBelow hs, ← children_leader] at hbody
    rw [merge_pool]
    subst hinner
    exact ⟨_, Planned.join (by simpa using hr) (by simpa using hf) hb'' hbody hchild hmore, hafter,
      (hmore.forall_serves_join_iff hhead).mpr ⟨⟨hs, hbelow⟩, hserves⟩⟩

/-- The statement of a root field serves every field selected of its rows exactly when the arguments
of the root field can be read and the fields pooled under one response key ask for the same, at
every level. -/
theorem ofRoot_serves_iff (d : Dialect) (types : Members ObjectType) (f : FieldDef)
    (s : Selection) :
    (∃ p, ofRoot d types f s = .ok p ∧ ∀ b, below? types s.children f.kind = some b →
        ∀ t ∈ b.selected, Serves d types p.head.aliasName p.head.columns p.joins b.type t)
      ↔ ∃ target b head after, f.kind = .link target
        ∧ below? types s.children f.kind = some b
        ∧ assemble d f b.type (aliasOf 0) s.args ⟨[], [], 0⟩ = .ok (.node head [])
        ∧ Compatible d types b.type (aliasOf 0) 1 (b.selected.map fun t => (b.type, t)) after := by
  have hpool : ∀ b : Below, (b.selected.map fun t => (b.type, t)).map Prod.snd = b.selected := by
    intro b
    rw [List.map_map]
    exact List.map_id _
  constructor
  · rintro ⟨p, hp, hserves⟩
    obtain ⟨target, b, inner, hk, hb, hi, ha⟩ := ofRoot_eq_ok_iff.mp hp
    obtain ⟨head, hhead, hchild⟩ := assemble_eq_ok_iff.mp ha
    refine ⟨target, b, head, inner.next, hk, hb, hhead, ?_⟩
    refine hi.compatible _ (by rw [hpool]) ?_
    intro y hy
    obtain ⟨t, ht, rfl⟩ := List.mem_map.mp hy
    have hserved := hserves b hb t ht
    rw [aliasName_of_assemble ha, hchild] at hserved
    exact hserved
  · rintro ⟨target, b, head, after, hk, hb, hhead, hcompatible⟩
    obtain ⟨inner, hi, _, hserves⟩ := hcompatible.planned 0
    rw [hpool] at hi
    have hchild : assemble d f b.type (aliasOf 0) s.args inner
        = .ok (.node (withColumns head inner.columns) inner.joins) :=
      assemble_eq_ok_iff.mpr ⟨head, hhead, rfl⟩
    refine ⟨_, ofRoot_eq_ok_iff.mpr ⟨target, b, inner, hk, hb, hi, hchild⟩, ?_⟩
    intro b' hb' t ht
    rw [hb] at hb'
    cases hb'
    rw [aliasName_of_assemble hchild]
    exact hserves (b.type, t) (List.mem_map_of_mem ht)

end TableGraph.Plan
