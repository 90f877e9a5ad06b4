import Mathlib.Data.Set.Function
import TableGraph.Proofs.Plan.Joined
import TableGraph.Proofs.Plan.Merging
import TableGraph.Proofs.Plan.Planned

/-!
# Renamed response keys

A selection with other response keys has the same fields, arguments and fields below. Response keys
only decide which fields are merged, and a renaming that tells them apart leaves that as it is.
Everything else goes by the names of the fields, so the plan is the same but for its response keys,
and these do not come up in the statement.
-/

namespace TableGraph

namespace Selection

mutual

/-- The response keys of a field and of everything below it. -/
def keys : Selection → List String
  | .field name rename _ children => rename.getD name :: keysOf children

/-- The response keys of fields and of everything below them. -/
def keysOf : List Selection → List String
  | [] => []
  | s :: rest => keys s ++ keysOf rest

end

mutual

/-- The field under a renamed response key, with everything below it under renamed ones. -/
def renamed (ρ : String → String) : Selection → Selection
  | .field name rename args children =>
    .field name (some (ρ (rename.getD name))) args (renamedAll ρ children)

/-- The fields under renamed response keys, with everything below them under renamed ones. -/
def renamedAll (ρ : String → String) : List Selection → List Selection
  | [] => []
  | s :: rest => renamed ρ s :: renamedAll ρ rest

end

section

variable {ρ : String → String} {ss : List Selection} {s : Selection}

/-- The keys of a field are its own and those below it. -/
theorem keys_eq : ∀ s : Selection, s.keys = s.responseKey :: keysOf s.children
  | .field _ _ _ _ => rfl

/-- The keys of fields are those of each field. -/
theorem keysOf_eq (ss : List Selection) : keysOf ss = ss.flatMap keys := by
  induction ss with
  | nil => rfl
  | cons s rest ih => rw [keysOf, ih, List.flatMap_cons]

/-- The keys of fields behind others come behind their keys. -/
@[simp]
theorem keysOf_append (ss ts : List Selection) : keysOf (ss ++ ts) = keysOf ss ++ keysOf ts := by
  simp [keysOf_eq]

/-- The keys of a field are among those of the fields it is one of. -/
theorem keys_subset_of_mem (h : s ∈ ss) : s.keys ⊆ keysOf ss := by
  rw [keysOf_eq]
  exact fun _ hk => List.mem_flatMap.mpr ⟨s, h, hk⟩

/-- The response key of a field is one of its keys. -/
theorem responseKey_mem_keys (s : Selection) : s.responseKey ∈ s.keys := by
  rw [keys_eq]
  exact List.mem_cons_self

/-- The keys below a field are among its keys. -/
theorem keysOf_children_subset (s : Selection) : keysOf s.children ⊆ s.keys := by
  rw [keys_eq]
  exact List.subset_cons_self _ _

/-- Fields are renamed one by one. -/
@[simp]
theorem renamedAll_eq (ρ : String → String) (ss : List Selection) :
    renamedAll ρ ss = ss.map (renamed ρ) := by
  induction ss with
  | nil => rfl
  | cons s rest ih => simp [renamedAll, ih]

/-- The name stays. -/
@[simp]
theorem name_renamed (ρ : String → String) : ∀ s : Selection, (s.renamed ρ).name = s.name
  | .field _ _ _ _ => rfl

/-- The arguments stay. -/
@[simp]
theorem args_renamed (ρ : String → String) : ∀ s : Selection, (s.renamed ρ).args = s.args
  | .field _ _ _ _ => rfl

/-- The response key is renamed. -/
@[simp]
theorem responseKey_renamed (ρ : String → String) :
    ∀ s : Selection, (s.renamed ρ).responseKey = ρ s.responseKey
  | .field _ _ _ _ => rfl

/-- The fields below are renamed. -/
@[simp]
theorem children_renamed (ρ : String → String) :
    ∀ s : Selection, (s.renamed ρ).children = s.children.map (renamed ρ)
  | .field _ _ _ children => renamedAll_eq ρ children

/-- More fields may come below before or after they are renamed. -/
theorem extend_renamed (ρ : String → String) (more : List Selection) :
    ∀ s : Selection, (s.extend more).renamed ρ = (s.renamed ρ).extend (more.map (renamed ρ))
  | .field name rename args children => by simp [extend, renamed]

/-- Merging one more field adds no other keys than its own. -/
theorem keysOf_mergeInto_subset (merged : List Selection) (s : Selection) :
    keysOf (mergeInto merged s) ⊆ keysOf merged ++ s.keys := by
  induction merged with
  | nil =>
    simp [keysOf]
  | cons e rest ih =>
    rw [mergeInto_cons]
    split
    · have hkeys : (e.extend s.children).keys = e.keys ++ keysOf s.children := by
        simp [keys_eq]
      intro k hk
      rw [keysOf, hkeys, List.mem_append, List.mem_append] at hk
      rw [keysOf, List.mem_append, List.mem_append]
      rcases hk with (hk | hk) | hk
      · exact Or.inl (Or.inl hk)
      · exact Or.inr (keysOf_children_subset s hk)
      · exact Or.inl (Or.inr hk)
    · rw [keysOf, keysOf, List.append_assoc]
      exact List.append_subset.mpr
        ⟨List.subset_append_left _ _, List.Subset.trans ih (List.subset_append_right _ _)⟩

/-- Merging fields into others adds no other keys than theirs. -/
theorem keysOf_foldl_mergeInto_subset (merged ss : List Selection) :
    keysOf (ss.foldl mergeInto merged) ⊆ keysOf merged ++ keysOf ss := by
  induction ss generalizing merged with
  | nil => exact List.subset_append_left _ _
  | cons s rest ih =>
    rw [List.foldl_cons, keysOf, ← List.append_assoc]
    exact List.Subset.trans (ih (mergeInto merged s)) (List.append_subset.mpr
      ⟨List.Subset.trans (keysOf_mergeInto_subset merged s) (List.subset_append_left _ _),
        List.subset_append_right _ _⟩)

/-- Merged fields have no other keys. -/
theorem keysOf_merge_subset (ss : List Selection) : keysOf (merge ss) ⊆ keysOf ss :=
  keysOf_foldl_mergeInto_subset [] ss

/-- Fields that are taken from below some fields have no other keys. -/
theorem keysOf_flatMap_subset {f : Selection → List Selection}
    (h : ∀ s, keysOf (f s) ⊆ s.keys) (ss : List Selection) : keysOf (ss.flatMap f) ⊆ keysOf ss := by
  induction ss with
  | nil => exact List.Subset.refl _
  | cons s rest ih =>
    rw [List.flatMap_cons, keysOf_append, keysOf]
    exact List.append_subset.mpr ⟨List.Subset.trans (h s) (List.subset_append_left _ _),
      List.Subset.trans ih (List.subset_append_right _ _)⟩

/-- The fields selected of rows have no other keys. -/
theorem keysOf_ofRows_subset (ss : List Selection) : keysOf (ofRows ss) ⊆ keysOf ss := by
  refine keysOf_flatMap_subset (fun s => ?_) ss
  have hnodes : keysOf (s.children.flatMap fun e => if e.name = "node" then e.children else [])
      ⊆ keysOf s.children := by
    refine keysOf_flatMap_subset (fun e => ?_) s.children
    split
    · exact keysOf_children_subset e
    · exact List.nil_subset _
  split
  · exact keysOf_children_subset s
  · split
    · exact List.Subset.trans hnodes (keysOf_children_subset s)
    · exact List.nil_subset _

/-- The fields selected of rows may be renamed before or after they are taken. -/
theorem ofRows_renamed (ρ : String → String) (ss : List Selection) :
    ofRows (ss.map (renamed ρ)) = (ofRows ss).map (renamed ρ) := by
  have hnodes : ∀ ss : List Selection, ((ss.map (renamed ρ)).flatMap fun e =>
      if e.name = "node" then e.children else [])
        = (ss.flatMap fun e => if e.name = "node" then e.children else []).map (renamed ρ) := by
    intro ss
    rw [List.flatMap_map, List.map_flatMap]
    refine List.flatMap_congr fun e _ => ?_
    by_cases he : e.name = "node"
    · simp [he]
    · simp [he]
  unfold ofRows
  rw [List.flatMap_map, List.map_flatMap]
  refine List.flatMap_congr fun s _ => ?_
  rw [name_renamed, children_renamed, hnodes]
  split
  · rfl
  · split <;> rfl

/-- One more field may be renamed before or after it is merged when its key stays apart. -/
theorem mergeInto_renamed {merged : List Selection}
    (h : ∀ e ∈ merged, ρ e.responseKey = ρ s.responseKey → e.responseKey = s.responseKey) :
    mergeInto (merged.map (renamed ρ)) (s.renamed ρ) = (mergeInto merged s).map (renamed ρ) := by
  induction merged with
  | nil => simp
  | cons e rest ih =>
    by_cases hk : e.responseKey = s.responseKey
    · simp [mergeInto_cons, hk, extend_renamed]
    · have hne : ρ e.responseKey ≠ ρ s.responseKey := fun he => hk (h e List.mem_cons_self he)
      simp [mergeInto_cons, hk, hne, ih fun e' he' => h e' (List.mem_cons_of_mem _ he')]

/-- Fields may be renamed before or after they are merged into others when keys stay apart. -/
theorem foldl_mergeInto_renamed (merged : List Selection)
    (h : Set.InjOn ρ {k | k ∈ keysOf merged ++ keysOf ss}) :
    (ss.map (renamed ρ)).foldl mergeInto (merged.map (renamed ρ))
      = (ss.foldl mergeInto merged).map (renamed ρ) := by
  induction ss generalizing merged with
  | nil => rfl
  | cons s rest ih =>
    have hone : ∀ e ∈ merged, ρ e.responseKey = ρ s.responseKey →
        e.responseKey = s.responseKey := by
      intro e he
      apply h
      · exact List.mem_append_left _ (keys_subset_of_mem he (responseKey_mem_keys e))
      · exact List.mem_append_right _
          (keys_subset_of_mem List.mem_cons_self (responseKey_mem_keys s))
    have hsub : keysOf (mergeInto merged s) ++ keysOf rest
        ⊆ keysOf merged ++ keysOf (s :: rest) := by
      rw [keysOf, ← List.append_assoc]
      exact List.append_subset.mpr
        ⟨List.Subset.trans (keysOf_mergeInto_subset merged s) (List.subset_append_left _ _),
          List.subset_append_right _ _⟩
    rw [List.map_cons, List.foldl_cons, mergeInto_renamed hone, List.foldl_cons,
      ih _ (h.mono fun _ hk => hsub hk)]

/-- Fields may be renamed before or after they are merged when keys stay apart. -/
theorem merge_renamed (h : Set.InjOn ρ {k | k ∈ keysOf ss}) :
    merge (ss.map (renamed ρ)) = (merge ss).map (renamed ρ) :=
  foldl_mergeInto_renamed [] h

end

end Selection

/-- The column under a renamed response key. -/
@[simps]
def ColumnSelect.renamed (ρ : String → String) (c : ColumnSelect) : ColumnSelect :=
  { c with key := ρ c.key }

/-- The join under a renamed response key. -/
@[simps]
def JoinHead.renamed (ρ : String → String) (j : JoinHead) : JoinHead := { j with key := ρ j.key }

/-- The occurrence with its columns under renamed response keys. -/
@[simps]
def Occurrence.renamed (ρ : String → String) (o : Occurrence) : Occurrence :=
  { o with columns := o.columns.map (·.renamed ρ) }

/-- A join of a plan under a renamed response key. -/
@[simps]
def Joined.renamed (ρ : String → String) (e : Joined) : Joined :=
  ⟨e.parent.renamed ρ, e.head.renamed ρ, e.child.renamed ρ⟩

namespace Plan

mutual

/-- The plan with renamed response keys. -/
def renamed (ρ : String → String) : Plan → Plan
  | .node head joins => .node (head.renamed ρ) (joinsRenamed ρ joins)

/-- The joins with renamed response keys. -/
def joinsRenamed (ρ : String → String) : List (JoinHead × Plan) → List (JoinHead × Plan)
  | [] => []
  | (j, p) :: rest => (j.renamed ρ, renamed ρ p) :: joinsRenamed ρ rest

end

/-- What fields contribute, with renamed response keys. -/
def Body.renamed (ρ : String → String) (b : Body) : Body :=
  ⟨b.columns.map (·.renamed ρ), joinsRenamed ρ b.joins, b.next⟩

/-- What a field leads to, with the fields below under renamed response keys. -/
def Below.renamed (ρ : String → String) (b : Below) : Below :=
  { b with selected := b.selected.map (Selection.renamed ρ) }

section

variable {d : Dialect} {types : Members ObjectType} {ρ : String → String}

/-- The alias and the filter stay. -/
@[simp]
theorem head_renamed (ρ : String → String) (p : Plan) :
    (p.renamed ρ).head = p.head.renamed ρ := by
  cases p
  rfl

/-- A field leads to the same objects. -/
theorem below?_renamed (types : Members ObjectType) (ρ : String → String)
    (children : List Selection) (kind : FieldKind) :
    below? types (children.map (Selection.renamed ρ)) kind
      = (below? types children kind).map (Below.renamed ρ) := by
  cases kind with
  | scalar type => rfl
  | link target =>
    unfold below?
    rw [Option.map_map, Selection.ofRows_renamed]
    rfl
  | group target =>
    unfold below?
    rw [Option.map_map]
    rfl

/-- The keys of the fields selected of objects are among those below the field. -/
theorem keysOf_below_subset {children : List Selection} {kind : FieldKind} {b : Below}
    (h : below? types children kind = some b) :
    Selection.keysOf b.selected ⊆ Selection.keysOf children := by
  cases kind with
  | scalar type => cases h
  | link target =>
    obtain ⟨o, _, rfl⟩ := Option.map_eq_some_iff.mp h
    exact Selection.keysOf_ofRows_subset children
  | group target =>
    obtain ⟨o, _, rfl⟩ := Option.map_eq_some_iff.mp h
    exact List.Subset.refl _

/-- The plan of an occurrence is renamed with what its fields contribute. -/
theorem assemble_renamed (ρ : String → String) (d : Dialect) (f : FieldDef) (o : ObjectType)
    (aliasName : String) (args : Members Json) (b : Body) :
    assemble d f o aliasName args (b.renamed ρ)
      = (assemble d f o aliasName args b).map (renamed ρ) := by
  unfold assemble
  cases f.filterText d aliasName args with
  | error e => rfl
  | ok filter =>
    cases f.ordering? args with
    | error e => rfl
    | ok order => rfl

/-- The condition of a join stays. -/
@[simp]
theorem onText_renamed (ρ : String → String) (d : Dialect) (f : FieldDef) (parent : String)
    (child : Plan) : onText d f parent (child.renamed ρ) = onText d f parent child := by
  simp [onText]

/-- A field of rows in front of others may be renamed before or after they are planned when this
holds of the fields below it and of the others. -/
theorem body_join_renamed {s : Selection} {rest : List Selection} {o : ObjectType}
    {aliasName : String} {placed next : Nat} {f : FieldDef} {b : Below}
    (hr : isReserved s.name = false) (hf : Members.get? o.fields s.name = some f)
    (hb : below? types s.children f.kind = some b)
    (hselected : Set.InjOn ρ {k | k ∈ Selection.keysOf b.selected})
    (hinner : body d types b.type (aliasOf next) 0 (next + 1)
        ((Selection.merge b.selected).map (Selection.renamed ρ))
      = (body d types b.type (aliasOf next) 0 (next + 1)
        (Selection.merge b.selected)).map (Body.renamed ρ))
    (htail : ∀ next, body d types o aliasName placed next (rest.map (Selection.renamed ρ))
      = (body d types o aliasName placed next rest).map (Body.renamed ρ)) :
    body d types o aliasName placed next (s.renamed ρ :: rest.map (Selection.renamed ρ))
      = (body d types o aliasName placed next (s :: rest)).map (Body.renamed ρ) := by
  have hname := Selection.name_renamed ρ s
  have hbelow := below?_renamed types ρ s.children f.kind
  rw [← Selection.children_renamed, hb] at hbelow
  rw [← Selection.merge_renamed hselected] at hinner
  have hchild : ∀ inner : Body, assemble d f b.type (aliasOf next) (s.renamed ρ).args
      (inner.renamed ρ)
        = (assemble d f b.type (aliasOf next) s.args inner).map (renamed ρ) := by
    intro inner
    simp [assemble_renamed]
  rw [body_join hr hf hb, body_join (hname ▸ hr) (hname ▸ hf) hbelow]
  refine bind_eq_map_bind hinner fun inner => ?_
  refine bind_eq_map_bind (hchild inner) fun child => ?_
  refine bind_eq_map_bind (htail _) fun more => ?_
  rw [onText_renamed, Selection.responseKey_renamed]
  rfl

/-- What fields contribute may be renamed before or after they are planned when keys stay apart. -/
theorem body_renamed (types : Members ObjectType) {ss : List Selection}
    (h : Set.InjOn ρ {k | k ∈ Selection.keysOf ss}) :
    ∀ (o : ObjectType) (aliasName : String) (placed next : Nat),
      body d types o aliasName placed next (ss.map (Selection.renamed ρ))
        = (body d types o aliasName placed next ss).map (Body.renamed ρ) := by
  induction ss using planning_induction types with
  | nil =>
    intro o aliasName placed next
    rw [List.map_nil, body]
    rfl
  | cons s rest ihBelow ihRest =>
    intro o aliasName placed next
    have htail := ihRest (h.mono fun _ hk => List.mem_append_right _ hk)
    have hname := Selection.name_renamed ρ s
    rw [List.map_cons]
    by_cases hr : isReserved s.name = true
    · rw [body_reserved hr, body_reserved (hname ▸ hr), htail]
    · rw [Bool.not_eq_true] at hr
      have hr' : isReserved (s.renamed ρ).name = false := hname ▸ hr
      cases hf : Members.get? o.fields s.name with
      | none =>
        rw [body_noField hr hf, body_noField hr' (hname ▸ hf), hname]
        rfl
      | some f =>
        have hf' : Members.get? o.fields (s.renamed ρ).name = some f := hname ▸ hf
        cases hb : below? types s.children f.kind with
        | some b =>
          have hsub := keysOf_below_subset hb
          have hselected : Set.InjOn ρ {k | k ∈ Selection.keysOf b.selected} :=
            h.mono fun _ hk => List.mem_append_left _ (s.keysOf_children_subset (hsub hk))
          have hinner := ihBelow _ _ hb
            (hselected.mono fun _ hk => Selection.keysOf_merge_subset _ hk)
          exact body_join_renamed hr hf hb hselected (hinner _ _ _ _) fun _ => htail _ _ _ _
        | none =>
          have hbelow := below?_renamed types ρ s.children f.kind
          rw [← Selection.children_renamed, hb] at hbelow
          cases hk : f.kind with
          | scalar type =>
            cases hc : f.column with
            | none => rw [body_unread hr hf hk hc, body_unread hr' hf' hk hc, htail]
            | some column =>
              rw [body_column hr hf hk hc, body_column hr' hf' hk hc]
              refine bind_eq_map_bind (htail _ _ _ _) fun more => ?_
              rw [columnSelect, Selection.responseKey_renamed]
              rfl
          | link target | group target =>
            have hkind : ∀ type, f.kind ≠ .scalar type := by
              intro type he
              rw [hk] at he
              cases he
            rw [body_nowhere hr hf hkind hb, body_nowhere hr' hf' hkind hbelow, hname]
            rfl

/-- The plan of a root field may be renamed before or after it is planned when keys stay apart. -/
theorem ofRoot_renamed_eq {f : FieldDef} {s : Selection}
    (h : Set.InjOn ρ {k | k ∈ s.keys}) :
    ofRoot d types f (s.renamed ρ) = (ofRoot d types f s).map (renamed ρ) := by
  unfold ofRoot
  rw [Selection.children_renamed, below?_renamed]
  cases hb : below? types s.children f.kind with
  | none => cases f.kind <;> rfl
  | some b =>
    have hselected : Set.InjOn ρ {k | k ∈ Selection.keysOf b.selected} :=
      h.mono fun _ hk => s.keysOf_children_subset (keysOf_below_subset hb hk)
    have hbody := body_renamed (d := d) types
      (hselected.mono fun _ hk => Selection.keysOf_merge_subset _ hk) b.type (aliasOf 0) 0 1
    cases f.kind with
    | scalar type | group target => rfl
    | link target =>
      rw [← Selection.merge_renamed hselected] at hbody
      refine bind_eq_map_bind hbody fun inner => ?_
      rw [Selection.args_renamed]
      exact assemble_renamed ρ d f b.type (aliasOf 0) s.args inner

end

section

variable (ρ : String → String)

mutual

/-- The joins are the same but for the response keys. -/
@[simp]
theorem joined_renamed : ∀ p : Plan, (p.renamed ρ).joined = p.joined.map (Joined.renamed ρ)
  | .node head joins => by rw [renamed, joined, joined, joinedBelow_renamed head joins]

/-- The joins below an occurrence are the same but for the response keys. -/
theorem joinedBelow_renamed (parent : Occurrence) : ∀ joins : List (JoinHead × Plan),
    joinedBelow (parent.renamed ρ) (joinsRenamed ρ joins)
      = (joinedBelow parent joins).map (Joined.renamed ρ)
  | [] => rfl
  | (j, p) :: rest => by
    rw [joinsRenamed, joinedBelow, joinedBelow, joined_renamed p, joinedBelow_renamed parent rest,
      head_renamed, List.map_cons, List.map_append]
    rfl

end

/-- The occurrences are the same but for the response keys. -/
@[simp]
theorem occurrences_renamed (p : Plan) :
    (p.renamed ρ).occurrences = p.occurrences.map (Occurrence.renamed ρ) := by
  simp [occurrences, Function.comp_def]

variable (d : Dialect)

/-- The same is read from an occurrence. -/
@[simp]
theorem selects_renamed (o : Occurrence) : (o.renamed ρ).selects d = o.selects d := by
  simp [Occurrence.selects, Occurrence.keyLabel, Occurrence.rowLabel, ColumnSelect.expression,
    Function.comp_def]

/-- The same is read. -/
@[simp]
theorem selectList_renamed (p : Plan) : (p.renamed ρ).selectList d = p.selectList d := by
  simp [selectList_eq, List.flatMap_map]

/-- The text of a join is the same. -/
@[simp]
theorem clause_renamed (e : Joined) : (e.renamed ρ).clause d = e.clause d := by
  simp [Joined.clause]

/-- The tables that are read are the same. -/
@[simp]
theorem fromClause_renamed (p : Plan) : (p.renamed ρ).fromClause d = p.fromClause d := by
  simp [fromClause, joinClauses_eq, Function.comp_def]

/-- The same is ordered by. -/
@[simp]
theorem orderTerms_renamed (p : Plan) : (p.renamed ρ).orderTerms d = p.orderTerms d := by
  simp [orderTerms_eq, List.flatMap_map, Occurrence.terms]

/-- The statement is the same. -/
@[simp]
theorem sql_renamed (p : Plan) : (p.renamed ρ).sql d = p.sql d := by
  simp [sql]

/-- The statement with numbered rows is the same. -/
@[simp]
theorem rowObjects_renamed (p : Plan) : (p.renamed ρ).rowObjects d = p.rowObjects d := by
  unfold rowObjects
  rw [selectList_renamed, fromClause_renamed, orderTerms_renamed, head_renamed]
  rfl

end

end Plan

end TableGraph
