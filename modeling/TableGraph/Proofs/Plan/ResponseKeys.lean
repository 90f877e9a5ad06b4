import TableGraph.Proofs.Plan.Labels
import TableGraph.Proofs.Plan.Renaming

/-!
# Answers under renamed response keys

The objects of a plan with renamed response keys are those of the plan with their members renamed.
Which members are under response keys and where there are objects below is told by the plan: the
values of columns may be objects of their own, and they stay as they are.
-/

namespace TableGraph

namespace JoinHead

/-- The value of a join when each child is changed. -/
def mapValue (j : JoinHead) (f : Json → Json) (v : Json) : Json :=
  match j.cardinality, v with
  | .many, .arr items => .arr (items.map f)
  | .many, v => v
  | .one, v => f v

/-- Children may be changed before or after they are made one value. -/
theorem mapValue_value (j : JoinHead) {f : Json → Json} (hf : f .null = .null)
    (children : List Json) : j.mapValue f (j.value children) = j.value (children.map f) := by
  unfold mapValue value
  cases j.cardinality with
  | many => rfl
  | one =>
    cases children with
    | nil => exact hf
    | cons child rest => rfl

end JoinHead

namespace Plan

mutual

/-- The response keys of a plan and of everything joined to it. -/
def keys : Plan → List String
  | .node head joins => head.columns.map (·.key) ++ joinKeys joins

/-- The response keys of joins and of everything below them. -/
def joinKeys : List (JoinHead × Plan) → List String
  | [] => []
  | (j, p) :: rest => j.key :: (keys p ++ joinKeys rest)

end

mutual

/-- An object of a plan with its members under renamed response keys, at every level. The member for
the primary key keeps its name. -/
def renameObject (ρ : String → String) : Plan → Json → Json
  | .node _ joins, .obj ms => .obj (ms.map fun m =>
      if m.1 = keyMember then m else (ρ m.1, renameBelow ρ joins m.1 m.2))
  | .node _ _, v => v

/-- The value under a response key with renamed response keys below: those of the children if it is
that of a join. -/
def renameBelow (ρ : String → String) : List (JoinHead × Plan) → String → Json → Json
  | [], _, v => v
  | (j, p) :: rest, key, v =>
    if j.key = key then j.mapValue (renameObject ρ p) v else renameBelow ρ rest key v

end

/-- A renaming tells response keys apart, and tells them from the member for the primary key, which
is none of them. -/
structure RenamesApart (ρ : String → String) (keys : List String) : Prop where
  /-- Different keys are renamed differently. -/
  injOn : Set.InjOn ρ {k | k ∈ keys}
  /-- No key is that of the primary key. -/
  keyMember_not_mem : keyMember ∉ keys
  /-- No key is renamed to that of the primary key. -/
  renamed_ne : ∀ k ∈ keys, ρ k ≠ keyMember

section

variable {ρ : String → String}

/-- A renaming that tells keys apart tells fewer of them apart. -/
theorem RenamesApart.mono {ks ks' : List String} (h : RenamesApart ρ ks) (hsub : ks' ⊆ ks) :
    RenamesApart ρ ks' where
  injOn := h.injOn.mono fun _ hk => hsub hk
  keyMember_not_mem := fun hk => h.keyMember_not_mem (hsub hk)
  renamed_ne := fun k hk => h.renamed_ne k (hsub hk)

/-- The keys of joins are among those of the joins and everything below. -/
theorem map_key_subset_joinKeys (joins : List (JoinHead × Plan)) :
    joins.map (·.1.key) ⊆ joinKeys joins := by
  induction joins with
  | nil => exact List.Subset.refl _
  | cons e rest ih =>
    obtain ⟨j, p⟩ := e
    exact List.cons_subset_cons _ (List.Subset.trans ih (List.subset_append_right _ _))

/-- `null` stays. -/
@[simp]
theorem renameObject_null (ρ : String → String) (p : Plan) :
    p.renameObject ρ .null = .null := by
  cases p
  rfl

/-- A value under a key that is not that of a join stays. -/
theorem renameBelow_of_not_mem {joins : List (JoinHead × Plan)} {key : String}
    (h : key ∉ joins.map (·.1.key)) (v : Json) : renameBelow ρ joins key v = v := by
  induction joins with
  | nil => rfl
  | cons e rest ih =>
    obtain ⟨j, p⟩ := e
    rw [List.map_cons, List.mem_cons, not_or] at h
    rw [renameBelow, if_neg (Ne.symm h.1), ih h.2]

/-- The rows of an object are the same. -/
@[simp]
theorem groupRows_renamed (ρ : String → String) (o : Occurrence) (rows : List Row) :
    (o.renamed ρ).groupRows rows = o.groupRows rows := by
  have hidentity : (o.renamed ρ).identityOf? = o.identityOf? := by
    funext row
    simp [Occurrence.identityOf?, Occurrence.identifying, Occurrence.keyLabel,
      Occurrence.rowLabel, Function.comp_def]
  unfold Occurrence.groupRows
  rw [hidentity]

/-- The response keys of joins are renamed. -/
@[simp]
theorem map_key_joinsRenamed (ρ : String → String) (joins : List (JoinHead × Plan)) :
    (joinsRenamed ρ joins).map (·.1.key) = (joins.map (·.1.key)).map ρ := by
  induction joins with
  | nil => rfl
  | cons e rest ih =>
    obtain ⟨j, p⟩ := e
    simp [joinsRenamed, ih]

/-- The members of an object have different names when its response keys are different and none of
them is that of the primary key. -/
theorem nodup_names_members {head : Occurrence} {joins : List (JoinHead × Plan)}
    (hn : (head.columns.map (·.key) ++ joins.map (·.1.key)).Nodup)
    (hkey : keyMember ∉ head.columns.map (·.key) ++ joins.map (·.1.key)) (rows : List Row) :
    (Members.names (head.ownMembers rows ++ hydrateJoins joins rows)).Nodup := by
  have hown : Members.names (head.ownMembers rows)
      = (if head.primary.isSome then [keyMember] else []) ++ head.columns.map (·.key) := by
    unfold Occurrence.ownMembers
    cases head.primary <;> simp
  rw [Members.names_append, hown, names_hydrateJoins, List.append_assoc]
  split
  · exact List.nodup_cons.mpr ⟨hkey, hn⟩
  · exact hn

/-- The members that an object has of its own are renamed, but for that of the primary key. -/
theorem ownMembers_renamed {head : Occurrence} {joins : List (JoinHead × Plan)}
    (hn : (head.columns.map (·.key) ++ joins.map (·.1.key)).Nodup)
    (hkey : keyMember ∉ head.columns.map (·.key)) (rows : List Row) :
    (head.renamed ρ).ownMembers rows = (head.ownMembers rows).map fun m =>
      if m.1 = keyMember then m else (ρ m.1, renameBelow ρ joins m.1 m.2) := by
  unfold Occurrence.ownMembers Occurrence.renamed
  dsimp only
  rw [List.map_append, List.map_map, List.map_map]
  congr 1
  · cases head.primary <;> rfl
  · refine List.map_congr_left fun c hc => ?_
    have hmem : c.key ∈ head.columns.map (·.key) := List.mem_map_of_mem hc
    have hjoin : c.key ∉ joins.map (·.1.key) :=
      fun hj => (List.nodup_append.mp hn).2.2 _ hmem _ hj rfl
    have hne : c.key ≠ keyMember := fun he => hkey (he ▸ hmem)
    rw [Function.comp_apply, Function.comp_apply, if_neg hne, renameBelow_of_not_mem hjoin]
    rfl

mutual

/-- The objects of a plan with renamed response keys are the objects of the plan, renamed. -/
theorem hydrate_renamed : ∀ (p : Plan) (rows : List Row), p.KeysApart → RenamesApart ρ p.keys →
    (p.renamed ρ).hydrate rows = (p.hydrate rows).map (p.renameObject ρ)
  | .node head joins, rows, hk, hr => by
    have hsub : head.columns.map (·.key) ++ joins.map (·.1.key) ⊆ (Plan.node head joins).keys :=
      List.append_subset.mpr ⟨List.subset_append_left _ _, List.Subset.trans
        (map_key_subset_joinKeys joins) (List.subset_append_right _ _)⟩
    have hkeys := hr.mono hsub
    have hjoins := hr.mono (List.subset_append_right _ (joinKeys joins))
    have hrenamed : ((head.renamed ρ).columns.map (·.key) ++ (joinsRenamed ρ joins).map (·.1.key))
        = (head.columns.map (·.key) ++ joins.map (·.1.key)).map ρ := by
      simp
    have hn : ((head.renamed ρ).columns.map (·.key)
        ++ (joinsRenamed ρ joins).map (·.1.key)).Nodup := by
      rw [hrenamed]
      exact hk.1.map_on fun a ha b hb he => hkeys.injOn ha hb he
    have hkey : keyMember ∉ (head.renamed ρ).columns.map (·.key)
        ++ (joinsRenamed ρ joins).map (·.1.key) := by
      rw [hrenamed]
      intro hmem
      obtain ⟨k, hmem, he⟩ := List.mem_map.mp hmem
      exact hkeys.renamed_ne k hmem he
    rw [renamed, hydrate, hydrate, groupRows_renamed, List.map_map]
    refine List.map_congr_left fun g _ => ?_
    rw [Function.comp_apply, renameObject,
      Members.ofList_of_nodup (nodup_names_members hn hkey g.2),
      Members.ofList_of_nodup (nodup_names_members hk.1 hkeys.keyMember_not_mem g.2),
      List.map_append,
      ownMembers_renamed hk.1 (fun hmem => hkeys.keyMember_not_mem (List.mem_append_left _ hmem)),
      hydrateJoins_renamed joins g.2 (List.nodup_append.mp hk.1).2.1 hk.2 hjoins]

/-- The members for joins with renamed response keys are those for the joins, renamed. -/
theorem hydrateJoins_renamed : ∀ (joins : List (JoinHead × Plan)) (rows : List Row),
    (joins.map (·.1.key)).Nodup → JoinsKeysApart joins → RenamesApart ρ (joinKeys joins) →
    hydrateJoins (joinsRenamed ρ joins) rows = (hydrateJoins joins rows).map fun m =>
      if m.1 = keyMember then m else (ρ m.1, renameBelow ρ joins m.1 m.2)
  | [], _, _, _, _ => rfl
  | (j, p) :: rest, rows, hn, hk, hr => by
    have hne : j.key ≠ keyMember := fun he => hr.keyMember_not_mem (he ▸ List.mem_cons_self)
    have hbelow := hr.mono (List.subset_cons_self j.key (keys p ++ joinKeys rest))
    have hchild := hydrate_renamed p rows hk.1 (hbelow.mono (List.subset_append_left _ _))
    have hrest := hydrateJoins_renamed rest rows (List.nodup_cons.mp hn).2 hk.2
      (hbelow.mono (List.subset_append_right _ _))
    rw [joinsRenamed, hydrateJoins, hydrateJoins, List.map_cons, hrest, hchild]
    congr 1
    · rw [if_neg hne, renameBelow, if_pos rfl, j.mapValue_value (renameObject_null ρ p)]
      rfl
    · refine List.map_congr_left fun m hm => ?_
      have hmem : m.1 ∈ rest.map (·.1.key) := by
        rw [← names_hydrateJoins rest rows]
        exact List.mem_map_of_mem hm
      have hother : j.key ≠ m.1 := by
        intro he
        rw [← he] at hmem
        exact (List.nodup_cons.mp hn).1 hmem
      rw [renameBelow, if_neg hother]

end

variable {d : Dialect} {types : Members ObjectType}

/-- The plan of an occurrence has the response keys of what its fields contribute. -/
theorem keys_of_assemble {f : FieldDef} {o : ObjectType} {aliasName : String} {args : Members Json}
    {b : Body} {p : Plan} (h : assemble d f o aliasName args b = .ok p) :
    p.keys = b.columns.map (·.key) ++ joinKeys b.joins := by
  obtain ⟨filter, order, _, _, rfl⟩ := assemble_cases h
  rfl

/-- What is planned stands under response keys that are selected, at every level. -/
theorem Planned.keys_subset {o : ObjectType} {aliasName : String} {placed next : Nat}
    {ss : List Selection} {b : Body} (h : Planned d types o aliasName placed next ss b) :
    b.columns.map (·.key) ++ joinKeys b.joins ⊆ Selection.keysOf ss := by
  induction h with
  | nil => exact List.Subset.refl _
  | reserved _ _ ih => exact List.Subset.trans ih (List.subset_append_right _ _)
  | unread _ _ _ _ _ ih => exact List.Subset.trans ih (List.subset_append_right _ _)
  | @column o aliasName placed next s rest more f type column _ _ _ _ _ ih =>
    rw [List.map_cons, List.cons_append, Selection.keysOf]
    exact List.cons_subset.mpr ⟨List.mem_append_left _ (Selection.responseKey_mem_keys s),
      List.Subset.trans ih (List.subset_append_right _ _)⟩
  | @join o aliasName placed next s rest inner more f b child _ _ hb _ ha _ ihb ih =>
    have hchild : child.keys ⊆ s.keys := by
      rw [keys_of_assemble ha]
      exact List.Subset.trans ihb (List.Subset.trans (Selection.keysOf_merge_subset _)
        (List.Subset.trans (keysOf_below_subset hb) (Selection.keysOf_children_subset s)))
    have hrest := List.append_subset.mp ih
    rw [joinKeys, Selection.keysOf]
    refine List.append_subset.mpr ⟨List.Subset.trans hrest.1 (List.subset_append_right _ _),
      List.cons_subset.mpr ⟨List.mem_append_left _ (Selection.responseKey_mem_keys s), ?_⟩⟩
    exact List.append_subset.mpr ⟨List.Subset.trans hchild (List.subset_append_left _ _),
      List.Subset.trans hrest.2 (List.subset_append_right _ _)⟩

/-- The response keys of a plan are selected. -/
theorem ofRoot_keys_subset {f : FieldDef} {s : Selection} {p : Plan}
    (h : ofRoot d types f s = .ok p) : p.keys ⊆ s.keys := by
  obtain ⟨_, b, inner, _, hb, hplanned, ha⟩ := ofRoot_eq_ok_iff.mp h
  rw [keys_of_assemble ha]
  exact List.Subset.trans hplanned.keys_subset (List.Subset.trans (Selection.keysOf_merge_subset _)
    (List.Subset.trans (keysOf_below_subset hb) (Selection.keysOf_children_subset s)))

end

/-- The member for the primary key is no name of the graph. -/
theorem isValid_keyMember : Name.isValid keyMember = false := by decide

/-- What comes of a root field when its response keys are renamed: nothing changes but the keys it
is answered under. -/
structure RenamedAlike (d : Dialect) (types : Members ObjectType) (f : FieldDef) (s : Selection)
    (ρ : String → String) : Prop where
  /-- It is refused for the same reasons. -/
  refused : ∀ e, ofRoot d types f (s.renamed ρ) = .error e ↔ ofRoot d types f s = .error e
  /-- It has a plan just when it has one under its own keys. -/
  planned : (∃ q, ofRoot d types f (s.renamed ρ) = .ok q) ↔ ∃ p, ofRoot d types f s = .ok p
  /-- The statements of both plans are the same in every dialect. -/
  statement : ∀ p q, ofRoot d types f s = .ok p → ofRoot d types f (s.renamed ρ) = .ok q →
    ∀ d' : Dialect, q.sql d' = p.sql d' ∧ q.rowObjects d' = p.rowObjects d'
  /-- From the same rows both plans answer the same but for the keys. No request answers under the
  member for the primary key, which is no name of the graph. -/
  answer : ∀ p q, ofRoot d types f s = .ok p → ofRoot d types f (s.renamed ρ) = .ok q →
    keyMember ∉ s.keys → ∀ rows, q.hydrate rows = (p.hydrate rows).map (p.renameObject ρ)

/-- Response keys may be renamed to any other names that tell them apart: the statement is the same,
and so is the answer but for its keys. -/
theorem ofRoot_renamed (d : Dialect) (types : Members ObjectType) (f : FieldDef) (s : Selection)
    (ρ : String → String) (hinj : Set.InjOn ρ {k | k ∈ s.keys})
    (hvalid : ∀ k ∈ s.keys, Name.isValid (ρ k) = true) : RenamedAlike d types f s ρ := by
  have heq : ofRoot d types f (s.renamed ρ) = (ofRoot d types f s).map (renamed ρ) :=
    ofRoot_renamed_eq hinj
  have hplans : ∀ p q, ofRoot d types f s = .ok p → ofRoot d types f (s.renamed ρ) = .ok q →
      q = p.renamed ρ := by
    intro p q hp hq
    rw [heq, hp] at hq
    exact (Except.ok.inj hq).symm
  constructor
  · intro e
    rw [heq]
    cases ofRoot d types f s with
    | error e' => exact Iff.rfl
    | ok p => exact iff_of_false (by rintro ⟨⟩) (by rintro ⟨⟩)
  · rw [heq]
    cases ofRoot d types f s with
    | error e => exact iff_of_false (by rintro ⟨_, ⟨⟩⟩) (by rintro ⟨_, ⟨⟩⟩)
    | ok p => exact iff_of_true ⟨_, rfl⟩ ⟨_, rfl⟩
  · intro p q hp hq d'
    rw [hplans p q hp hq]
    exact ⟨sql_renamed ρ d' p, rowObjects_renamed ρ d' p⟩
  · intro p q hp hq hkey rows
    have hapart : RenamesApart ρ s.keys := by
      refine ⟨hinj, hkey, fun k hk he => ?_⟩
      have hname := hvalid k hk
      rw [he, isValid_keyMember] at hname
      cases hname
    rw [hplans p q hp hq]
    exact hydrate_renamed p rows (ofRoot_keysApart hp) (hapart.mono (ofRoot_keys_subset hp))

/-- A table with a primary key that refers to itself. -/
def workerTables : List Table :=
  [⟨"WORKER", "WORKER", [], [(Field.plain "WORKER" "ID" .string).asPrimary,
    Field.plain "WORKER" "NAME" .string,
    (Field.plain "WORKER" "BOSS" .string).references "WORKER" "ID"]⟩]

/-- A request for names with those of the rows they refer to. -/
def workersWithBosses : Selection :=
  .field "WORKER" none [] [.field "nodes" none []
    [.field "NAME" none [] [], .field "link_BOSS" (some "boss") []
      [.field "nodes" none [] [.field "NAME" none [] []]]]]

/-- A renaming that makes the name of one field the response key of another. -/
def swapBoss (key : String) : String :=
  if key = "NAME" then "boss" else if key = "boss" then "NAME" else key

/-- A row for a worker with a boss. -/
def workerRow : Row :=
  [("t0_pk", .str "w2"), ("t0_c0", .str "Ann"), ("t1_pk", .str "w1"), ("t1_c0", .str "Bob")]

/-- The renamed request has the same statement, and the answers have their keys exchanged. -/
theorem renamedAlike_workersWithBosses :
    ∃ schema f p q, (Schema.build workerTables).outcome = .ok schema
      ∧ Members.get? schema.root "WORKER" = some f
      ∧ ofRoot (Postgres.dialect "public") schema.types.objects f workersWithBosses = .ok p
      ∧ ofRoot (Postgres.dialect "public") schema.types.objects f
        (workersWithBosses.renamed swapBoss) = .ok q
      ∧ p.hydrate [workerRow] = [.obj [("$pk", .str "w2"), ("NAME", .str "Ann"),
        ("boss", .arr [.obj [("$pk", .str "w1"), ("NAME", .str "Bob")]])]]
      ∧ q.hydrate [workerRow] = [.obj [("$pk", .str "w2"), ("boss", .str "Ann"),
        ("NAME", .arr [.obj [("$pk", .str "w1"), ("boss", .str "Bob")]])]]
      ∧ RenamedAlike (Postgres.dialect "public") schema.types.objects f workersWithBosses
        swapBoss := by
  have hplanned : ((Schema.built? workerTables).bind fun schema =>
      (Members.get? schema.root "WORKER").bind fun f =>
        (ofRootWithin? (Postgres.dialect "public") schema.types.objects 8 f workersWithBosses).map
          fun p => (p.hydrate [workerRow], (p.hydrate [workerRow]).map (p.renameObject swapBoss)))
      = some ([.obj [("$pk", .str "w2"), ("NAME", .str "Ann"),
          ("boss", .arr [.obj [("$pk", .str "w1"), ("NAME", .str "Bob")]])]],
        [.obj [("$pk", .str "w2"), ("boss", .str "Ann"),
          ("NAME", .arr [.obj [("$pk", .str "w1"), ("boss", .str "Bob")]])]]) := by cbv
  obtain ⟨schema, hschema, hp⟩ := Option.bind_eq_some_iff.mp hplanned
  obtain ⟨f, hf, hp⟩ := Option.bind_eq_some_iff.mp hp
  obtain ⟨p, hp, hanswers⟩ := Option.map_eq_some_iff.mp hp
  rw [Prod.mk.injEq] at hanswers
  have hroot := (ofRootWithin?_eq_some_iff (by decide)).mp hp
  have hinj : ∀ a ∈ workersWithBosses.keys, ∀ b ∈ workersWithBosses.keys,
      swapBoss a = swapBoss b → a = b := by decide
  have halike := ofRoot_renamed (Postgres.dialect "public") schema.types.objects f workersWithBosses
    swapBoss (fun a ha b hb => hinj a ha b hb) (by decide)
  obtain ⟨q, hq⟩ := halike.planned.mpr ⟨p, hroot⟩
  refine ⟨schema, f, p, q, Schema.build_eq_ok_iff.mpr hschema, hf, hroot, hq, hanswers.1, ?_,
    halike⟩
  rw [halike.answer p q hroot hq (by decide), hanswers.2]

end Plan

end TableGraph
