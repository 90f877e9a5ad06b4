import TableGraph.Proofs.Schema.Groups

/-!
# The types after some of the steps

At each point of a build the types are known: those of the tables opened so far, each with its own
columns and the groups it has got, and one type for each text of a group made so far that has
fields. Each step keeps this, so it is known of a whole build.
-/

namespace TableGraph

open TableGraph.Group (first? listedFrom)

/-- The field that a group gets when its text has an object type: it leads to that type and is
joined on the type's primary key. -/
def Group.LeadsTo (b : BuildState) (g : Group) (d : FieldDef) : Prop :=
  ∃ name o key, b.groupNames.get? g.base = some name ∧ Members.get? b.types.objects name = some o
    ∧ o.primary = some key ∧ d = g.shape.groupDef g.ref name key

namespace ObjectType

/-- The object type with more fields, one after another. -/
def withFields (o : ObjectType) (ds : List FieldDef) : ObjectType :=
  { o with fields := ds.foldl (fun ms d => Members.insert ms d.name d) o.fields }

/-- One more field comes after the others. -/
theorem withFields_concat (o : ObjectType) (ds : List FieldDef) (d : FieldDef) :
    o.withFields (ds ++ [d])
      = { o.withFields ds with fields := Members.insert (o.withFields ds).fields d.name d } := by
  simp only [withFields, List.foldl_append, List.foldl_cons, List.foldl_nil]

/-- A field was there before or is one of those that came. -/
theorem mem_withFields {o : ObjectType} {ds : List FieldDef} {e : String × FieldDef}
    (h : e ∈ (o.withFields ds).fields) : e ∈ o.fields ∨ e.2 ∈ ds := by
  induction ds using List.reverseRecOn with
  | nil => exact Or.inl h
  | append_singleton ds d ih =>
    rw [withFields_concat] at h
    rcases Members.mem_insert h with rfl | h
    · exact Or.inr (List.mem_append_right _ (List.mem_singleton_self d))
    · exact (ih h).imp id (List.mem_append_left _)

/-- Fields that come stand under their own names, as those that were there. -/
theorem name_of_mem_withFields {o : ObjectType} (ho : ∀ e ∈ o.fields, e.1 = e.2.name)
    {ds : List FieldDef} {e : String × FieldDef} (h : e ∈ (o.withFields ds).fields) :
    e.1 = e.2.name := by
  induction ds using List.reverseRecOn with
  | nil => exact ho e h
  | append_singleton ds d ih =>
    rw [withFields_concat] at h
    rcases Members.mem_insert h with rfl | h
    · rfl
    · exact ih h

/-- Fields that come stand behind those that were there in one list. -/
theorem fields_withFields {o : ObjectType} {cs : List FieldDef}
    (h : o.fields = Members.ofList (cs.map fun d => (d.name, d))) (ds : List FieldDef) :
    (o.withFields ds).fields = Members.ofList ((cs ++ ds).map fun d => (d.name, d)) := by
  rw [List.map_append, Members.ofList, List.foldl_append, List.foldl_map (l := ds), withFields, h]
  rfl

/-- Fields that were there leave fields. -/
theorem withFields_ne_nil {o : ObjectType} (h : o.fields ≠ []) (ds : List FieldDef) :
    (o.withFields ds).fields ≠ [] := by
  induction ds using List.reverseRecOn with
  | nil => exact h
  | append_singleton ds d _ =>
    rw [withFields_concat]
    exact Members.insert_ne_nil _ _ _

/-- Under the name of a field that came stands the last field of that name. -/
theorem exists_get?_withFields (o : ObjectType) {ds : List FieldDef} {d : FieldDef} (h : d ∈ ds) :
    ∃ e ∈ ds, e.name = d.name ∧ Members.get? (o.withFields ds).fields d.name = some e := by
  induction ds using List.reverseRecOn with
  | nil => cases h
  | append_singleton ds e ih =>
    rw [withFields_concat]
    by_cases he : e.name = d.name
    · exact ⟨e, List.mem_append_right _ (List.mem_singleton_self e), he, by simp [← he]⟩
    · have hd : d ∈ ds := by
        rcases List.mem_append.mp h with h | h
        · exact h
        · exact absurd (congrArg FieldDef.name (List.mem_singleton.mp h).symm) he
      obtain ⟨e', he', hname, hget⟩ := ih hd
      exact ⟨e', List.mem_append_left _ he', hname, by simp [he, hget]⟩

end ObjectType

/-- What is known of the types when the tables `opened` are open, the groups `made` have been made
and the groups `listed` have got a field. -/
structure BuildState.Reached (shapes opened : List Shape) (made listed : List Group)
    (b : BuildState) : Prop where
  /-- Only tables of the schema are opened. -/
  within : ∀ s ∈ opened, s ∈ shapes
  /-- Only groups of open tables get a field. -/
  open_listed : ∀ g ∈ listed, g.shape ∈ opened
  /-- Names are handed out to the groups as they are made. -/
  names : b.groupNames
    = (Name.Derived.reserving (shapes.map (·.name))).issueAll (made.map Group.base)
  /-- An open table has the fields of its columns and of the groups it has got. -/
  tables : ∀ s ∈ opened, ∃ ds,
    List.Forall₂ (Group.LeadsTo b) (listed.filter fun g => g.shape = s) ds
      ∧ Members.get? b.types.objects s.name = some ((s.objectType shapes).withFields ds)
  /-- The type of a text is made by the first group of the text that has fields. -/
  groups : ∀ text name, b.groupNames.get? text = some name →
    Members.get? b.types.objects name = (first? shapes made text).map (Group.type shapes name)
  /-- There are no other types. -/
  only : ∀ name o, Members.get? b.types.objects name = some o →
    (∃ s ∈ opened, s.name = name) ∨ ∃ text, b.groupNames.get? text = some name

/-- A group of one of the tables. -/
def Group.IsOf (shapes : List Shape) (g : Group) : Prop :=
  g.shape ∈ shapes ∧ g.ref ∈ g.shape.groups

/-- An error with which the making of a group ends when the groups before it have been made. -/
def BuildState.FailsWith (shapes : List Shape) (e : SchemaError) : Prop :=
  ∃ (opened : List Shape) (made : List Group) (b : BuildState) (g : Group),
    Reached shapes opened made (listedFrom shapes [] made) b
      ∧ (∀ g' ∈ made, g'.IsOf shapes) ∧ g.IsOf shapes
      ∧ makeGroup shapes g.shape b g.ref = .error e

namespace BuildState.Reached

variable {shapes opened : List Shape} {made listed : List Group} {b : BuildState}

/-- Nothing is known before the first step. -/
theorem start (shapes : List Shape) :
    Reached shapes [] [] [] ⟨{}, Name.Derived.reserving (shapes.map (·.name))⟩ where
  within _ h := nomatch h
  open_listed _ h := nomatch h
  names := rfl
  tables _ h := nomatch h
  groups _ _ h := nomatch h
  only _ _ h := nomatch h

/-- Which tables are open is all that matters, not their order. -/
theorem congr (h : Reached shapes opened made listed b) {opened' : List Shape}
    (ho : ∀ s, s ∈ opened' ↔ s ∈ opened) : Reached shapes opened' made listed b where
  within s hs := h.within s ((ho s).mp hs)
  open_listed g hg := (ho _).mpr (h.open_listed g hg)
  names := h.names
  tables s hs := h.tables s ((ho s).mp hs)
  groups := h.groups
  only name o hn := (h.only name o hn).imp
    (fun ⟨s, hs, he⟩ => ⟨s, (ho s).mpr hs, he⟩) id

/-- The names of groups are handed out beside those of the tables. -/
theorem sound (h : Reached shapes opened made listed b) :
    b.groupNames.Sound (shapes.map (·.name)) :=
  h.names ▸ (Name.Derived.sound_reserving _).issueAll _

/-- No group has the name of a table. -/
theorem name_ne (h : Reached shapes opened made listed b) {text name : String}
    (hn : b.groupNames.get? text = some name) {s : Shape} (hs : s ∈ shapes) : s.name ≠ name := by
  rintro rfl
  exact h.sound.not_reserved hn (List.mem_map_of_mem hs)

/-- A text with a type has a name. -/
theorem exists_name (h : Reached shapes opened made listed b) {g : Group} (hg : g ∈ made) :
    ∃ name, b.groupNames.get? g.base = some name := by
  rw [h.names]
  exact Name.Derived.exists_get?_issueAll (List.mem_map_of_mem hg)

/-- Under the name that is handed out next stands the type that its text has, if there is one. -/
theorem get?_issue (h : Reached shapes opened made listed b) (text : String) :
    Members.get? b.types.objects (b.groupNames.issue text).1
      = (first? shapes made text).map (Group.type shapes (b.groupNames.issue text).1) := by
  cases hget : b.groupNames.get? text with
  | some name =>
    rw [Name.Derived.issue_of_some hget]
    exact h.groups text name hget
  | none =>
    have hself := Name.Derived.get?_issue_self b.groupNames text
    have hsound := h.sound.issue text
    have hfirst : first? shapes made text = none := by
      cases hf : first? shapes made text with
      | none => rfl
      | some g =>
        obtain ⟨hg, _, rfl⟩ := Group.first?_eq_some hf
        obtain ⟨name, hname⟩ := h.exists_name hg
        rw [hget] at hname
        cases hname
    rw [hfirst, Option.map_none, Option.eq_none_iff_forall_not_mem]
    intro o ho
    rcases h.only _ o ho with ⟨s, hs, he⟩ | ⟨other, hother⟩
    · refine hsound.not_reserved hself ?_
      rw [← he]
      exact List.mem_map_of_mem (h.within s hs)
    · have hkept : (b.groupNames.issue text).2.get? other = some _ :=
        Name.Derived.get?_issue_of_some hother
      have htext := hsound.base_eq hself hkept
      subst htext
      rw [hget] at hother
      cases hother

/-- What a group's field leads to stays when later steps keep names and group types. -/
theorem leadsTo_mono {b b' : BuildState} {g : Group} {d : FieldDef} (hd : g.LeadsTo b d)
    (hnames : ∀ text name, b.groupNames.get? text = some name →
      b'.groupNames.get? text = some name)
    (htypes : ∀ text name o, b.groupNames.get? text = some name →
      Members.get? b.types.objects name = some o → Members.get? b'.types.objects name = some o) :
    g.LeadsTo b' d := by
  obtain ⟨name, o, key, hname, ho, hkey, rfl⟩ := hd
  exact ⟨name, o, key, hnames _ _ hname, htypes _ _ _ hname ho, hkey, rfl⟩

/-- A table is opened. -/
theorem openTable (h : Reached shapes opened made listed b) (hn : (shapes.map (·.name)).Nodup)
    {s : Shape} (hs : s ∈ shapes) (hopen : s ∉ opened) :
    Reached shapes (s :: opened) made listed
      { b with types := b.types.addObject (s.objectType shapes) } := by
  have hother : ∀ {name}, s.name ≠ name →
      Members.get? (b.types.addObject (s.objectType shapes)).objects name
        = Members.get? b.types.objects name := fun hne => Members.get?_insert_of_ne hne _ _
  have hleads : ∀ (g : Group) d, g.LeadsTo b d →
      g.LeadsTo { b with types := b.types.addObject (s.objectType shapes) } d := fun g d hd =>
    leadsTo_mono hd (fun _ _ hname => hname) fun text name o hname ho => by
      rw [hother (h.name_ne hname hs)]
      exact ho
  constructor
  · intro u hu
    rcases List.mem_cons.mp hu with rfl | hu
    · exact hs
    · exact h.within u hu
  · exact fun g hg => List.mem_cons_of_mem _ (h.open_listed g hg)
  · exact h.names
  · intro u hu
    rcases List.mem_cons.mp hu with rfl | hu
    · have hnone : listed.filter (fun g => g.shape = u) = [] := by
        rw [List.filter_eq_nil_iff]
        intro g hg he
        exact hopen (of_decide_eq_true he ▸ h.open_listed g hg)
      exact ⟨[], hnone ▸ List.Forall₂.nil, Members.get?_insert_self _ _ _⟩
    · have hne : s.name ≠ u.name := fun he =>
        hopen (List.inj_on_of_nodup_map hn hs (h.within u hu) he ▸ hu)
      obtain ⟨ds, hds, ho⟩ := h.tables u hu
      exact ⟨ds, hds.imp hleads, (hother hne).trans ho⟩
  · intro text name hname
    exact (hother (h.name_ne hname hs)).trans (h.groups text name hname)
  · intro name o ho
    by_cases he : s.name = name
    · exact Or.inl ⟨s, List.mem_cons_self, he⟩
    · rcases h.only name o ((hother he).symm.trans ho) with ⟨u, hu, hname⟩ | hgroup
      · exact Or.inl ⟨u, List.mem_cons_of_mem _ hu, hname⟩
      · exact Or.inr hgroup

/-- A field leads to a table: no object type changes. -/
theorem reach (h : Reached shapes opened made listed b) (s : Shape) :
    Reached shapes opened made listed
      { b with types := (b.types.addConnection s).addInputs s } := by
  have hobjects : ((b.types.addConnection s).addInputs s).objects = b.types.objects := by
    simp
  have hleads : ∀ (g : Group) d, g.LeadsTo b d →
      g.LeadsTo { b with types := (b.types.addConnection s).addInputs s } d := fun g d hd =>
    leadsTo_mono hd (fun _ _ hname => hname) fun _ _ _ _ ho => hobjects.symm ▸ ho
  refine ⟨h.within, h.open_listed, h.names, ?_, ?_, ?_⟩
  · intro u hu
    obtain ⟨ds, hds, ho⟩ := h.tables u hu
    exact ⟨ds, hds.imp hleads, hobjects.symm ▸ ho⟩
  · rw [hobjects]
    exact h.groups
  · rw [hobjects]
    exact h.only

/-- A group is handed its name, and its type is added if it is the first of its text with fields. -/
theorem makeType (h : Reached shapes opened made listed b) {g : Group} {name : String}
    {names : Name.Derived} (hissue : b.groupNames.issue g.base = (name, names)) :
    Reached shapes opened (made ++ [g]) listed ⟨b.types.addGroupType shapes g name, names⟩ := by
  have hself := Name.Derived.get?_issue_self b.groupNames g.base
  have hkeep : ∀ text n, b.groupNames.get? text = some n →
      (b.groupNames.issue g.base).2.get? text = some n := fun _ _ hn =>
    Name.Derived.get?_issue_of_some hn
  have hback : ∀ {text}, g.base ≠ text →
      (b.groupNames.issue g.base).2.get? text = b.groupNames.get? text := fun hne =>
    Name.Derived.get?_issue_of_ne hne
  have hnew := h.get?_issue g.base
  have hsound := h.sound.issue g.base
  rw [hissue] at hself hkeep hback hnew hsound
  have hnames : names = (Name.Derived.reserving (shapes.map (·.name))).issueAll
      ((made ++ [g]).map Group.base) := by
    simp [← h.names, hissue]
  have hleads : ∀ (g' : Group) d, g'.LeadsTo b d →
      g'.LeadsTo ⟨b.types.addGroupType shapes g name, names⟩ d := fun g' d hd =>
    leadsTo_mono hd hkeep fun _ _ _ _ ho => Registry.get?_addGroupType_of_some ho
  refine ⟨h.within, h.open_listed, hnames, ?_, ?_, ?_⟩
  · intro s hs
    obtain ⟨ds, hds, ho⟩ := h.tables s hs
    exact ⟨ds, hds.imp hleads, Registry.get?_addGroupType_of_some ho⟩
  · intro text n hn
    rw [Group.first?_concat]
    by_cases htext : g.base = text
    · subst htext
      cases hself.symm.trans hn
      rw [Registry.get?_addGroupType_self, hnew, decide_eq_true rfl, Bool.and_true]
      cases first? shapes made g.base with
      | some first => rfl
      | none => cases g.isShown shapes <;> rfl
    · have hne : name ≠ n := by
        rintro rfl
        exact htext (hsound.base_eq hself hn)
      rw [Registry.get?_addGroupType_of_ne b.types shapes g hne,
        h.groups text n ((hback htext).symm.trans hn), decide_eq_false htext, Bool.and_false,
        if_neg Bool.false_ne_true, Option.or_none]
  · intro n o ho
    by_cases hne : name = n
    · exact Or.inr ⟨g.base, hne ▸ hself⟩
    · rw [Registry.get?_addGroupType_of_ne b.types shapes g hne] at ho
      rcases h.only n o ho with hs | ⟨text, htext⟩
      · exact Or.inl hs
      · exact Or.inr ⟨text, hkeep text n htext⟩

/-- A group gets its field. -/
theorem addField (h : Reached shapes opened made listed b) (hn : (shapes.map (·.name)).Nodup)
    {g : Group} (hg : g.shape ∈ opened) {d : FieldDef} (hd : g.LeadsTo b d) :
    Reached shapes opened made (listed ++ [g])
      { b with types := (b.types.addInputs g.shape).addField g.shape d } := by
  obtain ⟨ds, hds, ho⟩ := h.tables g.shape hg
  have ho' : Members.get? (b.types.addInputs g.shape).objects g.shape.name
      = some ((g.shape.objectType shapes).withFields ds) := by
    simpa using ho
  have hself := Registry.get?_addField_self ho' rfl d
  have hother : ∀ {name}, g.shape.name ≠ name →
      Members.get? ((b.types.addInputs g.shape).addField g.shape d).objects name
        = Members.get? b.types.objects name := by
    intro name hne
    simp [Registry.get?_addField_of_ne ho' rfl d hne]
  have hin := h.within _ hg
  have hleads : ∀ (g' : Group) d', g'.LeadsTo b d' →
      g'.LeadsTo { b with types := (b.types.addInputs g.shape).addField g.shape d } d' :=
    fun g' d' hd' => leadsTo_mono hd' (fun _ _ hname => hname) fun text name o hname ho => by
      rw [hother (h.name_ne hname hin)]
      exact ho
  refine ⟨h.within, ?_, h.names, ?_, ?_, ?_⟩
  · intro g' hg'
    rcases List.mem_append.mp hg' with hg' | hg'
    · exact h.open_listed g' hg'
    · exact List.mem_singleton.mp hg' ▸ hg
  · intro s hs
    by_cases he : g.shape = s
    · subst he
      refine ⟨ds ++ [d], ?_, hself.trans ?_⟩
      · rw [List.filter_append, List.filter_singleton, decide_eq_true rfl, cond_true]
        exact List.rel_append (hds.imp hleads) (.cons (hleads g d hd) .nil)
      · rw [ObjectType.withFields_concat]
    · have hne : g.shape.name ≠ s.name := fun hname =>
        he (List.inj_on_of_nodup_map hn hin (h.within s hs) hname)
      obtain ⟨ds', hds', ho'⟩ := h.tables s hs
      refine ⟨ds', ?_, (hother hne).trans ho'⟩
      rw [List.filter_append, List.filter_singleton, decide_eq_false he,
        cond_false, List.append_nil]
      exact hds'.imp hleads
  · intro text name hname
    exact (hother (h.name_ne hname hin)).trans (h.groups text name hname)
  · intro name o hname
    by_cases he : g.shape.name = name
    · exact Or.inl ⟨g.shape, hg, he⟩
    · exact h.only name o ((hother he).symm.trans hname)

/-- A group of an open table is made. -/
theorem makeGroup (h : Reached shapes opened made (listedFrom shapes [] made) b)
    (hn : (shapes.map (·.name)).Nodup) {g : Group} (hg : g.shape ∈ opened) {b' : BuildState}
    (hmake : BuildState.makeGroup shapes g.shape b g.ref = .ok b') :
    Reached shapes opened (made ++ [g]) (listedFrom shapes [] (made ++ [g])) b' := by
  obtain ⟨name, t, hissue, rfl, hcase⟩ := makeGroup_cases hmake
  have hlist : listedFrom shapes [] (made ++ [g]) = listedFrom shapes [] made
      ++ if (first? shapes (made ++ [g]) g.base).isSome then [g] else [] :=
    Group.listedFrom_concat [] made g
  have hself := Name.Derived.get?_issue_self b.groupNames g.base
  rw [hissue] at hself
  have hreached := h.makeType hissue
  have hfirst := hreached.groups g.base name hself
  rw [hlist]
  -- The text of the group has a type by now just when a group of the text has fields.
  rcases hcase with ⟨hnone, htypes⟩ | ⟨o, key, ho, hkey, htypes⟩
  · rw [hnone, eq_comm, Option.map_eq_none_iff] at hfirst
    rw [hfirst, Option.isSome_none, if_neg Bool.false_ne_true, List.append_nil]
    obtain ⟨types, names⟩ := b'
    cases htypes
    exact hreached
  · rw [ho, eq_comm] at hfirst
    obtain ⟨first, hfound, rfl⟩ := Option.map_eq_some_iff.mp hfirst
    rw [hfound, Option.isSome_some, if_pos rfl]
    have hadded := hreached.addField hn hg ⟨name, _, key, hself, ho, hkey, rfl⟩
    obtain ⟨types, names⟩ := b'
    cases htypes
    exact hadded

/-- The groups of an open table are made, one after another, up to the first that cannot be made. -/
theorem makeGroups (h : Reached shapes opened made (listedFrom shapes [] made) b)
    (hn : (shapes.map (·.name)).Nodup) (hmade : ∀ g ∈ made, g.IsOf shapes) {s : Shape}
    (hs : s ∈ opened) {refs : List Ref} (hrefs : ∀ r ∈ refs, r ∈ s.groups) :
    match refs.foldlM (BuildState.makeGroup shapes s) b with
    | .ok b' => Reached shapes opened (made ++ refs.map (Group.mk s))
        (listedFrom shapes [] (made ++ refs.map (Group.mk s))) b'
    | .error e => FailsWith shapes e := by
  induction refs generalizing made b with
  | nil =>
    rw [List.foldlM_nil, List.map_nil, List.append_nil]
    exact h
  | cons r refs ih =>
    rw [List.foldlM_cons]
    have hgroup : Group.IsOf shapes ⟨s, r⟩ := ⟨h.within s hs, hrefs r List.mem_cons_self⟩
    cases hnext : BuildState.makeGroup shapes s b r with
    | error e => exact ⟨opened, made, b, ⟨s, r⟩, h, hmade, hgroup, hnext⟩
    | ok next =>
      have hmade' : ∀ g ∈ made ++ [⟨s, r⟩], g.IsOf shapes := by
        intro g hg
        rcases List.mem_append.mp hg with hg | hg
        · exact hmade g hg
        · exact List.mem_singleton.mp hg ▸ hgroup
      have hrest := ih (h.makeGroup hn (g := ⟨s, r⟩) hs hnext) hmade'
        fun r' hr' => hrefs r' (List.mem_cons_of_mem _ hr')
      rwa [List.append_assoc] at hrest

/-- Steps that are in order are taken, up to the first group that cannot be made. -/
theorem run (h : Reached shapes opened made (listedFrom shapes [] made) b)
    (hn : (shapes.map (·.name)).Nodup) (hmade : ∀ g ∈ made, g.IsOf shapes)
    {unopened pending : List Shape} {steps : List BuildStep}
    (horder : BuildStep.Orderly unopened pending steps)
    (hsplit : (opened ++ unopened).Perm shapes) (hpending : ∀ s ∈ pending, s ∈ opened) :
    match steps.foldlM (BuildState.take shapes) b with
    | .ok b' => ∃ groups, groups = made ++ (BuildStep.grouped steps).flatMap Shape.ownGroups
        ∧ Reached shapes shapes groups (listedFrom shapes [] groups) b'
    | .error e => FailsWith shapes e := by
  induction horder generalizing opened made b with
  | done =>
    refine ⟨made, (List.append_nil _).symm, h.congr fun s => ?_⟩
    rw [List.append_nil] at hsplit
    exact hsplit.symm.mem_iff
  | @openTable s unopened pending rest hs _ ih =>
    rw [List.foldlM_cons]
    have hperm : (s :: opened ++ unopened.erase s).Perm shapes :=
      (List.perm_middle.symm.trans ((List.perm_cons_erase hs).symm.append_left _)).trans hsplit
    have hnodup : (s :: opened ++ unopened.erase s).Nodup :=
      hperm.nodup_iff.mpr (List.Nodup.of_map _ hn)
    have hclosed : s ∉ opened := fun hmem =>
      (List.nodup_cons.mp hnodup).1 (List.mem_append_left _ hmem)
    have hin : s ∈ shapes := hsplit.subset (List.mem_append_right _ hs)
    refine ih (h.openTable hn hin hclosed) hmade hperm ?_
    intro u hu
    rcases List.mem_cons.mp hu with rfl | hu
    · exact List.mem_cons_self
    · exact List.mem_cons_of_mem _ (hpending u hu)
  | reach s _ ih =>
    rw [List.foldlM_cons]
    exact ih (h.reach s) hmade hsplit hpending
  | @makeGroups s unopened pending rest _ ih =>
    rw [List.foldlM_cons]
    have hs := hpending s List.mem_cons_self
    have hrefs : ∀ r ∈ s.groups, r ∈ s.groups := fun _ hr => hr
    have hgroups := h.makeGroups hn hmade hs hrefs
    cases hnext : BuildState.take shapes b (.makeGroups s) with
    | error e =>
      have hfold : s.groups.foldlM (BuildState.makeGroup shapes s) b = .error e := hnext
      rw [hfold] at hgroups
      exact hgroups
    | ok next =>
      have hfold : s.groups.foldlM (BuildState.makeGroup shapes s) b = .ok next := hnext
      rw [hfold] at hgroups
      have hmade' : ∀ g ∈ made ++ s.ownGroups, g.IsOf shapes := by
        intro g hg
        rcases List.mem_append.mp hg with hg | hg
        · exact hmade g hg
        · obtain ⟨rfl, href⟩ := Shape.mem_ownGroups.mp hg
          exact ⟨h.within _ hs, href⟩
      have hrest := ih hgroups hmade' hsplit fun u hu => hpending u (List.mem_cons_of_mem _ hu)
      rwa [List.append_assoc] at hrest

end BuildState.Reached

/-- Steps that make the groups of each table once make every group of every table. -/
theorem BuildStep.Orderly.mem_ownGroups_iff {shapes : List Shape} {steps : List BuildStep}
    (h : BuildStep.Orderly shapes [] steps) {g : Group} :
    g ∈ (BuildStep.grouped steps).flatMap Shape.ownGroups
      ↔ g.shape ∈ shapes ∧ g.ref ∈ g.shape.groups := by
  have hperm := h.grouped_perm
  rw [List.append_nil] at hperm
  rw [List.mem_flatMap]
  constructor
  · rintro ⟨s, hs, hg⟩
    obtain ⟨rfl, href⟩ := Shape.mem_ownGroups.mp hg
    exact ⟨hperm.mem_iff.mp hs, href⟩
  · rintro ⟨hs, href⟩
    exact ⟨g.shape, hperm.mem_iff.mpr hs, Shape.mem_ownGroups.mpr ⟨rfl, href⟩⟩

namespace Group

/-- The groups of all tables in the order in which they are made. -/
def inOrder (shapes : List Shape) : List Group :=
  (BuildStep.grouped (BuildStep.ofShapes shapes)).flatMap Shape.ownGroups

/-- The groups that have a field, in the order in which they are made. -/
def listed (shapes : List Shape) : List Group := listedFrom shapes [] (inOrder shapes)

variable {shapes : List Shape} {g : Group}

/-- Every group of every table is made. -/
theorem mem_inOrder (hn : shapes.Nodup) :
    g ∈ inOrder shapes ↔ g.shape ∈ shapes ∧ g.ref ∈ g.shape.groups :=
  (BuildStep.orderly_ofShapes hn).mem_ownGroups_iff

end Group

/-- The types of a schema are those reached when all tables are open and all groups are made. -/
theorem Schema.reached_of_build {tables : List Table} {schema : Schema}
    (h : (build tables).outcome = .ok schema) :
    schema.tables = Shape.ofTables (Table.exposable tables)
      ∧ ∃ b, schema.types = b.types ∧ BuildState.Reached schema.tables schema.tables
        (Group.inOrder schema.tables) (Group.listed schema.tables) b := by
  obtain ⟨_, b, rfl, hrun, rfl⟩ := exists_steps_of_build h
  have hn := Shape.nodup_names_ofTables (Table.nodup_names_exposable tables)
  have horder := BuildStep.orderly_ofShapes (List.Nodup.of_map _ hn)
  have hreached := (BuildState.Reached.start _).run hn (fun _ hg => nomatch hg) horder
    (List.Perm.refl _) fun _ hs => nomatch hs
  rw [hrun] at hreached
  obtain ⟨_, rfl, hreached⟩ := hreached
  exact ⟨rfl, b, rfl, hreached⟩

end TableGraph
