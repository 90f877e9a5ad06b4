import TableGraph.Proofs.Schema.Steps

/-!
# Groups and their types

Each group of a table is made in its turn. The type of a group goes by the text that its name starts
from: the first group of a text that has fields makes the type, and every later group of that text
gets a field that leads to it. What the types are after some of the steps is kept by every step, so
it is known of the types in the end.
-/

namespace TableGraph

/-- An annotated group of a table, with the first ref that names it. -/
structure Group where
  /-- The table. -/
  shape : Shape
  /-- The ref. -/
  ref : Ref
  deriving DecidableEq

namespace Group

/-- What the name of its type starts from. -/
def base (g : Group) : String := BuildState.groupBase g.shape g.ref

variable (shapes : List Shape)

/-- The fields of the columns that carry the ref. -/
def fields (g : Group) : Members FieldDef :=
  Shape.columnFields shapes g.shape (g.shape.groupMembers g.ref)

/-- Whether any of the columns that carry the ref has a field. -/
def isShown (g : Group) : Bool := !(g.fields shapes).isEmpty

/-- The object type of the group under a name. -/
def type (name : String) (g : Group) : ObjectType :=
  ⟨name, g.shape.table.name, g.shape.primary?, g.ref.name, g.fields shapes⟩

/-- Of the groups of a text the first that has fields. -/
def first? (groups : List Group) (text : String) : Option Group :=
  groups.find? fun g => g.isShown shapes && g.base = text

/-- The groups that get a field: those of which the text has a type by then. `before` holds the
groups made before. -/
def listedFrom (before : List Group) : List Group → List Group
  | [] => []
  | g :: rest =>
    (if (first? shapes (before ++ [g]) g.base).isSome then [g] else [])
      ++ listedFrom (before ++ [g]) rest

variable {shapes}

/-- The groups of a text are looked at in order. -/
theorem first?_concat (groups : List Group) (g : Group) (text : String) :
    first? shapes (groups ++ [g]) text
      = (first? shapes groups text).or
        (if (g.isShown shapes && g.base = text) = true then some g else none) := by
  unfold first?
  rw [List.find?_append]
  congr 1
  by_cases h : (g.isShown shapes && decide (g.base = text)) = true
  · rw [if_pos h, List.find?_cons, h]
  · rw [if_neg h, List.find?_cons, Bool.eq_false_iff.mpr h]
    rfl

/-- What is found for a text is one of the groups, has the text and has fields. -/
theorem first?_eq_some {groups : List Group} {text : String} {g : Group}
    (h : first? shapes groups text = some g) :
    g ∈ groups ∧ g.isShown shapes = true ∧ g.base = text := by
  have hg := List.find?_some h
  rw [Bool.and_eq_true, decide_eq_true_eq] at hg
  exact ⟨List.mem_of_find?_eq_some h, hg.1, hg.2⟩

/-- A group that is made last gets a field if its text has a type by then. -/
theorem listedFrom_concat (before groups : List Group) (g : Group) :
    listedFrom shapes before (groups ++ [g])
      = listedFrom shapes before groups
        ++ if (first? shapes (before ++ groups ++ [g]) g.base).isSome then [g] else [] := by
  induction groups generalizing before with
  | nil => simp [listedFrom]
  | cons first groups ih =>
    simp only [List.cons_append, listedFrom, ih, List.append_assoc, List.nil_append]

/-- A group that gets a field is one of the groups, and its text has a type. -/
theorem mem_listedFrom {before groups : List Group} {g : Group}
    (h : g ∈ listedFrom shapes before groups) :
    g ∈ groups ∧ (first? shapes (before ++ groups) g.base).isSome := by
  induction groups generalizing before with
  | nil => cases h
  | cons first groups ih =>
    have happend : before ++ first :: groups = before ++ [first] ++ groups := by simp
    rw [happend]
    rcases List.mem_append.mp h with h | h
    · split at h
      · rename_i hsome
        rw [List.mem_singleton.mp h]
        refine ⟨List.mem_cons_self, ?_⟩
        obtain ⟨o, ho⟩ := Option.isSome_iff_exists.mp hsome
        unfold first? at ho ⊢
        rw [List.find?_append, ho]
        rfl
      · cases h
    · exact ⟨List.mem_cons_of_mem _ (ih h).1, (ih h).2⟩

/-- A group that has fields gets a field. -/
theorem mem_listedFrom_of_isShown {before groups : List Group} {g : Group} (hmem : g ∈ groups)
    (hs : g.isShown shapes = true) : g ∈ listedFrom shapes before groups := by
  induction groups generalizing before with
  | nil => cases hmem
  | cons first groups ih =>
    rcases List.mem_cons.mp hmem with rfl | hmem
    · refine List.mem_append_left _ ?_
      have hself : (g.isShown shapes && decide (g.base = g.base)) = true := by
        rw [hs, decide_eq_true rfl]
        rfl
      rw [first?_concat, if_pos hself, if_pos]
      · exact List.mem_singleton_self g
      · cases first? shapes before g.base <;> rfl
    · exact List.mem_append_right _ (ih hmem)

end Group

/-- The groups of a table. -/
def Shape.ownGroups (s : Shape) : List Group := s.groups.map (Group.mk s)

/-- A group of a table is about the table. -/
theorem Shape.mem_ownGroups {s : Shape} {g : Group} :
    g ∈ s.ownGroups ↔ g.shape = s ∧ g.ref ∈ s.groups := by
  constructor
  · intro h
    obtain ⟨r, hr, rfl⟩ := List.mem_map.mp h
    exact ⟨rfl, hr⟩
  · rintro ⟨rfl, hr⟩
    exact List.mem_map.mpr ⟨g.ref, hr, rfl⟩

namespace Registry

/-- Inputs are no object types. -/
@[simp]
theorem objects_addInputs (t : Registry) (s : Shape) :
    (t.addInputs s).objects = t.objects := by
  unfold addInputs
  split <;> rfl

/-- Connections are no object types. -/
@[simp]
theorem objects_addConnection (t : Registry) (s : Shape) :
    (t.addConnection s).objects = t.objects := by
  unfold addConnection
  split <;> rfl

variable {t : Registry} {s : Shape} {o : ObjectType}

/-- A field is added to the object type of its table. -/
theorem get?_addField_self (ho : Members.get? t.objects s.name = some o) (hn : o.name = s.name)
    (d : FieldDef) : Members.get? (t.addField s d).objects s.name
      = some { o with fields := Members.insert o.fields d.name d } := by
  simp [addField, addObject, ho, hn]

/-- Other object types do not change when a field is added. -/
theorem get?_addField_of_ne (ho : Members.get? t.objects s.name = some o) (hn : o.name = s.name)
    (d : FieldDef) {name : String} (hne : s.name ≠ name) :
    Members.get? (t.addField s d).objects name = Members.get? t.objects name := by
  simp [addField, addObject, ho, hn, hne]

/-- Adds the type of a group under its name, if there is none and the group has fields. -/
def addGroupType (t : Registry) (shapes : List Shape) (g : Group) (name : String) : Registry :=
  if Members.get? t.objects name = none ∧ g.isShown shapes = true
  then t.addObject (g.type shapes name) else t

variable {shapes : List Shape} {g : Group} {name : String}

/-- Under the name of a group stands the type that was there, or else that of the group. -/
theorem get?_addGroupType_self (t : Registry) (shapes : List Shape) (g : Group) (name : String) :
    Members.get? (t.addGroupType shapes g name).objects name
      = (Members.get? t.objects name).or
        (if g.isShown shapes = true then some (g.type shapes name) else none) := by
  have hname : (g.type shapes name).name = name := rfl
  cases ho : Members.get? t.objects name with
  | some o => simp [addGroupType, ho]
  | none =>
    by_cases hs : g.isShown shapes = true
    · simp [addGroupType, addObject, hname, ho, hs]
    · simp [addGroupType, ho, hs]

/-- Types under other names do not change when the type of a group is added. -/
theorem get?_addGroupType_of_ne (t : Registry) (shapes : List Shape) (g : Group) {other : String}
    (hne : name ≠ other) : Members.get? (t.addGroupType shapes g name).objects other
      = Members.get? t.objects other := by
  unfold addGroupType
  split
  · exact Members.get?_insert_of_ne hne _ _
  · rfl

/-- Types that are there stay when the type of a group is added. -/
theorem get?_addGroupType_of_some {other : String} (ho : Members.get? t.objects other = some o) :
    Members.get? (t.addGroupType shapes g name).objects other = some o := by
  by_cases hne : name = other
  · subst hne
    rw [get?_addGroupType_self, ho, Option.some_or]
  · rw [get?_addGroupType_of_ne t shapes g hne, ho]

end Registry

namespace BuildState

variable {shapes : List Shape} {b b' : BuildState} {g : Group}

/-- A group gets its field when its type is there and has a primary key. -/
theorem addGroupField_eq_ok {o : ObjectType} (h : b.addGroupField g.shape g.ref o = .ok b') :
    ∃ key, o.primary = some key ∧ b'.groupNames = b.groupNames ∧ b'.types
      = (b.types.addInputs g.shape).addField g.shape (g.shape.groupDef g.ref o.name key) := by
  unfold addGroupField at h
  cases hp : o.primary with
  | none =>
    rw [hp] at h
    cases h
  | some key =>
    rw [hp] at h
    cases h
    exact ⟨key, rfl, rfl, rfl⟩

/-- Making a group hands out a name and adds the type of the group. If there is a type under the
name then the table gets a field that leads to it. -/
theorem makeGroup_cases (h : makeGroup shapes g.shape b g.ref = .ok b') :
    ∃ name t, b.groupNames.issue g.base = (name, b'.groupNames)
      ∧ t = b.types.addGroupType shapes g name
      ∧ ((Members.get? t.objects name = none ∧ b'.types = t)
        ∨ ∃ o key, Members.get? t.objects name = some o ∧ o.primary = some key
          ∧ b'.types
            = (t.addInputs g.shape).addField g.shape (g.shape.groupDef g.ref o.name key)) := by
  unfold makeGroup at h
  dsimp only at h
  rw [show BuildState.groupBase g.shape g.ref = g.base from rfl] at h
  refine ⟨(b.groupNames.issue g.base).1,
    b.types.addGroupType shapes g (b.groupNames.issue g.base).1, ?_⟩
  split at h
  · rename_i o ho
    obtain ⟨key, hp, hnames, htypes⟩ := addGroupField_eq_ok h
    have hsame : b.types.addGroupType shapes g (b.groupNames.issue g.base).1 = b.types :=
      if_neg fun hn => Option.some_ne_none o (ho.symm.trans hn.1)
    refine ⟨Prod.ext rfl hnames.symm, rfl, Or.inr ⟨o, key, ?_, hp, ?_⟩⟩
    · rw [hsame]
      exact ho
    · rw [hsame]
      exact htypes
  · rename_i hnone
    split at h
    · rename_i hfields
      cases h
      have hshown : g.isShown shapes = false := by
        rw [Group.isShown, Group.fields, hfields]
        rfl
      have hsame : b.types.addGroupType shapes g (b.groupNames.issue g.base).1 = b.types :=
        if_neg fun hn => Bool.false_ne_true (hshown.symm.trans hn.2)
      exact ⟨rfl, rfl, Or.inl ⟨hsame.symm ▸ hnone, hsame.symm⟩⟩
    · rename_i hfields
      split at h
      · cases h
      · rename_i key hkey
        obtain ⟨key', hp, hnames, htypes⟩ := addGroupField_eq_ok h
        have hshown : g.isShown shapes = true := by
          rw [Group.isShown, Bool.not_eq_true', List.isEmpty_eq_false_iff]
          exact hfields
        have htype : (⟨(b.groupNames.issue g.base).1, g.shape.table.name, some key, g.ref.name,
            Shape.columnFields shapes g.shape (g.shape.groupMembers g.ref)⟩ : ObjectType)
              = g.type shapes (b.groupNames.issue g.base).1 := by
          rw [Group.type, hkey]
          rfl
        have hadded : b.types.addGroupType shapes g (b.groupNames.issue g.base).1
            = b.types.addObject (g.type shapes (b.groupNames.issue g.base).1) :=
          if_pos ⟨hnone, hshown⟩
        rw [htype] at hp htypes
        refine ⟨Prod.ext rfl hnames.symm, rfl, Or.inr ⟨_, key', ?_, hp, ?_⟩⟩
        · rw [hadded]
          exact Members.get?_insert_self _ _ _
        · rw [hadded]
          exact htypes

end BuildState

end TableGraph
