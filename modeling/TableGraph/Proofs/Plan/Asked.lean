import TableGraph.Proofs.Plan.Merging
import TableGraph.Proofs.Plan.Planned

/-!
# What a field asks for

What a selected field asks of the occurrence it is selected on, whatever else is selected there: the
value of its own column, or the objects of its own link or group, joined on their own condition and
ordered by their own terms.
-/

namespace TableGraph.Plan

/-- What a field asks of an occurrence. -/
inductive Asked where
  /-- Nothing. -/
  | nothing
  /-- The value of a column, or only whether there is one. -/
  | column (name : String) (presence : Bool)
  /-- Objects joined on a condition, as an occurrence of which no columns are selected yet. -/
  | objects (cardinality : Cardinality) (condition : String) (occurrence : Occurrence)
  deriving Repr, Inhabited

variable (d : Dialect) (types : Members ObjectType)

/-- What a field selected on objects leads to. -/
def belowOf? (o : ObjectType) (s : Selection) : Option Below :=
  (Members.get? o.fields s.name).bind fun f => below? types s.children f.kind

/-- What a field asks of an occurrence with the alias `parent`, if it is there and its arguments can
be read. Objects that it leads to get the alias `child`. -/
def asked? (o : ObjectType) (parent child : String) (s : Selection) : Option Asked :=
  if isReserved s.name then some .nothing
  else (Members.get? o.fields s.name).bind fun f =>
    match f.kind, f.column with
    | .scalar _, none => some .nothing
    | .scalar type, some column => some (.column column (type = .url))
    | kind, _ => (below? types s.children kind).bind fun b =>
      (assemble d f b.type child s.args ⟨[], [], 0⟩).toOption.map fun p =>
        .objects b.cardinality (onText d f parent p) p.head

variable {d : Dialect} {types : Members ObjectType}

/-- An occurrence with the columns that are selected of it. -/
def withColumns (o : Occurrence) (columns : List ColumnSelect) : Occurrence :=
  { o with columns := columns }

/-- A field's own clauses do not depend on what is selected below it. -/
theorem assemble_eq_ok_iff {f : FieldDef} {o : ObjectType} {aliasName : String}
    {args : Members Json} {body : Body} {p : Plan} :
    assemble d f o aliasName args body = .ok p ↔
      ∃ head, assemble d f o aliasName args ⟨[], [], 0⟩ = .ok (.node head [])
        ∧ p = .node (withColumns head body.columns) body.joins := by
  unfold assemble
  cases f.filterText d aliasName args with
  | error e => simp [bind, Except.bind]
  | ok filter =>
    cases f.ordering? args with
    | error e => simp [bind, Except.bind]
    | ok order =>
      simp only [bind, Except.bind, pure, Except.pure, Except.ok.injEq, Plan.node.injEq, and_true,
        exists_eq_left', withColumns]
      exact eq_comm

/-- An occurrence has the alias it is given. -/
theorem aliasName_of_assemble {f : FieldDef} {o : ObjectType} {aliasName : String}
    {args : Members Json} {body : Body} {p : Plan}
    (h : assemble d f o aliasName args body = .ok p) : p.head.aliasName = aliasName := by
  unfold assemble at h
  obtain ⟨filter, _, h⟩ := bind_eq_ok_iff.mp h
  obtain ⟨order, _, h⟩ := bind_eq_ok_iff.mp h
  cases h
  rfl

/-- Without fields an occurrence has no columns. -/
theorem withColumns_of_assemble {f : FieldDef} {o : ObjectType} {aliasName : String}
    {args : Members Json} {head : Occurrence}
    (h : assemble d f o aliasName args ⟨[], [], 0⟩ = .ok (.node head [])) :
    withColumns head [] = head := by
  unfold assemble at h
  obtain ⟨filter, _, h⟩ := bind_eq_ok_iff.mp h
  obtain ⟨order, _, h⟩ := bind_eq_ok_iff.mp h
  cases h
  rfl

/-- The fields that count as selected of the objects below a field. -/
def picked : Cardinality → List Selection → List Selection
  | .many, children => Selection.ofRows children
  | .one, children => children

/-- What is selected of the objects comes from what is below the field. -/
theorem selected_eq_picked {children : List Selection} {kind : FieldKind} {b : Below}
    (h : below? types children kind = some b) : b.selected = picked b.cardinality children := by
  cases kind with
  | scalar type => cases h
  | link target =>
    obtain ⟨o, _, rfl⟩ := Option.map_eq_some_iff.mp h
    rfl
  | group target =>
    obtain ⟨o, _, rfl⟩ := Option.map_eq_some_iff.mp h
    rfl

/-- A field leads to the same objects whatever is below it. -/
theorem below?_children {children : List Selection} {kind : FieldKind} {b : Below}
    (h : below? types children kind = some b) (children' : List Selection) :
    below? types children' kind = some ⟨b.type, b.cardinality, picked b.cardinality children'⟩ := by
  cases kind with
  | scalar type => cases h
  | link target =>
    obtain ⟨o, ho, rfl⟩ := Option.map_eq_some_iff.mp h
    rw [below?, ho]
    rfl
  | group target =>
    obtain ⟨o, ho, rfl⟩ := Option.map_eq_some_iff.mp h
    rw [below?, ho]
    rfl

section

variable {o : ObjectType} {parent child : String} {s : Selection} {f : FieldDef}

/-- A field of the language asks for nothing. -/
theorem asked?_reserved (hr : isReserved s.name = true) :
    asked? d types o parent child s = some .nothing := by
  rw [asked?, if_pos hr]

/-- A value without a column asks for nothing. -/
theorem asked?_unread (hr : isReserved s.name = false) (hf : Members.get? o.fields s.name = some f)
    {type : Scalar} (hk : f.kind = .scalar type) (hc : f.column = none) :
    asked? d types o parent child s = some .nothing := by
  rw [asked?, if_neg (Bool.not_eq_true _ ▸ hr), hf, Option.bind_some]
  simp only [hk, hc]

/-- A value asks for its column. -/
theorem asked?_column (hr : isReserved s.name = false) (hf : Members.get? o.fields s.name = some f)
    {type : Scalar} (hk : f.kind = .scalar type) {column : String} (hc : f.column = some column) :
    asked? d types o parent child s = some (.column column (type = .url)) := by
  rw [asked?, if_neg (Bool.not_eq_true _ ▸ hr), hf, Option.bind_some]
  simp only [hk, hc]

/-- A link or group asks for its objects, as far as it leads somewhere. -/
theorem asked?_notScalar (hr : isReserved s.name = false)
    (hf : Members.get? o.fields s.name = some f) (hk : ∀ type, f.kind ≠ .scalar type) :
    asked? d types o parent child s = (below? types s.children f.kind).bind fun b =>
      (assemble d f b.type child s.args ⟨[], [], 0⟩).toOption.map fun p =>
        .objects b.cardinality (onText d f parent p) p.head := by
  rw [asked?, if_neg (Bool.not_eq_true _ ▸ hr), hf, Option.bind_some]
  cases hkind : f.kind with
  | scalar type => exact absurd hkind (hk type)
  | link target => simp only
  | group target => simp only

/-- A link or group asks for its objects. -/
theorem asked?_objects (hr : isReserved s.name = false) (hf : Members.get? o.fields s.name = some f)
    {b : Below} (hb : below? types s.children f.kind = some b) {head : Occurrence}
    (ha : assemble d f b.type child s.args ⟨[], [], 0⟩ = .ok (.node head [])) :
    asked? d types o parent child s
      = some (.objects b.cardinality (onText d f parent (.node head [])) head) := by
  have hk : ∀ type, f.kind ≠ .scalar type := by
    intro type hk
    rw [below?_scalar hk] at hb
    cases hb
  rw [asked?_notScalar hr hf hk, hb, Option.bind_some, ha]
  rfl

/-- A field asks for nothing, for its column or for its objects. -/
theorem asked?_cases {w : Asked} (h : asked? d types o parent child s = some w) :
    (isReserved s.name = true ∧ w = .nothing)
      ∨ isReserved s.name = false ∧ ∃ f, Members.get? o.fields s.name = some f ∧
        ((∃ type, f.kind = .scalar type ∧ f.column = none ∧ w = .nothing)
          ∨ (∃ type column, f.kind = .scalar type ∧ f.column = some column
            ∧ w = .column column (type = .url))
          ∨ ∃ b head, below? types s.children f.kind = some b
            ∧ assemble d f b.type child s.args ⟨[], [], 0⟩ = .ok (.node head [])
            ∧ w = .objects b.cardinality (onText d f parent (.node head [])) head) := by
  by_cases hr : isReserved s.name = true
  · rw [asked?_reserved hr] at h
    exact Or.inl ⟨hr, (Option.some.inj h).symm⟩
  · rw [Bool.not_eq_true] at hr
    refine Or.inr ⟨hr, ?_⟩
    cases hf : Members.get? o.fields s.name with
    | none =>
      rw [asked?, if_neg (Bool.not_eq_true _ ▸ hr), hf] at h
      cases h
    | some f =>
      refine ⟨f, rfl, ?_⟩
      by_cases hk : ∃ type, f.kind = .scalar type
      · obtain ⟨type, hk⟩ := hk
        cases hc : f.column with
        | none =>
          rw [asked?_unread hr hf hk hc] at h
          exact Or.inl ⟨type, hk, rfl, (Option.some.inj h).symm⟩
        | some column =>
          rw [asked?_column hr hf hk hc] at h
          exact Or.inr (Or.inl ⟨type, column, hk, rfl, (Option.some.inj h).symm⟩)
      · rw [asked?_notScalar hr hf (not_exists.mp hk)] at h
        obtain ⟨b, hb, h⟩ := Option.bind_eq_some_iff.mp h
        obtain ⟨p, hp, rfl⟩ := Option.map_eq_some_iff.mp h
        cases ha : assemble d f b.type child s.args ⟨[], [], 0⟩ with
        | error e =>
          rw [ha] at hp
          cases hp
        | ok q =>
          obtain ⟨head, hhead, rfl⟩ := assemble_eq_ok_iff.mp ha
          rw [ha] at hp
          cases hp
          rw [hhead] at ha
          exact Or.inr (Or.inr ⟨b, head, hb, hhead, by rw [← Except.ok.inj ha]; rfl⟩)

/-- Nothing is asked for by a field of the language, or by a value that no column holds. -/
theorem nothing_of_asked (h : asked? d types o parent child s = some .nothing) :
    isReserved s.name = true ∨ isReserved s.name = false ∧ ∃ f type,
      Members.get? o.fields s.name = some f ∧ f.kind = .scalar type ∧ f.column = none := by
  rcases asked?_cases h with ⟨hr, _⟩
    | ⟨hr, f, hf, ⟨type, hk, hc, _⟩ | ⟨_, _, _, _, hw⟩ | ⟨_, _, _, _, hw⟩⟩
  · exact Or.inl hr
  · exact Or.inr ⟨hr, f, type, hf, hk, hc⟩
  · cases hw
  · cases hw

/-- A column is asked for by a value that is read from it. -/
theorem column_of_asked {name : String} {presence : Bool}
    (h : asked? d types o parent child s = some (.column name presence)) :
    isReserved s.name = false ∧ ∃ f type, Members.get? o.fields s.name = some f
      ∧ f.kind = .scalar type ∧ f.column = some name ∧ presence = decide (type = .url) := by
  rcases asked?_cases h with ⟨_, hw⟩
    | ⟨hr, f, hf, ⟨_, _, _, hw⟩ | ⟨type, column, hk, hc, hw⟩ | ⟨_, _, _, _, hw⟩⟩
  · cases hw
  · cases hw
  · cases hw
    exact ⟨hr, f, type, hf, hk, hc, rfl⟩
  · cases hw

/-- Objects are asked for by a link or group that leads to them. -/
theorem objects_of_asked {cardinality : Cardinality} {condition : String} {occurrence : Occurrence}
    (h : asked? d types o parent child s = some (.objects cardinality condition occurrence)) :
    isReserved s.name = false ∧ ∃ f b, Members.get? o.fields s.name = some f
      ∧ below? types s.children f.kind = some b
      ∧ assemble d f b.type child s.args ⟨[], [], 0⟩ = .ok (.node occurrence [])
      ∧ cardinality = b.cardinality ∧ condition = onText d f parent (.node occurrence []) := by
  rcases asked?_cases h with ⟨_, hw⟩
    | ⟨hr, f, hf, ⟨_, _, _, hw⟩ | ⟨_, _, _, _, hw⟩ | ⟨b, head, hb, hhead, hw⟩⟩
  · cases hw
  · cases hw
  · cases hw
  · cases hw
    exact ⟨hr, f, b, hf, hb, hhead, rfl, rfl⟩

/-- What does not lead to objects is asked for whatever alias they would get. -/
theorem asked?_child {w : Asked} (h : asked? d types o parent child s = some w)
    (hw : ∀ cardinality condition occurrence, w ≠ .objects cardinality condition occurrence)
    (child' : String) : asked? d types o parent child' s = some w := by
  rcases asked?_cases h with ⟨hr, rfl⟩
    | ⟨hr, f, hf, ⟨type, hk, hc, rfl⟩ | ⟨type, column, hk, hc, rfl⟩
    | ⟨b, head, _, _, rfl⟩⟩
  · exact asked?_reserved hr
  · exact asked?_unread hr hf hk hc
  · exact asked?_column hr hf hk hc
  · exact absurd rfl (hw _ _ _)

end

end TableGraph.Plan
