import TableGraph.Plan.Planning
import TableGraph.Proofs.Outcome

/-!
# What planning does

Planning the fields of an occurrence as a relation with one rule for each thing a field can
contribute: nothing, a column, or a join with everything below it. Whatever holds of a plan is shown
along these rules.
-/

namespace TableGraph.Plan

/-- The results of planning merged selections on an occurrence. -/
inductive Planned (d : Dialect) (types : Members ObjectType) :
    ObjectType → String → Nat → Nat → List Selection → Body → Prop
  /-- Nothing is selected. -/
  | nil (o : ObjectType) (aliasName : String) (placed next : Nat) :
    Planned d types o aliasName placed next [] ⟨[], [], next⟩
  /-- A field of the language is passed over. -/
  | reserved {o : ObjectType} {aliasName : String} {placed next : Nat} {s : Selection}
    {rest : List Selection} {more : Body} (hr : isReserved s.name = true)
    (tail : Planned d types o aliasName placed next rest more) :
    Planned d types o aliasName placed next (s :: rest) more
  /-- A value without a column is passed over. -/
  | unread {o : ObjectType} {aliasName : String} {placed next : Nat} {s : Selection}
    {rest : List Selection} {more : Body} {f : FieldDef} {type : Scalar}
    (hr : isReserved s.name = false) (hf : Members.get? o.fields s.name = some f)
    (hk : f.kind = .scalar type) (hc : f.column = none)
    (tail : Planned d types o aliasName placed next rest more) :
    Planned d types o aliasName placed next (s :: rest) more
  /-- A value is read from its column. -/
  | column {o : ObjectType} {aliasName : String} {placed next : Nat} {s : Selection}
    {rest : List Selection} {more : Body} {f : FieldDef} {type : Scalar} {column : String}
    (hr : isReserved s.name = false) (hf : Members.get? o.fields s.name = some f)
    (hk : f.kind = .scalar type) (hc : f.column = some column)
    (tail : Planned d types o aliasName (placed + 1) next rest more) :
    Planned d types o aliasName placed next (s :: rest)
      { more with columns := columnSelect aliasName placed s type column :: more.columns }
  /-- A link or group is joined with everything below it. -/
  | join {o : ObjectType} {aliasName : String} {placed next : Nat} {s : Selection}
    {rest : List Selection} {inner more : Body} {f : FieldDef} {b : Below} {child : Plan}
    (hr : isReserved s.name = false) (hf : Members.get? o.fields s.name = some f)
    (hb : below? types s.children f.kind = some b)
    (below : Planned d types b.type (aliasOf next) 0 (next + 1) (Selection.merge b.selected) inner)
    (ha : assemble d f b.type (aliasOf next) s.args inner = .ok child)
    (tail : Planned d types o aliasName placed inner.next rest more) :
    Planned d types o aliasName placed next (s :: rest)
      { more with
        joins := (⟨s.responseKey, b.cardinality, onText d f aliasName child⟩, child) :: more.joins }

variable {d : Dialect} {types : Members ObjectType}

/-- An object type with a primary key needs no other columns that tell its rows apart. -/
theorem identityColumns_of_primary {o : ObjectType} (h : o.primary.isSome) :
    identityColumns o = [] := by
  obtain ⟨key, hkey⟩ := Option.isSome_iff_exists.mp h
  unfold identityColumns
  rw [hkey]

/-- A value leads to no objects. -/
theorem below?_scalar {children : List Selection} {kind : FieldKind} {type : Scalar}
    (h : kind = .scalar type) : below? types children kind = none := by
  subst h
  rfl

section

variable {o : ObjectType} {aliasName : String} {placed next : Nat} {s : Selection}
  {rest : List Selection} {f : FieldDef}

/-- A field of the language is passed over. -/
theorem body_reserved (hr : isReserved s.name = true) :
    body d types o aliasName placed next (s :: rest)
      = body d types o aliasName placed next rest := by
  rw [body, if_pos hr]

/-- A field that the object type does not have is refused. -/
theorem body_noField (hr : isReserved s.name = false) (hf : Members.get? o.fields s.name = none) :
    body d types o aliasName placed next (s :: rest)
      = .error (.selection (.noField o.name s.name)) := by
  rw [body, if_neg (Bool.not_eq_true _ ▸ hr), hf]

/-- A value without a column is passed over. -/
theorem body_unread (hr : isReserved s.name = false) (hf : Members.get? o.fields s.name = some f)
    {type : Scalar} (hk : f.kind = .scalar type) (hc : f.column = none) :
    body d types o aliasName placed next (s :: rest)
      = body d types o aliasName placed next rest := by
  rw [body, if_neg (Bool.not_eq_true _ ▸ hr), hf]
  simp only [hk, hc]

/-- A value is read from its column. -/
theorem body_column (hr : isReserved s.name = false) (hf : Members.get? o.fields s.name = some f)
    {type : Scalar} (hk : f.kind = .scalar type) {column : String} (hc : f.column = some column) :
    body d types o aliasName placed next (s :: rest) = do
      let more ← body d types o aliasName (placed + 1) next rest
      return { more with
        columns := columnSelect aliasName placed s type column :: more.columns } := by
  rw [body, if_neg (Bool.not_eq_true _ ▸ hr), hf]
  simp only [hk, hc]

/-- A link or group that leads nowhere is refused. -/
theorem body_nowhere (hr : isReserved s.name = false) (hf : Members.get? o.fields s.name = some f)
    (hk : ∀ type, f.kind ≠ .scalar type) (hb : below? types s.children f.kind = none) :
    body d types o aliasName placed next (s :: rest)
      = .error (.selection (.noField o.name s.name)) := by
  rw [body, if_neg (Bool.not_eq_true _ ▸ hr), hf]
  cases hkind : f.kind with
  | scalar type => exact absurd hkind (hk type)
  | link target | group target =>
    rw [hkind] at hb
    simp only [hkind]
    split
    · rfl
    · rename_i h
      rw [hb] at h
      cases h

/-- A link or group is joined with everything below it. -/
theorem body_join (hr : isReserved s.name = false) (hf : Members.get? o.fields s.name = some f)
    {b : Below} (hb : below? types s.children f.kind = some b) :
    body d types o aliasName placed next (s :: rest) = do
      let inner ← body d types b.type (aliasOf next) 0 (next + 1) (Selection.merge b.selected)
      let child ← assemble d f b.type (aliasOf next) s.args inner
      let more ← body d types o aliasName placed inner.next rest
      let join : JoinHead := ⟨s.responseKey, b.cardinality, onText d f aliasName child⟩
      return { more with joins := (join, child) :: more.joins } := by
  rw [body, if_neg (Bool.not_eq_true _ ▸ hr), hf]
  cases hkind : f.kind with
  | scalar type =>
    rw [below?_scalar hkind] at hb
    cases hb
  | link target | group target =>
    rw [hkind] at hb
    simp only [hkind]
    split
    · rename_i h
      rw [hb] at h
      cases h
    · rename_i h
      rw [hb] at h
      cases h
      rfl

end

/-- What is derived is what planning does. -/
theorem Planned.body_eq {o : ObjectType} {aliasName : String} {placed next : Nat}
    {ss : List Selection} {b : Body} (h : Planned d types o aliasName placed next ss b) :
    body d types o aliasName placed next ss = .ok b := by
  induction h with
  | nil o aliasName placed next => rw [body]
  | reserved hr tail ih => rw [body_reserved hr, ih]
  | unread hr hf hk hc tail ih => rw [body_unread hr hf hk hc, ih]
  | column hr hf hk hc tail ih =>
    rw [body_column hr hf hk hc, ih]
    rfl
  | join hr hf hb below ha tail ihb ih =>
    rw [body_join hr hf hb, ihb]
    simp only [bind, Except.bind, ha, ih]
    rfl

/-- What holds of no fields, and of fields whenever it holds of all but the first and of what is
selected below the first, holds of all fields. -/
theorem planning_induction (types : Members ObjectType) {P : List Selection → Prop} (nil : P [])
    (cons : ∀ s rest, (∀ kind b, below? types s.children kind = some b →
      P (Selection.merge b.selected)) → P rest → P (s :: rest)) (ss : List Selection) : P ss := by
  -- The fields below a join are merged, so the induction is on how many there are.
  induction hn : Selection.weights ss using Nat.strongRecOn generalizing ss with
  | _ n ih =>
    subst hn
    cases ss with
    | nil => exact nil
    | cons s rest =>
      have hw := Selection.weight_eq s
      have hrest : Selection.weights rest < Selection.weights (s :: rest) := by
        rw [Selection.weights]
        omega
      refine cons s rest ?_ (ih _ hrest rest rfl)
      intro kind b hb
      have hbelow := weights_below_le hb
      have hmerge := Selection.weights_merge_le b.selected
      have hinner : Selection.weights (Selection.merge b.selected)
          < Selection.weights (s :: rest) := by
        rw [Selection.weights]
        omega
      exact ih _ hinner _ rfl

/-- What planning does can be derived. -/
theorem planned_of_body {o : ObjectType} {aliasName : String} {placed next : Nat}
    {ss : List Selection} {b : Body} (h : body d types o aliasName placed next ss = .ok b) :
    Planned d types o aliasName placed next ss b := by
  induction ss using planning_induction types generalizing o aliasName placed next b with
  | nil =>
    rw [body] at h
    cases h
    exact Planned.nil o aliasName placed next
  | cons s rest ihBelow ihRest =>
    by_cases hr : isReserved s.name = true
    · rw [body_reserved hr] at h
      exact Planned.reserved hr (ihRest h)
    · rw [Bool.not_eq_true] at hr
      cases hf : Members.get? o.fields s.name with
      | none =>
        rw [body_noField hr hf] at h
        cases h
      | some f =>
        cases hb : below? types s.children f.kind with
        | some below =>
          rw [body_join hr hf hb] at h
          obtain ⟨inner, hi, h⟩ := bind_eq_ok_iff.mp h
          obtain ⟨child, ha, h⟩ := bind_eq_ok_iff.mp h
          obtain ⟨more, hm, h⟩ := bind_eq_ok_iff.mp h
          cases h
          exact Planned.join hr hf hb (ihBelow _ _ hb hi) ha (ihRest hm)
        | none =>
          cases hk : f.kind with
          | scalar type =>
            cases hc : f.column with
            | none =>
              rw [body_unread hr hf hk hc] at h
              exact Planned.unread hr hf hk hc (ihRest h)
            | some column =>
              rw [body_column hr hf hk hc] at h
              obtain ⟨more, hm, h⟩ := bind_eq_ok_iff.mp h
              cases h
              exact Planned.column hr hf hk hc (ihRest hm)
          | link target | group target =>
            rw [body_nowhere hr hf (fun type he => by rw [hk] at he; cases he) hb] at h
            cases h

/-- What is planned stands under the response keys that are selected. -/
theorem Planned.keys {o : ObjectType} {aliasName : String} {placed next : Nat}
    {ss : List Selection} {b : Body} (h : Planned d types o aliasName placed next ss b) :
    (∀ c ∈ b.columns, c.key ∈ ss.map Selection.responseKey)
      ∧ ∀ j ∈ b.joins, j.1.key ∈ ss.map Selection.responseKey := by
  induction h with
  | nil =>
    constructor <;> intro x hx <;> cases hx
  | reserved hr tail ih =>
    exact ⟨fun c hc => List.mem_cons_of_mem _ (ih.1 c hc),
      fun j hj => List.mem_cons_of_mem _ (ih.2 j hj)⟩
  | unread hr hf hk hc tail ih =>
    exact ⟨fun c hc => List.mem_cons_of_mem _ (ih.1 c hc),
      fun j hj => List.mem_cons_of_mem _ (ih.2 j hj)⟩
  | column hr hf hk hc tail ih =>
    refine ⟨?_, fun j hj => List.mem_cons_of_mem _ (ih.2 j hj)⟩
    intro c hmem
    rcases List.mem_cons.mp hmem with rfl | hmem
    · exact List.mem_cons_self
    · exact List.mem_cons_of_mem _ (ih.1 c hmem)
  | join hr hf hb below ha tail ihb ih =>
    refine ⟨fun c hc => List.mem_cons_of_mem _ (ih.1 c hc), ?_⟩
    intro j hmem
    rcases List.mem_cons.mp hmem with rfl | hmem
    · exact List.mem_cons_self
    · exact List.mem_cons_of_mem _ (ih.2 j hmem)

/-- Nothing is planned under a response key that is not selected. -/
theorem Planned.filter_nil {o : ObjectType} {aliasName : String} {placed next : Nat}
    {ss : List Selection} {b : Body} (h : Planned d types o aliasName placed next ss b) {key : String}
    (hkey : key ∉ ss.map Selection.responseKey) :
    b.columns.filter (fun c => c.key = key) = [] ∧ b.joins.filter (fun j => j.1.key = key) = [] := by
  obtain ⟨hc, hj⟩ := h.keys
  constructor
  · rw [List.filter_eq_nil_iff]
    intro c hmem he
    exact hkey (of_decide_eq_true he ▸ hc c hmem)
  · rw [List.filter_eq_nil_iff]
    intro j hmem he
    exact hkey (of_decide_eq_true he ▸ hj j hmem)

/-- The plan of a root field: its rows, with the fields selected of them. -/
theorem ofRoot_eq_ok_iff {f : FieldDef} {s : Selection} {p : Plan} :
    ofRoot d types f s = .ok p ↔
      ∃ target b inner, f.kind = .link target ∧ below? types s.children f.kind = some b
        ∧ Planned d types b.type (aliasOf 0) 0 1 (Selection.merge b.selected) inner
        ∧ assemble d f b.type (aliasOf 0) s.args inner = .ok p := by
  constructor
  · intro h
    unfold ofRoot at h
    split at h
    · rename_i target b hk hb
      obtain ⟨inner, hi, h⟩ := bind_eq_ok_iff.mp h
      exact ⟨target, b, inner, hk, hb, planned_of_body hi, h⟩
    · cases h
  · rintro ⟨target, b, inner, hk, hb, hi, ha⟩
    unfold ofRoot
    rw [hb, hk]
    simp only [hi.body_eq]
    exact ha

end TableGraph.Plan
