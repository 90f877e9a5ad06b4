import TableGraph.Proofs.Plan.Planned

/-!
# Planning within a bound

The fields below a field are merged before they are planned, so planning is by recursion on how many
fields there are. Within a bound it is by recursion on the bound, which is how the plan of a given
request is computed. A bound above the number of fields changes nothing.
-/

namespace TableGraph.Plan

variable (d : Dialect) (types : Members ObjectType)

/-- Plans merged selections on an occurrence, down to a depth that counts every field. -/
def bodyWithin? : Nat → ObjectType → String → Nat → Nat → List Selection → Option Body
  | 0, _, _, _, _, _ => none
  | _ + 1, _, _, _, next, [] => some ⟨[], [], next⟩
  | n + 1, o, aliasName, placed, next, s :: rest =>
    -- A match, unlike a test, is computed without deciding an equation.
    match isReserved s.name with
    | true => bodyWithin? n o aliasName placed next rest
    | false => (Members.get? o.fields s.name).bind fun f =>
      match f.kind, f.column with
      | .scalar _, none => bodyWithin? n o aliasName placed next rest
      | .scalar type, some column =>
        (bodyWithin? n o aliasName (placed + 1) next rest).map fun more =>
          { more with columns := columnSelect aliasName placed s type column :: more.columns }
      | kind, _ => (below? types s.children kind).bind fun b =>
        (bodyWithin? n b.type (aliasOf next) 0 (next + 1) (Selection.merge b.selected)).bind
          fun inner => (assemble d f b.type (aliasOf next) s.args inner).toOption.bind fun child =>
            (bodyWithin? n o aliasName placed inner.next rest).map fun more =>
              { more with
                joins := (⟨s.responseKey, b.cardinality, onText d f aliasName child⟩, child)
                  :: more.joins }

/-- Plans a root field, down to a depth that counts every field. -/
def ofRootWithin? (n : Nat) (f : FieldDef) (s : Selection) : Option Plan :=
  match f.kind, below? types s.children f.kind with
  | .link _, some b =>
    (bodyWithin? d types n b.type (aliasOf 0) 0 1 (Selection.merge b.selected)).bind fun inner =>
      (assemble d f b.type (aliasOf 0) s.args inner).toOption
  | _, _ => none

variable {d types}

/-- What is planned within some bound is planned. -/
theorem planned_of_bodyWithin {n : Nat} : ∀ {o : ObjectType} {aliasName : String}
    {placed next : Nat} {ss : List Selection} {b : Body},
    bodyWithin? d types n o aliasName placed next ss = some b →
      Planned d types o aliasName placed next ss b := by
  induction n with
  | zero =>
    intro o aliasName placed next ss b h
    cases h
  | succ n ih =>
    intro o aliasName placed next ss b h
    cases ss with
    | nil =>
      cases h
      exact .nil o aliasName placed next
    | cons s rest =>
      rw [bodyWithin?] at h
      split at h
      next hr => exact .reserved hr (ih h)
      next hr =>
        obtain ⟨f, hf, h⟩ := Option.bind_eq_some_iff.mp h
        split at h
        next hk hc => exact .unread hr hf hk hc (ih h)
        next hk hc =>
          obtain ⟨more, hmore, rfl⟩ := Option.map_eq_some_iff.mp h
          exact .column hr hf hk hc (ih hmore)
        next =>
          obtain ⟨below, hb, h⟩ := Option.bind_eq_some_iff.mp h
          obtain ⟨inner, hinner, h⟩ := Option.bind_eq_some_iff.mp h
          obtain ⟨child, hchild, h⟩ := Option.bind_eq_some_iff.mp h
          obtain ⟨more, hmore, rfl⟩ := Option.map_eq_some_iff.mp h
          exact .join hr hf hb (ih hinner) (toOption_eq_some_iff.mp hchild) (ih hmore)

/-- What is planned is planned within any bound above the number of fields. -/
theorem Planned.bodyWithin?_eq {o : ObjectType} {aliasName : String} {placed next : Nat}
    {ss : List Selection} {b : Body} (h : Planned d types o aliasName placed next ss b) :
    ∀ {n : Nat}, Selection.weights ss < n →
      bodyWithin? d types n o aliasName placed next ss = some b := by
  have hfewer : ∀ {s : Selection} {rest : List Selection} {n : Nat},
      Selection.weights (s :: rest) < n + 1 → Selection.weights rest < n := by
    intro s rest n hn
    have hw := Selection.weight_eq s
    rw [Selection.weights] at hn
    omega
  induction h with
  | nil =>
    intro n hn
    obtain ⟨n, rfl⟩ := Nat.exists_eq_succ_of_ne_zero (Nat.ne_zero_of_lt hn)
    rfl
  | reserved hr _ ih =>
    intro n hn
    obtain ⟨n, rfl⟩ := Nat.exists_eq_succ_of_ne_zero (Nat.ne_zero_of_lt hn)
    simp only [bodyWithin?, hr, ih (hfewer hn)]
  | unread hr hf hk hc _ ih =>
    intro n hn
    obtain ⟨n, rfl⟩ := Nat.exists_eq_succ_of_ne_zero (Nat.ne_zero_of_lt hn)
    simp only [bodyWithin?, hr, hf, hk, hc, Option.bind_some, ih (hfewer hn)]
  | column hr hf hk hc _ ih =>
    intro n hn
    obtain ⟨n, rfl⟩ := Nat.exists_eq_succ_of_ne_zero (Nat.ne_zero_of_lt hn)
    simp only [bodyWithin?, hr, hf, hk, hc, Option.bind_some, ih (hfewer hn), Option.map_some]
  | @join o aliasName placed next s rest inner more f b child hr hf hb _ ha _ ihb ih =>
    intro n hn
    obtain ⟨n, rfl⟩ := Nat.exists_eq_succ_of_ne_zero (Nat.ne_zero_of_lt hn)
    have hinner : Selection.weights (Selection.merge b.selected) < n := by
      have hw := Selection.weight_eq s
      have hbelow := weights_below_le hb
      have hmerge := Selection.weights_merge_le b.selected
      rw [Selection.weights] at hn
      omega
    have hchild := toOption_eq_some_iff.mpr ha
    cases hk : f.kind with
    | scalar type =>
      rw [below?_scalar hk] at hb
      cases hb
    | link target | group target =>
      rw [hk] at hb
      simp only [bodyWithin?, hr, hf, hk, hb, hchild, Option.bind_some, ihb hinner,
        ih (hfewer hn), Option.map_some]

/-- A root field is planned within any bound that is not below the number of fields. -/
theorem ofRootWithin?_eq_some_iff {n : Nat} {f : FieldDef} {s : Selection} {p : Plan}
    (hn : s.weight ≤ n) :
    ofRootWithin? d types n f s = some p ↔ ofRoot d types f s = .ok p := by
  rw [ofRoot_eq_ok_iff]
  constructor
  · intro h
    unfold ofRootWithin? at h
    split at h
    next target b hk hb =>
      obtain ⟨inner, hinner, hp⟩ := Option.bind_eq_some_iff.mp h
      exact ⟨target, b, inner, hk, hb, planned_of_bodyWithin hinner, toOption_eq_some_iff.mp hp⟩
    next => cases h
  · rintro ⟨target, b, inner, hk, hb, hinner, ha⟩
    have hw := Selection.weight_eq s
    have hbelow := weights_below_le hb
    have hmerge := Selection.weights_merge_le b.selected
    have hbound : Selection.weights (Selection.merge b.selected) < n := by omega
    unfold ofRootWithin?
    rw [hb, hk]
    simp only [hinner.bodyWithin?_eq hbound, Option.bind_some, toOption_eq_some_iff.mpr ha]

end TableGraph.Plan
