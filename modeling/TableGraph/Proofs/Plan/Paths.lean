import TableGraph.Proofs.Plan.Aliases
import TableGraph.Proofs.Plan.Entities
import TableGraph.Proofs.Plan.Reserved
import TableGraph.Proofs.Plan.Service
import TableGraph.Proofs.Schema.Building
import TableGraph.Proofs.Schema.Complete
import TableGraph.Sql.Postgres

/-!
# Selected fields of nested objects

What is selected of an occurrence is planned field by field, so what stands under the response key
of a field is what planning the field alone gives. A selection without arguments of fields that are
there can always be planned. Along the response keys of links and groups the plan leads to the plan
of the objects there, and of those every field has its column or join, except the values that
planning passes over because their names belong to the language.
-/

namespace TableGraph

namespace Plan

open Selection (withKey merge gathered)

variable (types : Members ObjectType)

/-- What a selected field leads to, with all that is selected below its response key. -/
def leadsTo? (o : ObjectType) (ss : List Selection) (s : Selection) : Option Below :=
  (Members.get? o.fields s.name).bind fun f => below? types (gathered ss s) f.kind

/-- Selections, without arguments, of fields of the language and fields that are there. Those under
one response key are of one field, and so it is with the selections below them. -/
inductive Bare : ObjectType → List Selection → Prop where
  /-- Selections of this kind. -/
  | mk {o : ObjectType} {ss : List Selection} (args : ∀ s ∈ ss, s.args = [])
    (known : ∀ s ∈ ss, isReserved s.name = true ∨ (Members.get? o.fields s.name).isSome)
    (same : ∀ s ∈ ss, ∀ t ∈ ss, s.responseKey = t.responseKey → s.name = t.name)
    (below : ∀ s ∈ ss, ∀ b, leadsTo? types o ss s = some b → Bare b.type b.selected) : Bare o ss

/-- Links and groups lead from selections, along their response keys, to the object type there with
what is selected of it. -/
inductive Follows :
    ObjectType → List Selection → List String → ObjectType → List Selection → Prop where
  /-- Nothing is followed. -/
  | here (o : ObjectType) (ss : List Selection) : Follows o ss [] o ss
  /-- A link or group is followed first. -/
  | step {o o' : ObjectType} {ss ss' : List Selection} {s : Selection} {b : Below}
    {keys : List String} (hs : s ∈ ss) (hb : leadsTo? types o ss s = some b)
    (rest : Follows b.type b.selected keys o' ss') : Follows o ss (s.responseKey :: keys) o' ss'

/-- The only joins under response keys lead from a plan to another one. -/
inductive Reaches : Plan → List String → Plan → Prop where
  /-- Nothing is followed. -/
  | here (p : Plan) : Reaches p [] p
  /-- A join is followed first. -/
  | step {p q r : Plan} {j : JoinHead} {key : String} {keys : List String}
    (hj : p.joins.filter (fun x => x.1.key = key) = [(j, q)]) (rest : Reaches q keys r) :
    Reaches p (key :: keys) r

/-- What stands under a response key is what a field asks for: its own column or its own objects. -/
inductive Answers (q : Plan) (key : String) (f : FieldDef) : Prop where
  /-- One column, and no join. -/
  | column {type : Scalar} {c : ColumnSelect} (hk : f.kind = .scalar type)
    (hc : f.column = some c.column) (hp : c.presence = decide (type = .url))
    (columns : q.head.columns.filter (fun c => c.key = key) = [c])
    (joins : q.joins.filter (fun j => j.1.key = key) = [])
  /-- One join, and no column. -/
  | objects {b : Below} {j : JoinHead} {r : Plan} (hb : below? types [] f.kind = some b)
    (hj : j.cardinality = b.cardinality) (hr : r.head.table = b.type.table)
    (columns : q.head.columns.filter (fun c => c.key = key) = [])
    (joins : q.joins.filter (fun j => j.1.key = key) = [(j, r)])

/-- A field is selected: what it asks for stands under its response key, and every object has a
member of that name. -/
structure Selects (q : Plan) (key : String) (f : FieldDef) : Prop where
  /-- What the field asks for stands under its response key. -/
  answers : q.Answers types key f
  /-- Every object has the member. -/
  member : ∀ rows, ∀ j ∈ q.hydrate rows, ∃ ms, j = .obj ms ∧ key ∈ Members.names ms

variable {types} {d : Dialect} {o : ObjectType} {aliasName : String}

/-- Selections can be planned one after another if each can be planned. -/
theorem exists_planned_of_each {ss : List Selection} (h : ∀ s ∈ ss, ∀ placed next,
      ∃ one, Planned d types o aliasName placed next [s] one) (placed next : Nat) :
    ∃ b, Planned d types o aliasName placed next ss b := by
  induction ss generalizing placed next with
  | nil => exact ⟨_, .nil o aliasName placed next⟩
  | cons s ss ih =>
    obtain ⟨hs, hss⟩ := List.forall_mem_cons.mp h
    obtain ⟨one, hone⟩ := hs placed next
    cases hone with
    | reserved hr tail =>
      obtain ⟨b, hb⟩ := ih hss placed next
      exact ⟨_, .reserved hr hb⟩
    | unread hr hf hk hc tail =>
      obtain ⟨b, hb⟩ := ih hss placed next
      exact ⟨_, .unread hr hf hk hc hb⟩
    | column hr hf hk hc tail =>
      obtain ⟨b, hb⟩ := ih hss (placed + 1) next
      exact ⟨_, .column hr hf hk hc hb⟩
    | join hr hf hb below ha tail =>
      obtain ⟨more, hmore⟩ := ih hss placed _
      exact ⟨_, .join hr hf hb below ha hmore⟩

/-- What is planned under a response key is what planning its field alone gives. -/
theorem Planned.alone {placed next : Nat} {ss : List Selection} {b : Body}
    (h : Planned d types o aliasName placed next ss b) (hn : (ss.map Selection.responseKey).Nodup)
    {s : Selection} (hs : s ∈ ss) :
    ∃ placed' next' one, Planned d types o aliasName placed' next' [s] one
      ∧ b.columns.filter (fun c => c.key = s.responseKey) = one.columns
      ∧ b.joins.filter (fun j => j.1.key = s.responseKey) = one.joins := by
  have hnew : ∀ {t : Selection} {rest : List Selection}, ((t :: rest).map Selection.responseKey).Nodup →
      t.responseKey ∉ rest.map Selection.responseKey ∧ (rest.map Selection.responseKey).Nodup :=
    fun hn => List.nodup_cons.mp hn
  have hother : ∀ {t : Selection} {rest : List Selection}, ((t :: rest).map Selection.responseKey).Nodup →
      s ∈ rest → ¬t.responseKey = s.responseKey :=
    fun hn hs he => (hnew hn).1 (he ▸ List.mem_map_of_mem hs)
  induction h with
  | nil => cases hs
  | @reserved o aliasName placed next t rest more hr tail ih =>
    rcases List.mem_cons.mp hs with rfl | hs
    · exact ⟨placed, next, _, .reserved hr (.nil ..), tail.filter_nil (hnew hn).1⟩
    · exact ih (hnew hn).2 hs
  | @unread o aliasName placed next t rest more f type hr hf hk hc tail ih =>
    rcases List.mem_cons.mp hs with rfl | hs
    · exact ⟨placed, next, _, .unread hr hf hk hc (.nil ..), tail.filter_nil (hnew hn).1⟩
    · exact ih (hnew hn).2 hs
  | @column o aliasName placed next t rest more f type column hr hf hk hc tail ih =>
    rcases List.mem_cons.mp hs with rfl | hs
    · obtain ⟨hcolumns, hjoins⟩ := tail.filter_nil (hnew hn).1
      exact ⟨placed, next, _, .column hr hf hk hc (.nil ..), filter_cons_key rfl hcolumns, hjoins⟩
    · obtain ⟨placed', next', one, hone, hcolumns, hjoins⟩ := ih (hnew hn).2 hs
      refine ⟨placed', next', one, hone, Eq.trans (List.filter_cons_of_neg ?_) hcolumns, hjoins⟩
      exact fun he => hother hn hs (of_decide_eq_true he)
  | @join o aliasName placed next t rest inner more f b child hr hf hb below ha tail ihb ih =>
    rcases List.mem_cons.mp hs with rfl | hs
    · obtain ⟨hcolumns, hjoins⟩ := tail.filter_nil (hnew hn).1
      exact ⟨placed, next, _, .join hr hf hb below ha (.nil ..), hcolumns,
        filter_cons_key (f := fun j : JoinHead × Plan => j.1.key) rfl hjoins⟩
    · obtain ⟨placed', next', one, hone, hcolumns, hjoins⟩ := ih (hnew hn).2 hs
      refine ⟨placed', next', one, hone, hcolumns, Eq.trans (List.filter_cons_of_neg ?_) hjoins⟩
      exact fun he => hother hn hs (of_decide_eq_true he)

/-- A plan of the objects of a type, with what is selected of them. -/
def PlanOf (d : Dialect) (types : Members ObjectType) (o : ObjectType) (ss : List Selection)
    (p : Plan) : Prop :=
  ∃ f aliasName args placed next b, Planned d types o aliasName placed next (merge ss) b
    ∧ assemble d f o aliasName args b = .ok p

/-- Without arguments there is always a plan. -/
theorem exists_assemble (d : Dialect) (f : FieldDef) (o : ObjectType) (aliasName : String) (b : Body) :
    ∃ p, assemble d f o aliasName [] b = .ok p := by
  have hfilter : f.filterText d aliasName [] = .ok (Filter.empty.text d aliasName) := by
    have hread : Filter.ofJson f.shape .null = .ok Filter.empty := by rw [Filter.ofJson]
    unfold FieldDef.filterText Filter.argumentText
    rw [Members.get?, Option.getD_none, hread]
    rfl
  unfold assemble
  rw [hfilter]
  exact ⟨_, rfl⟩

/-- What is under the response key of a selected field is what planning the field alone, with
everything below its response key, gives. -/
theorem PlanOf.alone {ss : List Selection} {p : Plan} (h : PlanOf d types o ss p)
    {s : Selection} (hs : s ∈ ss) (same : ∀ t ∈ ss, t.responseKey = s.responseKey → t.name = s.name) :
    ∃ t aliasName placed next one, t.name = s.name ∧ t.responseKey = s.responseKey
      ∧ t.children = gathered ss s ∧ Planned d types o aliasName placed next [t] one
      ∧ p.head.columns.filter (fun c => c.key = s.responseKey) = one.columns
      ∧ p.joins.filter (fun j => j.1.key = s.responseKey) = one.joins := by
  obtain ⟨f, aliasName, args, placed, next, b, hb, ha⟩ := h
  obtain ⟨filter, order, _, _, rfl⟩ := assemble_cases ha
  obtain ⟨m, hm, hkey⟩ := Selection.exists_merged hs
  obtain ⟨placed', next', one, hone, hcolumns, hjoins⟩ :=
    hb.alone (Selection.nodup_responseKeys_merge ss) hm
  obtain ⟨t, ht, he⟩ := Selection.exists_of_mem_merge hm
  have hparts : m.responseKey = t.responseKey ∧ m.name = t.name ∧ m.children = gathered ss t := by
    rw [he]
    cases t
    exact ⟨rfl, rfl, rfl⟩
  have htkey : t.responseKey = s.responseKey := hparts.1.symm.trans hkey
  have hchildren : m.children = gathered ss s := by rw [hparts.2.2, gathered, htkey, gathered]
  rw [hkey] at hcolumns hjoins
  exact ⟨m, aliasName, placed', next', one, hparts.2.1.trans (same t ht htkey), hkey, hchildren,
    hone, hcolumns, hjoins⟩

/-- Every object has a member for each column and each join. -/
theorem mem_names_of_hydrate {q : Plan} {key : String} (h : (∃ c ∈ q.head.columns, c.key = key)
      ∨ ∃ j ∈ q.joins, j.1.key = key) {rows : List Row} {j : Json} (hj : j ∈ q.hydrate rows) :
    ∃ ms, j = .obj ms ∧ key ∈ Members.names ms := by
  obtain ⟨head, joins⟩ := q
  rw [hydrate] at hj
  obtain ⟨g, _, rfl⟩ := List.mem_map.mp hj
  refine ⟨_, rfl, ?_⟩
  rw [Members.names_ofList, mem_distinctBy, Members.names_append, List.mem_append,
    names_hydrateJoins]
  rcases h with ⟨c, hc, rfl⟩ | ⟨j, hj, rfl⟩
  · refine Or.inl ?_
    rw [Occurrence.ownMembers, Members.names_append, List.mem_append, Members.names_map]
    exact Or.inr (List.mem_map_of_mem (f := fun c : ColumnSelect => c.key) hc)
  · exact Or.inr (List.mem_map_of_mem (f := fun j : JoinHead × Plan => j.1.key) hj)

section

variable {tables : List Table} {schema : Schema}

/-- A link or group of an object type leads to an object type. -/
theorem exists_below (hbuild : (Schema.build tables).outcome = .ok schema)
    (ho : o ∈ Members.values schema.types.objects) {e : String × FieldDef} (he : e ∈ o.fields)
    (hk : ∀ type, e.2.kind ≠ .scalar type) (children : List Selection) :
    ∃ b, below? schema.types.objects children e.2.kind = some b := by
  have hfield : schema.HasField e.2 := Or.inr ⟨o, ho, List.mem_map_of_mem he⟩
  have hregistered := Schema.registered_of_leads hbuild (Schema.leads_of_hasField hbuild hfield)
  cases hkind : e.2.kind with
  | scalar type => exact absurd hkind (hk type)
  | link target =>
    rw [hkind] at hregistered
    obtain ⟨t, ht⟩ := Option.isSome_iff_exists.mp hregistered.2
    exact ⟨_, by rw [below?, ht]; rfl⟩
  | group target =>
    rw [hkind] at hregistered
    obtain ⟨t, ht⟩ := Option.isSome_iff_exists.mp hregistered
    exact ⟨_, by rw [below?, ht]; rfl⟩

/-- What a field leads to is an object type that is there. -/
theorem type_mem_of_below? {types : Members ObjectType} {children : List Selection}
    {kind : FieldKind} {b : Below} (hb : below? types children kind = some b) :
    b.type ∈ Members.values types := by
  cases kind with
  | scalar type => cases hb
  | link target | group target =>
    obtain ⟨t, ht, rfl⟩ := Option.map_eq_some_iff.mp hb
    exact List.mem_map_of_mem (Members.mem_of_get? ht)

/-- Selections without arguments of fields that are there can be planned. -/
theorem Bare.planned (hbuild : (Schema.build tables).outcome = .ok schema) (d : Dialect)
    {ss : List Selection} (h : Bare schema.types.objects o ss)
    (ho : o ∈ Members.values schema.types.objects) (aliasName : String) (placed next : Nat) :
    ∃ b, Planned d schema.types.objects o aliasName placed next (merge ss) b := by
  induction h generalizing aliasName placed next with
  | @mk o ss args known same below ih =>
    refine exists_planned_of_each (fun s hs placed next => ?_) placed next
    obtain ⟨t, ht, rfl⟩ := Selection.exists_of_mem_merge hs
    obtain ⟨name, rename, targs, children⟩ := t
    have hargs : targs = [] := args _ ht
    by_cases hr : isReserved name = true
    · exact ⟨_, .reserved hr (.nil ..)⟩
    · rw [Bool.not_eq_true] at hr
      obtain ⟨f, hf⟩ := Option.isSome_iff_exists.mp
        ((known _ ht).resolve_left (by rw [Selection.name, hr]; exact Bool.false_ne_true))
      rcases Schema.isReserved_cases hbuild ho (Members.mem_of_get? hf) with
        ⟨type, column, hk, hc, _⟩ | ⟨hk, _⟩
      · exact ⟨_, .column hr hf hk hc (.nil ..)⟩
      · obtain ⟨b, hb⟩ := exists_below hbuild ho (Members.mem_of_get? hf) hk
          (gathered ss (.field name rename targs children))
        have hleads : leadsTo? schema.types.objects o ss (.field name rename targs children)
            = some b := by
          rw [leadsTo?]
          exact Option.bind_eq_some_iff.mpr ⟨f, hf, hb⟩
        obtain ⟨inner, hinner⟩ := ih _ ht b hleads (type_mem_of_below? hb) (aliasOf next) 0 (next + 1)
        obtain ⟨child, hchild⟩ := exists_assemble d f b.type (aliasOf next) inner
        rw [← hargs] at hchild
        exact ⟨_, .join hr hf hb hinner hchild (.nil ..)⟩

end

section

variable {ss : List Selection} {p : Plan} {s : Selection} {f : FieldDef}

/-- A plan is of the table of the objects. -/
theorem PlanOf.table (h : PlanOf d types o ss p) : p.head.table = o.table := by
  obtain ⟨f, aliasName, args, placed, next, b, _, ha⟩ := h
  obtain ⟨filter, order, _, _, rfl⟩ := assemble_cases ha
  rfl

/-- Nothing stands under the response key of a field of the language. -/
theorem PlanOf.not_answers (h : PlanOf d types o ss p) (hs : s ∈ ss)
    (same : ∀ t ∈ ss, t.responseKey = s.responseKey → t.name = s.name)
    (hr : isReserved s.name = true) : ¬p.Answers types s.responseKey f := by
  obtain ⟨t, aliasName, placed, next, one, hname, _, _, hone, hcolumns, hjoins⟩ := h.alone hs same
  rw [← hname] at hr
  have hnothing : one.columns = [] ∧ one.joins = [] := by
    cases hone with
    | reserved _ tail =>
      cases tail
      exact ⟨rfl, rfl⟩
    | unread hr' => exact absurd (hr.symm.trans hr') nofun
    | column hr' => exact absurd (hr.symm.trans hr') nofun
    | join hr' => exact absurd (hr.symm.trans hr') nofun
  intro hanswers
  cases hanswers with
  | column _ _ _ hcolumn _ => exact List.cons_ne_nil _ _ (hcolumn.symm.trans (hcolumns.trans hnothing.1))
  | objects _ _ _ _ hjoin => exact List.cons_ne_nil _ _ (hjoin.symm.trans (hjoins.trans hnothing.2))

/-- The column of a value stands under its response key. -/
theorem PlanOf.answers_column (h : PlanOf d types o ss p) (hs : s ∈ ss)
    (same : ∀ t ∈ ss, t.responseKey = s.responseKey → t.name = s.name)
    (hr : isReserved s.name = false) (hf : Members.get? o.fields s.name = some f) {type : Scalar}
    (hk : f.kind = .scalar type) {column : String} (hc : f.column = some column) :
    p.Answers types s.responseKey f := by
  obtain ⟨t, aliasName, placed, next, one, hname, hkey, _, hone, hcolumns, hjoins⟩ := h.alone hs same
  rw [← hname] at hr hf
  cases hone with
  | reserved hr' => exact absurd (hr'.symm.trans hr) nofun
  | unread _ hf' _ hc' =>
    obtain rfl := Option.some.inj (hf.symm.trans hf')
    exact absurd (hc.symm.trans hc') nofun
  | column _ hf' hk' hc' tail =>
    obtain rfl := Option.some.inj (hf.symm.trans hf')
    cases tail
    exact .column hk' hc' rfl hcolumns hjoins
  | join _ hf' hb =>
    obtain rfl := Option.some.inj (hf.symm.trans hf')
    exact absurd ((below?_scalar hk).symm.trans hb) nofun

/-- A plan of the objects of a link or group stands under its response key. -/
theorem PlanOf.answers_objects (h : PlanOf d types o ss p) (hs : s ∈ ss)
    (same : ∀ t ∈ ss, t.responseKey = s.responseKey → t.name = s.name)
    (hr : isReserved s.name = false) (hf : Members.get? o.fields s.name = some f) {b : Below}
    (hb : below? types (gathered ss s) f.kind = some b) :
    p.Answers types s.responseKey f ∧ ∃ j r,
      p.joins.filter (fun x => x.1.key = s.responseKey) = [(j, r)]
        ∧ PlanOf d types b.type b.selected r := by
  obtain ⟨t, aliasName, placed, next, one, hname, hkey, hchildren, hone, hcolumns, hjoins⟩ :=
    h.alone hs same
  rw [← hname] at hr hf
  rw [← hchildren] at hb
  cases hone with
  | reserved hr' => exact absurd (hr'.symm.trans hr) nofun
  | unread _ hf' hk' =>
    obtain rfl := Option.some.inj (hf.symm.trans hf')
    exact absurd ((below?_scalar hk').symm.trans hb) nofun
  | column _ hf' hk' =>
    obtain rfl := Option.some.inj (hf.symm.trans hf')
    exact absurd ((below?_scalar hk').symm.trans hb) nofun
  | join _ hf' hb' hbelow ha tail =>
    obtain rfl := Option.some.inj (hf.symm.trans hf')
    obtain rfl := Option.some.inj (hb.symm.trans hb')
    cases tail
    have hplan : PlanOf d types b.type b.selected _ := ⟨_, _, _, _, _, _, hbelow, ha⟩
    exact ⟨.objects (below?_children hb []) rfl hplan.table hcolumns hjoins, _, _, hjoins, hplan⟩

end

section

variable {tables : List Table} {schema : Schema}

/-- A field that is planned is selected. -/
theorem Answers.selects {types : Members ObjectType} {q : Plan} {key : String} {f : FieldDef}
    (h : q.Answers types key f) : q.Selects types key f := by
  refine ⟨h, fun rows j hj => mem_names_of_hydrate ?_ hj⟩
  cases h with
  | @column type c _ _ _ hcolumns _ =>
    have hmem : c ∈ q.head.columns.filter fun c => c.key = key := by
      rw [hcolumns]
      exact List.mem_singleton_self c
    obtain ⟨hc, hkey⟩ := List.mem_filter.mp hmem
    exact Or.inl ⟨c, hc, of_decide_eq_true hkey⟩
  | @objects b j r _ _ _ _ hjoins =>
    have hmem : (j, r) ∈ q.joins.filter fun j => j.1.key = key := by
      rw [hjoins]
      exact List.mem_singleton_self _
    obtain ⟨hj, hkey⟩ := List.mem_filter.mp hmem
    exact Or.inr ⟨_, hj, of_decide_eq_true hkey⟩

/-- Along response keys a plan leads to a plan of what is selected there. -/
theorem Follows.reaches (hbuild : (Schema.build tables).outcome = .ok schema) {d : Dialect}
    {ss ss' : List Selection} {keys : List String} {o' : ObjectType}
    (h : Follows schema.types.objects o ss keys o' ss')
    (ho : o ∈ Members.values schema.types.objects) (hbare : Bare schema.types.objects o ss)
    {p : Plan} (hp : PlanOf d schema.types.objects o ss p) :
    ∃ q, p.Reaches keys q ∧ PlanOf d schema.types.objects o' ss' q
      ∧ Bare schema.types.objects o' ss' ∧ o' ∈ Members.values schema.types.objects := by
  induction h generalizing p with
  | here o ss => exact ⟨p, .here p, hp, hbare, ho⟩
  | @step o o' ss ss' s b keys hs hb rest ih =>
    obtain ⟨_, _, same, below⟩ := hbare
    obtain ⟨f, hf, hbelow⟩ := Option.bind_eq_some_iff.mp hb
    have hr : isReserved s.name = false := by
      rcases Schema.isReserved_cases hbuild ho (Members.mem_of_get? hf) with
        ⟨type, column, hk, _, _⟩ | ⟨_, hr⟩
      · exact absurd ((below?_scalar hk).symm.trans hbelow) nofun
      · exact hr
    obtain ⟨_, j, r, hjoins, hr⟩ := hp.answers_objects hs
      (fun t ht hkey => same t ht s hs hkey) hr hf hbelow
    obtain ⟨q, hq, hplan⟩ := ih (type_mem_of_below? hbelow) (below s hs b hb) hr
    exact ⟨q, .step hjoins hq, hplan⟩

/-- Without arguments every root field can be planned with fields that are there selected below it.
Along links and groups the plan leads to every object type that the selections lead to. Of those
objects a field that is named has its column or its join, and so its member, just when it is a link
or group or its column does not begin in a way that is escaped to two underscores. -/
theorem ofRoot_selects_iff (tables : List Table) (schema : Schema)
    (hbuild : (Schema.build tables).outcome = .ok schema) (d : Dialect) (name : String)
    (root : FieldDef) (hroot : Members.get? schema.root name = some root) :
    ∃ target o, root.kind = .link target ∧ Members.get? schema.types.objects target = some o
      ∧ ∀ sel : Selection, sel.args = [] →
        Bare schema.types.objects o (Selection.ofRows sel.children) →
        ∃ p, ofRoot d schema.types.objects root sel = .ok p
          ∧ ∀ keys o' ss,
            Follows schema.types.objects o (Selection.ofRows sel.children) keys o' ss →
            ∃ q, p.Reaches keys q ∧ q.head.table = o'.table
              ∧ ∀ s ∈ ss, ∀ f, Members.get? o'.fields s.name = some f →
                (q.Selects schema.types.objects s.responseKey f
                  ↔ ∀ type column, f.kind = .scalar type → f.column = some column →
                    Name.startsReserved column = false) := by
  obtain ⟨shape, hshape, rfl⟩ := Schema.exists_rootDef hbuild (Members.mem_of_get? hroot)
  obtain ⟨gs, _, ho⟩ := Schema.object_of_table hbuild hshape
  refine ⟨shape.name, _, rfl, ho, fun sel hargs hbare => ?_⟩
  have hmem := List.mem_map_of_mem (f := Prod.snd) (Members.mem_of_get? ho)
  obtain ⟨b, hb⟩ := hbare.planned hbuild d hmem (aliasOf 0) 0 1
  obtain ⟨p, hp⟩ := exists_assemble d shape.rootDef
    ((shape.objectType schema.tables).withFields gs) (aliasOf 0) b
  have hbelow : below? schema.types.objects sel.children shape.rootDef.kind
      = some ⟨(shape.objectType schema.tables).withFields gs, .many,
        Selection.ofRows sel.children⟩ := Option.map_eq_some_iff.mpr ⟨_, ho, rfl⟩
  have hplan : PlanOf d schema.types.objects _ (Selection.ofRows sel.children) p :=
    ⟨_, _, _, _, _, _, hb, hp⟩
  refine ⟨p, ofRoot_eq_ok_iff.mpr ⟨_, _, b, rfl, hbelow, hb, hargs ▸ hp⟩, ?_⟩
  intro keys o' ss hfollows
  obtain ⟨q, hreaches, hq, ⟨_, _, same, _⟩, ho'⟩ := hfollows.reaches hbuild hmem hbare hplan
  refine ⟨q, hreaches, hq.table, fun s hs f hf => ?_⟩
  have hsame := fun t ht hkey => same t ht s hs hkey
  rcases Schema.isReserved_cases hbuild ho' (Members.mem_of_get? hf) with
    ⟨type, column, hk, hc, hreserved⟩ | ⟨hk, hr⟩
  · constructor
    · intro hselects type' column' _ hc'
      obtain rfl := Option.some.inj (hc.symm.trans hc')
      by_contra hstarts
      rw [Bool.not_eq_false] at hstarts
      exact hq.not_answers hs hsame (hreserved.trans hstarts) hselects.answers
    · intro hstarts
      have hr := hreserved.trans (hstarts type column hk hc)
      exact (hq.answers_column hs hsame hr hf hk hc).selects
  · obtain ⟨b, hb⟩ := exists_below hbuild ho' (Members.mem_of_get? hf) hk (gathered ss s)
    obtain ⟨hanswers, _⟩ := hq.answers_objects hs hsame hr hf hb
    exact iff_of_true hanswers.selects fun type _ hkind => absurd hkind (hk type)

/-- Values below which nothing is selected are fields that are there. -/
theorem bare_of_values {types : Members ObjectType} {o : ObjectType} {ss : List Selection}
    (args : ∀ s ∈ ss, s.args = [])
    (values : ∀ s ∈ ss, ∃ f type, Members.get? o.fields s.name = some f ∧ f.kind = .scalar type)
    (same : ∀ s ∈ ss, ∀ t ∈ ss, s.responseKey = t.responseKey → s.name = t.name) :
    Bare types o ss := by
  refine .mk args (fun s hs => ?_) same fun s hs b hb => ?_
  · obtain ⟨f, _, hf, _⟩ := values s hs
    exact Or.inr (Option.isSome_of_eq_some hf)
  · obtain ⟨f, type, hf, hk⟩ := values s hs
    rw [leadsTo?, hf, Option.bind_some, below?_scalar hk] at hb
    cases hb

/-- Shipments, each with the next one, and with a column whose name does not begin as names do. -/
def shipmentTables : List Table :=
  [⟨"SHIPMENT", "SHIPMENT", [], [(Field.plain "SHIPMENT" "ID" .int).asPrimary,
    Field.plain "SHIPMENT" "$OWNER" .string,
    (Field.plain "SHIPMENT" "NEXT" .int).references "SHIPMENT" "ID"]⟩]

/-- A request for the number and the owner of the next shipments. -/
def nextOwners : Selection :=
  .field "SHIPMENT" none [] [.field "nodes" none [] [.field "link_NEXT" (some "next") []
    [.field "nodes" none [] [.field "ID" none [] [], .field "__OWNER" none [] []]]]]

/-- What is asked for of the next shipments. -/
def numberAndOwner : List Selection := [.field "ID" none [] [], .field "__OWNER" none [] []]

/-- The next shipments as they are asked for. -/
def nextShipments : Selection :=
  .field "link_NEXT" (some "next") [] [.field "nodes" none [] numberAndOwner]

/-- The request asks for the next shipments and nothing else. -/
theorem ofRows_nextOwners : Selection.ofRows nextOwners.children = [nextShipments] := rfl

/-- The fields of shipments by which they are asked for. -/
structure Shipments (schema : Schema) (root : FieldDef) (o : ObjectType) (id owner next : FieldDef) :
    Prop where
  /-- The schema is built. -/
  build : (Schema.build shipmentTables).outcome = .ok schema
  /-- The root field. -/
  rootField : Members.get? schema.root "SHIPMENT" = some root
  /-- It leads to the object type. -/
  rootKind : root.kind = .link "SHIPMENT"
  /-- The object type. -/
  object : Members.get? schema.types.objects "SHIPMENT" = some o
  /-- The number. -/
  idField : Members.get? o.fields "ID" = some id
  /-- It is a value. -/
  idKind : id.kind = .scalar .int
  /-- It is held by its column. -/
  idColumn : id.column = some "ID"
  /-- The owner. -/
  ownerField : Members.get? o.fields "__OWNER" = some owner
  /-- It is a value. -/
  ownerKind : owner.kind = .scalar .string
  /-- It is held by its column. -/
  ownerColumn : owner.column = some "$OWNER"
  /-- The next shipments. -/
  nextField : Members.get? o.fields "link_NEXT" = some next
  /-- They are shipments, too. -/
  nextKind : next.kind = .link "SHIPMENT"

/-- The schema of the shipments. -/
theorem exists_shipments :
    ∃ schema root o id owner next, Shipments schema root o id owner next := by
  have hbuilt : ((Schema.built? shipmentTables).bind fun schema =>
      (Members.get? schema.root "SHIPMENT").bind fun root =>
        (Members.get? schema.types.objects "SHIPMENT").bind fun o =>
          (Members.get? o.fields "ID").bind fun id =>
            (Members.get? o.fields "__OWNER").bind fun owner =>
              (Members.get? o.fields "link_NEXT").map fun next =>
                (root.kind, id.kind, id.column, owner.kind, owner.column, next.kind))
      = some (.link "SHIPMENT", .scalar .int, some "ID", .scalar .string, some "$OWNER",
        .link "SHIPMENT") := by cbv
  obtain ⟨schema, hschema, hbuilt⟩ := Option.bind_eq_some_iff.mp hbuilt
  obtain ⟨root, hroot, hbuilt⟩ := Option.bind_eq_some_iff.mp hbuilt
  obtain ⟨o, ho, hbuilt⟩ := Option.bind_eq_some_iff.mp hbuilt
  obtain ⟨id, hid, hbuilt⟩ := Option.bind_eq_some_iff.mp hbuilt
  obtain ⟨owner, howner, hbuilt⟩ := Option.bind_eq_some_iff.mp hbuilt
  obtain ⟨next, hnext, hbuilt⟩ := Option.map_eq_some_iff.mp hbuilt
  simp only [Prod.mk.injEq] at hbuilt
  obtain ⟨hroot', hid', hidColumn, howner', hownerColumn, hnext'⟩ := hbuilt
  exact ⟨schema, root, o, id, owner, next, Schema.build_eq_ok_iff.mpr hschema, hroot, hroot', ho,
    hid, hid', hidColumn, howner, howner', hownerColumn, hnext, hnext'⟩

section

variable {schema : Schema} {root : FieldDef} {o : ObjectType} {id owner next : FieldDef}
  (h : Shipments schema root o id owner next)

include h

/-- The request leads to the number and the owner of the next shipments. -/
theorem Shipments.leadsTo : leadsTo? schema.types.objects o [nextShipments] nextShipments
    = some ⟨o, .many, numberAndOwner⟩ := by
  have hgathered : Selection.ofRows (gathered [nextShipments] nextShipments) = numberAndOwner := rfl
  have hname : nextShipments.name = "link_NEXT" := rfl
  rw [leadsTo?, hname, h.nextField, Option.bind_some, h.nextKind, below?, h.object, Option.map_some,
    hgathered]

/-- The number and the owner are values. -/
theorem Shipments.bare_numberAndOwner : Bare schema.types.objects o numberAndOwner := by
  refine bare_of_values ?_ ?_ ?_
  · exact List.forall_mem_cons.mpr ⟨rfl, List.forall_mem_singleton.mpr rfl⟩
  · exact List.forall_mem_cons.mpr ⟨⟨id, _, h.idField, h.idKind⟩,
      List.forall_mem_singleton.mpr ⟨owner, _, h.ownerField, h.ownerKind⟩⟩
  · intro s hs t ht hkey
    rcases List.mem_pair.mp hs with rfl | rfl <;> rcases List.mem_pair.mp ht with rfl | rfl
    · rfl
    · exact absurd hkey (by decide)
    · exact absurd hkey (by decide)
    · rfl

/-- The request asks for fields that are there, without arguments. -/
theorem Shipments.bare_nextOwners :
    Bare schema.types.objects o (Selection.ofRows nextOwners.children) := by
  rw [ofRows_nextOwners]
  refine .mk (List.forall_mem_singleton.mpr rfl)
    (List.forall_mem_singleton.mpr (Or.inr (Option.isSome_of_eq_some h.nextField))) ?_ ?_
  · intro s hs t ht _
    rw [List.mem_singleton.mp hs, List.mem_singleton.mp ht]
  · intro s hs b hb
    obtain rfl := List.mem_singleton.mp hs
    obtain rfl := Option.some.inj (h.leadsTo.symm.trans hb)
    exact h.bare_numberAndOwner

/-- The request leads to the next shipments under the key it gives them. -/
theorem Shipments.follows : Follows schema.types.objects o
    (Selection.ofRows nextOwners.children) ["next"] o numberAndOwner :=
  .step List.mem_cons_self h.leadsTo (.here _ _)

end

/-- The next shipments are answered with their number and without their owner. -/
theorem not_selects_nextOwners :
    ∃ schema root o p q id owner, (Schema.build shipmentTables).outcome = .ok schema
      ∧ Members.get? schema.root "SHIPMENT" = some root
      ∧ Members.get? schema.types.objects "SHIPMENT" = some o
      ∧ ofRoot (Postgres.dialect "public") schema.types.objects root nextOwners = .ok p
      ∧ p.Reaches ["next"] q ∧ Members.get? o.fields "ID" = some id
      ∧ Members.get? o.fields "__OWNER" = some owner ∧ owner.column = some "$OWNER"
      ∧ q.Selects schema.types.objects "ID" id
      ∧ ¬q.Selects schema.types.objects "__OWNER" owner := by
  obtain ⟨schema, root, o, id, owner, next, h⟩ := exists_shipments
  obtain ⟨target, o', hkind, ho', hplans⟩ := ofRoot_selects_iff shipmentTables schema h.build
    (Postgres.dialect "public") "SHIPMENT" root h.rootField
  obtain rfl : "SHIPMENT" = target := FieldKind.link.inj (h.rootKind.symm.trans hkind)
  obtain rfl := Option.some.inj (h.object.symm.trans ho')
  obtain ⟨p, hp, hpaths⟩ := hplans nextOwners rfl h.bare_nextOwners
  obtain ⟨q, hreaches, _, hiff⟩ := hpaths _ _ _ h.follows
  refine ⟨schema, root, o, p, q, id, owner, h.build, h.rootField, h.object, hp, hreaches, h.idField,
    h.ownerField, h.ownerColumn, ?_, ?_⟩
  · refine (hiff _ List.mem_cons_self id h.idField).mpr fun type column _ hc => ?_
    obtain rfl := Option.some.inj (h.idColumn.symm.trans hc)
    decide
  · intro hselects
    have hstarts := (hiff _ (List.mem_cons_of_mem _ (List.mem_singleton_self _)) owner h.ownerField).mp
      hselects _ _ h.ownerKind h.ownerColumn
    exact absurd hstarts (by decide)

end

end Plan

end TableGraph
