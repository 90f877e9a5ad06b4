import TableGraph.Plan.Hydrate
import TableGraph.Proofs.Json.Injective
import TableGraph.Proofs.Members

/-!
# Identities of rows tell values

The rows of one object are found by a text for each row: that of the list of the values that identify
the object. Such a text says where each of the values ends, so it tells them one by one, whatever
characters they are made of. Which values are read is a matter of the row: the primary key if the table
has one, else the place of the row if it is shown, else the identifying and selected columns.
-/

namespace TableGraph

namespace Row

variable {row : Row} {label : String}

/-- The numbers in a row are finite, as they are in every text of a value. -/
def Finite (row : Row) : Prop := ∀ m ∈ row, m.2.Finite

/-- The numbers in each value of the row are finite. -/
theorem Finite.value (h : row.Finite) (label : String) : (row.value label).Finite := by
  unfold Row.value
  cases hv : Members.get? row label with
  | none => exact .null
  | some v => exact h (label, v) (Members.mem_of_get? hv)

/-- A value is `null` where nothing is there, or `null`. -/
theorem isNull_value_iff : (row.value label).isNull = true
    ↔ Members.get? row label = none ∨ Members.get? row label = some .null := by
  unfold Row.value
  cases Members.get? row label with
  | none => simp [Json.isNull]
  | some v => cases v <;> simp [Json.isNull]

end Row

namespace Occurrence

variable {o : Occurrence} {row row' : Row} {key : String}

/-- What an object is identified by. -/
inductive Basis where
  /-- The primary key. -/
  | primary
  /-- The place of the row. -/
  | place
  /-- The identifying and selected columns. -/
  | columns
  deriving DecidableEq, Repr

/-- What the object of a row is identified by. -/
def basis (o : Occurrence) (row : Row) : Basis :=
  match o.primary with
  | some _ => .primary
  | none => if (row.value o.rowLabel).isNull then .columns else .place

/-- The labels of the values that identify an object. -/
def basisLabels (o : Occurrence) : Basis → List String
  | .primary => [o.keyLabel]
  | .place => [o.rowLabel]
  | .columns => o.identity.map (·.2) ++ o.columns.map (·.label)

/-- The values that identify the object of a row are those under the labels. -/
theorem identifying_eq (o : Occurrence) (row : Row) :
    o.identifying row = (o.basisLabels (o.basis row)).map row.value := by
  unfold identifying basis
  cases o.primary with
  | some column => rfl
  | none => cases hplace : (row.value o.rowLabel).isNull <;> simp [hplace, basisLabels]

/-- A row has no identity when everything that would identify its object is `null`. -/
theorem identityOf?_eq_none_iff :
    o.identityOf? row = none ↔ ∀ v ∈ o.identifying row, v.isNull = true := by
  rw [identityOf?, ite_eq_left_iff, ← List.all_eq_true]
  simp only [reduceCtorEq, imp_false, not_not]

/-- The identity of a row is the text of the list of the values. -/
theorem text_of_identityOf? (h : o.identityOf? row = some key) :
    (Json.arr (o.identifying row)).text = key := by
  unfold identityOf? at h
  exact Option.some.inj (Option.ite_none_left_eq_some.mp h).2

/-- Rows with one identity are identified by the same values. -/
theorem identifying_eq_of_identityOf? (hrow : ∀ v ∈ o.identifying row, v.Finite)
    (hrow' : ∀ v ∈ o.identifying row', v.Finite) (h : o.identityOf? row = some key)
    (h' : o.identityOf? row' = some key) : o.identifying row = o.identifying row' := by
  have htexts := (text_of_identityOf? h).trans (text_of_identityOf? h').symm
  exact Json.arr.inj (Json.text_injective (.arr hrow) (.arr hrow') htexts)

/-- Rows that are identified by the same values have one identity. -/
theorem identityOf?_eq_of_identifying (h : o.identifying row = o.identifying row') :
    o.identityOf? row = o.identityOf? row' := by
  rw [identityOf?, identityOf?, h]

/-- The values that identify the object of a row have finite numbers if the row has. -/
theorem finite_identifying (h : row.Finite) : ∀ v ∈ o.identifying row, v.Finite := by
  intro v hv
  rw [identifying_eq] at hv
  obtain ⟨label, _, rfl⟩ := List.mem_map.mp hv
  exact h.value label

/-- The identities of rows tell the values they are made of. -/
structure TellsValues (o : Occurrence) : Prop where
  /-- Rows that are identified by values under the same labels have one identity exactly if these
  values are the same, one by one. -/
  same : ∀ row row' : Row, row.Finite → row'.Finite → o.basis row = o.basis row' →
    ∀ key, o.identityOf? row = some key →
      (o.identityOf? row' = some key
        ↔ ∀ label ∈ o.basisLabels (o.basis row), row.value label = row'.value label)
  /-- A row has no identity exactly if each of these values is `null` or missing. -/
  missing : ∀ row : Row, o.identityOf? row = none
    ↔ ∀ label ∈ o.basisLabels (o.basis row),
        Members.get? row label = none ∨ Members.get? row label = some .null

/-- The identities of rows tell values with any content. -/
theorem tellsValues (o : Occurrence) : o.TellsValues where
  same row row' hrow hrow' hbasis key hkey := by
    have hvalues : o.identifying row = o.identifying row'
        ↔ ∀ label ∈ o.basisLabels (o.basis row), row.value label = row'.value label := by
      rw [identifying_eq, identifying_eq, ← hbasis]
      exact List.map_inj_left
    rw [← hvalues]
    constructor
    · exact identifying_eq_of_identityOf? (finite_identifying hrow) (finite_identifying hrow') hkey
    · intro h
      rw [← identityOf?_eq_of_identifying h, hkey]
  missing row := by
    rw [identityOf?_eq_none_iff, identifying_eq]
    simp only [List.mem_map, forall_exists_index, and_imp, forall_apply_eq_imp_iff₂,
      Row.isNull_value_iff]

/-- An occurrence of a table without primary key that is identified by two columns. -/
def titledPages : Occurrence :=
  ⟨"t0", "PAGE", none, [("TITLE", "t0_k0"), ("PART", "t0_k1")], [], "", []⟩

/-- A row with a title and a part. -/
def titledPage (title part : Json) : Row := [("t0_k0", title), ("t0_k1", part)]

/-- A title that looks like the end of one value and the beginning of another is told apart from these,
and so is a number from its digits. Where title and part are missing there is no object. -/
theorem tellsValues_titledPages :
    titledPages.identityOf? (titledPage (.str "a\",\"b") (.str "c"))
        ≠ titledPages.identityOf? (titledPage (.str "a") (.str "b\",\"c"))
      ∧ titledPages.identityOf? (titledPage (.int 1) .null)
        ≠ titledPages.identityOf? (titledPage (.str "1") .null)
      ∧ titledPages.identityOf? (titledPage .null .null) = none := by
  have hfinite : ∀ {title part : Json}, title.Finite → part.Finite → (titledPage title part).Finite :=
    fun htitle hpart => List.forall_mem_cons.mpr ⟨htitle, List.forall_mem_singleton.mpr hpart⟩
  have htells := tellsValues titledPages
  have htitle : ∀ row row' : Row, row.Finite → row'.Finite →
      titledPages.basis row = .columns → titledPages.basis row' = .columns →
      titledPages.identityOf? row ≠ none →
      titledPages.identityOf? row = titledPages.identityOf? row' →
      row.value "t0_k0" = row'.value "t0_k0" := by
    intro row row' hrow hrow' hbasis hbasis' hsome heq
    obtain ⟨key, hkey⟩ := Option.ne_none_iff_exists'.mp hsome
    have hlabel : "t0_k0" ∈ titledPages.basisLabels (titledPages.basis row) := by
      rw [hbasis]
      decide
    exact (htells.same row row' hrow hrow' (hbasis.trans hbasis'.symm) key hkey).mp
      (heq ▸ hkey) "t0_k0" hlabel
  refine ⟨fun h => ?_, fun h => ?_, ?_⟩
  · have hsame := htitle _ _ (hfinite (.str _) (.str _)) (hfinite (.str _) (.str _)) rfl rfl nofun h
    exact absurd (Json.str.inj hsame) (by decide)
  · have hnumber : (Json.int 1).Finite := .num trivial
    have hsame := htitle _ _ (hfinite hnumber .null) (hfinite (.str _) .null) rfl rfl nofun h
    cases hsame
  · refine (htells.missing _).mpr fun label hlabel => ?_
    rcases List.mem_pair.mp hlabel with rfl | rfl
    · exact Or.inr rfl
    · exact Or.inr rfl

end Occurrence

end TableGraph
