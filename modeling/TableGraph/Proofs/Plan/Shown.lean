import TableGraph.Proofs.Listing
import TableGraph.Proofs.Plan.Forest

/-!
# What rows show

Only the values under the labels of a plan count. Lists of rows that show the same, in the same
order of first appearance or in any order, still do when rows are left out by what they show or when
fewer labels are looked at.
-/

namespace TableGraph

namespace Row

/-- A label found in front counts first. -/
theorem value_append (a b : Row) (label : String) :
    value (a ++ b) label = if label ∈ Members.names a then value a label else value b label := by
  unfold value
  rw [Members.get?_append]
  by_cases h : label ∈ Members.names a
  · rw [if_pos h]
    cases hg : Members.get? a label with
    | none => exact absurd h (Members.get?_eq_none_iff.mp hg)
    | some v => rfl
  · rw [if_neg h, Members.get?_eq_none_iff.mpr h, Option.none_or]

/-- The values under labels; other labels are not looked at. -/
def shown (labels : List String) (row : Row) : String → Json :=
  fun label => if label ∈ labels then value row label else .null

/-- What is shown under a label that is looked at. -/
@[simp]
theorem shown_of_mem {labels : List String} {label : String} (h : label ∈ labels) (row : Row) :
    shown labels row label = value row label := if_pos h

/-- Of what is shown, fewer labels may be looked at. -/
theorem shown_narrow {labels fewer : List String} (h : fewer ⊆ labels) (row : Row) :
    shown fewer row = fun label => if label ∈ fewer then shown labels row label else .null := by
  funext label
  by_cases hl : label ∈ fewer
  · simp [hl, h hl]
  · simp [shown, hl]

/-- The front part of a row shows all its labels. -/
theorem shown_append_left {labels : List String} {a : Row} (h : Members.names a = labels)
    (b : Row) :
    shown labels (a ++ b) = shown labels a := by
  funext label
  by_cases hl : label ∈ labels
  · simp [hl, value_append, h]
  · simp [shown, hl]

/-- The back part of a row shows the labels that the front part does not have. -/
theorem shown_append_right {labels : List String} {a : Row}
    (h : ∀ label ∈ labels, label ∉ Members.names a) (b : Row) :
    shown labels (a ++ b) = shown labels b := by
  funext label
  by_cases hl : label ∈ labels
  · simp [hl, value_append, h label hl]
  · simp [shown, hl]

/-- A row in which each label has one value. -/
def Consistent (row : Row) : Prop := ∀ x ∈ row, value row x.1 = x.2

/-- Under different labels each has one value. -/
theorem consistent_of_nodup {row : Row} (h : (Members.names row).Nodup) : Consistent row := by
  intro x hx
  rw [value, Members.get?_of_mem h hx]
  rfl

/-- The value under a label of a row is there. -/
theorem mem_of_mem_names {row : Row} {label : String} (h : label ∈ Members.names row) :
    (label, value row label) ∈ row := by
  unfold value
  cases hg : Members.get? row label with
  | none => exact absurd h (Members.get?_eq_none_iff.mp hg)
  | some v => exact Members.mem_of_get? hg

/-- In the front part of a row each label has one value if it has in the row. -/
theorem Consistent.left {a b : Row} (h : Consistent (a ++ b)) : Consistent a := by
  intro x hx
  have hv := h x (List.mem_append_left _ hx)
  have hname : x.1 ∈ Members.names a := List.mem_map_of_mem hx
  simpa [value_append, hname] using hv

/-- A label that is in the back part of a row has the value it has there. -/
theorem Consistent.value_right {a b : Row} (h : Consistent (a ++ b)) {label : String}
    (hl : label ∈ Members.names b) : value (a ++ b) label = value b label :=
  h _ (List.mem_append_right _ (mem_of_mem_names hl))

/-- In the back part of a row each label has one value if it has in the row. -/
theorem Consistent.right {a b : Row} (h : Consistent (a ++ b)) : Consistent b := by
  intro x hx
  rw [← h.value_right (List.mem_map_of_mem hx)]
  exact h x (List.mem_append_right _ hx)

/-- The back part of a row shows all its labels where each has one value. -/
theorem Consistent.shown_right {labels : List String} {a b : Row} (h : Consistent (a ++ b))
    (hb : Members.names b = labels) : shown labels (a ++ b) = shown labels b := by
  funext label
  by_cases hl : label ∈ labels
  · simp [hl, h.value_right (hb ▸ hl)]
  · simp [shown, hl]

/-- Lists of rows that show the same under labels, in whatever order and however often. -/
def SameShown (labels : List String) (xs ys : List Row) : Prop :=
  ∀ view, view ∈ xs.map (shown labels) ↔ view ∈ ys.map (shown labels)

open Classical in
/-- Lists of rows that show the same under labels, in the same order of first appearance. -/
def SameFirsts (labels : List String) (xs ys : List Row) : Prop :=
  distinctBy id (xs.map (shown labels)) = distinctBy id (ys.map (shown labels))

/-- What appears in the same order is the same. -/
theorem SameFirsts.sameShown {labels : List String} {xs ys : List Row}
    (h : SameFirsts labels xs ys) : SameShown labels xs ys := by
  classical
  exact fun view => mem_iff_of_distinctBy_eq h view

/-- What shows the same as the same rows shows the same. -/
theorem SameShown.trans {labels : List String} {xs ys zs : List Row} (h : SameShown labels xs ys)
    (h' : SameShown labels ys zs) : SameShown labels xs zs := fun view => (h view).trans (h' view)

/-- What shows the same as the same rows, in the same order, shows the same in the same order. -/
theorem SameFirsts.trans {labels : List String} {xs ys zs : List Row}
    (h : SameFirsts labels xs ys) (h' : SameFirsts labels ys zs) : SameFirsts labels xs zs := by
  unfold SameFirsts at *
  rw [h, h']

section

variable {labels fewer : List String} {q : Row → Bool} (q' : (String → Json) → Bool)

/-- Rows chosen by what they show, looked at under fewer labels, by what all rows show. -/
theorem map_shown_filter (hf : fewer ⊆ labels) (hq : ∀ row, q row = q' (shown labels row))
    (xs : List Row) :
    (xs.filter q).map (shown fewer)
      = (xs.map (shown labels)).filterMap fun view =>
          if q' view then some fun label => if label ∈ fewer then view label else .null
          else none := by
  induction xs with
  | nil => rfl
  | cons x xs ih =>
    simp only [List.map_cons, List.filterMap_cons, ← hq x]
    by_cases hx : q x = true
    · rw [List.filter_cons_of_pos hx, List.map_cons, ih, shown_narrow hf x]
      simp only [hx, if_true]
    · rw [List.filter_cons_of_neg hx, ih]
      simp only [hx, Bool.false_eq_true, if_false]

/-- Rows that show the same still do when rows are chosen by what they show. -/
theorem SameShown.filter (hf : fewer ⊆ labels) (hq : ∀ row, q row = q' (shown labels row))
    {xs ys : List Row} (h : SameShown labels xs ys) :
    SameShown fewer (xs.filter q) (ys.filter q) := by
  intro view
  rw [map_shown_filter q' hf hq, map_shown_filter q' hf hq, List.mem_filterMap, List.mem_filterMap]
  simp only [h _]

/-- Rows that show the same in the same order still do when rows are chosen by what they show. -/
theorem SameFirsts.filter (hf : fewer ⊆ labels) (hq : ∀ row, q row = q' (shown labels row))
    {xs ys : List Row} (h : SameFirsts labels xs ys) :
    SameFirsts fewer (xs.filter q) (ys.filter q) := by
  classical
  unfold SameFirsts at h ⊢
  rw [map_shown_filter q' hf hq, map_shown_filter q' hf hq]
  exact distinctBy_filterMap_congr _ h

/-- Rows that show the same still do under fewer labels. -/
theorem SameShown.narrow (hf : fewer ⊆ labels) {xs ys : List Row} (h : SameShown labels xs ys) :
    SameShown fewer xs ys := by
  have hall := h.filter (fun _ => true) hf fun _ => rfl
  simpa only [List.filter_true] using hall

/-- Rows that show the same in the same order still do under fewer labels. -/
theorem SameFirsts.narrow (hf : fewer ⊆ labels) {xs ys : List Row} (h : SameFirsts labels xs ys) :
    SameFirsts fewer xs ys := by
  have hall := h.filter (fun _ => true) hf fun _ => rfl
  simpa only [List.filter_true] using hall

end

/-- The rows of a product, looked at under the labels of the first factor. -/
theorem sameFirsts_product_left {labels : List String} {as bs : List Row}
    (ha : ∀ a ∈ as, Members.names a = labels) (hb : bs ≠ []) :
    SameFirsts labels (as.flatMap fun a => bs.map fun b => a ++ b) as := by
  classical
  have hm : (as.flatMap fun a => bs.map fun b => a ++ b).map (shown labels)
      = as.flatMap fun a => List.replicate bs.length (shown labels a) := by
    rw [List.map_flatMap]
    apply List.flatMap_congr
    intro a hmem
    rw [List.map_map, List.eq_replicate_iff]
    refine ⟨by rw [List.length_map], ?_⟩
    intro view hview
    obtain ⟨b, _, rfl⟩ := List.mem_map.mp hview
    exact shown_append_left (ha a hmem) b
  unfold SameFirsts distinctBy
  rw [hm]
  apply distinctFrom_replicate
  intro _ _
  exact List.length_pos_iff.mpr hb

/-- The rows of a product, looked at under labels that the first factor does not have. -/
theorem sameFirsts_product_right {labels : List String} {as bs : List Row}
    (ha : ∀ a ∈ as, ∀ label ∈ labels, label ∉ Members.names a) (hn : as ≠ []) :
    SameFirsts labels (as.flatMap fun a => bs.map fun b => a ++ b) bs := by
  classical
  have hm : (as.flatMap fun a => bs.map fun b => a ++ b).map (shown labels)
      = as.flatMap fun _ => bs.map (shown labels) := by
    rw [List.map_flatMap]
    apply List.flatMap_congr
    intro a hmem
    rw [List.map_map]
    apply List.map_congr_left
    intro b _
    exact shown_append_right (ha a hmem) b
  unfold SameFirsts
  rw [hm]
  exact distinctBy_flatMap_const _ hn

end Row

end TableGraph
