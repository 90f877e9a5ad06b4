import Mathlib.Data.List.Basic
import TableGraph.Annotation.Basic

/-!
# Annotations laid over tables

Annotations are laid one after another, each over the first table of its name and there over the
first column of each identity. All of them together change just these firsts: the first item with a
key takes what the annotations with the key make of it, and no other item changes. Of the annotations
with one key the last one tells the key words and groups, whatever they were before. So where
annotations have been laid once, laying them again changes nothing.
-/

namespace TableGraph

section

variable {α β κ : Type}

/-- Lists of the same length, related place by place: an item to the one in its place, given the items
that stand before it. -/
structure PlaceByPlace (R : List α → α → α → Prop) (xs ys : List α) : Prop where
  /-- There are as many items. -/
  length : ys.length = xs.length
  /-- Items in the same place are related. -/
  related : ∀ i x y, xs[i]? = some x → ys[i]? = some y → R (xs.take i) x y

/-- What is related place by place is so by any wider relation. -/
theorem PlaceByPlace.imp {R S : List α → α → α → Prop} {xs ys : List α} (h : PlaceByPlace R xs ys)
    (hRS : ∀ before x y, R before x y → S before x y) : PlaceByPlace S xs ys :=
  ⟨h.length, fun i x y hx hy => hRS _ x y (h.related i x y hx hy)⟩

variable [DecidableEq κ]

/-- Changes each item that is the first with its key, if the key has not been seen. -/
def mapFirsts (key : α → κ) (change : α → α) (seen : List κ) : List α → List α
  | [] => []
  | x :: xs => (if key x ∈ seen then x else change x) :: mapFirsts key change (key x :: seen) xs

variable {key : α → κ} {change : α → α}

/-- Only the changes of items whose keys have not been seen count. -/
theorem mapFirsts_congr {change' : α → α} {seen : List κ} {xs : List α}
    (h : ∀ x ∈ xs, key x ∉ seen → change x = change' x) :
    mapFirsts key change seen xs = mapFirsts key change' seen xs := by
  induction xs generalizing seen with
  | nil => rfl
  | cons x xs ih =>
    have hhead : (if key x ∈ seen then x else change x)
        = if key x ∈ seen then x else change' x := by
      by_cases hx : key x ∈ seen
      · rw [if_pos hx, if_pos hx]
      · rw [if_neg hx, if_neg hx, h x List.mem_cons_self hx]
    rw [mapFirsts, mapFirsts, hhead, ih]
    intro y hy hkey
    exact h y (List.mem_cons_of_mem _ hy) fun hseen => hkey (List.mem_cons_of_mem _ hseen)

/-- Items that are changed to themselves stay. -/
@[simp]
theorem mapFirsts_self (key : α → κ) (seen : List κ) (xs : List α) :
    mapFirsts key (fun x => x) seen xs = xs := by
  induction xs generalizing seen with
  | nil => rfl
  | cons x xs ih => rw [mapFirsts, ih, ite_self]

/-- The first item with one key, changed beforehand, is changed further with the others. -/
theorem mapFirsts_updateFirst {first : α → α} (hfirst : ∀ x, key (first x) = key x) {k : κ}
    {seen : List κ} (hk : k ∉ seen) (xs : List α) :
    mapFirsts key change seen (updateFirst (fun x => key x = k) first xs)
      = mapFirsts key (fun x => change (if key x = k then first x else x)) seen xs := by
  induction xs generalizing seen with
  | nil => rfl
  | cons x xs ih =>
    rw [updateFirst]
    by_cases hx : key x = k
    · have hseen : key x ∉ seen := fun h => hk (hx ▸ h)
      rw [if_pos (decide_eq_true hx), mapFirsts, mapFirsts, hfirst, if_neg hseen, if_neg hseen,
        if_pos hx]
      congr 1
      refine mapFirsts_congr fun y _ hy => ?_
      rw [if_neg fun he : key y = k => hy (List.mem_cons.mpr (Or.inl (he.trans hx.symm)))]
    · have hk' : k ∉ key x :: seen := by
        rw [List.mem_cons, not_or]
        exact ⟨Ne.symm hx, hk⟩
      rw [if_neg (by simpa using hx), mapFirsts, mapFirsts, ih hk', if_neg hx]

/-- Changes of first items, made one after another, change each first item once: by all changes for
its key. -/
theorem foldl_updateFirst (key : α → κ) (label : β → κ) (lay : β → α → α)
    (hkey : ∀ b x, key (lay b x) = key x) (bs : List β) (xs : List α) :
    bs.foldl (fun xs b => updateFirst (fun x => key x = label b) (lay b) xs) xs
      = mapFirsts key (fun x => (bs.filter fun b => label b = key x).foldl (fun x b => lay b x) x) []
          xs := by
  induction bs generalizing xs with
  | nil => simp
  | cons b bs ih =>
    rw [List.foldl_cons, ih, mapFirsts_updateFirst (hkey b) List.not_mem_nil]
    refine mapFirsts_congr fun x _ _ => ?_
    by_cases hx : key x = label b
    · have hfilter : (b :: bs).filter (fun b => label b = key x)
          = b :: bs.filter fun b => label b = key x :=
        List.filter_cons_of_pos (decide_eq_true hx.symm)
      rw [if_pos hx, hkey, hfilter, List.foldl_cons]
    · have hfilter : (b :: bs).filter (fun b => label b = key x)
          = bs.filter fun b => label b = key x :=
        List.filter_cons_of_neg (by simpa using Ne.symm hx)
      rw [if_neg hx, hfilter]

/-- What stands in a place after first items have been changed. -/
theorem getElem?_mapFirsts (seen : List κ) (xs : List α) (i : Nat) :
    (mapFirsts key change seen xs)[i]?
      = xs[i]?.map fun x => if key x ∈ (xs.take i).map key ++ seen then x else change x := by
  induction xs generalizing seen i with
  | nil => rfl
  | cons x xs ih =>
    rw [mapFirsts]
    cases i with
    | zero => rfl
    | succ i =>
      rw [List.getElem?_cons_succ, List.getElem?_cons_succ, ih]
      refine congrArg (xs[i]?.map ·) (funext fun y => ?_)
      have hmem : key y ∈ (xs.take i).map key ++ key x :: seen
          ↔ key y ∈ ((x :: xs).take (i + 1)).map key ++ seen := by
        simp only [List.take_succ_cons, List.map_cons, List.mem_append, List.mem_cons]
        tauto
      simp only [hmem]

/-- Changing first items keeps the number of items. -/
@[simp]
theorem length_mapFirsts (seen : List κ) (xs : List α) :
    (mapFirsts key change seen xs).length = xs.length := by
  induction xs generalizing seen with
  | nil => rfl
  | cons x xs ih => rw [mapFirsts, List.length_cons, List.length_cons, ih]

/-- First items are changed in their places, and what is not the first of its key stays. -/
theorem placeByPlace_mapFirsts (key : α → κ) (change : α → α) (xs : List α) :
    PlaceByPlace (fun before x y => y = if key x ∈ before.map key then x else change x) xs
      (mapFirsts key change [] xs) := by
  refine ⟨length_mapFirsts [] xs, fun i x y hx hy => ?_⟩
  rw [getElem?_mapFirsts, hx, Option.map_some, List.append_nil] at hy
  exact (Option.some.inj hy).symm

/-- First items that are changed to what a further change leaves are changed just once. -/
theorem mapFirsts_mapFirsts (hkey : ∀ x, key (change x) = key x)
    (hchange : ∀ x, change (change x) = change x) (seen : List κ) (xs : List α) :
    mapFirsts key change seen (mapFirsts key change seen xs) = mapFirsts key change seen xs := by
  induction xs generalizing seen with
  | nil => rfl
  | cons x xs ih =>
    rw [mapFirsts]
    by_cases hx : key x ∈ seen
    · rw [if_pos hx, mapFirsts, if_pos hx, ih]
    · rw [if_neg hx, mapFirsts, hkey, if_neg hx, hchange, ih]

end

section

/-- The column with the key words and groups of an annotation. -/
def FieldAnnotation.lay (a : FieldAnnotation) (f : Field) : Field :=
  { f with indices := a.indices, refs := a.refs }

/-- The column with the key words and groups of the last annotation of it. -/
def Field.overlay (notes : List FieldAnnotation) (f : Field) : Field :=
  (notes.filter fun a => a.id = f.id).getLast?.elim f (·.lay f)

/-- The table with an annotation of it laid over it. -/
def TableAnnotation.lay (a : TableAnnotation) (t : Table) : Table :=
  { t with indices := a.indices, fields := a.fields.foldl FieldAnnotation.applyTo t.fields }

/-- The annotations of columns among the annotations of a table. -/
def Table.columnNotes (annotations : List TableAnnotation) (t : Table) : List FieldAnnotation :=
  (annotations.filter fun a => a.name = t.name).flatMap (·.fields)

/-- The table with the key words of the last annotation of it and with all annotations of its
columns. -/
def Table.overlay (annotations : List TableAnnotation) (t : Table) : Table :=
  { t with
    indices := (annotations.filter fun a => a.name = t.name).getLast?.elim t.indices (·.indices)
    fields := mapFirsts (·.id) (Field.overlay (Table.columnNotes annotations t)) [] t.fields }

/-- Of annotations laid over a column the last one counts. -/
theorem Field.foldl_lay (notes : List FieldAnnotation) (f : Field) :
    notes.foldl (fun f a => a.lay f) f = notes.getLast?.elim f (·.lay f) := by
  induction notes generalizing f with
  | nil => rfl
  | cons a notes ih =>
    rw [List.foldl_cons, ih, List.getLast?_cons]
    cases notes.getLast? <;> rfl

/-- Annotations laid over columns change the first column of each identity. -/
theorem Field.foldl_applyTo (notes : List FieldAnnotation) (fields : List Field) :
    notes.foldl FieldAnnotation.applyTo fields
      = mapFirsts (·.id) (Field.overlay notes) [] fields := by
  have hfold := foldl_updateFirst Field.id FieldAnnotation.id FieldAnnotation.lay
    (fun _ _ => rfl) notes fields
  simp only [foldl_lay] at hfold
  exact hfold

/-- Of annotations laid over a table the last one tells the key words, and all of them tell of the
columns. -/
theorem Table.foldl_lay (annotations : List TableAnnotation) (t : Table) :
    annotations.foldl (fun t a => a.lay t) t
      = { t with
          indices := annotations.getLast?.elim t.indices (·.indices)
          fields := (annotations.flatMap (·.fields)).foldl FieldAnnotation.applyTo t.fields } := by
  induction annotations generalizing t with
  | nil => rfl
  | cons a annotations ih =>
    rw [List.foldl_cons, ih, List.getLast?_cons, List.flatMap_cons, List.foldl_append]
    cases annotations.getLast? <;> rfl

/-- Annotations laid over tables change the first table of each name. -/
theorem Table.annotate_eq (tables : List Table) (annotations : List TableAnnotation) :
    Table.annotate tables annotations
      = mapFirsts (·.name) (Table.overlay annotations) [] tables := by
  have hfold := foldl_updateFirst Table.name TableAnnotation.name TableAnnotation.lay
    (fun _ _ => rfl) annotations tables
  simp only [foldl_lay, Field.foldl_applyTo] at hfold
  exact hfold

variable (notes : List FieldAnnotation) (annotations : List TableAnnotation)

/-- Annotations leave the identity of a column. -/
@[simp]
theorem Field.id_overlay (f : Field) : (overlay notes f).id = f.id := by
  unfold overlay
  cases (notes.filter fun a => a.id = f.id).getLast? <;> rfl

/-- The last annotation of a column is laid over it just once. -/
@[simp]
theorem Field.overlay_overlay (f : Field) : overlay notes (overlay notes f) = overlay notes f := by
  rw [overlay, id_overlay, overlay]
  cases (notes.filter fun a => a.id = f.id).getLast? <;> rfl

/-- The annotations of a table are laid over it just once. -/
@[simp]
theorem Table.overlay_overlay (t : Table) :
    overlay annotations (overlay annotations t) = overlay annotations t := by
  have hindices : ∀ last : Option TableAnnotation,
      last.elim (last.elim t.indices (·.indices)) (·.indices) = last.elim t.indices (·.indices) := by
    intro last
    cases last <;> rfl
  have hfields := mapFirsts_mapFirsts (Field.id_overlay (Table.columnNotes annotations t))
    (Field.overlay_overlay _) [] t.fields
  exact congrArg₂ (fun indices fields => { t with indices, fields }) (hindices _) hfields

/-- What annotations of columns may make of a column that stands behind others. -/
structure Field.Annotated (notes : List FieldAnnotation) (before : List Field) (f g : Field) :
    Prop where
  /-- All but the key words and groups is left. -/
  kept : g = { f with indices := g.indices, refs := g.refs }
  /-- A column behind another one of its identity is left, and so is one without annotations. -/
  untouched : (∃ e ∈ before, e.id = f.id) ∨ (∀ a ∈ notes, a.id ≠ f.id) → g = f
  /-- The first column of its identity has the key words and groups of its last annotation. -/
  laid : (∀ e ∈ before, e.id ≠ f.id) → ∀ a ∈ (notes.filter fun a => a.id = f.id).getLast?,
    g.indices = a.indices ∧ g.refs = a.refs

/-- What annotations of tables may make of a table that stands behind others. -/
structure Table.Annotated (annotations : List TableAnnotation) (before : List Table) (t u : Table) :
    Prop where
  /-- All but the key words and columns is left. -/
  kept : u = { t with indices := u.indices, fields := u.fields }
  /-- A table behind another one of its name is left, and so is one without annotations. -/
  untouched : (∃ e ∈ before, e.name = t.name) ∨ (∀ a ∈ annotations, a.name ≠ t.name) → u = t
  /-- The first table of its name has the key words of its last annotation. -/
  laid : (∀ e ∈ before, e.name ≠ t.name) →
    ∀ a ∈ (annotations.filter fun a => a.name = t.name).getLast?, u.indices = a.indices
  /-- Its columns are what all annotations of it make of them. -/
  columns : (∀ e ∈ before, e.name ≠ t.name) →
    PlaceByPlace (Field.Annotated (Table.columnNotes annotations t)) t.fields u.fields

/-- A column takes its last annotation where it is the first of its identity. -/
theorem Field.annotated_overlay (notes : List FieldAnnotation) {before : List Field} {f g : Field}
    (h : g = if f.id ∈ before.map (·.id) then f else overlay notes f) :
    f.Annotated notes before g := by
  by_cases hseen : f.id ∈ before.map (·.id)
  · rw [if_pos hseen] at h
    subst h
    obtain ⟨e, he, hid⟩ := List.mem_map.mp hseen
    exact ⟨rfl, fun _ => rfl, fun hfirst => absurd hid (hfirst e he)⟩
  · rw [if_neg hseen] at h
    refine ⟨?_, ?_, fun _ a ha => ?_⟩
    · rw [h, overlay]
      cases (notes.filter fun a => a.id = f.id).getLast? <;> rfl
    · rintro (⟨e, he, hid⟩ | hnone)
      · exact absurd (List.mem_map.mpr ⟨e, he, hid⟩) hseen
      · have hempty : (notes.filter fun a => a.id = f.id) = [] :=
          List.filter_eq_nil_iff.mpr fun a ha => by simpa using hnone a ha
        rw [h, overlay, hempty]
        rfl
    · rw [h, overlay, Option.mem_def.mp ha]
      exact ⟨rfl, rfl⟩

/-- A table takes its annotations where it is the first of its name. -/
theorem Table.annotated_overlay (annotations : List TableAnnotation) {before : List Table}
    {t u : Table} (h : u = if t.name ∈ before.map (·.name) then t else overlay annotations t) :
    t.Annotated annotations before u := by
  by_cases hseen : t.name ∈ before.map (·.name)
  · rw [if_pos hseen] at h
    subst h
    obtain ⟨e, he, hname⟩ := List.mem_map.mp hseen
    exact ⟨rfl, fun _ => rfl, fun hfirst => absurd hname (hfirst e he),
      fun hfirst => absurd hname (hfirst e he)⟩
  · rw [if_neg hseen] at h
    refine ⟨by rw [h, overlay], ?_, fun _ a ha => ?_, fun _ => ?_⟩
    · rintro (⟨e, he, hname⟩ | hnone)
      · exact absurd (List.mem_map.mpr ⟨e, he, hname⟩) hseen
      · have hempty : (annotations.filter fun a => a.name = t.name) = [] :=
          List.filter_eq_nil_iff.mpr fun a ha => by simpa using hnone a ha
        have hself : Field.overlay [] = fun f => f := rfl
        simp [h, overlay, Table.columnNotes, hempty, hself]
    · rw [h, overlay, Option.mem_def.mp ha]
      rfl
    · rw [h]
      exact (placeByPlace_mapFirsts _ _ t.fields).imp fun _ _ _ hg => Field.annotated_overlay _ hg

/-- Annotations change the first table of each name and there the first column of each identity, and
these only in their key words and groups; the last annotation counts. Laying the same annotations over
the tables again changes nothing. -/
theorem Table.annotate_annotated (tables : List Table) (annotations : List TableAnnotation) :
    PlaceByPlace (Table.Annotated annotations) tables (annotate tables annotations)
      ∧ annotate (annotate tables annotations) annotations = annotate tables annotations := by
  constructor
  · rw [annotate_eq]
    exact (placeByPlace_mapFirsts _ _ tables).imp fun _ _ _ hu => annotated_overlay annotations hu
  · have hname : ∀ t : Table, (overlay annotations t).name = t.name := fun _ => rfl
    rw [annotate_eq, annotate_eq]
    exact mapFirsts_mapFirsts hname (overlay_overlay annotations) [] tables

/-- Two tables of one name, the first with two columns of one identity. -/
def twinTables : List Table :=
  [⟨"A", "CITY", ["old"], [.plain "CITY" "NAME" .string, .plain "CITY" "NAME" .int]⟩,
    ⟨"B", "CITY", [], [.plain "CITY" "NAME" .string]⟩]

/-- Annotations of one table and column that come twice, and one of a table that is not there. -/
def repeatedNotes : List TableAnnotation :=
  [⟨"CITY", ["town"], [⟨"CITY_NAME", ["name"], [⟨.number 1, none, []⟩]⟩]⟩,
    ⟨"RIVER", ["water"], []⟩,
    ⟨"CITY", ["place"], [⟨"CITY_NAME", ["label"], []⟩]⟩]

/-- Only the first column of the first table is annotated, by what comes last, and the same annotations
do not change it again. -/
theorem Table.annotated_twinTables :
    let annotated : List Table :=
      [⟨"A", "CITY", ["place"],
          [{ Field.plain "CITY" "NAME" .string with indices := ["label"] },
            .plain "CITY" "NAME" .int]⟩,
        ⟨"B", "CITY", [], [.plain "CITY" "NAME" .string]⟩]
    PlaceByPlace (Table.Annotated repeatedNotes) twinTables annotated
      ∧ annotate annotated repeatedNotes = annotated := by
  intro annotated
  have hannotate : annotate twinTables repeatedNotes = annotated := by decide
  have h := annotate_annotated twinTables repeatedNotes
  rwa [hannotate] at h

end

end TableGraph
