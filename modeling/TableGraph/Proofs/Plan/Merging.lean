import TableGraph.Plan.Selection

/-!
# Merged selections

A merged list starts with its first field, with everything below all fields under its response key,
followed by the merged fields under the other response keys.
-/

namespace TableGraph.Selection

/-- More fields below leave the response key as it is. -/
@[simp]
theorem responseKey_extend (more : List Selection) :
    ∀ s : Selection, (s.extend more).responseKey = s.responseKey
  | .field _ _ _ _ => rfl

/-- More fields below leave the name as it is. -/
@[simp]
theorem name_extend (more : List Selection) : ∀ s : Selection, (s.extend more).name = s.name
  | .field _ _ _ _ => rfl

/-- More fields below leave the arguments as they are. -/
@[simp]
theorem args_extend (more : List Selection) : ∀ s : Selection, (s.extend more).args = s.args
  | .field _ _ _ _ => rfl

/-- More fields come behind the fields below. -/
@[simp]
theorem children_extend (more : List Selection) :
    ∀ s : Selection, (s.extend more).children = s.children ++ more
  | .field _ _ _ _ => rfl

/-- Nothing more below changes nothing. -/
@[simp]
theorem extend_nil : ∀ s : Selection, s.extend [] = s
  | .field name rename args children => by simp [extend]

/-- More fields below, and then more again. -/
@[simp]
theorem extend_extend (more more' : List Selection) :
    ∀ s : Selection, (s.extend more).extend more' = s.extend (more ++ more')
  | .field name rename args children => by simp [extend]

/-- A field without what is below it gets it back. -/
@[simp]
theorem extend_bare : ∀ s : Selection, s.bare.extend s.children = s
  | .field _ _ _ _ => rfl

/-- Nothing merged before, the field is the first. -/
@[simp]
theorem mergeInto_nil (s : Selection) : mergeInto [] s = [s] := by
  simp [mergeInto, upsert]

/-- Merging meets the first merged field first. -/
theorem mergeInto_cons (e : Selection) (merged : List Selection) (s : Selection) :
    mergeInto (e :: merged) s
      = if e.responseKey = s.responseKey then e.extend s.children :: merged
        else e :: mergeInto merged s := by
  simp [mergeInto, upsert]

/-- The fields of a list under a response key. -/
def withKey (key : String) (ss : List Selection) : List Selection :=
  ss.filter fun s => s.responseKey = key

/-- The fields of a list under other response keys. -/
def withoutKey (key : String) (ss : List Selection) : List Selection :=
  ss.filter fun s => s.responseKey ≠ key

/-- The first merged field takes what is below the fields under its response key. -/
theorem foldl_mergeInto_cons (e : Selection) (merged ss : List Selection) :
    ss.foldl mergeInto (e :: merged)
      = e.extend ((withKey e.responseKey ss).flatMap children)
        :: (withoutKey e.responseKey ss).foldl mergeInto merged := by
  induction ss generalizing e merged with
  | nil => simp [withKey, withoutKey]
  | cons s ss ih =>
    by_cases hk : e.responseKey = s.responseKey
    · simp [mergeInto_cons, ih, withKey, withoutKey, hk]
    · simp [mergeInto_cons, ih, withKey, withoutKey, hk, Ne.symm hk]

/-- A merged list by its first field. -/
theorem merge_cons (s : Selection) (ss : List Selection) :
    merge (s :: ss)
      = s.extend ((withKey s.responseKey ss).flatMap children)
        :: merge (withoutKey s.responseKey ss) := by
  simp [merge, foldl_mergeInto_cons]

/-- There are fewer fields under other response keys than the first one's. -/
theorem length_withoutKey_lt (t : Selection) (ss : List Selection) :
    (withoutKey t.responseKey ss).length < (t :: ss).length := by
  have hle := List.length_filter_le (fun s => decide (s.responseKey ≠ t.responseKey)) ss
  rw [List.length_cons, withoutKey]
  omega

/-- What holds without fields, and of a field and others if it holds of those under other response
keys, holds of all fields: the first response key is merged, and then the others. -/
theorem merge_induction {P : List Selection → Prop} (nil : P [])
    (cons : ∀ t ss, P (withoutKey t.responseKey ss) → P (t :: ss)) (ss : List Selection) : P ss := by
  induction hn : ss.length using Nat.strongRecOn generalizing ss with
  | _ n ih =>
    subst hn
    cases ss with
    | nil => exact nil
    | cons t ss => exact cons t ss (ih _ (length_withoutKey_lt t ss) _ rfl)

/-- Merged fields stand under response keys that were there. -/
theorem responseKey_mem_of_merge {ss : List Selection} {s : Selection} (h : s ∈ merge ss) :
    s.responseKey ∈ ss.map responseKey := by
  induction ss using merge_induction with
  | nil => exact absurd h List.not_mem_nil
  | cons t ss ih =>
    rw [merge_cons, List.mem_cons] at h
    rw [List.map_cons, List.mem_cons]
    rcases h with rfl | h
    · simp
    · obtain ⟨u, hu, he⟩ := List.mem_map.mp (ih h)
      exact Or.inr (List.mem_map.mpr ⟨u, (List.mem_filter.mp hu).1, he⟩)

/-- Merged fields stand under different response keys. -/
theorem nodup_responseKeys_merge (ss : List Selection) : ((merge ss).map responseKey).Nodup := by
  induction ss using merge_induction with
  | nil => exact List.nodup_nil
  | cons s ss ih =>
    rw [merge_cons, List.map_cons, responseKey_extend, List.nodup_cons]
    refine ⟨fun hmem => ?_, ih⟩
    obtain ⟨t, ht, he⟩ := List.mem_map.mp hmem
    obtain ⟨u, hu, hkey⟩ := List.mem_map.mp (responseKey_mem_of_merge ht)
    have hother := (List.mem_filter.mp hu).2
    simp only [decide_eq_true_eq] at hother
    exact hother (hkey.trans he)

/-- What is selected below all fields under the response key of a field. -/
def gathered (ss : List Selection) (s : Selection) : List Selection :=
  (withKey s.responseKey ss).flatMap children

/-- What is selected below the other response keys does not change with the fields under one. -/
theorem gathered_withoutKey {t u : Selection} (hne : u.responseKey ≠ t.responseKey)
    (ss : List Selection) : gathered (withoutKey t.responseKey ss) u = gathered (t :: ss) u := by
  have hsame : withKey u.responseKey (withoutKey t.responseKey ss) = withKey u.responseKey ss := by
    rw [withKey, withoutKey, List.filter_filter]
    refine List.filter_congr fun v _ => ?_
    by_cases hv : v.responseKey = u.responseKey
    · simp [hv, hne]
    · simp [hv]
  have hcons : withKey u.responseKey (t :: ss) = withKey u.responseKey ss :=
    List.filter_cons_of_neg (by simpa using fun h => hne h.symm)
  rw [gathered, gathered, hsame, hcons]

/-- A merged field is one of the fields, with everything below all those under its response key. -/
theorem exists_of_mem_merge {ss : List Selection} {s : Selection} (h : s ∈ merge ss) :
    ∃ t ∈ ss, s = t.bare.extend (gathered ss t) := by
  induction ss using merge_induction with
  | nil => cases h
  | cons t ss ih =>
    rw [merge_cons, List.mem_cons] at h
    rcases h with rfl | h
    · refine ⟨t, List.mem_cons_self, ?_⟩
      have hcons : withKey t.responseKey (t :: ss) = t :: withKey t.responseKey ss :=
        List.filter_cons_of_pos (decide_eq_true rfl)
      rw [gathered, hcons, List.flatMap_cons, ← extend_extend, extend_bare]
    · obtain ⟨u, hu, he⟩ := ih h
      obtain ⟨hmem, hkey⟩ := List.mem_filter.mp hu
      rw [gathered_withoutKey (of_decide_eq_true hkey)] at he
      exact ⟨u, List.mem_cons_of_mem _ hmem, he⟩

/-- Every response key stands in the merged list. -/
theorem exists_merged {ss : List Selection} {s : Selection} (h : s ∈ ss) :
    ∃ t ∈ merge ss, t.responseKey = s.responseKey := by
  induction ss using merge_induction with
  | nil => cases h
  | cons t ss ih =>
    rw [merge_cons]
    by_cases hkey : s.responseKey = t.responseKey
    · exact ⟨_, List.mem_cons_self, by simp [hkey]⟩
    · have hmem : s ∈ withoutKey t.responseKey ss := by
        rcases List.mem_cons.mp h with rfl | h
        · exact absurd rfl hkey
        · exact List.mem_filter.mpr ⟨h, decide_eq_true hkey⟩
      obtain ⟨u, hu, he⟩ := ih hmem
      exact ⟨u, List.mem_cons_of_mem _ hu, he⟩

/-- The fields selected of rows of two lists. -/
theorem ofRows_flatMap {α : Type} (f : α → List Selection) (xs : List α) :
    ofRows (xs.flatMap f) = xs.flatMap fun x => ofRows (f x) := List.flatMap_assoc

end TableGraph.Selection
