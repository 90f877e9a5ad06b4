import Mathlib.Data.List.Induction
import Mathlib.Data.List.Nodup
import Mathlib.Data.List.Perm.Basic
import TableGraph.Listing

/-!
# Lists in the order of first appearance

Thinning a list out to the first of equal items, and collecting items under their keys. What is
thinned out may be thinned out before or after items are looked at, and a list collected under keys
is the list of its keys, each with the items that have it.
-/

namespace TableGraph

/-- What is related to an item of a list stands in the list beside it. -/
theorem exists_of_mem_forall₂ {α β : Type} {R : α → β → Prop} {xs : List α} {ys : List β}
    (h : List.Forall₂ R xs ys) {x : α} (hx : x ∈ xs) : ∃ y ∈ ys, R x y := by
  induction h with
  | nil => cases hx
  | cons hxy _ ih =>
    rcases List.mem_cons.mp hx with rfl | hx
    · exact ⟨_, List.mem_cons_self, hxy⟩
    · obtain ⟨y, hy, hr⟩ := ih hx
      exact ⟨y, List.mem_cons_of_mem _ hy, hr⟩

section

variable {α β : Type} [DecidableEq β]

/-- Only membership among the keys seen before counts. -/
theorem distinctFrom_congr (key : α → β) {seen seen' : List β} (h : ∀ b, b ∈ seen ↔ b ∈ seen')
    (xs : List α) : distinctFrom key seen xs = distinctFrom key seen' xs := by
  induction xs generalizing seen seen' with
  | nil => rfl
  | cons x xs ih =>
    unfold distinctFrom
    by_cases hx : key x ∈ seen
    · rw [if_pos hx, if_pos ((h _).mp hx)]
      exact ih h
    · rw [if_neg hx, if_neg fun hx' => hx ((h _).mpr hx')]
      have hs : ∀ b, b ∈ key x :: seen ↔ b ∈ key x :: seen' := by
        intro b
        rw [List.mem_cons, List.mem_cons, h b]
      rw [ih hs]

/-- The second of two lists is thinned out by the keys of the first. -/
theorem distinctFrom_append (key : α → β) (seen : List β) (xs ys : List α) :
    distinctFrom key seen (xs ++ ys)
      = distinctFrom key seen xs ++ distinctFrom key (xs.map key ++ seen) ys := by
  induction xs generalizing seen with
  | nil => rfl
  | cons x xs ih =>
    simp only [List.cons_append, List.map_cons, distinctFrom]
    by_cases hx : key x ∈ seen
    · rw [if_pos hx, if_pos hx, ih]
      congr 1
      apply distinctFrom_congr
      intro b
      simp only [List.mem_append, List.mem_cons]
      constructor
      · intro hb
        exact Or.inr hb
      · rintro (rfl | hb)
        · exact Or.inr hx
        · exact hb
    · rw [if_neg hx, if_neg hx, ih, List.cons_append]
      congr 2
      apply distinctFrom_congr
      intro b
      simp only [List.mem_append, List.mem_cons]
      tauto

/-- Nothing is left of items whose keys have all been seen. -/
theorem distinctFrom_eq_nil {key : α → β} {seen : List β} {xs : List α}
    (h : ∀ x ∈ xs, key x ∈ seen) : distinctFrom key seen xs = [] := by
  induction xs with
  | nil => rfl
  | cons x xs ih =>
    unfold distinctFrom
    rw [if_pos (h x List.mem_cons_self)]
    exact ih fun y hy => h y (List.mem_cons_of_mem _ hy)

/-- A list of items with different keys that have not been seen stays as it is. -/
theorem distinctFrom_of_nodup {key : α → β} {seen : List β} {xs : List α}
    (hn : (xs.map key).Nodup) (hs : ∀ x ∈ xs, key x ∉ seen) : distinctFrom key seen xs = xs := by
  induction xs generalizing seen with
  | nil => rfl
  | cons x xs ih =>
    rw [List.map_cons, List.nodup_cons] at hn
    unfold distinctFrom
    rw [if_neg (hs x List.mem_cons_self)]
    congr 1
    apply ih hn.2
    intro y hy hm
    rcases List.mem_cons.mp hm with he | hm
    · exact hn.1 (he ▸ List.mem_map_of_mem hy)
    · exact hs y (List.mem_cons_of_mem _ hy) hm

/-- What is left of a list stands in the order of the list. -/
theorem distinctFrom_sublist (key : α → β) (seen : List β) (xs : List α) :
    (distinctFrom key seen xs).Sublist xs := by
  induction xs generalizing seen with
  | nil => exact List.Sublist.refl _
  | cons x xs ih =>
    unfold distinctFrom
    split
    · exact (ih _).cons _
    · exact (ih _).cons_cons _

/-- What is left of a list is among its items. -/
theorem mem_of_mem_distinctFrom {key : α → β} {seen : List β} {xs : List α} {x : α}
    (h : x ∈ distinctFrom key seen xs) : x ∈ xs := (distinctFrom_sublist key seen xs).subset h

/-- What is left of a list has keys that have not been seen. -/
theorem key_not_mem_of_mem_distinctFrom {key : α → β} {seen : List β} {xs : List α} {x : α}
    (h : x ∈ distinctFrom key seen xs) : key x ∉ seen := by
  induction xs generalizing seen with
  | nil => cases h
  | cons y ys ih =>
    unfold distinctFrom at h
    by_cases hy : key y ∈ seen
    · rw [if_pos hy] at h
      exact ih h
    · rw [if_neg hy] at h
      rcases List.mem_cons.mp h with rfl | h
      · exact hy
      · exact fun hx => ih h (List.mem_cons_of_mem _ hx)

/-- No key is left twice. -/
theorem nodup_map_distinctFrom (key : α → β) (seen : List β) (xs : List α) :
    ((distinctFrom key seen xs).map key).Nodup := by
  induction xs generalizing seen with
  | nil => exact List.nodup_nil
  | cons x xs ih =>
    unfold distinctFrom
    split
    · exact ih seen
    · rw [List.map_cons, List.nodup_cons]
      refine ⟨?_, ih _⟩
      intro hmem
      obtain ⟨y, hy, he⟩ := List.mem_map.mp hmem
      exact key_not_mem_of_mem_distinctFrom hy (he ▸ List.mem_cons_self)

/-- What is left of a list is the first item with its key. -/
theorem find?_of_mem_distinctFrom {key : α → β} {seen : List β} {xs : List α} {x : α}
    (h : x ∈ distinctFrom key seen xs) : xs.find? (fun y => key y = key x) = some x := by
  induction xs generalizing seen with
  | nil => cases h
  | cons y ys ih =>
    have hnot := key_not_mem_of_mem_distinctFrom h
    unfold distinctFrom at h
    by_cases hy : key y ∈ seen
    · rw [if_pos hy] at h
      have hne : key y ≠ key x := fun he => hnot (he ▸ hy)
      rw [List.find?_cons_of_neg (by simpa using hne), ih h]
    · rw [if_neg hy] at h
      rcases List.mem_cons.mp h with rfl | h
      · exact List.find?_cons_of_pos (by simp)
      · have hne : key y ≠ key x := fun he =>
          key_not_mem_of_mem_distinctFrom h (he ▸ List.mem_cons_self)
        rw [List.find?_cons_of_neg (by simpa using hne), ih h]

/-- What is found first for its key is left when the key has not been seen. -/
theorem mem_distinctFrom_of_find? {key : α → β} {seen : List β} {xs : List α} {x : α}
    (hs : key x ∉ seen) (h : xs.find? (fun y => key y = key x) = some x) :
    x ∈ distinctFrom key seen xs := by
  induction xs generalizing seen with
  | nil => cases h
  | cons y ys ih =>
    rw [List.find?_cons] at h
    rw [distinctFrom]
    by_cases hy : key y = key x
    · rw [decide_eq_true hy, Option.some.injEq] at h
      subst h
      rw [if_neg hs]
      exact List.mem_cons_self
    · rw [decide_eq_false hy] at h
      split
      · exact ih hs h
      · refine List.mem_cons_of_mem _ (ih ?_ h)
        rw [List.mem_cons, not_or]
        exact ⟨Ne.symm hy, hs⟩

/-- A list with one more item: it counts if its key is new. -/
theorem distinctBy_concat (key : α → β) (xs : List α) (x : α) :
    distinctBy key (xs ++ [x])
      = distinctBy key xs ++ if key x ∈ xs.map key then [] else [x] := by
  unfold distinctBy
  rw [distinctFrom_append, List.append_nil]
  rfl

end

section

variable {α β : Type} [DecidableEq α]

/-- What is left are the items that have not been seen. -/
@[simp]
theorem mem_distinctFrom {seen xs : List α} {x : α} :
    x ∈ distinctFrom id seen xs ↔ x ∈ xs ∧ x ∉ seen := by
  induction xs generalizing seen with
  | nil => simp [distinctFrom]
  | cons y ys ih =>
    unfold distinctFrom
    by_cases hy : id y ∈ seen
    · rw [if_pos hy, ih, List.mem_cons]
      constructor
      · exact fun h => ⟨Or.inr h.1, h.2⟩
      · rintro ⟨rfl | h, hn⟩
        · exact absurd hy hn
        · exact ⟨h, hn⟩
    · rw [if_neg hy, List.mem_cons, ih, List.mem_cons, List.mem_cons]
      by_cases he : x = y
      · subst he
        exact ⟨fun _ => ⟨Or.inl rfl, hy⟩, fun _ => Or.inl rfl⟩
      · simp only [id_eq, he, false_or]

/-- Thinning a list out keeps its items. -/
@[simp]
theorem mem_distinctBy {xs : List α} {x : α} : x ∈ distinctBy id xs ↔ x ∈ xs := by
  unfold distinctBy
  rw [mem_distinctFrom]
  exact ⟨fun h => h.1, fun h => ⟨h, List.not_mem_nil⟩⟩

/-- Items that are there already are left out. -/
theorem distinctBy_append_of_subset {xs ys : List α} (h : ∀ y ∈ ys, y ∈ xs) :
    distinctBy id (xs ++ ys) = distinctBy id xs := by
  have hnil : distinctFrom id (xs.map id ++ []) ys = [] := by
    apply distinctFrom_eq_nil
    intro y hy
    rw [List.map_id, List.append_nil]
    exact h y hy
  rw [distinctBy, distinctFrom_append, hnil, List.append_nil]
  rfl

/-- Of items not seen before none is left twice. -/
theorem nodup_distinctFrom (seen xs : List α) : (distinctFrom id seen xs).Nodup := by
  have h := nodup_map_distinctFrom id seen xs
  rwa [List.map_id] at h

/-- No item is left twice. -/
theorem nodup_distinctBy (xs : List α) : (distinctBy id xs).Nodup := nodup_distinctFrom [] xs

variable [DecidableEq β] in
/-- What is kept of a list may be looked at before or after the list is thinned out. -/
theorem distinctFrom_filterMap (f : α → Option β) {seen : List α} {seen' : List β}
    (hs : ∀ x ∈ seen, ∀ y, f x = some y → y ∈ seen') (xs : List α) :
    distinctFrom id seen' ((distinctFrom id seen xs).filterMap f)
      = distinctFrom id seen' (xs.filterMap f) := by
  induction xs generalizing seen seen' with
  | nil => rfl
  | cons x xs ih =>
    simp only [distinctFrom, id_eq]
    by_cases hx : x ∈ seen
    · rw [if_pos hx, ih hs]
      cases hf : f x with
      | none => rw [List.filterMap_cons_none hf]
      | some y =>
        rw [List.filterMap_cons_some hf]
        simp only [distinctFrom, id_eq]
        rw [if_pos (hs x hx y hf)]
    · rw [if_neg hx]
      cases hf : f x with
      | none =>
        rw [List.filterMap_cons_none hf, List.filterMap_cons_none hf]
        apply ih
        intro z hz y hy
        rcases List.mem_cons.mp hz with rfl | hz
        · rw [hf] at hy
          cases hy
        · exact hs z hz y hy
      | some y =>
        rw [List.filterMap_cons_some hf, List.filterMap_cons_some hf]
        simp only [distinctFrom, id_eq]
        by_cases hy : y ∈ seen'
        · rw [if_pos hy, if_pos hy]
          apply ih
          intro z hz w hw
          rcases List.mem_cons.mp hz with rfl | hz
          · rw [hf] at hw
            exact Option.some.inj hw ▸ hy
          · exact hs z hz w hw
        · rw [if_neg hy, if_neg hy]
          congr 1
          apply ih
          intro z hz w hw
          rcases List.mem_cons.mp hz with rfl | hz
          · rw [hf] at hw
            exact Option.some.inj hw ▸ List.mem_cons_self
          · exact List.mem_cons_of_mem _ (hs z hz w hw)

variable [DecidableEq β] in
/-- Lists that are thinned out to the same list still are when items are looked at or left out. -/
theorem distinctBy_filterMap_congr (f : α → Option β) {xs ys : List α}
    (h : distinctBy id xs = distinctBy id ys) :
    distinctBy id (xs.filterMap f) = distinctBy id (ys.filterMap f) := by
  have hs : ∀ x ∈ ([] : List α), ∀ y, f x = some y → y ∈ ([] : List β) := by
    intro x hx
    cases hx
  unfold distinctBy at h ⊢
  rw [← distinctFrom_filterMap f hs xs, h, distinctFrom_filterMap f hs ys]

variable [DecidableEq β] in
/-- Lists that are thinned out to the same list have the same items. -/
theorem mem_iff_of_distinctBy_eq {xs ys : List α} (h : distinctBy id xs = distinctBy id ys)
    (x : α) : x ∈ xs ↔ x ∈ ys := by
  rw [← mem_distinctBy, h, mem_distinctBy]

/-- Items repeated on the spot are thinned out to the items. -/
theorem distinctFrom_replicate (n : β → Nat) (k : β → α) (seen : List α) (xs : List β)
    (hn : ∀ x ∈ xs, 0 < n x) :
    distinctFrom id seen (xs.flatMap fun x => List.replicate (n x) (k x))
      = distinctFrom id seen (xs.map k) := by
  induction xs generalizing seen with
  | nil => rfl
  | cons x xs ih =>
    have htail := fun seen => ih seen fun y hy => hn y (List.mem_cons_of_mem _ hy)
    obtain ⟨m, hm⟩ : ∃ m, n x = m + 1 := ⟨n x - 1, by have := hn x List.mem_cons_self; omega⟩
    rw [List.flatMap_cons, hm, List.replicate_succ, List.map_cons, List.cons_append]
    simp only [distinctFrom, id_eq]
    by_cases hx : k x ∈ seen
    · rw [if_pos hx, if_pos hx, distinctFrom_append, distinctFrom_eq_nil, List.nil_append, ← htail]
      · apply distinctFrom_congr
        intro b
        simp only [List.map_id, List.mem_append, List.mem_replicate]
        constructor
        · rintro (⟨_, rfl⟩ | hb)
          · exact hx
          · exact hb
        · exact Or.inr
      · intro y hy
        rw [List.eq_of_mem_replicate hy]
        exact hx
    · rw [if_neg hx, if_neg hx, distinctFrom_append, distinctFrom_eq_nil, List.nil_append, ← htail]
      · congr 1
        apply distinctFrom_congr
        intro b
        simp only [List.map_id, List.mem_append, List.mem_replicate, List.mem_cons]
        tauto
      · intro y hy
        rw [List.eq_of_mem_replicate hy]
        exact List.mem_cons_self

/-- A list repeated as a whole is thinned out as the list itself. -/
theorem distinctBy_flatMap_const (ys : List α) {xs : List β} (hx : xs ≠ []) :
    distinctBy id (xs.flatMap fun _ => ys) = distinctBy id ys := by
  cases xs with
  | nil => exact absurd rfl hx
  | cons x xs =>
    rw [List.flatMap_cons]
    apply distinctBy_append_of_subset
    intro y hy
    obtain ⟨_, _, hy⟩ := List.mem_flatMap.mp hy
    exact hy

end

section

variable {α κ : Type} [DecidableEq κ]

/-- Collects items under their keys; items without a key are left out. -/
def collected (key : α → Option κ) (xs : List α) : List (κ × List α) :=
  xs.foldl (fun groups x =>
    match key x with
    | none => groups
    | some k => upsert (fun g => g.1 = k) (k, []) (fun g => (g.1, g.2 ++ [x])) groups) []

/-- An item goes to the group of its key, or makes a new one. -/
theorem upsert_group (k : κ) (x : α) (items : κ → List α) {ks : List κ} (hn : ks.Nodup)
    (hk : k ∉ ks → items k = []) :
    upsert (fun g => g.1 = k) (k, []) (fun g => (g.1, g.2 ++ [x])) (ks.map fun j => (j, items j))
      = (ks ++ if k ∈ ks then [] else [k]).map
          fun j => (j, items j ++ if k = j then [x] else []) := by
  induction ks with
  | nil => simp [upsert, hk List.not_mem_nil]
  | cons j js ih =>
    rw [List.nodup_cons] at hn
    rw [List.map_cons, upsert]
    by_cases hj : j = k
    · subst hj
      rw [if_pos (by simp), if_pos List.mem_cons_self, List.append_nil, List.map_cons, if_pos rfl]
      congr 1
      apply List.map_congr_left
      intro i hi
      have hij : j ≠ i := by
        rintro rfl
        exact hn.1 hi
      rw [if_neg hij, List.append_nil]
    · have hm : k ∈ j :: js ↔ k ∈ js := by
        rw [List.mem_cons]
        exact ⟨fun h => h.resolve_left fun he => hj he.symm, Or.inr⟩
      rw [if_neg (by simpa using hj), ih hn.2 fun h => hk fun h' => h (hm.mp h')]
      simp only [hm, List.cons_append, List.map_cons, if_neg (Ne.symm hj), List.append_nil]

/-- What one of several items with different keys stands for, found by its key. -/
theorem flatMap_ite_key {γ : Type} (key : α → κ) (f : α → List γ) {xs : List α}
    (hn : (xs.map key).Nodup) {x : α} (hx : x ∈ xs) :
    (xs.flatMap fun y => if key y = key x then f y else []) = f x := by
  induction xs with
  | nil => cases hx
  | cons y ys ih =>
    rw [List.map_cons, List.nodup_cons] at hn
    rw [List.flatMap_cons]
    rcases List.mem_cons.mp hx with rfl | hmem
    · have hnil : (ys.flatMap fun z => if key z = key x then f z else []) = [] := by
        rw [List.flatMap_eq_nil_iff]
        intro z hz
        exact if_neg fun he : key z = key x => hn.1 (he ▸ List.mem_map_of_mem hz)
      rw [if_pos rfl, hnil, List.append_nil]
    · rw [if_neg fun he : key y = key x => hn.1 (he ▸ List.mem_map_of_mem hmem), List.nil_append]
      exact ih hn.2 hmem

/-- Items collected under their keys: the keys in the order of first appearance, each with the
items that have it. -/
theorem collected_eq (key : α → Option κ) (xs : List α) :
    collected key xs
      = (distinctBy id (xs.filterMap key)).map fun k => (k, xs.filter fun x => key x = some k) := by
  induction xs using List.reverseRecOn with
  | nil => rfl
  | append_singleton xs x ih =>
    unfold collected at ih ⊢
    rw [List.foldl_append, ih, List.filterMap_append]
    cases hx : key x with
    | none => simp [hx]
    | some k =>
      have hk : k ∉ distinctBy id (xs.filterMap key) →
          (xs.filter fun y => key y = some k) = [] := by
        intro hm
        rw [mem_distinctBy, List.mem_filterMap] at hm
        rw [List.filter_eq_nil_iff]
        intro y hy he
        exact hm ⟨y, hy, by simpa using he⟩
      simp only [List.foldl_cons, List.foldl_nil, hx, List.filterMap_cons, List.filterMap_nil]
      rw [upsert_group k x _ (nodup_distinctBy _) hk, distinctBy_concat]
      simp only [id_eq, List.map_id, mem_distinctBy, List.filter_append, List.filter_cons,
        List.filter_nil, hx, Option.some.injEq, decide_eq_true_eq]

variable {β : Type} {key : α → Option κ} {built : κ → List α → β}

/-- What is made of the items of each key, in the order in which the keys appear first. -/
def grouped (key : α → Option κ) (built : κ → List α → β) (xs : List α) : List β :=
  (collected key xs).map fun g => built g.1 g.2

/-- What is made of items that have one key is made of all of them. -/
theorem mem_grouped {xs : List α} {b : β} (h : b ∈ grouped key built xs) :
    ∃ k ∈ xs.filterMap key, b = built k (xs.filter fun x => key x = some k) := by
  rw [grouped, collected_eq, List.map_map] at h
  obtain ⟨k, hk, rfl⟩ := List.mem_map.mp h
  exact ⟨k, mem_distinctBy.mp hk, rfl⟩

/-- What carries its key lists the keys in the order of first appearance. -/
theorem map_grouped (label : β → κ) (hlabel : ∀ k items, label (built k items) = k) (xs : List α) :
    (grouped key built xs).map label = distinctBy id (xs.filterMap key) := by
  rw [grouped, collected_eq, List.map_map, List.map_map]
  exact (List.map_congr_left fun k _ => hlabel k _).trans (List.map_id _)

/-- One more item without a key makes no difference. -/
theorem grouped_concat_none {x : α} (hx : key x = none) (xs : List α) :
    grouped key built (xs ++ [x]) = grouped key built xs := by
  rw [grouped, collected, List.foldl_append, List.foldl_cons, List.foldl_nil, hx]
  rfl

/-- One more item with a key changes what is made of the items of the key, where this is the same as
making it of one more item. -/
theorem grouped_concat_some (label : β → κ) (hlabel : ∀ k items, label (built k items) = k)
    {x : α} {k : κ} (hx : key x = some k) {new : β} {change : β → β}
    (hnew : built k [x] = change new)
    (hchange : ∀ items, items ≠ [] → built k (items ++ [x]) = change (built k items))
    (xs : List α) : grouped key built (xs ++ [x])
      = upsert (fun b => label b = k) new change (grouped key built xs) := by
  have hupsert : ∀ groups : List (κ × List α), (∀ g ∈ groups, g.2 ≠ []) →
      (upsert (fun g => g.1 = k) (k, []) (fun g => (g.1, g.2 ++ [x])) groups).map
          (fun g => built g.1 g.2)
        = upsert (fun b => label b = k) new change (groups.map fun g => built g.1 g.2) := by
    intro groups hgroups
    induction groups with
    | nil => exact congrArg (fun b => [b]) hnew
    | cons g groups ih =>
      obtain ⟨hg, hgroups⟩ := List.forall_mem_cons.mp hgroups
      rw [List.map_cons, upsert, upsert, hlabel]
      by_cases hk : g.1 = k
      · rw [if_pos (decide_eq_true hk), if_pos (decide_eq_true hk), List.map_cons, hk]
        exact congrArg (· :: _) (hchange g.2 hg)
      · rw [if_neg (by simpa using hk), if_neg (by simpa using hk), List.map_cons, ih hgroups]
  have hfilled : ∀ g ∈ collected key xs, g.2 ≠ [] := by
    intro g hg
    rw [collected_eq] at hg
    obtain ⟨j, hj, rfl⟩ := List.mem_map.mp hg
    obtain ⟨y, hy, hkey⟩ := List.mem_filterMap.mp (mem_distinctBy.mp hj)
    exact List.ne_nil_of_mem (List.mem_filter.mpr ⟨hy, decide_eq_true hkey⟩)
  rw [grouped, grouped, ← hupsert _ hfilled, collected, List.foldl_append, List.foldl_cons,
    List.foldl_nil, hx]
  rfl

/-- Items that are there already make no difference, if they make none in what is made of the items
of any key. -/
theorem grouped_append {xs ys : List α} (hmem : ∀ y ∈ ys, y ∈ xs)
    (hbuilt : ∀ k, built k ((xs.filter fun x => key x = some k) ++ ys.filter fun y => key y = some k)
      = built k (xs.filter fun x => key x = some k)) :
    grouped key built (xs ++ ys) = grouped key built xs := by
  have hkeys : ∀ k ∈ ys.filterMap key, k ∈ xs.filterMap key := by
    intro k hk
    obtain ⟨y, hy, hkey⟩ := List.mem_filterMap.mp hk
    exact List.mem_filterMap.mpr ⟨y, hmem y hy, hkey⟩
  rw [grouped, grouped, collected_eq, collected_eq, List.map_map, List.map_map,
    List.filterMap_append, distinctBy_append_of_subset hkeys]
  refine List.map_congr_left fun k _ => ?_
  simp only [Function.comp_apply, List.filter_append]
  exact hbuilt k

end

end TableGraph
