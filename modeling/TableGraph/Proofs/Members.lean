import Mathlib.Data.List.Nodup
import TableGraph.Json.Basic
import TableGraph.Proofs.Listing

/-!
# Members by name

What is found under a name when members are put together, and when a list of entries with different
names is read as members. Read from any list of entries, the names stand in the order of first
appearance, each with the value of the last entry.
-/

namespace TableGraph.Members

variable {α : Type}

/-- No members have no names. -/
@[simp]
theorem names_nil : names ([] : Members α) = [] := rfl

/-- The name of the first member comes first. -/
@[simp]
theorem names_cons (m : String × α) (ms : Members α) : names (m :: ms) = m.1 :: names ms := rfl

/-- The names of members behind others come behind their names. -/
@[simp]
theorem names_append (ms ns : Members α) : names (ms ++ ns) = names ms ++ names ns :=
  List.map_append

/-- The names of members that are made of items. -/
@[simp]
theorem names_map {β : Type} (f : β → String × α) (xs : List β) :
    names (xs.map f) = xs.map fun x => (f x).1 :=
  List.map_map

/-- The names of members that are put together are those of each part. -/
@[simp]
theorem names_flatMap {β : Type} (f : β → Members α) (xs : List β) :
    names (xs.flatMap f) = xs.flatMap fun x => names (f x) :=
  List.map_flatMap

/-- The values of members behind others come behind their values. -/
@[simp]
theorem values_append (ms ns : Members α) : values (ms ++ ns) = values ms ++ values ns :=
  List.map_append

/-- The values of members that are made of items. -/
@[simp]
theorem values_map {β : Type} (f : β → String × α) (xs : List β) :
    values (xs.map f) = xs.map fun x => (f x).2 :=
  List.map_map

/-- Nothing is found among no members. -/
@[simp]
theorem get?_nil (name : String) : get? ([] : Members α) name = none := rfl

/-- The first member is looked at first. -/
@[simp]
theorem get?_cons (k : String) (v : α) (ms : Members α) (name : String) :
    get? ((k, v) :: ms) name = if k = name then some v else get? ms name := rfl

/-- A name without a value is not among the names. -/
theorem get?_eq_none_iff {ms : Members α} {name : String} :
    get? ms name = none ↔ name ∉ names ms := by
  induction ms with
  | nil => simp
  | cons m ms ih =>
    obtain ⟨k, v⟩ := m
    by_cases hk : k = name
    · simp [hk]
    · simp [hk, Ne.symm hk, ih]

/-- Members found in front of others count first. -/
@[simp]
theorem get?_append (ms ns : Members α) (name : String) :
    get? (ms ++ ns) name = (get? ms name).or (get? ns name) := by
  induction ms with
  | nil => rfl
  | cons m ms ih =>
    obtain ⟨k, v⟩ := m
    by_cases hk : k = name
    · simp [hk]
    · simp [hk, ih]

/-- What is found under a name is a member. -/
theorem mem_of_get? {ms : Members α} {name : String} {v : α} (h : get? ms name = some v) :
    (name, v) ∈ ms := by
  induction ms with
  | nil => cases h
  | cons m ms ih =>
    obtain ⟨k, w⟩ := m
    by_cases hk : k = name
    · obtain rfl : w = v := by simpa [hk] using h
      exact hk ▸ List.mem_cons_self
    · exact List.mem_cons_of_mem _ (ih (by simpa [hk] using h))

/-- A member is found under its name when no two have the same name. -/
theorem get?_of_mem {ms : Members α} (hn : (names ms).Nodup) {e : String × α} (h : e ∈ ms) :
    get? ms e.1 = some e.2 := by
  induction ms with
  | nil => cases h
  | cons m ms ih =>
    obtain ⟨k, w⟩ := m
    obtain ⟨hk, hn⟩ := List.nodup_cons.mp hn
    rcases List.mem_cons.mp h with rfl | h
    · simp
    · have hname : e.1 ∈ names ms := List.mem_map_of_mem h
      have hne : k ≠ e.1 := fun he => hk (he ▸ hname)
      simp [hne, ih hn h]

/-- Each member is the one that is added or was there before. -/
theorem mem_insert {ms : Members α} {name : String} {value : α} {e : String × α}
    (h : e ∈ insert ms name value) : e = (name, value) ∨ e ∈ ms := by
  induction ms with
  | nil => exact Or.inl (List.mem_singleton.mp h)
  | cons m ms ih =>
    obtain ⟨k, w⟩ := m
    unfold insert at h
    by_cases hk : k = name
    · rw [if_pos hk, hk] at h
      exact (List.mem_cons.mp h).imp id (List.mem_cons_of_mem _)
    · rw [if_neg hk] at h
      rcases List.mem_cons.mp h with rfl | h
      · exact Or.inr List.mem_cons_self
      · exact (ih h).imp id (List.mem_cons_of_mem _)

/-- The members of a list of entries are among them. -/
theorem mem_ofList {entries : List (String × α)} {e : String × α} (h : e ∈ ofList entries) :
    e ∈ entries := by
  have hfold : ∀ (rest : List (String × α)) (ms : Members α),
      e ∈ rest.foldl (fun ms e => insert ms e.1 e.2) ms → e ∈ ms ∨ e ∈ rest := by
    intro rest
    induction rest with
    | nil => exact fun ms h => Or.inl h
    | cons x rest ih =>
      intro ms h
      rcases ih _ h with h | h
      · exact (mem_insert h).elim (fun he => Or.inr (he ▸ List.mem_cons_self)) Or.inl
      · exact Or.inr (List.mem_cons_of_mem _ h)
  exact (hfold entries [] h).elim (fun h => absurd h List.not_mem_nil) id

/-- What is put under a name is found there. -/
@[simp]
theorem get?_insert_self (ms : Members α) (name : String) (value : α) :
    get? (insert ms name value) name = some value := by
  induction ms with
  | nil => simp [insert]
  | cons m ms ih =>
    obtain ⟨k, v⟩ := m
    by_cases hk : k = name
    · simp [insert, hk]
    · simp [insert, hk, ih]

/-- What is put under a name does not touch other names. -/
@[simp]
theorem get?_insert_of_ne {name other : String} (h : name ≠ other) (ms : Members α) (value : α) :
    get? (insert ms name value) other = get? ms other := by
  induction ms with
  | nil => simp [insert, h]
  | cons m ms ih =>
    obtain ⟨k, v⟩ := m
    by_cases hk : k = name
    · simp [insert, hk, h]
    · simp [insert, hk, ih]

/-- A member whose name is new comes to the end. -/
theorem insert_of_not_mem {ms : Members α} {name : String} (h : name ∉ names ms) (value : α) :
    insert ms name value = ms ++ [(name, value)] := by
  induction ms with
  | nil => rfl
  | cons m ms ih =>
    obtain ⟨k, v⟩ := m
    rw [names_cons, List.mem_cons, not_or] at h
    simp [insert, Ne.symm h.1, ih h.2]

/-- Something has been put there. -/
theorem insert_ne_nil (ms : Members α) (name : String) (value : α) : insert ms name value ≠ [] := by
  cases ms with
  | nil => exact List.cons_ne_nil _ _
  | cons m ms =>
    unfold insert
    split <;> exact List.cons_ne_nil _ _

/-- Entries leave members. -/
theorem ofList_ne_nil {entries : List (String × α)} (h : entries ≠ []) : ofList entries ≠ [] := by
  rw [ofList, ← List.dropLast_append_getLast h, List.foldl_append]
  exact insert_ne_nil _ _ _

/-- Entries with names that are different and new are put to the end. -/
theorem foldl_insert {ms : Members α} {entries : List (String × α)}
    (hn : (names (ms ++ entries)).Nodup) :
    entries.foldl (fun ms e => insert ms e.1 e.2) ms = ms ++ entries := by
  induction entries generalizing ms with
  | nil => rw [List.foldl_nil, List.append_nil]
  | cons e entries ih =>
    have he : ms ++ e :: entries = (ms ++ [(e.1, e.2)]) ++ entries := by simp
    have hnot : e.1 ∉ names ms := by
      rw [names_append, List.nodup_append] at hn
      intro hm
      exact hn.2.2 e.1 hm e.1 (by simp) rfl
    rw [he] at hn
    rw [List.foldl_cons, insert_of_not_mem hnot, ih hn, he]

/-- Entries with different names are members as they stand. -/
theorem ofList_of_nodup {entries : List (String × α)} (hn : (names entries).Nodup) :
    ofList entries = entries := by
  have hn' : (names ([] ++ entries)).Nodup := by simpa using hn
  have h := foldl_insert hn'
  simpa [ofList] using h

/-- Of the entries with a name the last one counts. -/
theorem get?_ofList_append_cons {before after : List (String × α)} {name : String} (value : α)
    (h : name ∉ names after) : get? (ofList (before ++ (name, value) :: after)) name = some value := by
  have hfold : ∀ (rest : List (String × α)) (ms : Members α), name ∉ names rest →
      get? (rest.foldl (fun ms e => insert ms e.1 e.2) ms) name = get? ms name := by
    intro rest
    induction rest with
    | nil => exact fun ms _ => rfl
    | cons e rest ih =>
      intro ms hn
      rw [names_cons, List.mem_cons, not_or] at hn
      simp [ih _ hn.2, Ne.symm hn.1]
  simp [ofList, hfold after _ h]

/-- Putting something under a name keeps the names different. -/
theorem nodup_names_insert {ms : Members α} (hn : (names ms).Nodup) (name : String) (value : α) :
    (names (insert ms name value)).Nodup := by
  induction ms with
  | nil => exact List.nodup_singleton name
  | cons m ms ih =>
    obtain ⟨k, v⟩ := m
    obtain ⟨hk, hms⟩ := List.nodup_cons.mp hn
    unfold insert
    by_cases he : k = name
    · rw [if_pos he]
      exact List.nodup_cons.mpr ⟨hk, hms⟩
    · rw [if_neg he]
      refine List.nodup_cons.mpr ⟨fun hmem => ?_, ih hms⟩
      obtain ⟨e, hmem, hname⟩ := List.mem_map.mp hmem
      rcases mem_insert hmem with rfl | hmem
      · exact he hname.symm
      · exact hk (List.mem_map.mpr ⟨e, hmem, hname⟩)

/-- Members have different names. -/
theorem nodup_names_ofList (entries : List (String × α)) : (names (ofList entries)).Nodup := by
  have hfold : ∀ (rest : List (String × α)) (ms : Members α), (names ms).Nodup →
      (names (rest.foldl (fun ms e => insert ms e.1 e.2) ms)).Nodup := by
    intro rest
    induction rest with
    | nil => exact fun ms hn => hn
    | cons e rest ih => exact fun ms hn => ih _ (nodup_names_insert hn e.1 e.2)
  exact hfold entries [] List.nodup_nil

/-- Putting something under a name lists the name last, if it is new. -/
theorem names_insert (ms : Members α) (name : String) (value : α) :
    names (insert ms name value) = names ms ++ if name ∈ names ms then [] else [name] := by
  induction ms with
  | nil => rfl
  | cons m ms ih =>
    obtain ⟨k, v⟩ := m
    by_cases hk : k = name
    · simp [insert, hk]
    · simp [insert, hk, Ne.symm hk, ih]

/-- The last entry is put to the others. -/
theorem ofList_concat (entries : List (String × α)) (e : String × α) :
    ofList (entries ++ [e]) = insert (ofList entries) e.1 e.2 := by
  rw [ofList, List.foldl_append]
  rfl

/-- The names of a list of entries stand in the order of first appearance. -/
@[simp]
theorem names_ofList (entries : List (String × α)) :
    names (ofList entries) = distinctBy id (names entries) := by
  induction entries using List.reverseRecOn with
  | nil => rfl
  | append_singleton entries e ih =>
    simp [ofList_concat, names_insert, ih, distinctBy_concat]

/-- A member has the value of the last entry with its name. -/
theorem exists_append_of_mem_ofList {entries : List (String × α)} {e : String × α}
    (h : e ∈ ofList entries) : ∃ before after, entries = before ++ e :: after ∧ e.1 ∉ names after := by
  induction entries using List.reverseRecOn with
  | nil => cases h
  | append_singleton entries last ih =>
    rw [ofList_concat] at h
    by_cases hname : last.1 = e.1
    · have hfound := get?_of_mem (nodup_names_insert (nodup_names_ofList entries) _ _) h
      have hvalue : last.2 = e.2 := by simpa [← hname] using hfound
      obtain rfl : last = e := Prod.ext hname hvalue
      exact ⟨entries, [], rfl, List.not_mem_nil⟩
    · have hmem : e ∈ ofList entries :=
        (mem_insert h).resolve_left fun he => hname (congrArg Prod.fst he).symm
      obtain ⟨before, after, hsplit, hafter⟩ := ih hmem
      refine ⟨before, after ++ [last], by rw [hsplit, List.append_assoc, List.cons_append], ?_⟩
      simp [hafter, Ne.symm hname]

/-- What is found under a name in a list of entries is the value of the last entry with the name. -/
theorem get?_ofList (entries : List (String × α)) (name : String) :
    get? (ofList entries) name = (entries.filter fun e => e.1 = name).getLast?.map (·.2) := by
  induction entries using List.reverseRecOn with
  | nil => rfl
  | append_singleton entries e ih =>
    by_cases hname : e.1 = name
    · simp [ofList_concat, ← hname]
    · simp [ofList_concat, hname, ih]

section

variable (name : α → String) {xs ys : List α}

/-- Values that go by names of their own have those names. -/
theorem names_keyed (xs : List α) : names (xs.map fun x => (name x, x)) = xs.map name :=
  names_map _ xs

/-- Values that go by names of their own are the values. -/
theorem values_keyed (xs : List α) : values (xs.map fun x => (name x, x)) = xs := by
  simp

/-- Values that go by different names of their own are found under them. -/
theorem get?_keyed (hn : (xs.map name).Nodup) {x : α} (hx : x ∈ xs) :
    get? (xs.map fun x => (name x, x)) (name x) = some x :=
  get?_of_mem ((names_keyed name xs).symm ▸ hn) (e := (name x, x)) (List.mem_map_of_mem hx)

/-- Of values that go by names of their own the last one with a name is found under it. -/
theorem get?_ofList_keyed (xs : List α) (n : String) :
    get? (ofList (xs.map fun x => (name x, x))) n = (xs.filter fun x => name x = n).getLast? := by
  rw [get?_ofList, List.filter_map, List.getLast?_map, Option.map_map]
  exact congrFun Option.map_id _

/-- Values that go by different names of their own are put to the end. -/
theorem foldl_insert_keyed (hn : ((xs ++ ys).map name).Nodup) :
    ys.foldl (fun ms y => insert ms (name y) y) (xs.map fun x => (name x, x))
      = (xs ++ ys).map fun x => (name x, x) := by
  rw [← names_keyed, List.map_append] at hn
  have hfold := foldl_insert hn
  rwa [List.foldl_map, ← List.map_append] at hfold

/-- Values that go by names of their own all stay just when the names are different. -/
theorem values_ofList_iff (xs : List α) :
    values (ofList (xs.map fun x => (name x, x))) = xs ↔ (xs.map name).Nodup := by
  constructor
  · intro h
    have hvalues : names (ofList (xs.map fun x => (name x, x)))
        = (values (ofList (xs.map fun x => (name x, x)))).map name := by
      rw [names, values, List.map_map]
      refine List.map_congr_left fun e he => ?_
      obtain ⟨x, _, rfl⟩ := List.mem_map.mp (mem_ofList he)
      rfl
    rw [h] at hvalues
    rw [← hvalues]
    exact nodup_names_ofList _
  · intro h
    rw [← names_keyed] at h
    rw [ofList_of_nodup h, values_keyed]

end

end TableGraph.Members
