import TableGraph.Proofs.Name.Issued
import TableGraph.Proofs.Name.Scope

/-!
# The growing of names ends

A name is looked for by growing a text until its form is free, and nothing counts the steps. The
forms that are met on the way are all taken, and no two of them are the same, so there are at most as
many as there are taken names. The forms met in a scope are even fewer than its names. Each of them is
a name of the graph, so it stands in the scope itself or has been handed out for a name of the scope,
and neither is the name that is looked for.
-/

namespace TableGraph.Name

section

variable {α : Type} (grow : α → α) (form : α → String) (taken : String → Prop)

/-- While the form of a text is taken the text grows. From a text on, some forms are rejected one after
the other, and then one is found free. -/
inductive Search : α → List String → String → Prop
  /-- The form of the text is free. -/
  | found {s : α} (h : ¬taken (form s)) : Search s [] (form s)
  /-- The form of the text is taken, and the search goes on with the text grown. -/
  | grown {s : α} {rejected : List String} {name : String} (h : taken (form s))
      (rest : Search (grow s) rejected name) : Search s (form s :: rejected) name

variable {grow form taken}

/-- A search has one outcome. -/
theorem Search.unique {s : α} {rejected rejected' : List String} {name name' : String}
    (h : Search grow form taken s rejected name) (h' : Search grow form taken s rejected' name') :
    rejected = rejected' ∧ name = name' := by
  induction h generalizing rejected' name' with
  | found hfree =>
    cases h' with
    | found => exact ⟨rfl, rfl⟩
    | grown htaken => exact absurd htaken hfree
  | grown htaken _ ih =>
    cases h' with
    | found hfree => exact absurd htaken hfree
    | grown _ rest =>
      obtain ⟨rfl, rfl⟩ := ih rest
      exact ⟨rfl, rfl⟩

/-- A search goes through the stages of a text up to the first one whose form is free. -/
theorem search_stages {stage : Nat → α} (hgrow : ∀ k, grow (stage k) = stage (k + 1)) {n : Nat}
    (htaken : ∀ k < n, taken (form (stage k))) (hfree : ¬taken (form (stage n))) :
    Search grow form taken (stage 0) ((List.range n).map fun k => form (stage k))
      (form (stage n)) := by
  induction n generalizing stage with
  | zero => exact .found hfree
  | succ n ih =>
    have hrest : Search grow form taken (stage 1)
        ((List.range n).map fun k => form (stage (k + 1))) (form (stage (n + 1))) :=
      ih (fun k => hgrow (k + 1)) (fun k hk => htaken (k + 1) (by omega)) hfree
    have hstages : (List.range (n + 1)).map (fun k => form (stage k))
        = form (stage 0) :: (List.range n).map fun k => form (stage (k + 1)) := by
      simp [List.range_succ_eq_map]
    rw [hstages]
    refine .grown (htaken 0 (by omega)) ?_
    rw [hgrow]
    exact hrest

end

/-- The candidates in front of the first free one. -/
def rejectedForms (candidate : Nat → String) (taken : List String) : List String :=
  (List.range (firstFree candidate taken)).map candidate

section

variable {candidate : Nat → String} {taken : List String}

/-- The number of the first free candidate says how many are in front of it. -/
theorem length_rejectedForms (candidate : Nat → String) (taken : List String) :
    (rejectedForms candidate taken).length = firstFree candidate taken := by
  simp [rejectedForms]

/-- What is in front of the first free candidate is taken, and is a candidate. -/
theorem mem_of_mem_rejectedForms {name : String} (h : name ∈ rejectedForms candidate taken) :
    name ∈ taken ∧ ∃ k, candidate k = name := by
  obtain ⟨k, hk, rfl⟩ := List.mem_map.mp h
  exact ⟨mem_of_lt_firstFree (List.mem_range.mp hk), k, rfl⟩

/-- Candidates that differ are not more than the names among which they are found. -/
theorem length_rejectedForms_le (hapart : Function.Injective candidate) {names : List String}
    (h : rejectedForms candidate taken ⊆ names) :
    (rejectedForms candidate taken).length ≤ names.length :=
  ((List.nodup_range.map hapart).subperm h).length_le

/-- A search whose stages have the forms of the candidates rejects them up to the first free one. -/
theorem search_rejectedForms {α : Type} {grow : α → α} {form : α → String} {isTaken : String → Prop}
    (stage : Nat → α) (hgrow : ∀ k, grow (stage k) = stage (k + 1))
    (hform : ∀ k, form (stage k) = candidate k)
    (htaken : ∀ k, isTaken (candidate k) ↔ candidate k ∈ taken) (hapart : Function.Injective candidate) :
    Search grow form isTaken (stage 0) (rejectedForms candidate taken)
      (candidate (firstFree candidate taken)) := by
  have hstages : (fun k => form (stage k)) = candidate := funext hform
  have hmet : ∀ k < firstFree candidate taken, isTaken (form (stage k)) := by
    intro k hk
    rw [hform, htaken]
    exact mem_of_lt_firstFree hk
  have hfree : ¬isTaken (form (stage (firstFree candidate taken))) := by
    rw [hform, htaken]
    exact firstFree_not_mem hapart taken
  have hsearch := search_stages hgrow hmet hfree
  rwa [hstages, hform] at hsearch

end

namespace Scope

variable {names before after : List String} {name form : String}

/-- The scope of some names of which only the first ones have been added. -/
def begun (names before : List String) : Scope := before.foldl (add names) ⟨[]⟩

/-- A form is taken for a name when it is another name of the scope or has been handed out before. -/
def Taken (names before : List String) (name form : String) : Prop :=
  (form ∈ names ∧ form ≠ name) ∨ form ∈ (begun names before).issued

/-- How the form of a name is found that is added behind others: the forms rejected on the way. -/
structure Ends (names before : List String) (name : String) (rejected : List String)
    (form : String) : Prop where
  /-- The forms for longer and longer placeholders are all different. -/
  apart : Function.Injective fun k => substitute (placeholder k) name
  /-- The placeholder grows by an underscore until the form of the name is not taken. -/
  search : Search (· ++ ['_']) (fun p => substitute p name) (Taken names before name)
    (placeholder 0) rejected form
  /-- The form that is found is the one picked for the name. -/
  picked : pick names (begun names before).issued name = form
  /-- The name has this form in the end. -/
  kept : (ofNames names).escaped? name = some form
  /-- With the one that is found, no more forms are tried than there are different names. -/
  few : rejected.length + 1 ≤ names.dedup.length

/-- For a text that is no name, a form that is a name is taken if it is met among the names of the
scope and the forms handed out. -/
theorem taken_iff (hname : isValid name = false) (hform : isValid form = true) :
    Taken names before name form ↔ form ∈ names ++ (begun names before).issued := by
  have hne : form ≠ name := by
    rintro rfl
    rw [hname] at hform
    cases hform
  simp [Taken, hne]

/-- The names entered at the beginning are those that have been added. -/
theorem mem_before (h : name ∈ Members.names (begun names before).entries) : name ∈ before :=
  (mem_names_foldl_add h).resolve_left List.not_mem_nil

/-- A name that has been entered is handed out as its own form. -/
theorem mem_issued_of_isValid (hvalid : isValid name = true)
    (h : name ∈ Members.names (begun names before).entries) :
    name ∈ (begun names before).issued := by
  have hempty : Picked names ⟨[]⟩ := fun _ he => nomatch he
  have hpicked : Picked names (begun names before) := hempty.foldl_add
  obtain ⟨e, he, rfl⟩ := List.mem_map.mp h
  obtain ⟨issued, hform⟩ := hpicked e he
  have hown : e.2 = e.1 := by rw [hform, pick, if_pos hvalid]
  exact List.mem_map.mpr ⟨e, he, hown⟩

/-- The other names of a scope that have not been added yet. -/
def waiting (names before : List String) (name : String) : List String :=
  names.dedup.filter fun n => n ∉ Members.names (begun names before).entries ∧ n ≠ name

/-- A form that is a name and is taken has been handed out or is a name that waits. -/
theorem Taken.mem (h : Taken names before name form) (hvalid : isValid form = true) :
    form ∈ (begun names before).issued ++ waiting names before name := by
  by_cases hissued : form ∈ (begun names before).issued
  · exact List.mem_append_left _ hissued
  · obtain ⟨hmem, hne⟩ := h.resolve_right hissued
    have hentered : form ∉ Members.names (begun names before).entries :=
      fun hn => hissued (mem_issued_of_isValid hvalid hn)
    have hwaits : form ∈ waiting names before name := by simp [waiting, hmem, hentered, hne]
    exact List.mem_append_right _ hwaits

/-- The forms handed out and the names that wait are fewer than the names of the scope. -/
theorem length_issued_add_waiting (hname : name ∈ names) (hsub : before ⊆ names)
    (hnew : name ∉ before) : (begun names before).issued.length
      + (waiting names before name).length + 1 ≤ names.dedup.length := by
  have hnodup : (name :: (Members.names (begun names before).entries
      ++ waiting names before name)).Nodup := by
    refine List.nodup_cons.mpr ⟨?_, List.Nodup.append (nodup_names_foldl_add List.nodup_nil)
      (names.nodup_dedup.filter _) fun n hentered hwaits => ?_⟩
    · have hentered : name ∉ Members.names (begun names before).entries :=
        fun h => hnew (mem_before h)
      simp [waiting, hentered]
    · simp [waiting, hentered] at hwaits
  have hall : name :: (Members.names (begun names before).entries
      ++ waiting names before name) ⊆ names.dedup := by
    refine List.cons_subset.mpr ⟨List.mem_dedup.mpr hname, List.append_subset.mpr ⟨?_, ?_⟩⟩
    · exact fun n hn => List.mem_dedup.mpr (hsub (mem_before hn))
    · exact List.filter_subset_self _
  have hlength := (hnodup.subperm hall).length_le
  simp only [List.length_cons, List.length_append] at hlength
  have hforms : (begun names before).issued.length
      = (Members.names (begun names before).entries).length := by
    simp [issued, Members.names, Members.values]
  omega

/-- A name has the form that is picked for it when it is added. -/
theorem escaped?_ofNames_of_new (hnames : names = before ++ name :: after) (hnew : name ∉ before) :
    (ofNames names).escaped? name = some (pick names (begun names before).issued name) := by
  have hnone : (begun names before).escaped? name = none :=
    Members.get?_eq_none_iff.mpr fun h => hnew (mem_before h)
  have hadded : ((begun names before).add names name).escaped? name
      = some (pick names (begun names before).issued name) := escaped?_add_of_none hnone
  have hscope : ofNames names = after.foldl (add names) ((begun names before).add names name) := by
    have hfold := congrArg (fun added => added.foldl (add names) (⟨[]⟩ : Scope)) hnames
    simpa [ofNames, begun] using hfold
  rw [hscope]
  exact escaped?_foldl_add_of_some hadded

/-- The forms for a text that are rejected when others have been added before. -/
def rejected (names before : List String) (name : String) : List String :=
  rejectedForms (fun k => substitute (placeholder k) name) (names ++ (begun names before).issued)

/-- The form that is picked for a text that is no name is found by growing the placeholder. -/
theorem search_pick (hvalid : isValid name = false) (before : List String) :
    Search (· ++ ['_']) (fun p => substitute p name) (Taken names before name) (placeholder 0)
      (rejected names before name) (pick names (begun names before).issued name) := by
  have hgrow : ∀ k, placeholder k ++ ['_'] = placeholder (k + 1) :=
    fun k => List.replicate_succ'.symm
  have htaken : ∀ k, Taken names before name (substitute (placeholder k) name)
      ↔ substitute (placeholder k) name ∈ names ++ (begun names before).issued :=
    fun k => taken_iff hvalid (isValid_substitute k name)
  rw [pick, hvalid, if_neg Bool.false_ne_true]
  exact search_rejectedForms placeholder hgrow (fun _ => rfl) htaken (substitute_injective hvalid)

/-- The forms that are rejected have been handed out or are names that wait. -/
theorem rejected_subset (hvalid : isValid name = false) :
    rejected names before name ⊆ (begun names before).issued ++ waiting names before name := by
  intro form hform
  obtain ⟨hmem, k, rfl⟩ := mem_of_mem_rejectedForms hform
  have hname := isValid_substitute k name
  exact ((taken_iff hvalid hname).mpr hmem).mem hname

/-- A text that is no name of the graph has its form after a search that ends. -/
theorem ends_of_new (hnames : names = before ++ name :: after) (hnew : name ∉ before)
    (hvalid : isValid name = false) : Ends names before name (rejected names before name)
      (pick names (begun names before).issued name) where
  apart := substitute_injective hvalid
  search := search_pick hvalid before
  picked := rfl
  kept := escaped?_ofNames_of_new hnames hnew
  few := by
    have hmem : name ∈ names := by simp [hnames]
    have hsub : before ⊆ names := by simp [hnames]
    have hmet : (rejected names before name).length
        ≤ ((begun names before).issued ++ waiting names before name).length :=
      length_rejectedForms_le (substitute_injective hvalid) (rejected_subset hvalid)
    have hfew := length_issued_add_waiting hmem hsub hnew
    rw [List.length_append] at hmet
    omega

end Scope

namespace Derived

variable {d : Derived} {base : String}

/-- How the name of a base is found: the forms rejected on the way. -/
structure Ends (d : Derived) (base : String) (rejected : List String) : Prop where
  /-- What the base starts from grows by an underscore until it is not taken. -/
  search : Search (·.push '_') id (· ∈ d.taken) (stem base) rejected (d.issue base).1
  /-- There is one underscore for each form that is rejected. -/
  grown : (d.issue base).1 = stem base ++ String.ofList (List.replicate rejected.length '_')
  /-- No more underscores are appended than there are different names that are taken. -/
  few : rejected.length ≤ d.taken.dedup.length

/-- A text with underscores behind it grows by one more. -/
theorem push_grown (stem : String) (k : Nat) :
    (stem ++ String.ofList (List.replicate k '_')).push '_'
      = stem ++ String.ofList (List.replicate (k + 1) '_') := by
  apply String.toList_injective
  simp [List.replicate_succ']

/-- A base without a name is handed one after a search that ends. -/
theorem exists_ends (h : d.get? base = none) : ∃ rejected, d.Ends base rejected := by
  have hapart := grow_injective (stem base)
  have hname : (d.issue base).1 = pick d.taken base := by rw [issue_of_none h]
  have hstart : stem base ++ String.ofList (List.replicate 0 '_') = stem base := by simp
  have hsearch : Search (·.push '_') id (· ∈ d.taken)
      (stem base ++ String.ofList (List.replicate 0 '_'))
      (rejectedForms (fun k => stem base ++ String.ofList (List.replicate k '_')) d.taken)
      (pick d.taken base) :=
    search_rejectedForms (fun k => stem base ++ String.ofList (List.replicate k '_'))
      (push_grown (stem base)) (fun _ => rfl) (fun _ => Iff.rfl) hapart
  rw [hstart, ← hname] at hsearch
  refine ⟨_, hsearch, ?_, ?_⟩
  · rw [hname, length_rejectedForms]
    rfl
  · exact length_rejectedForms_le hapart fun form hform =>
      List.mem_dedup.mpr (mem_of_mem_rejectedForms hform).1

end Derived

/-- Every search for a name ends. A name of the graph is its own form in a scope; the form of any other
text is found before as many forms are rejected as there are different names in the scope. To what a
base starts from no more underscores are appended than there are names that are taken. -/
theorem searches_end (names : List String) (d : Derived) (base : String) :
    (∀ before name after, names = before ++ name :: after → name ∉ before →
        (IsName name → (Scope.ofNames names).escaped? name = some name)
          ∧ (¬IsName name → ∃ rejected form, Scope.Ends names before name rejected form))
      ∧ (d.get? base = none → ∃ rejected, d.Ends base rejected) := by
  refine ⟨fun before name after hnames hnew => ⟨fun hname => ?_, fun hname => ?_⟩,
    Derived.exists_ends⟩
  · have hform := Scope.escaped?_ofNames_of_new hnames hnew
    rwa [Scope.pick, if_pos ((isValid_iff name).mpr hname)] at hform
  · have hvalid : isValid name = false := by simpa [← isValid_iff] using hname
    exact ⟨_, _, Scope.ends_of_new hnames hnew hvalid⟩

/-- A name of a scope meets another name and the form of a third one, and a base meets two reserved
names. -/
theorem searches_end_crowded :
    Scope.Ends Scope.crowded ["A$B", "A__B"] "A#B" ["A__B", "A___B"] "A____B"
      ∧ (Derived.reserving ["link_X__Y", "link_X__Y_"]).Ends "link_X$Y"
        ["link_X__Y", "link_X__Y_"] := by
  obtain ⟨hscope, hbase⟩ := searches_end Scope.crowded
    (Derived.reserving ["link_X__Y", "link_X__Y_"]) "link_X$Y"
  have hnot : ¬IsName "A#B" := by
    rw [← isValid_iff]
    decide
  obtain ⟨rejected, form, hends⟩ :=
    (hscope ["A$B", "A__B"] "A#B" ["", "A$B", "1"] rfl (by decide)).2 hnot
  obtain ⟨rejected', hends'⟩ := hbase rfl
  have hforms : substitute (placeholder 0) "A#B" = "A__B"
      ∧ substitute (placeholder 1) "A#B" = "A___B" ∧ substitute (placeholder 2) "A#B" = "A____B" := by
    decide
  obtain ⟨hfirst, hsecond, hthird⟩ := hforms
  have hsearch : Search (· ++ ['_']) (fun p => substitute p "A#B")
      (Scope.Taken Scope.crowded ["A$B", "A__B"] "A#B") (placeholder 0)
      [substitute (placeholder 0) "A#B", substitute (placeholder 1) "A#B"]
      (substitute (placeholder 2) "A#B") := by
    refine .grown ?_ (.grown ?_ (.found ?_))
    · rw [hfirst]
      exact Or.inl (by decide)
    · exact hsecond ▸ Or.inr (by decide)
    · exact hthird ▸ not_or.mpr (by decide)
  rw [hfirst, hsecond, hthird] at hsearch
  obtain ⟨rfl, rfl⟩ := hends.search.unique hsearch
  have hsearch' : Search (·.push '_') id (· ∈ ["link_X__Y", "link_X__Y_"]) "link_X__Y"
      ["link_X__Y", "link_X__Y_"] "link_X__Y__" :=
    .grown (by decide) (.grown (by decide) (.found (by decide)))
  have hstem : Derived.stem "link_X$Y" = "link_X__Y" := by decide
  obtain ⟨rfl, _⟩ := hends'.search.unique (hstem ▸ hsearch')
  exact ⟨hends, hends'⟩

end TableGraph.Name
