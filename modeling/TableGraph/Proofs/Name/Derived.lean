import TableGraph.Name.Derived
import TableGraph.Proofs.Members
import TableGraph.Proofs.Name.Fresh

/-!
# Names handed out

A derived name is handed out once: different bases have different names, none of them reserved, and
a base keeps its name whatever is handed out later.
-/

namespace TableGraph.Name.Derived

variable {d : Derived} {reserved bases : List String} {base other name : String}

/-- The name picked for a base is not taken. -/
theorem pick_not_mem (taken : List String) (base : String) : pick taken base ∉ taken :=
  firstFree_not_mem (grow_injective (stem base)) taken

/-- The name picked for a base begins with what the base starts from. -/
theorem stem_prefix_pick (taken : List String) (base : String) :
    (stem base).toList <+: (pick taken base).toList := by
  unfold pick
  rw [String.toList_append]
  exact List.prefix_append _ _

/-- What a base begins with stays in front when it is all characters of a name and does not start
with a digit. -/
theorem prefix_stem {lead : List Char} (hlead : leads lead = false)
    (hparts : ∀ c ∈ lead, isPart c = true) (h : lead <+: base.toList) :
    lead <+: (stem base).toList := by
  unfold stem
  split
  · exact h
  · exact prefix_substitute hlead hparts h _

/-- A base that has a name gets the same again. -/
theorem issue_of_some (h : d.get? base = some name) : d.issue base = (name, d) := by
  rw [issue, h]

/-- A base without a name gets a new one. -/
theorem issue_of_none (h : d.get? base = none) :
    d.issue base
      = (pick d.taken base, ⟨pick d.taken base :: d.taken,
          d.issued ++ [(base, pick d.taken base)]⟩) := by
  rw [issue, h]

/-- The name handed out for a base is the one found later. -/
@[simp]
theorem get?_issue_self (d : Derived) (base : String) :
    (d.issue base).2.get? base = some (d.issue base).1 := by
  cases h : d.get? base with
  | some name => rw [issue_of_some h, h]
  | none =>
    have hnone : Members.get? d.issued base = none := h
    simp [issue_of_none h, get?, hnone]

/-- Handing out a name does not touch the names of other bases. -/
theorem get?_issue_of_ne (h : base ≠ other) : (d.issue base).2.get? other = d.get? other := by
  cases hb : d.get? base with
  | some name => rw [issue_of_some hb]
  | none => simp [issue_of_none hb, get?, h]

/-- A base keeps its name. -/
theorem get?_issue_of_some (h : d.get? other = some name) :
    (d.issue base).2.get? other = some name := by
  by_cases hb : base = other
  · rw [hb, issue_of_some h, h]
  · rw [get?_issue_of_ne hb, h]

/-- One more base is handed a name after the others. -/
@[simp]
theorem issueAll_concat (d : Derived) (bases : List String) (base : String) :
    d.issueAll (bases ++ [base]) = ((d.issueAll bases).issue base).2 :=
  List.foldl_append

/-- The first base is handed a name before the others. -/
@[simp]
theorem issueAll_cons (d : Derived) (base : String) (bases : List String) :
    d.issueAll (base :: bases) = (d.issue base).2.issueAll bases := rfl

/-- Bases keep their names. -/
theorem get?_issueAll_of_some (h : d.get? other = some name) :
    (d.issueAll bases).get? other = some name := by
  induction bases generalizing d with
  | nil => exact h
  | cons base bases ih => simpa using ih (get?_issue_of_some h)

/-- Every base of a list has a name in the end. -/
theorem exists_get?_issueAll (h : base ∈ bases) :
    ∃ name, (d.issueAll bases).get? base = some name := by
  induction bases generalizing d with
  | nil => cases h
  | cons first bases ih =>
    rw [issueAll_cons]
    rcases List.mem_cons.mp h with rfl | h
    · exact ⟨_, get?_issueAll_of_some (get?_issue_self d base)⟩
    · exact ih h

/-- Names handed out without mixing anything up. -/
structure Sound (reserved : List String) (d : Derived) : Prop where
  /-- Reserved names are taken. -/
  kept : ∀ n ∈ reserved, n ∈ d.taken
  /-- Names handed out are taken and not reserved. -/
  issued : ∀ e ∈ d.issued, e.2 ∈ d.taken ∧ e.2 ∉ reserved
  /-- No name is handed out twice. -/
  apart : (Members.values d.issued).Nodup
  /-- A name begins with what its base starts from. -/
  grown : ∀ e ∈ d.issued, (stem e.1).toList <+: e.2.toList

/-- Nothing is mixed up before the first name. -/
theorem sound_reserving (reserved : List String) : Sound reserved (Derived.reserving reserved) :=
  ⟨fun _ h => h, fun _ h => (nomatch h), List.nodup_nil, fun _ h => (nomatch h)⟩

/-- Handing out one more name mixes nothing up. -/
theorem Sound.issue (h : Sound reserved d) (base : String) :
    Sound reserved (d.issue base).2 := by
  cases hb : d.get? base with
  | some name =>
    rw [issue_of_some hb]
    exact h
  | none =>
    have hfree := pick_not_mem d.taken base
    rw [issue_of_none hb]
    refine ⟨fun n hn => List.mem_cons_of_mem _ (h.kept n hn), ?_, ?_, ?_⟩
    · intro e he
      rcases List.mem_append.mp he with he | he
      · exact ⟨List.mem_cons_of_mem _ (h.issued e he).1, (h.issued e he).2⟩
      · rw [List.mem_singleton.mp he]
        exact ⟨List.mem_cons_self, fun hr => hfree (h.kept _ hr)⟩
    · have hvalues : Members.values (d.issued ++ [(base, pick d.taken base)])
          = Members.values d.issued ++ [pick d.taken base] := Members.values_append _ _
      rw [hvalues, List.nodup_append]
      refine ⟨h.apart, List.nodup_singleton _, ?_⟩
      rintro a ha b hb rfl
      obtain ⟨e, he, rfl⟩ := List.mem_map.mp ha
      exact hfree (List.mem_singleton.mp hb ▸ (h.issued e he).1)
    · intro e he
      rcases List.mem_append.mp he with he | he
      · exact h.grown e he
      · rw [List.mem_singleton.mp he]
        exact stem_prefix_pick _ _

/-- Handing out names mixes nothing up. -/
theorem Sound.issueAll (h : Sound reserved d) (bases : List String) :
    Sound reserved (d.issueAll bases) := by
  induction bases generalizing d with
  | nil => exact h
  | cons base bases ih => exact ih (h.issue base)

/-- A name handed out is not reserved. -/
theorem Sound.not_reserved (h : Sound reserved d) (hb : d.get? base = some name) :
    name ∉ reserved := (h.issued _ (Members.mem_of_get? hb)).2

/-- The name of a base begins with what the base starts from. -/
theorem Sound.stem_prefix (h : Sound reserved d) (hb : d.get? base = some name) :
    (stem base).toList <+: name.toList := h.grown (base, name) (Members.mem_of_get? hb)

/-- Different bases have different names. -/
theorem Sound.base_eq (h : Sound reserved d) (hb : d.get? base = some name)
    (ho : d.get? other = some name) : base = other := by
  have he := List.inj_on_of_nodup_map h.apart (Members.mem_of_get? hb) (Members.mem_of_get? ho) rfl
  exact congrArg Prod.fst he

end TableGraph.Name.Derived
