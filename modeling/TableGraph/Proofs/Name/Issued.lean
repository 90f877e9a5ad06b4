import TableGraph.Proofs.Name.Derived
import TableGraph.Proofs.Name.Valid

/-!
# Calls for derived names

One call after the other is made for the name of a base. A name that has been returned is the one
that is found for its base ever after, so what the calls return is read off the names handed out in
the end: calls for one base agree, and calls for different bases differ.
-/

namespace TableGraph.Name.Derived

variable {d : Derived} {reserved bases : List String} {base name : String}

/-- What a base starts from is a name. -/
@[simp]
theorem isValid_stem (base : String) : isValid (stem base) = true := by
  unfold stem
  split
  · assumption
  · exact isValid_substitute 0 base

/-- A name that grows by underscores is a name. -/
theorem isValid_grow {stem : String} (h : isValid stem = true) (k : Nat) :
    isValid (stem ++ String.ofList (List.replicate k '_')) = true := by
  obtain ⟨c, cs, hs, hc, hcs⟩ := (isValid_iff stem).mp h
  refine (isValid_iff _).mpr ⟨c, cs ++ List.replicate k '_', ?_, hc, ?_⟩
  · rw [String.toList_append, String.toList_ofList, hs, List.cons_append]
  · intro x hx
    rcases List.mem_append.mp hx with hx | hx
    · exact hcs x hx
    · rw [List.eq_of_mem_replicate hx]
      exact Or.inl (Or.inl rfl)

/-- The name picked for a base is a name. -/
@[simp]
theorem isValid_pick (taken : List String) (base : String) : isValid (pick taken base) = true :=
  isValid_grow (isValid_stem base) _

/-- All that has been handed out are names. -/
def AllNames (d : Derived) : Prop := ∀ name ∈ Members.values d.issued, isValid name = true

/-- Handing out one more name hands out names only. -/
theorem AllNames.issue (h : AllNames d) (base : String) : AllNames (d.issue base).2 := by
  cases hb : d.get? base with
  | some name =>
    rw [issue_of_some hb]
    exact h
  | none =>
    rw [issue_of_none hb]
    intro name hname
    rw [Members.values_append, List.mem_append] at hname
    rcases hname with hname | hname
    · exact h name hname
    · rw [List.mem_singleton.mp hname]
      exact isValid_pick d.taken base

/-- Handing out names hands out names only. -/
theorem AllNames.issueAll (h : AllNames d) (bases : List String) : AllNames (d.issueAll bases) := by
  induction bases generalizing d with
  | nil => exact h
  | cons base bases ih => exact ih (h.issue base)

/-- The names that calls for bases return, one call after the other. -/
def answers : Derived → List String → List String
  | _, [] => []
  | d, base :: bases => (d.issue base).1 :: answers (d.issue base).2 bases

/-- Each call returns a name. -/
@[simp]
theorem length_answers (d : Derived) (bases : List String) :
    (d.answers bases).length = bases.length := by
  induction bases generalizing d with
  | nil => rfl
  | cons base bases ih => simp [answers, ih]

/-- What a call has returned for a base is found for it in the end. -/
theorem get?_issueAll_of_mem_zip (h : (base, name) ∈ bases.zip (d.answers bases)) :
    (d.issueAll bases).get? base = some name := by
  induction bases generalizing d with
  | nil => cases h
  | cons first bases ih =>
    rw [answers, List.zip_cons_cons, List.mem_cons] at h
    rw [issueAll_cons]
    rcases h with h | h
    · rw [(Prod.mk.inj h).1, (Prod.mk.inj h).2]
      exact get?_issueAll_of_some (get?_issue_self d first)
    · exact ih h

/-- Without a call for it a base is found as before. -/
theorem get?_issueAll_of_not_mem (h : base ∉ bases) :
    (d.issueAll bases).get? base = d.get? base := by
  induction bases generalizing d with
  | nil => rfl
  | cons first bases ih =>
    rw [List.mem_cons, not_or] at h
    simp [ih h.2, get?_issue_of_ne (Ne.symm h.1)]

/-- Every call for a base returns a name for it. -/
theorem exists_mem_zip_answers (d : Derived) (h : base ∈ bases) :
    ∃ name, (base, name) ∈ bases.zip (d.answers bases) := by
  have hfst : (bases.zip (d.answers bases)).map Prod.fst = bases :=
    List.map_fst_zip (Nat.le_of_eq (length_answers d bases).symm)
  rw [← hfst] at h
  obtain ⟨call, hcall, rfl⟩ := List.mem_map.mp h
  exact ⟨call.2, hcall⟩

/-- Every name that is returned is returned for a base. -/
theorem exists_base_mem_zip (h : name ∈ d.answers bases) :
    ∃ base, (base, name) ∈ bases.zip (d.answers bases) := by
  have hsnd : (bases.zip (d.answers bases)).map Prod.snd = d.answers bases :=
    List.map_snd_zip (Nat.le_of_eq (length_answers d bases))
  rw [← hsnd] at h
  obtain ⟨call, hcall, rfl⟩ := List.mem_map.mp h
  exact ⟨call.1, hcall⟩

/-- Calls for bases that return names, and what is known of the names in the end. -/
structure HandsOut (reserved bases names : List String) (d : Derived) : Prop where
  /-- Each call returns a name. -/
  answered : names.length = bases.length
  /-- What is returned is a name of the graph. -/
  valid : ∀ name ∈ names, IsName name
  /-- No reserved name is returned. -/
  free : ∀ name ∈ names, name ∉ reserved
  /-- Two calls return the same name exactly if they are for the same base. -/
  alike : ∀ call ∈ bases.zip names, ∀ other ∈ bases.zip names, call.2 = other.2 ↔ call.1 = other.1
  /-- A name is found for a base exactly if a call for the base has returned it. -/
  found : ∀ base name, d.get? base = some name ↔ (base, name) ∈ bases.zip names

/-- Whatever is reserved and whatever the bases are, calls return names that are free, agree for one
base and differ for different ones. -/
theorem handsOut_answers (reserved bases : List String) :
    HandsOut reserved bases ((reserving reserved).answers bases)
      ((reserving reserved).issueAll bases) := by
  have hsound := (sound_reserving reserved).issueAll bases
  have hnames : AllNames ((reserving reserved).issueAll bases) :=
    AllNames.issueAll (fun _ hname => absurd hname List.not_mem_nil) bases
  refine ⟨length_answers _ bases, ?_, ?_, ?_, ?_⟩
  · intro name hname
    obtain ⟨base, hcall⟩ := exists_base_mem_zip hname
    have hentry := Members.mem_of_get? (get?_issueAll_of_mem_zip hcall)
    exact (isValid_iff name).mp (hnames name (List.mem_map_of_mem hentry))
  · intro name hname
    obtain ⟨base, hcall⟩ := exists_base_mem_zip hname
    exact hsound.not_reserved (get?_issueAll_of_mem_zip hcall)
  · intro call hcall other hother
    have hfound := get?_issueAll_of_mem_zip hcall
    have hfound' := get?_issueAll_of_mem_zip hother
    constructor
    · intro he
      rw [he] at hfound
      exact hsound.base_eq hfound hfound'
    · intro he
      rw [he, hfound'] at hfound
      exact (Option.some.inj hfound).symm
  · intro base name
    refine ⟨fun hfound => ?_, get?_issueAll_of_mem_zip⟩
    have hmem : base ∈ bases := by
      by_contra hnot
      rw [get?_issueAll_of_not_mem hnot] at hfound
      cases hfound
    obtain ⟨answer, hcall⟩ := exists_mem_zip_answers (reserving reserved) hmem
    rw [get?_issueAll_of_mem_zip hcall] at hfound
    exact Option.some.inj hfound ▸ hcall

/-- A text that is no name, the name that it takes, and both again. -/
def crossing : List String := ["link_X$Y", "link_X__Y_", "link_X$Y", "", "link_X__Y_"]

/-- A base that is the name of another base gets a name of its own, and both keep theirs. -/
theorem handsOut_crossing : HandsOut ["link_X__Y", "__"] crossing
    ["link_X__Y_", "link_X__Y__", "link_X__Y_", "___", "link_X__Y__"]
    ((reserving ["link_X__Y", "__"]).issueAll crossing) := by
  have hanswers : (reserving ["link_X__Y", "__"]).answers crossing
      = ["link_X__Y_", "link_X__Y__", "link_X__Y_", "___", "link_X__Y__"] := by
    decide
  rw [← hanswers]
  exact handsOut_answers _ crossing

end TableGraph.Name.Derived
