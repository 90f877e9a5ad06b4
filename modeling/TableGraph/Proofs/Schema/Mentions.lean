import TableGraph.Proofs.Firsts
import TableGraph.Proofs.Schema.Sorting

/-!
# Orderings in which the last mention counts

A list of objects is read member by member, whatever object a member stands in. The columns that are
mentioned are ordered by in the order of first mention, each in the direction of its last mention.
The list is read as a whole or not at all: one member that is none of an ordering refuses it.
-/

namespace TableGraph

namespace Direction

/-- The word for a direction in an entry. -/
def key : Direction → String
  | .ascending => "asc"
  | .descending => "desc"

/-- The word for a direction stands for it. -/
@[simp]
theorem ofKey?_key (direction : Direction) : ofKey? direction.key = some direction := by
  cases direction with
  | ascending => rfl
  | descending => rfl

end Direction

namespace Ordering

variable {s : Shape}

/-- What the members of entries mention: each holds nothing or a column, by its name in the graph,
under a direction. -/
inductive Mentions (s : Shape) : List (String × Json) → List (String × Direction) → Prop where
  /-- No members mention nothing. -/
  | nil : Mentions s [] []
  /-- Nothing under a direction mentions nothing. -/
  | absent {ms : List (String × Json)} {mentions : List (String × Direction)}
      (direction : Direction) : Mentions s ms mentions →
      Mentions s ((direction.key, .null) :: ms) mentions
  /-- A column under a direction is mentioned with the direction. -/
  | column {ms : List (String × Json)} {mentions : List (String × Direction)}
      (direction : Direction) {f : Field} : f ∈ s.table.fields → Mentions s ms mentions →
      Mentions s ((direction.key, .str (s.columnField f.name)) :: ms)
        ((f.name, direction) :: mentions)

/-- The columns of the terms are those mentioned, each once, in the order of first mention and in
the direction of the last mention. -/
structure LastWrites (mentions : List (String × Direction)) (terms : Terms) : Prop where
  /-- The columns are listed in the order of first mention. -/
  columns : FirstAppearances (Members.names mentions) (Members.names terms)
  /-- Every term is the last mention of its column. -/
  directions : ∀ term ∈ terms, ∃ before after,
    mentions = before ++ term :: after ∧ term.1 ∉ Members.names after

/-- Mentions put together one after the other keep the first place and the last direction. -/
theorem lastWrites_ofList (mentions : List (String × Direction)) :
    LastWrites mentions (Members.ofList mentions) := by
  refine ⟨?_, fun term hterm => Members.exists_append_of_mem_ofList hterm⟩
  rw [Members.names_ofList]
  exact firstAppearances_distinctBy _

/-- It does not matter in which object a member stands. -/
theorem ofEntries_map_obj (entries : List (Members Json)) (terms : Terms) :
    ofEntries s terms (entries.map .obj) = enterAll s terms entries.flatten := by
  have happend : ∀ (ms ns : List (String × Json)) (terms : Terms),
      enterAll s terms (ms ++ ns) = enterAll s terms ms >>= fun next => enterAll s next ns := by
    intro ms ns
    induction ms with
    | nil => exact fun _ => rfl
    | cons m ms ih =>
      intro terms
      rw [List.cons_append, enterAll, enterAll, bind_assoc]
      exact congrArg _ (funext ih)
  induction entries generalizing terms with
  | nil => rfl
  | cons entry entries ih =>
    rw [List.map_cons, ofEntries, List.flatten_cons, happend]
    exact congrArg _ (funext ih)

/-- Members that mention columns enter the mentions one after the other. -/
theorem enterAll_of_mentions (hs : s = .ofTable s.table s.name) {ms : List (String × Json)}
    {mentions : List (String × Direction)} (h : Mentions s ms mentions) (terms : Terms) :
    enterAll s terms ms
      = .ok (mentions.foldl (fun terms m => Members.insert terms m.1 m.2) terms) := by
  induction h generalizing terms with
  | nil => rfl
  | absent direction _ ih =>
    rw [enterAll, enter, Direction.ofKey?_key]
    exact ih terms
  | @column ms mentions direction f hf _ ih =>
    obtain ⟨g, hg⟩ := Option.isSome_iff_exists.mp (Shape.isSome_column?_columnField hs hf)
    have hname : g.name = f.name := Shape.name_of_column?_columnField hs hf hg
    simp only [enterAll, enter, Direction.ofKey?_key, hg, hname]
    exact ih _

/-- An argument of objects is read as the members of the objects. -/
theorem ofArgument_eq {entries : List (Members Json)} {j : Json}
    (hj : j = .arr (entries.map .obj) ∨ [j] = entries.map .obj) :
    ofArgument s (some j) = (enterAll s [] entries.flatten).map some := by
  have hread := ofEntries_map_obj (s := s) entries []
  rw [← hread]
  rcases hj with rfl | hsingle
  · rfl
  · obtain ⟨entry, rfl, rfl⟩ := List.map_eq_singleton_iff.mp hsingle.symm
    rfl

/-- A list of objects, or one object, is read as a whole. When every member holds nothing or a
column under a direction, the columns are ordered by in the order of first mention, each once and in
the direction of its last mention. Any other member refuses the value, wherever it stands. -/
theorem ofArgument_of_objects (t : Table) (name : String) (entries : List (Members Json)) (j : Json)
    (hj : j = .arr (entries.map .obj) ∨ [j] = entries.map .obj) :
    (∀ mentions, Mentions (.ofTable t name) entries.flatten mentions →
        ∃ terms, ofArgument (.ofTable t name) (some j) = .ok (some terms)
          ∧ LastWrites mentions terms)
      ∧ ∀ m ∈ entries.flatten, m.1 ∉ ["asc", "desc"]
          ∨ (m.2 ≠ .null ∧ ∀ f ∈ t.fields, m.2 ≠ .str ((Shape.ofTable t name).columnField f.name)) →
        ∃ e, ofArgument (.ofTable t name) (some j) = .error e := by
  rw [ofArgument_eq hj]
  constructor
  · intro mentions hmentions
    rw [enterAll_of_mentions rfl hmentions]
    exact ⟨_, rfl, lastWrites_ofList mentions⟩
  · intro m hm hbad
    have hnot : ¬ Directs (.ofTable t name) m := by
      rw [Shape.directs_iff rfl]
      rintro ⟨hkey, hvalue⟩
      rcases hbad with hkey' | ⟨hnull, hname⟩
      · exact hkey' hkey
      · rcases hvalue with hv | ⟨f, hf, hv⟩
        · exact hnull hv
        · exact hname f hf hv
    cases hread : enterAll (.ofTable t name) [] entries.flatten with
    | error e => exact ⟨e, rfl⟩
    | ok terms => exact absurd (exists_enterAll_iff.mp ⟨terms, hread⟩ m hm) hnot

/-- Parcels with a label and a column whose name is not a name of the graph. -/
def parcelTable : Table :=
  ⟨"PARCEL", "PARCEL", [], [.plain "PARCEL" "LABEL" .string, .plain "PARCEL" "NET$WT" .float]⟩

/-- Entries that mention the label twice, the weight in between and nothing beside it. -/
def repeatedLabel : List (Members Json) :=
  [[("asc", .str "LABEL")], [("desc", .str "NET__WT"), ("asc", .null)], [("desc", .str "LABEL")]]

/-- The label keeps its first place and takes its last direction. With one member that is under no
direction the entries are refused. -/
theorem ofArgument_repeatedLabel :
    (∃ terms, ofArgument (.ofTable parcelTable "PARCEL") (some (.arr (repeatedLabel.map .obj)))
        = .ok (some terms)
      ∧ LastWrites [("LABEL", .ascending), ("NET$WT", .descending), ("LABEL", .descending)] terms)
      ∧ ∃ e, ofArgument (.ofTable parcelTable "PARCEL")
        (some (.arr ((repeatedLabel ++ [[("up", Json.str "LABEL")]]).map .obj))) = .error e := by
  have hlabel : (Shape.ofTable parcelTable "PARCEL").columnField "LABEL" = "LABEL" := by cbv
  have hweight : (Shape.ofTable parcelTable "PARCEL").columnField "NET$WT" = "NET__WT" := by cbv
  have hmentions : Mentions (.ofTable parcelTable "PARCEL")
      [("asc", .str ((Shape.ofTable parcelTable "PARCEL").columnField "LABEL")),
        ("desc", .str ((Shape.ofTable parcelTable "PARCEL").columnField "NET$WT")), ("asc", .null),
        ("desc", .str ((Shape.ofTable parcelTable "PARCEL").columnField "LABEL"))]
      [("LABEL", .ascending), ("NET$WT", .descending), ("LABEL", .descending)] := by
    refine .column .ascending (f := .plain "PARCEL" "LABEL" .string) (by decide) ?_
    refine .column .descending (f := .plain "PARCEL" "NET$WT" .float) (by decide) ?_
    refine .absent .ascending ?_
    exact .column .descending (f := .plain "PARCEL" "LABEL" .string) (by decide) .nil
  rw [hlabel, hweight] at hmentions
  have hread := ofArgument_of_objects parcelTable "PARCEL" repeatedLabel _ (.inl rfl)
  have hrefused := ofArgument_of_objects parcelTable "PARCEL"
    (repeatedLabel ++ [[("up", Json.str "LABEL")]]) _ (.inl rfl)
  refine ⟨hread.1 _ hmentions, hrefused.2 ("up", Json.str "LABEL") ?_ (.inl (by decide))⟩
  exact List.mem_flatten.mpr ⟨[("up", Json.str "LABEL")], by simp, List.mem_singleton_self _⟩

end Ordering

end TableGraph
