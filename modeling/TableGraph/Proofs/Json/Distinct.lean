import TableGraph.Json.Parser
import TableGraph.Proofs.Members

/-!
# Values whose members are kept apart

Objects as lists of members may name a member twice. Those that are read from a text never do, at any
depth: a member that is written again takes the place of the one before.
-/

namespace TableGraph.Json

/-- The members of each object in a value have different names. -/
inductive Distinct : Json → Prop
  /-- `null` has no members. -/
  | null : Distinct .null
  /-- A boolean has no members. -/
  | bool (value : Bool) : Distinct (.bool value)
  /-- A number has no members. -/
  | num (value : Number) : Distinct (.num value)
  /-- A string has no members. -/
  | str (value : String) : Distinct (.str value)
  /-- The members are kept apart in each item of an array. -/
  | arr {items : List Json} (h : ∀ j ∈ items, Distinct j) : Distinct (.arr items)
  /-- The members of an object have different names, and are kept apart in each value. -/
  | obj {ms : Members Json} (hn : (Members.names ms).Nodup) (h : ∀ m ∈ ms, Distinct m.2) :
    Distinct (.obj ms)

mutual

/-- The members are kept apart in a value that is read. -/
theorem distinct_of_value : ∀ {n depth : Nat} {cs : List Char} {r : Json × List Char},
    value n depth cs = some r → r.1.Distinct
  | 0, _, _, _, h => nomatch h
  | n + 1, depth, cs, r, h => by
    rw [value] at h
    split at h
    · cases h
      exact .null
    · cases h
      exact .bool true
    · cases h
      exact .bool false
    · obtain ⟨_, _, rfl⟩ := Option.map_eq_some_iff.mp h
      exact .str _
    · split at h
      · cases h
      · split at h
        · cases h
          exact .arr nofun
        · obtain ⟨_, hitems, rfl⟩ := Option.map_eq_some_iff.mp h
          exact .arr (distinct_of_items hitems)
    · split at h
      · cases h
      · split at h
        · cases h
          exact .obj List.nodup_nil nofun
        · obtain ⟨_, hmembers, rfl⟩ := Option.map_eq_some_iff.mp h
          exact .obj (Members.nodup_names_ofList _) fun m hm =>
            distinct_of_members hmembers m (Members.mem_ofList hm)
    · obtain ⟨_, _, rfl⟩ := Option.map_eq_some_iff.mp h
      exact .num _

/-- The members are kept apart in all items that are read. -/
theorem distinct_of_items : ∀ {n depth : Nat} {cs : List Char} {r : List Json × List Char},
    items n depth cs = some r → ∀ j ∈ r.1, j.Distinct
  | 0, _, _, _, h => nomatch h
  | n + 1, depth, cs, r, h => by
    rw [items] at h
    obtain ⟨⟨x, rest⟩, hfirst, h⟩ := Option.bind_eq_some_iff.mp h
    have hx : x.Distinct := distinct_of_value hfirst
    dsimp only at h
    split at h
    · obtain ⟨⟨xs, rest⟩, hmore, h⟩ := Option.bind_eq_some_iff.mp h
      cases h
      exact List.forall_mem_cons.mpr ⟨hx, distinct_of_items hmore⟩
    · cases h
      exact List.forall_mem_singleton.mpr hx
    · cases h

/-- The members are kept apart in the values of all members that are read. -/
theorem distinct_of_members : ∀ {n depth : Nat} {cs : List Char}
    {r : List (String × Json) × List Char},
    members n depth cs = some r → ∀ m ∈ r.1, m.2.Distinct
  | 0, _, _, _, h => nomatch h
  | n + 1, depth, cs, r, h => by
    rw [members] at h
    split at h
    · obtain ⟨⟨name, rest⟩, _, h⟩ := Option.bind_eq_some_iff.mp h
      dsimp only at h
      split at h
      · obtain ⟨⟨v, rest⟩, hfirst, h⟩ := Option.bind_eq_some_iff.mp h
        have hv : v.Distinct := distinct_of_value hfirst
        dsimp only at h
        split at h
        · obtain ⟨⟨ms, rest⟩, hmore, h⟩ := Option.bind_eq_some_iff.mp h
          cases h
          exact List.forall_mem_cons.mpr ⟨hv, distinct_of_members hmore⟩
        · cases h
          exact List.forall_mem_singleton.mpr hv
        · cases h
      · cases h
    · cases h

end

/-- The members are kept apart in every value that a text writes. -/
theorem distinct_of_parse? {s : String} {j : Json} (h : parse? s = some j) : j.Distinct := by
  unfold parse? parseWithin? at h
  split at h
  · rename_i hvalue
    split at h
    · cases h
      exact distinct_of_value hvalue
    · cases h
  · cases h

end TableGraph.Json
