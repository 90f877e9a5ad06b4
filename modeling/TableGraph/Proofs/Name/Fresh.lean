import Mathlib.Data.List.Nodup
import Mathlib.Data.List.Perm.Subperm
import TableGraph.Name.Basic

/-!
# Free names

A name grows until it is free. Candidates that differ from each other cannot all be taken, so one
more candidate than there are taken names is enough. A longer placeholder makes a longer text, so the
candidates for a text that is no name differ.
-/

namespace TableGraph.Name

/-- Of candidates that differ from each other one is free. -/
theorem firstFree_not_mem {candidate : Nat → String} (hc : Function.Injective candidate)
    (taken : List String) : candidate (firstFree candidate taken) ∉ taken := by
  unfold firstFree
  cases hf : (List.range (taken.length + 1)).find? fun k => candidate k ∉ taken with
  | some k =>
    have hk := List.find?_some hf
    exact of_decide_eq_true hk
  | none =>
    exfalso
    have htaken : (List.range (taken.length + 1)).map candidate ⊆ taken := by
      intro name hname
      obtain ⟨k, hk, rfl⟩ := List.mem_map.mp hname
      have hnot := List.find?_eq_none.mp hf k hk
      rwa [decide_eq_true_eq, not_not] at hnot
    have hnodup : ((List.range (taken.length + 1)).map candidate).Nodup :=
      List.Nodup.map hc List.nodup_range
    have hlength := (List.Nodup.subperm hnodup htaken).length_le
    rw [List.length_map, List.length_range] at hlength
    omega

/-- The candidates before the first free one are taken. -/
theorem mem_of_lt_firstFree {candidate : Nat → String} {taken : List String} {k : Nat}
    (h : k < firstFree candidate taken) : candidate k ∈ taken := by
  unfold firstFree at h
  cases hf : (List.range (taken.length + 1)).find? fun k => candidate k ∉ taken with
  | some n =>
    rw [hf, Option.getD_some] at h
    have hbefore := (List.find?_range_eq_some.mp hf).2.2 k h
    simpa using hbefore
  | none =>
    rw [hf, Option.getD_none] at h
    have hnone := List.find?_eq_none.mp hf k (List.mem_range.mpr (by omega))
    simpa using hnone

/-- A text that grows by underscores differs from what it was. -/
theorem grow_injective (stem : String) :
    Function.Injective fun k => stem ++ String.ofList (List.replicate k '_') := by
  intro j k h
  have hlist := congrArg String.toList h
  simp only [String.toList_append, String.toList_ofList] at hlist
  have hlength := congrArg List.length (List.append_cancel_left hlist)
  rwa [List.length_replicate, List.length_replicate] at hlength

/-- Whether the placeholder comes in front of a text: it is empty or starts with a digit. -/
def leads (cs : List Char) : Bool :=
  match cs with
  | [] => true
  | c :: _ => '0' ≤ c && c ≤ '9'

/-- What a text begins with stays in front when it is all characters of a name and does not start with
a digit. -/
theorem prefix_substitute {lead : List Char} (hlead : leads lead = false)
    (hparts : ∀ c ∈ lead, isPart c = true) {s : String} (h : lead <+: s.toList) (p : List Char) :
    lead <+: (substitute p s).toList := by
  obtain ⟨rest, hrest⟩ := h
  cases lead with
  | nil => exact List.nil_prefix
  | cons c cs =>
    have hbody : (c :: cs).flatMap (fun c => if isPart c then [c] else p) = c :: cs := by
      have hsingle : (c :: cs).flatMap (fun c => if isPart c then [c] else p)
          = (c :: cs).flatMap (fun c => [c]) :=
        List.flatMap_congr fun x hx => if_pos (hparts x hx)
      rw [hsingle]
      exact List.flatMap_singleton' _
    have hdigit : ¬('0' ≤ c && c ≤ '9') = true := Bool.eq_false_iff.mp hlead
    unfold substitute
    dsimp only
    rw [← hrest, List.flatMap_append, hbody]
    dsimp only [List.cons_append]
    rw [if_neg hdigit, String.toList_ofList]
    exact List.prefix_append _ _

/-- How often the placeholder stands for something in a text. -/
def gaps (cs : List Char) : Nat := cs.countP (fun c => !isPart c) + if leads cs then 1 else 0

/-- A text that is no name has a place for the placeholder. -/
theorem gaps_pos {s : String} (h : isValid s = false) : 0 < gaps s.toList := by
  unfold gaps
  unfold isValid at h
  cases hs : s.toList with
  | nil => exact Nat.one_pos
  | cons c cs =>
    rw [hs] at h
    by_cases hl : leads (c :: cs) = true
    · rw [if_pos hl]
      omega
    · rw [if_neg hl, Nat.add_zero, List.countP_pos_iff]
      have hdigit : ('0' ≤ c && c ≤ '9') = false := Bool.eq_false_iff.mpr hl
      rcases Bool.and_eq_false_iff.mp h with hstart | hall
      · refine ⟨c, List.mem_cons_self, ?_⟩
        simp only [isPart, hstart, hdigit, Bool.or_false, Bool.not_false]
      · obtain ⟨d, hd, hpart⟩ := List.all_eq_false.mp hall
        refine ⟨d, List.mem_cons_of_mem _ hd, ?_⟩
        rwa [Bool.not_eq_true', ← Bool.not_eq_true]

/-- The characters that do not fit take the length of the placeholder. -/
theorem length_flatMap_placeholder (p cs : List Char) :
    (cs.flatMap fun c => if isPart c then [c] else p).length
      = cs.countP isPart + cs.countP (fun c => !isPart c) * p.length := by
  induction cs with
  | nil => simp
  | cons c cs ih =>
    rw [List.flatMap_cons, List.length_append, ih, List.countP_cons, List.countP_cons]
    by_cases hc : isPart c = true
    · simp only [hc, if_true, Bool.not_true, List.length_singleton]
      simp only [Bool.false_eq_true, if_false, Nat.add_zero]
      omega
    · rw [Bool.not_eq_true] at hc
      simp only [hc, Bool.not_false, if_true, Bool.false_eq_true, if_false, Nat.add_mul]
      omega

/-- A text with the placeholder in its places. -/
theorem length_substitute (p : List Char) (s : String) :
    (substitute p s).toList.length = s.toList.countP isPart + gaps s.toList * p.length := by
  have hbody := length_flatMap_placeholder p s.toList
  unfold substitute gaps
  dsimp only
  cases hs : s.toList with
  | nil => simp [leads]
  | cons c cs =>
    rw [hs] at hbody
    have hleads : ('0' ≤ c && c ≤ '9') = leads (c :: cs) := rfl
    simp only [hleads, String.toList_ofList]
    by_cases hl : leads (c :: cs) = true
    · rw [if_pos hl, if_pos hl, List.length_append, hbody, Nat.add_mul]
      omega
    · rw [if_neg hl, if_neg hl, hbody, Nat.add_zero]

/-- The candidates for a text that is no name differ from each other. -/
theorem substitute_injective {s : String} (h : isValid s = false) :
    Function.Injective fun k => substitute (placeholder k) s := by
  intro j k he
  have hlength := congrArg (fun t => t.toList.length) he
  simp only [length_substitute, placeholder, List.length_replicate] at hlength
  have hmul := Nat.mul_left_cancel (gaps_pos h) (Nat.add_left_cancel hlength)
  omega

end TableGraph.Name
