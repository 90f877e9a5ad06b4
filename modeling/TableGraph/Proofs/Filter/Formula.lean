import TableGraph.Filter.Basic
import TableGraph.Proofs.Formula.Joining

/-!
# Filters as formulas

The text of a filter is that of a formula, and the value of the formula comes from the values of the
conditions by way of the parts of the filter.
-/

namespace TableGraph.Filter

open Formula

variable (d : Dialect) (table : String)

/-- The conditions of a group that the dialect knows. -/
def groupAtoms (g : List Condition) : List String := spoken (g.map (conditionText d table))

mutual

/-- The words of the parts of a filter. -/
def partTokens : Filter → List (List Token)
  | .node groups missing noneOf anyOf allOf =>
    (groups.flatMap fun g => enclosedTokens [] .and ((groupAtoms d table g).map fun t => [.atom t]))
      ++ (missingTexts d table missing).map (fun t => [.atom t])
      ++ enclosedTokens [.not] .and (itemTokens noneOf)
      ++ enclosedTokens [] .or (itemTokens anyOf)
      ++ enclosedTokens [] .and (itemTokens allOf)

/-- The words of the filters that say something. -/
def itemTokens : List Filter → List (List Token)
  | [] => []
  | f :: fs =>
    (if partTokens f = [] then [] else [joinedTokens .and (partTokens f)]) ++ itemTokens fs

end

/-- The words of a filter. -/
def tokens (f : Filter) : List Token := joinedTokens .and (f.partTokens d table)

variable (v : String → Truth)

mutual

/-- The values of the parts of a filter. -/
def partTruths : Filter → List Truth
  | .node groups missing noneOf anyOf allOf =>
    groups.filterMap (fun g => Truth.all? ((groupAtoms d table g).map v))
      ++ (missingTexts d table missing).map v
      ++ ((Truth.all? (itemTruths noneOf)).map Truth.not).toList
      ++ (Truth.any? (itemTruths anyOf)).toList
      ++ (Truth.all? (itemTruths allOf)).toList

/-- The values of the filters that say something. -/
def itemTruths : List Filter → List Truth
  | [] => []
  | f :: fs => (Truth.all? (partTruths f)).toList ++ itemTruths fs

end

variable {d table v}

/-- Words inside parentheses as they are written. -/
@[simp]
theorem map_written_enclosedTokens (lead : List Token) (separator : Token)
    (tss : List (List Token)) :
    (enclosedTokens lead separator tss).map written
      = enclosed (written lead) separator.text (tss.map written) := by
  by_cases h : tss = []
  · simp [enclosedTokens, enclosed, h]
  · simp [enclosedTokens, enclosed, h, written, Token.text, String.append_assoc]

/-- What stands in parentheses is not the empty text. -/
theorem written_ne_empty_of_enclosed {lead : List Token} {separator : Token}
    {tss : List (List Token)} {ts : List Token} (h : ts ∈ enclosedTokens lead separator tss) :
    written ts ≠ "" := by
  unfold enclosedTokens at h
  split at h
  · cases h
  · rw [List.mem_singleton.mp h, written_append]
    intro he
    have hclosing := (String.append_eq_empty_iff.mp he).2
    revert hclosing
    decide

/-- Every part of a filter says something. -/
theorem written_part_ne_empty {f : Filter} {ts : List Token} (h : ts ∈ f.partTokens d table) :
    written ts ≠ "" := by
  obtain ⟨groups, missing, noneOf, anyOf, allOf⟩ := f
  simp only [partTokens, List.mem_append, List.mem_flatMap, List.mem_map] at h
  rcases h with (((⟨g, _, h⟩ | ⟨t, ht, rfl⟩) | h) | h) | h
  · exact written_ne_empty_of_enclosed h
  · cases missing with
    | none => cases ht
    | some f =>
      rw [List.mem_singleton.mp ht, written]
      intro he
      have hnull := (String.append_eq_empty_iff.mp (String.append_eq_empty_iff.mp he).1).2
      revert hnull
      decide
  · exact written_ne_empty_of_enclosed h
  · exact written_ne_empty_of_enclosed h
  · exact written_ne_empty_of_enclosed h

/-- Words put together from some that say something say something. -/
theorem written_joinedTokens_ne_empty {separator : Token} {tss : List (List Token)} (hn : tss ≠ [])
    (h : ∀ ts ∈ tss, written ts ≠ "") : written (joinedTokens separator tss) ≠ "" := by
  cases tss with
  | nil => exact absurd rfl hn
  | cons ts rest =>
    have hts := h ts List.mem_cons_self
    cases rest with
    | nil => exact hts
    | cons us rest =>
      rw [joinedTokens, written_append]
      exact fun he => hts (String.append_eq_empty_iff.mp he).1

/-- Conditions as words. -/
theorem map_written_atoms (ts : List String) :
    (ts.map fun t => [Token.atom t]).map written = ts := by
  rw [List.map_map]
  refine Eq.trans (List.map_congr_left ?_) (List.map_id ts)
  intro t _
  exact String.append_empty

mutual

/-- The words of the parts are their texts. -/
@[simp]
theorem map_written_partTokens : ∀ f : Filter, (f.partTokens d table).map written = f.parts d table
  | .node groups missing noneOf anyOf allOf => by
    rw [partTokens, parts, List.map_append, List.map_append, List.map_append, List.map_append,
      List.map_flatMap, map_written_enclosedTokens, map_written_enclosedTokens,
      map_written_enclosedTokens, map_written_itemTokens noneOf, map_written_itemTokens anyOf,
      map_written_itemTokens allOf, map_written_atoms]
    simp only [map_written_enclosedTokens, map_written_atoms]
    rfl

/-- The words of the filters that say something are their texts. -/
@[simp]
theorem map_written_itemTokens : ∀ fs : List Filter,
    (itemTokens d table fs).map written = texts d table fs
  | [] => rfl
  | f :: fs => by
    rw [itemTokens, texts, List.map_append, map_written_itemTokens fs,
      ← map_written_partTokens f]
    congr 1
    by_cases h : f.partTokens d table = []
    · rw [if_pos h, h]
      rfl
    · have hne : written (joinedTokens .and (f.partTokens d table)) ≠ "" :=
        written_joinedTokens_ne_empty h fun ts hts => written_part_ne_empty hts
      simp only [written_joinedTokens, Token.text] at hne
      simp [h, spoken, Token.text, hne]

end

/-- The words of a filter are its text. -/
@[simp]
theorem written_tokens (f : Filter) : written (f.tokens d table) = f.text d table := by
  simp [tokens, text, Token.text]

/-- The text of a filter is empty when it has no parts. -/
theorem text_eq_empty_iff (f : Filter) : f.text d table = "" ↔ f.parts d table = [] := by
  rw [← map_written_partTokens, List.map_eq_nil_iff, ← written_tokens, tokens]
  constructor
  · intro he
    by_cases hn : f.partTokens d table = []
    · exact hn
    · exact absurd he (written_joinedTokens_ne_empty hn fun ts hts => written_part_ne_empty hts)
  · intro hn
    rw [hn]
    rfl

/-- A list is empty when the related one is. -/
theorem joined_none_iff_nil {α : Type} {op : Truth → Truth → Truth} {R : α → Truth → Prop}
    {xs : List α} {ts : List Truth} (h : List.Forall₂ R xs ts) :
    Truth.joined op ts = none ↔ xs = [] := by
  rw [Truth.joined_eq_none_iff]
  cases h with
  | nil => exact ⟨fun _ => rfl, fun _ => rfl⟩
  | cons _ _ =>
    constructor
    · intro he
      cases he
    · intro he
      cases he

/-- What stands in parentheses has its value, if there is anything. -/
theorem forall₂_enclosed {lead : List Token} {separator : Token} {g : Truth → Truth}
    {tss : List (List Token)} {t : Option Truth} (hn : t = none ↔ tss = [])
    (h : ∀ u, t = some u →
      OperandIs v (lead ++ .opening :: joinedTokens separator tss ++ [.closing]) (g u)) :
    List.Forall₂ (OperandIs v) (enclosedTokens lead separator tss) (t.map g).toList := by
  unfold enclosedTokens
  cases t with
  | none =>
    rw [if_pos (hn.mp rfl)]
    exact List.Forall₂.nil
  | some u =>
    rw [if_neg fun he => Option.some_ne_none u (hn.mpr he)]
    exact List.Forall₂.cons (h u rfl) List.Forall₂.nil

/-- A conjunction in parentheses. -/
theorem forall₂_allOf {tss : List (List Token)} {ts : List Truth}
    (h : List.Forall₂ (ConjunctionIs v) tss ts) :
    List.Forall₂ (OperandIs v) (enclosedTokens [] .and tss) (Truth.all? ts).toList := by
  rw [← Option.map_id' (x := Truth.all? ts)]
  refine forall₂_enclosed (joined_none_iff_nil h) ?_
  intro u hu
  exact (ConjunctionIs.joined h hu).disjunction.enclosed

/-- A disjunction in parentheses. -/
theorem forall₂_anyOf {tss : List (List Token)} {ts : List Truth}
    (h : List.Forall₂ (ConjunctionIs v) tss ts) :
    List.Forall₂ (OperandIs v) (enclosedTokens [] .or tss) (Truth.any? ts).toList := by
  rw [← Option.map_id' (x := Truth.any? ts)]
  refine forall₂_enclosed (joined_none_iff_nil h) ?_
  intro u hu
  exact (DisjunctionIs.joined h hu).enclosed

/-- A negated conjunction in parentheses. -/
theorem forall₂_noneOf {tss : List (List Token)} {ts : List Truth}
    (h : List.Forall₂ (ConjunctionIs v) tss ts) :
    List.Forall₂ (OperandIs v) (enclosedTokens [.not] .and tss)
      ((Truth.all? ts).map Truth.not).toList := by
  refine forall₂_enclosed (joined_none_iff_nil h) ?_
  intro u hu
  exact (ConjunctionIs.joined h hu).disjunction.enclosed.not

/-- Conditions have the values that are assumed for them. -/
theorem forall₂_atoms (ts : List String) :
    List.Forall₂ (OperandIs v) (ts.map fun t => [Token.atom t]) (ts.map v) := by
  rw [List.forall₂_map_left_iff, List.forall₂_map_right_iff, List.forall₂_same]
  intro t _
  exact OperandIs.atom t

/-- Groups of conditions have the conjunctions of their values. -/
theorem forall₂_groups (groups : List (List Condition)) :
    List.Forall₂ (OperandIs v)
      (groups.flatMap fun g =>
        enclosedTokens [] .and ((groupAtoms d table g).map fun t => [.atom t]))
      (groups.filterMap fun g => Truth.all? ((groupAtoms d table g).map v)) := by
  rw [List.filterMap_eq_flatMap_toList]
  induction groups with
  | nil => exact List.Forall₂.nil
  | cons g groups ih =>
    rw [List.flatMap_cons, List.flatMap_cons]
    refine List.rel_append (forall₂_allOf ?_) ih
    exact (forall₂_atoms _).imp fun _ _ h => h.conjunction

mutual

/-- The words of the parts of a filter have their values. -/
theorem forall₂_part : ∀ f : Filter,
    List.Forall₂ (OperandIs v) (f.partTokens d table) (f.partTruths d table v)
  | .node groups missing noneOf anyOf allOf => by
    rw [partTokens, partTruths]
    exact List.rel_append (List.rel_append (List.rel_append (List.rel_append
      (forall₂_groups groups) (forall₂_atoms _)) (forall₂_noneOf (forall₂_item noneOf)))
      (forall₂_anyOf (forall₂_item anyOf))) (forall₂_allOf (forall₂_item allOf))

/-- The words of filters have their values. -/
theorem forall₂_item : ∀ fs : List Filter,
    List.Forall₂ (ConjunctionIs v) (itemTokens d table fs) (itemTruths d table v fs)
  | [] => List.Forall₂.nil
  | f :: fs => by
    have hparts := (forall₂_part f).imp fun _ _ h => OperandIs.conjunction h
    rw [itemTokens, itemTruths]
    refine List.rel_append ?_ (forall₂_item fs)
    cases ht : Truth.all? (f.partTruths d table v) with
    | none =>
      rw [if_pos ((joined_none_iff_nil hparts).mp ht)]
      exact List.Forall₂.nil
    | some t =>
      rw [if_neg fun he => Option.some_ne_none t (ht ▸ (joined_none_iff_nil hparts).mpr he)]
      exact List.Forall₂.cons (ConjunctionIs.joined hparts ht) List.Forall₂.nil

end

/-- A filter says nothing when its text is empty, and otherwise its words are read as a formula with
the value of the filter. -/
theorem read_tokens (f : Filter) (v : String → Truth) :
    (f.text d table = "" ↔ Truth.all? (f.partTruths d table v) = none)
      ∧ ∀ t, Truth.all? (f.partTruths d table v) = some t →
        ∃ a, read (f.tokens d table) = some a ∧ a.eval v = t := by
  have hparts : List.Forall₂ (ConjunctionIs v) (f.partTokens d table) (f.partTruths d table v) :=
    (forall₂_part f).imp fun _ _ h => OperandIs.conjunction h
  constructor
  · rw [Truth.all?, joined_none_iff_nil hparts, text_eq_empty_iff, ← map_written_partTokens,
      List.map_eq_nil_iff]
  · intro t ht
    obtain ⟨a, ha, he⟩ := (ConjunctionIs.joined hparts ht).disjunction
    exact ⟨a, read_of_disjunction ha, he⟩

end TableGraph.Filter
