import TableGraph.Proofs.Listing

/-!
# First appearances in order

The items of a list may come again after others that stand behind them; only where each appears
first is in order. This is kept when items are looked at in parts: of two parts the one appears
first that is part of an item standing before every item the other is part of. Thinning a list out
to the first of equal items leaves just the first appearances.
-/

namespace TableGraph

section

variable {α β : Type}

/-- Of items looked at and thinned out, one stands before another only if some item it was made of
stands before every item the other may be made of. -/
theorem pairwise_distinctFrom_filterMap [DecidableEq β] {R : α → α → Prop} (f : α → Option β)
    (seen : List β) {xs : List α} (h : xs.Pairwise R) :
    (distinctFrom id seen (xs.filterMap f)).Pairwise fun b c =>
      ∃ x ∈ xs, f x = some b ∧ ∀ y ∈ xs, f y = some c → R x y := by
  induction xs generalizing seen with
  | nil => exact List.Pairwise.nil
  | cons z zs ih =>
    obtain ⟨hz, hzs⟩ := List.pairwise_cons.mp h
    -- What is left of the later items is made of them alone, since the first item has been seen.
    have htail : ∀ seen', (∀ b, f z = some b → b ∈ seen') →
        (distinctFrom id seen' (zs.filterMap f)).Pairwise fun b c =>
          ∃ x ∈ z :: zs, f x = some b ∧ ∀ y ∈ z :: zs, f y = some c → R x y := by
      intro seen' hseen
      refine (ih seen' hzs).imp_of_mem ?_
      rintro b c _ hc ⟨x, hx, hxb, hxc⟩
      refine ⟨x, List.mem_cons_of_mem _ hx, hxb, ?_⟩
      intro y hy hyc
      rcases List.mem_cons.mp hy with rfl | hy
      · exact absurd (hseen c hyc) (mem_distinctFrom.mp hc).2
      · exact hxc y hy hyc
    cases hfz : f z with
    | none =>
      rw [List.filterMap_cons_none hfz]
      exact htail seen fun b hb => nomatch hfz.symm.trans hb
    | some b =>
      rw [List.filterMap_cons_some hfz]
      simp only [distinctFrom, id_eq]
      by_cases hb : b ∈ seen
      · rw [if_pos hb]
        exact htail seen fun b' hb' => Option.some.inj (hfz.symm.trans hb') ▸ hb
      · rw [if_neg hb, List.pairwise_cons]
        refine ⟨?_, htail _ fun b' hb' => Option.some.inj (hfz.symm.trans hb') ▸ List.mem_cons_self⟩
        intro c hc
        refine ⟨z, List.mem_cons_self, hfz, ?_⟩
        intro y hy hyc
        rcases List.mem_cons.mp hy with rfl | hy
        · exact absurd (Option.some.inj (hfz.symm.trans hyc) ▸ List.mem_cons_self)
            (mem_distinctFrom.mp hc).2
        · exact hz y hy

open Classical in
/-- A list has the items of another one, and where each appears first is in order. -/
structure FirstsInOrder (R : α → α → Prop) (xs ys : List α) : Prop where
  /-- The items are the same. -/
  same : ∀ x, x ∈ xs ↔ x ∈ ys
  /-- The first appearances are in order. -/
  ordered : (distinctBy id xs).Pairwise R

namespace FirstsInOrder

variable {R : α → α → Prop} {xs ys : List α}

/-- The first appearances in a list that is in order are in order. -/
theorem of_pairwise (same : ∀ x, x ∈ xs ↔ x ∈ ys) (h : xs.Pairwise R) : FirstsInOrder R xs ys := by
  classical
  exact ⟨same, h.sublist (distinctFrom_sublist id [] xs)⟩

/-- The first appearances are in order however items are compared for equality. -/
theorem pairwise [DecidableEq α] (h : FirstsInOrder R xs ys) : (distinctBy id xs).Pairwise R := by
  convert h.ordered

/-- What is looked at of the items is in order, if it is whenever an item it is looked at in stands
before every item the other may be looked at in. -/
theorem filterMap {S : β → β → Prop} {f : α → Option β} (h : FirstsInOrder R xs ys)
    (hf : ∀ x ∈ ys, ∀ b c, f x = some b → c ∈ ys.filterMap f →
      (∀ y ∈ ys, f y = some c → R x y) → S b c) :
    FirstsInOrder S (xs.filterMap f) (ys.filterMap f) := by
  classical
  have hmem : ∀ z, z ∈ distinctBy id xs ↔ z ∈ ys := fun z => mem_distinctBy.trans (h.same z)
  have hsame : ∀ b, b ∈ xs.filterMap f ↔ b ∈ ys.filterMap f := by
    intro b
    rw [List.mem_filterMap, List.mem_filterMap]
    simp only [h.same]
  refine ⟨hsame, ?_⟩
  have hthin : distinctBy id (distinctBy id xs) = distinctBy id xs :=
    distinctFrom_of_nodup (by rw [List.map_id]; exact nodup_distinctBy xs) fun _ _ => List.not_mem_nil
  rw [← distinctBy_filterMap_congr f hthin]
  refine (pairwise_distinctFrom_filterMap f [] h.ordered).imp_of_mem ?_
  rintro b c _ hc ⟨x, hx, hxb, hxc⟩
  rw [mem_distinctFrom, List.mem_filterMap] at hc
  obtain ⟨⟨y, hy, hyc⟩, _⟩ := hc
  refine hf x ((hmem x).mp hx) b c hxb (List.mem_filterMap.mpr ⟨y, (hmem y).mp hy, hyc⟩) ?_
  exact fun z hz hzc => hxc z ((hmem z).mpr hz) hzc

end FirstsInOrder

/-- The items of a list, each once and in the order of first appearance. -/
structure FirstAppearances [DecidableEq α] (xs ys : List α) : Prop where
  /-- No item is listed twice. -/
  once : ys.Nodup
  /-- The items are the same. -/
  same : ∀ x, x ∈ ys ↔ x ∈ xs
  /-- Of two items the one stands first that appears first. -/
  ordered : ys.Pairwise fun x y => xs.idxOf x < xs.idxOf y

/-- A list thinned out to the first of equal items is the list of first appearances. -/
theorem firstAppearances_distinctBy [DecidableEq α] (xs : List α) :
    FirstAppearances xs (distinctBy id xs) := by
  refine ⟨nodup_distinctBy xs, fun x => mem_distinctBy, ?_⟩
  induction xs using List.reverseRecOn with
  | nil => exact List.Pairwise.nil
  | append_singleton xs x ih =>
    have hkept : (distinctBy id xs).Pairwise fun a b =>
        (xs ++ [x]).idxOf a < (xs ++ [x]).idxOf b := by
      refine ih.imp_of_mem fun {a b} ha hb hab => ?_
      rwa [List.idxOf_append_of_mem (mem_distinctBy.mp ha),
        List.idxOf_append_of_mem (mem_distinctBy.mp hb)]
    rw [distinctBy_concat, List.map_id, id_eq]
    by_cases hx : x ∈ xs
    · rw [if_pos hx, List.append_nil]
      exact hkept
    · rw [if_neg hx, List.pairwise_append]
      refine ⟨hkept, List.pairwise_singleton _ _, fun a ha b hb => ?_⟩
      obtain rfl := List.mem_singleton.mp hb
      have ha := mem_distinctBy.mp ha
      have hlast : (xs ++ [b]).idxOf b = xs.length := by
        rw [List.idxOf_append_of_notMem hx, List.idxOf_cons_self, Nat.add_zero]
      rw [List.idxOf_append_of_mem ha, hlast]
      exact List.idxOf_lt_length_of_mem ha

end

end TableGraph
