import Mathlib.Data.List.TakeWhile
import Mathlib.Logic.Basic

/-!
# Cutting a text

A text is cut where a condition on its characters stops to hold. What is kept goes on as far as it can,
so the cut is known from any way to write the text as characters that are kept and a rest that does not
start with one.
-/

namespace TableGraph.Text

variable {p : Char → Bool} {mark : Char} {cs xs ys : List Char}

/-- Where a text is cut: what is kept goes on as far as it can. -/
theorem cut_iff : (cs.takeWhile p = xs ∧ cs.dropWhile p = ys) ↔
    cs = xs ++ ys ∧ (∀ c ∈ xs, p c = true) ∧ ∀ c rest, ys = c :: rest → p c = false := by
  constructor
  · rintro ⟨rfl, rfl⟩
    refine ⟨List.takeWhile_append_dropWhile.symm, fun c hc => List.mem_takeWhile_imp hc, ?_⟩
    intro c rest hcons
    have hhead := List.head?_dropWhile_not p cs
    rwa [hcons, List.head?_cons] at hhead
  · rintro ⟨rfl, hxs, hys⟩
    rw [List.takeWhile_append_of_pos hxs, List.dropWhile_append_of_pos hxs]
    cases ys with
    | nil => exact ⟨List.append_nil xs, rfl⟩
    | cons c rest =>
      have hneg : ¬p c = true := Bool.eq_false_iff.mp (hys c rest rfl)
      rw [List.takeWhile_cons_of_neg hneg, List.dropWhile_cons_of_neg hneg, List.append_nil]
      exact ⟨rfl, rfl⟩

/-- A text is what is kept, which goes on as far as it can, and what is left. -/
theorem eq_kept_append_left (p : Char → Bool) (cs : List Char) :
    cs = cs.takeWhile p ++ cs.dropWhile p ∧ (∀ c ∈ cs.takeWhile p, p c = true) ∧
      ∀ c rest, cs.dropWhile p = c :: rest → p c = false :=
  cut_iff.mp ⟨rfl, rfl⟩

/-- What is kept goes on up to what is not. -/
theorem cut_append_cons {m : Char} (hxs : ∀ c ∈ xs, p c = true) (hm : p m = false)
    (ys : List Char) :
    (xs ++ m :: ys).takeWhile p = xs ∧ (xs ++ m :: ys).dropWhile p = m :: ys :=
  cut_iff.mpr ⟨rfl, hxs, fun _ _ hcons => (List.cons.inj hcons).1 ▸ hm⟩

/-- Characters other than a mark are kept in front of it. -/
theorem decide_ne_of_not_mem (h : mark ∉ cs) : ∀ c ∈ cs, decide (c ≠ mark) = true := by
  intro c hc
  rw [decide_eq_true_iff]
  rintro rfl
  exact h hc

/-- A mark is not kept. -/
theorem decide_ne_self (mark : Char) : decide (mark ≠ mark) = false :=
  decide_eq_false fun h => h rfl

/-- Where cutting stops at a mark, the mark is found. -/
theorem eq_mark_of_dropWhile {d : Char} (h : cs.dropWhile (· ≠ mark) = d :: ys) : d = mark := by
  have hd := (cut_iff.mp ⟨rfl, h⟩).2.2 d ys rfl
  rwa [decide_eq_false_iff_not, not_not] at hd

/-- A mark is not among the characters in front of the first one. -/
theorem not_mem_takeWhile_ne (mark : Char) (cs : List Char) : mark ∉ cs.takeWhile (· ≠ mark) := by
  intro hmem
  have hne := List.mem_takeWhile_imp hmem
  rw [decide_ne_self] at hne
  cases hne

/-- A text is cut at the first of its marks. -/
theorem cut_at_mark (h : mark ∉ xs) (ys : List Char) :
    (xs ++ mark :: ys).takeWhile (· ≠ mark) = xs ∧
      (xs ++ mark :: ys).dropWhile (· ≠ mark) = mark :: ys :=
  cut_append_cons (decide_ne_of_not_mem h) (decide_ne_self mark) ys

/-- A text without a mark is kept whole. -/
theorem cut_without_mark (h : mark ∉ cs) :
    cs.takeWhile (· ≠ mark) = cs ∧ cs.dropWhile (· ≠ mark) = [] :=
  ⟨List.takeWhile_eq_self_iff.mpr (decide_ne_of_not_mem h),
    List.dropWhile_eq_nil_iff.mpr (decide_ne_of_not_mem h)⟩

end TableGraph.Text
