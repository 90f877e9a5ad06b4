import TableGraph.Proofs.Page.Cuts

/-!
# The flags of a page

`hasNextPage` tells whether `first` leaves out items that the cursors leave, and `hasPreviousPage`
whether `last` leaves out items that `first` leaves. This holds for cursors that name an item of the
list and for texts that are no cursors at all. A cursor with a number that lies outside of the list
cuts nothing, but it still bounds the flag on its side, which then says the same whatever is left
out.
-/

namespace TableGraph.Page

variable {α : Type} {items : List α} {a : Arguments}

/-- Items are left out behind the page only if `first` is given. -/
theorem Arguments.LeavesBehind.isSome (h : a.LeavesBehind items) : a.first.isSome = true := by
  obtain ⟨n, hn, _⟩ := h
  rw [hn]
  rfl

/-- Items are left out in front of the page only if `last` is given. -/
theorem Arguments.LeavesInFront.isSome (h : a.LeavesInFront items) : a.last.isSome = true := by
  obtain ⟨n, hn, _⟩ := h
  rw [hn]
  rfl

/-- With a number for a cursor, the flag behind the page tells whether items are left out, unless the
number lies outside of the list: below it the flag is never set, and above it whenever `first` is
given. -/
theorem stop_lt_iff {w : Window} {length : Nat} (hw : w.Within length) {given out : Prop}
    (hgiven : out → given) {i : Int}
    (hout : w.stop < (if holds length i then i else length) ↔ out) :
    (given ∧ w.stop < i ↔ out) ↔ (i < 0 → ¬out) ∧ (length < i → given → out) := by
  have hstop := hw.stop_nonneg
  have hstop' := hw.stop_le
  by_cases hbelow : i < 0
  · have hnot : ¬w.stop < i := by omega
    have habove : ¬(length : Int) < i := by omega
    simp [hnot, hbelow, habove]
  · by_cases habove : (length : Int) < i
    · have hlt : w.stop < i := by omega
      simp only [hlt, habove, hbelow, and_true, forall_const, false_implies, true_and]
      exact ⟨fun h => h.mp, fun h => ⟨h, hgiven⟩⟩
    · have hbound : (if holds length i then i else (length : Int)) = i := by
        by_cases hinside : 0 ≤ i ∧ i < length
        · rw [if_pos (holds_iff.mpr hinside)]
        · rw [if_neg (mt holds_iff.mp hinside)]
          omega
      rw [hbound] at hout
      simp only [hout, hbelow, habove, false_implies, and_self, iff_true]
      exact ⟨fun h => h.2, fun h => ⟨hgiven h, h⟩⟩

/-- With a number for a cursor, the flag in front of the page tells whether items are left out, unless
the number lies outside of the list: below it the flag is set whenever `last` is given, and above it
never. -/
theorem lt_start_iff {w : Window} {length : Nat} (hw : w.Within length) {given out : Prop}
    (hgiven : out → given) {i : Int}
    (hout : (if holds length i then i + 1 else 0) < w.start ↔ out) :
    (given ∧ i + 1 < w.start ↔ out) ↔ (i < -1 → given → out) ∧ (length ≤ i → ¬out) := by
  have hstart := hw.start_nonneg
  have hstart' := hw.start_le
  by_cases hbelow : i < -1
  · have hlt : i + 1 < w.start := by omega
    have habove : ¬(length : Int) ≤ i := by omega
    simp only [hlt, habove, hbelow, and_true, forall_const, false_implies]
    exact ⟨fun h => h.mp, fun h => ⟨h, hgiven⟩⟩
  · by_cases habove : (length : Int) ≤ i
    · have hnot : ¬i + 1 < w.start := by omega
      simp [hnot, hbelow, habove]
    · have hbound : (if holds length i then i + 1 else 0) = i + 1 := by
        by_cases hinside : 0 ≤ i ∧ i < length
        · rw [if_pos (holds_iff.mpr hinside)]
        · rw [if_neg (mt holds_iff.mp hinside)]
          omega
      rw [hbound] at hout
      simp only [hout, hbelow, habove, false_implies, and_self, iff_true]
      exact ⟨fun h => h.2, fun h => ⟨hgiven h, h⟩⟩

/-- The flags of a page agree with what is left out just when no cursor with a number outside of the
list misleads them. Behind the page, `before` with a number below the list must find that `first`
leaves out nothing, and with one above it that `first`, if given, leaves out items. In front of the
page, `after` with a number below the list must find that `last`, if given, leaves out items, and with
one above it that `last` leaves out nothing. -/
theorem flagsAgree_iff (items : List α) (a : Arguments) (h : ¬a.Negative) :
    ∃ c, Connection.ofList items a = .ok c
      ∧ ((c.hasNext = true ↔ a.LeavesBehind items) ↔ ∀ i, a.before.bind offset? = some i →
        (i < 0 → ¬a.LeavesBehind items)
          ∧ (items.length < i → a.first.isSome = true → a.LeavesBehind items))
      ∧ ((c.hasPrevious = true ↔ a.LeavesInFront items) ↔ ∀ i, a.after.bind offset? = some i →
        (i < -1 → a.last.isSome = true → a.LeavesInFront items)
          ∧ (items.length ≤ i → ¬a.LeavesInFront items)) := by
  obtain ⟨w, hw, hwithin, _, hbehind, hfront⟩ := Arguments.exists_window items h
  refine ⟨_, ofList_of_window hw, ?_, ?_⟩
  · have hnext := stop_lt_iff hwithin Arguments.LeavesBehind.isSome hbehind
    simp only [Bool.and_eq_true, decide_eq_true_eq]
    rw [hnext, Arguments.beforeOffset]
    cases hplace : a.before.bind offset? with
    | none => simp
    | some i => simp
  · have hprevious := lt_start_iff hwithin Arguments.LeavesInFront.isSome hfront
    simp only [Bool.and_eq_true, decide_eq_true_eq]
    rw [hprevious, Arguments.afterOffset]
    cases hplace : a.after.bind offset? with
    | none =>
      have hinside : ¬(items.length : Int) ≤ -1 := by omega
      simp [hinside]
    | some i => simp

/-- The page of five letters in front of the cursor of a seventh one. -/
def staleLetters : Arguments where
  first := some 5
  before := some (cursor 6)

/-- The page holds all letters, but its flag says that there are more behind it. -/
theorem not_flagsAgree_staleLetters : ¬staleLetters.Negative
    ∧ ∃ c, Connection.ofList letters staleLetters = .ok c ∧ c.hasNext = true
      ∧ ¬staleLetters.LeavesBehind letters := by
  have hneg : ¬staleLetters.Negative := by simp [Arguments.Negative, staleLetters]
  have hoffset : staleLetters.before.bind offset? = some 6 := by
    rw [staleLetters, Option.bind_some, offset?_cursor (by omega)]
    rfl
  have hleft : ¬staleLetters.LeavesBehind letters := by
    rintro ⟨n, hn, hlt⟩
    have hcount : n = 5 := (Option.some.inj hn).symm
    have hlength : (staleLetters.left letters).length ≤ (placed letters).length :=
      List.length_filter_le _ _
    have hall : (placed letters).length = 5 := rfl
    omega
  obtain ⟨c, hc, hnext, _⟩ := flagsAgree_iff letters staleLetters hneg
  refine ⟨hneg, c, hc, ?_, hleft⟩
  -- The flag would agree only if items were left out.
  by_contra hunset
  have hagree : c.hasNext = true ↔ staleLetters.LeavesBehind letters := iff_of_false hunset hleft
  exact hleft ((hnext.mp hagree 6 hoffset).2 (by decide) rfl)

end TableGraph.Page
