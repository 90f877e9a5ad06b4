import TableGraph.Name.Scope

/-!
# Escaped forms are names

What stands for a character that does not fit consists of underscores, and so does what is put in
front where a text is empty or starts with a digit. So whatever the text is, its form begins and goes
on as a name does.
-/

namespace TableGraph.Name

/-- An underscore or a letter without accents. -/
def BeginsName (c : Char) : Prop := c = '_' ∨ ('a' ≤ c ∧ c ≤ 'z') ∨ ('A' ≤ c ∧ c ≤ 'Z')

/-- An underscore, a letter without accents or a digit. -/
def ContinuesName (c : Char) : Prop := BeginsName c ∨ ('0' ≤ c ∧ c ≤ '9')

/-- A name of the graph, as its grammar has it. -/
def IsName (s : String) : Prop :=
  ∃ c cs, s.toList = c :: cs ∧ BeginsName c ∧ ∀ d ∈ cs, ContinuesName d

/-- Characters that names begin with are recognized. -/
theorem isStart_iff (c : Char) : isStart c = true ↔ BeginsName c := by
  simp only [isStart, isLetter, BeginsName, Bool.or_eq_true, Bool.and_eq_true, decide_eq_true_eq]

/-- Characters that names go on with are recognized. -/
theorem isPart_iff (c : Char) : isPart c = true ↔ ContinuesName c := by
  simp only [isPart, ContinuesName, isStart_iff, Bool.or_eq_true, Bool.and_eq_true, decide_eq_true_eq]

/-- Names are recognized. -/
theorem isValid_iff (s : String) : isValid s = true ↔ IsName s := by
  unfold isValid IsName
  cases s.toList with
  | nil => simp
  | cons c cs =>
    dsimp only
    rw [Bool.and_eq_true, List.all_eq_true, isStart_iff]
    simp only [isPart_iff]
    constructor
    · exact fun h => ⟨c, cs, rfl, h⟩
    · rintro ⟨_, _, ⟨⟩, h⟩
      exact h

/-- A character that goes on a name and is no digit may begin one. -/
theorem isStart_of_isPart {c : Char} (h : isPart c = true) (hdigit : ¬('0' ≤ c && c ≤ '9') = true) :
    isStart c = true := by
  rw [isPart, Bool.or_eq_true] at h
  exact h.resolve_right hdigit

/-- Underscores with what goes on a name behind them are a name. -/
theorem isValid_placeholder_append (k : Nat) {cs : List Char} (h : cs.all isPart = true) :
    isValid (String.ofList (placeholder k ++ cs)) = true := by
  have hcons : placeholder k ++ cs = '_' :: (List.replicate (k + 1) '_' ++ cs) := rfl
  have hparts : (List.replicate (k + 1) '_' ++ cs).all isPart = true := by
    rw [List.all_append, h, Bool.and_true, List.all_replicate]
    exact if_neg (Nat.succ_ne_zero k)
  rw [isValid, String.toList_ofList, hcons]
  exact Bool.and_eq_true_iff.mpr ⟨rfl, hparts⟩

/-- Where characters that do not fit are replaced, all characters fit. -/
theorem all_isPart_replaced (k : Nat) (cs : List Char) :
    (cs.flatMap fun c => if isPart c then [c] else placeholder k).all isPart = true := by
  rw [List.all_eq_true]
  intro d hd
  obtain ⟨c, _, hd⟩ := List.mem_flatMap.mp hd
  by_cases hc : isPart c = true
  · rw [if_pos hc, List.mem_singleton] at hd
    rw [hd, hc]
  · rw [if_neg hc] at hd
    rw [List.eq_of_mem_replicate hd]
    rfl

/-- A text becomes a name when characters that do not fit are replaced. -/
@[simp]
theorem isValid_substitute (k : Nat) (s : String) :
    isValid (substitute (placeholder k) s) = true := by
  have hall := all_isPart_replaced k s.toList
  unfold substitute
  dsimp only
  cases hs : s.toList with
  | nil =>
    have hempty : isValid (String.ofList (placeholder k ++ [])) = true :=
      isValid_placeholder_append k rfl
    rwa [List.append_nil] at hempty
  | cons c cs =>
    rw [hs] at hall
    dsimp only
    by_cases hdigit : ('0' ≤ c && c ≤ '9') = true
    · rw [if_pos hdigit]
      exact isValid_placeholder_append k hall
    · rw [if_neg hdigit]
      rw [List.flatMap_cons, List.all_append, Bool.and_eq_true] at hall
      rw [List.flatMap_cons]
      by_cases hc : isPart c = true
      · rw [if_pos hc, isValid, String.toList_ofList]
        exact Bool.and_eq_true_iff.mpr ⟨isStart_of_isPart hc hdigit, hall.2⟩
      · rw [if_neg hc]
        exact isValid_placeholder_append k hall.2

/-- The form of a text is a name. -/
theorem Scope.isValid_pick (all issued : List String) (name : String) :
    isValid (pick all issued name) = true := by
  unfold pick
  cases h : isValid name with
  | true => exact h
  | false => exact isValid_substitute _ name

end TableGraph.Name
