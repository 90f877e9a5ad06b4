import TableGraph.Proofs.Formula.Joining

/-!
# The conditions of a formula

The conditions that stand in words are those of the formula that the words are read as, in order:
reading drops words and parentheses but no condition.
-/

namespace TableGraph.Formula

/-- The conditions of a formula, from left to right. -/
def atoms : Formula → List String
  | atom text => [text]
  | not a => a.atoms
  | and a b => a.atoms ++ b.atoms
  | or a b => a.atoms ++ b.atoms

/-- A formula has a condition. -/
theorem atoms_ne_nil : ∀ a : Formula, a.atoms ≠ []
  | atom text => List.cons_ne_nil text []
  | not a => atoms_ne_nil a
  | and a b => List.append_ne_nil_of_left_ne_nil (atoms_ne_nil a) b.atoms
  | or a b => List.append_ne_nil_of_left_ne_nil (atoms_ne_nil a) b.atoms

/-- The condition that a word is. -/
def Token.atom? : Token → Option String
  | atom text => some text
  | not => none
  | and => none
  | or => none
  | opening => none
  | closing => none

/-- The conditions among words. -/
def atomsOf (ts : List Token) : List String := ts.filterMap Token.atom?

/-- The conditions of words one after another. -/
@[simp]
theorem atomsOf_append (ts us : List Token) : atomsOf (ts ++ us) = atomsOf ts ++ atomsOf us :=
  List.filterMap_append

/-- A word that is no condition does not count. -/
theorem atomsOf_cons {t : Token} (h : t.atom? = none) (ts : List Token) :
    atomsOf (t :: ts) = atomsOf ts := List.filterMap_cons_none h

/-- Words put together have the conditions of their parts. -/
theorem atomsOf_joinedTokens {separator : Token} (h : separator.atom? = none)
    (tss : List (List Token)) : atomsOf (joinedTokens separator tss) = tss.flatMap atomsOf := by
  induction tss with
  | nil => rfl
  | cons ts rest ih =>
    cases rest with
    | nil => simp [joinedTokens]
    | cons us rest => simp [joinedTokens, atomsOf_cons h, ih]

/-- Words put together inside parentheses have the conditions of their parts. -/
theorem flatMap_atomsOf_enclosedTokens {lead : List Token} (hl : atomsOf lead = [])
    {separator : Token} (h : separator.atom? = none) (tss : List (List Token)) :
    (enclosedTokens lead separator tss).flatMap atomsOf = tss.flatMap atomsOf := by
  unfold enclosedTokens
  by_cases hn : tss = []
  · simp [hn]
  · have hclosing : atomsOf [.closing] = [] := rfl
    have hopening : ∀ ts, atomsOf (.opening :: ts) = atomsOf ts := atomsOf_cons rfl
    simp [hn, hl, hopening, hclosing, atomsOf_joinedTokens h]

mutual

/-- An operand has the conditions of the words it is read from. -/
theorem atomsOf_of_operand : ∀ (n : Nat) (ts : List Token) {a : Formula} {rest : List Token},
    operand n ts = some (a, rest) → atomsOf ts = a.atoms ++ atomsOf rest
  | n, .atom text :: ts, a, rest, h => by
    rw [operand] at h
    cases h
    rfl
  | n + 1, .not :: ts, a, rest, h => by
    rw [operand] at h
    split at h
    · rename_i b rest' hb
      have hoperand := atomsOf_of_operand n ts hb
      cases h
      exact hoperand
    · cases h
  | n + 1, .opening :: ts, a, rest, h => by
    rw [operand] at h
    split at h
    · rename_i b rest' hb
      have henclosed := atomsOf_of_disjunction n ts hb
      cases h
      exact henclosed
    · cases h
  | 0, .not :: _, _, _, h => by simp [operand] at h
  | 0, .opening :: _, _, _, h => by simp [operand] at h
  | _, .and :: _, _, _, h => by simp [operand] at h
  | _, .or :: _, _, _, h => by simp [operand] at h
  | _, .closing :: _, _, _, h => by simp [operand] at h
  | _, [], _, _, h => by simp [operand] at h

/-- A conjunction has the conditions of the words it is read from. -/
theorem atomsOf_of_conjunction : ∀ (n : Nat) (ts : List Token) {a : Formula} {rest : List Token},
    conjunction n ts = some (a, rest) → atomsOf ts = a.atoms ++ atomsOf rest
  | 0, _, _, _, h => by simp [conjunction] at h
  | n + 1, ts, a, rest, h => by
    rw [conjunction] at h
    split at h
    · rename_i b rest' hb
      have hfirst := atomsOf_of_operand n ts hb
      split at h
      · rename_i c rest'' hc
        cases h
        have hmore := atomsOf_of_conjunction n rest' hc
        rw [hfirst, atomsOf_cons rfl, hmore, atoms, List.append_assoc]
      · cases h
    · exact atomsOf_of_operand n ts h

/-- An expression has the conditions of the words it is read from. -/
theorem atomsOf_of_disjunction : ∀ (n : Nat) (ts : List Token) {a : Formula} {rest : List Token},
    disjunction n ts = some (a, rest) → atomsOf ts = a.atoms ++ atomsOf rest
  | 0, _, _, _, h => by simp [disjunction] at h
  | n + 1, ts, a, rest, h => by
    rw [disjunction] at h
    split at h
    · rename_i b rest' hb
      have hfirst := atomsOf_of_conjunction n ts hb
      split at h
      · rename_i c rest'' hc
        cases h
        have hmore := atomsOf_of_disjunction n rest' hc
        rw [hfirst, atomsOf_cons rfl, hmore, atoms, List.append_assoc]
      · cases h
    · exact atomsOf_of_conjunction n ts h

end

/-- A formula has the conditions of the words it is read from. -/
theorem atoms_of_read {ts : List Token} {a : Formula} (h : read ts = some a) :
    a.atoms = atomsOf ts := by
  unfold read at h
  split at h
  · rename_i b hb
    cases h
    have hatoms := atomsOf_of_disjunction _ _ hb
    rw [hatoms]
    exact (List.append_nil _).symm
  · cases h

end TableGraph.Formula
