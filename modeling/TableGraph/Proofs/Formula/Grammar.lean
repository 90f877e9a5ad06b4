import TableGraph.Proofs.Formula.Basic
import TableGraph.Text.Joined

/-!
# How a formula is read

The text of a formula as words and conditions, and the reader that gives `NOT` precedence over `AND`
and `AND` over `OR`. What the grammar derives is what the reader reads, so a text has one reading.
-/

namespace TableGraph.Formula

/-- A word or condition. -/
inductive Token where
  /-- A condition, not looked into. -/
  | atom (text : String)
  /-- The word for a negation. -/
  | not
  /-- The word for a conjunction. -/
  | and
  /-- The word for a disjunction. -/
  | or
  /-- An opening parenthesis. -/
  | opening
  /-- A closing parenthesis. -/
  | closing
  deriving DecidableEq, Repr, Inhabited

/-- A word or condition as it is written. -/
def Token.text : Token → String
  | atom text => text
  | not => "NOT "
  | and => " AND "
  | or => " OR "
  | opening => "("
  | closing => ")"

/-- Words and conditions written one after another. -/
def written : List Token → String
  | [] => ""
  | t :: ts => t.text ++ written ts

mutual

/-- Reads a condition, a negated operand or an expression in parentheses. -/
def operand : Nat → List Token → Option (Formula × List Token)
  | _, .atom text :: rest => some (.atom text, rest)
  | n + 1, .not :: rest =>
    match operand n rest with
    | some (a, rest) => some (.not a, rest)
    | none => none
  | n + 1, .opening :: rest =>
    match disjunction n rest with
    | some (a, .closing :: rest) => some (a, rest)
    | _ => none
  | _, _ => none

/-- Reads operands as long as `AND` follows. -/
def conjunction : Nat → List Token → Option (Formula × List Token)
  | 0, _ => none
  | n + 1, ts =>
    match operand n ts with
    | some (a, .and :: rest) =>
      match conjunction n rest with
      | some (b, rest) => some (.and a b, rest)
      | none => none
    | other => other

/-- Reads conjunctions as long as `OR` follows. -/
def disjunction : Nat → List Token → Option (Formula × List Token)
  | 0, _ => none
  | n + 1, ts =>
    match conjunction n ts with
    | some (a, .or :: rest) =>
      match disjunction n rest with
      | some (b, rest) => some (.or a b, rest)
      | none => none
    | other => other

end

/-- The formula that words and conditions stand for. Reading descends at most three steps at each of
them. -/
def read (ts : List Token) : Option Formula :=
  match disjunction (3 * ts.length + 2) ts with
  | some (a, []) => some a
  | _ => none

mutual

/-- Words that are an operand. -/
inductive Operand : List Token → Formula → Prop
  /-- A condition. -/
  | atom (text : String) : Operand [.atom text] (.atom text)
  /-- A negated operand. -/
  | not {ts : List Token} {a : Formula} (h : Operand ts a) : Operand (.not :: ts) (.not a)
  /-- An expression in parentheses. -/
  | enclosed {ts : List Token} {a : Formula} (h : Disjunction ts a) :
    Operand (.opening :: ts ++ [.closing]) a

/-- Words that are operands with `AND` between them. -/
inductive Conjunction : List Token → Formula → Prop
  /-- One operand. -/
  | one {ts : List Token} {a : Formula} (h : Operand ts a) : Conjunction ts a
  /-- One more operand. -/
  | more {ts us : List Token} {a b : Formula} (h : Operand ts a) (rest : Conjunction us b) :
    Conjunction (ts ++ .and :: us) (.and a b)

/-- Words that are conjunctions with `OR` between them. -/
inductive Disjunction : List Token → Formula → Prop
  /-- One conjunction. -/
  | one {ts : List Token} {a : Formula} (h : Conjunction ts a) : Disjunction ts a
  /-- One more conjunction. -/
  | more {ts us : List Token} {a b : Formula} (h : Conjunction ts a) (rest : Disjunction us b) :
    Disjunction (ts ++ .or :: us) (.or a b)

end

mutual

/-- An operand is read as such, whatever follows. -/
theorem operand_eq : ∀ {ts : List Token} {a : Formula}, Operand ts a →
    ∀ (n : Nat) (rest : List Token), 3 * ts.length ≤ n → operand n (ts ++ rest) = some (a, rest)
  | _, _, .atom text, n, rest, _ => by
    rw [List.singleton_append]
    cases n <;> rfl
  | _, _, @Operand.not ts a h, n, rest, hn => by
    rw [List.length_cons] at hn
    obtain ⟨m, rfl⟩ : ∃ m, n = m + 1 := ⟨n - 1, by omega⟩
    rw [List.cons_append, operand, operand_eq h m rest (by omega)]
  | _, _, @Operand.enclosed ts a h, n, rest, hn => by
    rw [List.length_append, List.length_cons, List.length_singleton] at hn
    obtain ⟨m, rfl⟩ : ∃ m, n = m + 1 := ⟨n - 1, by omega⟩
    have hd := disjunction_eq h m (.closing :: rest) (by omega) (by simp) (by simp)
    rw [List.append_assoc, List.cons_append, List.singleton_append, operand, hd]

/-- A conjunction is read as such when no `AND` follows. -/
theorem conjunction_eq : ∀ {ts : List Token} {a : Formula}, Conjunction ts a →
    ∀ (n : Nat) (rest : List Token), 3 * ts.length + 1 ≤ n → rest.head? ≠ some .and →
      conjunction n (ts ++ rest) = some (a, rest)
  | _, _, .one h, n, rest, hn, hr => by
    obtain ⟨m, rfl⟩ : ∃ m, n = m + 1 := ⟨n - 1, by omega⟩
    rw [conjunction, operand_eq h m rest (by omega)]
    cases rest with
    | nil => rfl
    | cons t rest => cases t <;> first | rfl | exact absurd rfl hr
  | _, _, @Conjunction.more ts us a b h tail, n, rest, hn, hr => by
    rw [List.length_append, List.length_cons] at hn
    obtain ⟨m, rfl⟩ : ∃ m, n = m + 1 := ⟨n - 1, by omega⟩
    rw [List.append_assoc, List.cons_append, conjunction, operand_eq h m _ (by omega)]
    simp only [conjunction_eq tail m rest (by omega) hr]

/-- An expression is read as such when no `AND` or `OR` follows. -/
theorem disjunction_eq : ∀ {ts : List Token} {a : Formula}, Disjunction ts a →
    ∀ (n : Nat) (rest : List Token), 3 * ts.length + 2 ≤ n → rest.head? ≠ some .and →
      rest.head? ≠ some .or → disjunction n (ts ++ rest) = some (a, rest)
  | _, _, .one h, n, rest, hn, ha, ho => by
    obtain ⟨m, rfl⟩ : ∃ m, n = m + 1 := ⟨n - 1, by omega⟩
    rw [disjunction, conjunction_eq h m rest (by omega) ha]
    cases rest with
    | nil => rfl
    | cons t rest => cases t <;> first | rfl | exact absurd rfl ho
  | _, _, @Disjunction.more ts us a b h tail, n, rest, hn, ha, ho => by
    rw [List.length_append, List.length_cons] at hn
    obtain ⟨m, rfl⟩ : ∃ m, n = m + 1 := ⟨n - 1, by omega⟩
    rw [List.append_assoc, List.cons_append, disjunction,
      conjunction_eq h m _ (by omega) (by simp)]
    simp only [disjunction_eq tail m rest (by omega) ha ho]

end

/-- What the grammar derives is what is read. -/
theorem read_of_disjunction {ts : List Token} {a : Formula} (h : Disjunction ts a) :
    read ts = some a := by
  have hd := disjunction_eq h (3 * ts.length + 2) [] (Nat.le_refl _) (by simp) (by simp)
  rw [List.append_nil] at hd
  rw [read, hd]

end TableGraph.Formula
