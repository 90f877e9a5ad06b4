/-!
# Formulas

Boolean expressions over conditions that are not looked into, with values in the three-valued logic
of the database: a comparison with a missing value is neither true nor false.
-/

namespace TableGraph

/-- Truth values. -/
inductive Truth where
  /-- False. -/
  | no
  /-- Neither true nor false. -/
  | unknown
  /-- True. -/
  | yes
  deriving DecidableEq, Repr, Inhabited

namespace Truth

/-- Negation. -/
def not : Truth → Truth
  | no => yes
  | unknown => unknown
  | yes => no

/-- Conjunction: false as soon as one side is. -/
def and : Truth → Truth → Truth
  | no, _ => no
  | _, no => no
  | yes, b => b
  | a, yes => a
  | unknown, unknown => unknown

/-- Disjunction: true as soon as one side is. -/
def or : Truth → Truth → Truth
  | yes, _ => yes
  | _, yes => yes
  | no, b => b
  | a, no => a
  | unknown, unknown => unknown

/-- How conjunctions are grouped does not matter. -/
theorem and_assoc (a b c : Truth) : (a.and b).and c = a.and (b.and c) := by
  cases a <;> cases b <;> cases c <;> rfl

instance : Std.Associative Truth.and := ⟨and_assoc⟩

/-- Values joined by an operation; there is none for no values. -/
def joined (op : Truth → Truth → Truth) : List Truth → Option Truth
  | [] => none
  | t :: ts => Option.merge op (some t) (joined op ts)

/-- The conjunction of values, if there are any. -/
def all? (ts : List Truth) : Option Truth := joined and ts

/-- The disjunction of values, if there are any. -/
def any? (ts : List Truth) : Option Truth := joined or ts

section

variable (op : Truth → Truth → Truth)

/-- Values joined have a value when there are any. -/
theorem joined_eq_none_iff {ts : List Truth} : joined op ts = none ↔ ts = [] := by
  cases ts with
  | nil => exact ⟨fun _ => rfl, fun _ => rfl⟩
  | cons t ts =>
    constructor
    · intro h
      rw [joined, Option.merge_eq_none_iff] at h
      cases h.1
    · intro h
      cases h

variable [Std.Associative op]

/-- Two lists of values joined as one. -/
theorem joined_append (ts us : List Truth) :
    joined op (ts ++ us) = Option.merge op (joined op ts) (joined op us) := by
  induction ts with
  | nil => rw [List.nil_append, joined, Option.merge_none_left]
  | cons t ts ih =>
    have hassoc : ∀ a b c : Option Truth,
        Option.merge op (Option.merge op a b) c = Option.merge op a (Option.merge op b c) :=
      Std.Associative.assoc
    rw [List.cons_append, joined, ih, joined, hassoc]

/-- Values joined group by group. -/
theorem joined_filterMap_joined (groups : List (List Truth)) :
    joined op (groups.filterMap (joined op)) = joined op groups.flatten := by
  induction groups with
  | nil => rfl
  | cons g groups ih =>
    rw [List.flatten_cons, joined_append, ← ih, List.filterMap_cons]
    cases hg : joined op g with
    | none => rw [Option.merge_none_left]
    | some t => rfl

end

end Truth

/-- A boolean expression. -/
inductive Formula where
  /-- A condition by its text. -/
  | atom (text : String)
  /-- A negation. -/
  | not (a : Formula)
  /-- A conjunction. -/
  | and (a b : Formula)
  /-- A disjunction. -/
  | or (a b : Formula)
  deriving DecidableEq, Repr, Inhabited

/-- The value of an expression when its conditions have given values. -/
def Formula.eval (v : String → Truth) : Formula → Truth
  | atom text => v text
  | not a => (a.eval v).not
  | and a b => (a.eval v).and (b.eval v)
  | or a b => (a.eval v).or (b.eval v)

end TableGraph
