import TableGraph.Proofs.Formula.Grammar
import Mathlib.Data.List.Forall2

/-!
# Formulas put together

Formulas with `AND` or `OR` between them, and in parentheses, as words and as values.
-/

namespace TableGraph.Formula

/-- Words with `separator` between neighbours. -/
def joinedTokens (separator : Token) : List (List Token) → List Token
  | [] => []
  | [ts] => ts
  | ts :: us :: rest => ts ++ separator :: joinedTokens separator (us :: rest)

/-- Words put together inside parentheses behind `lead`; nothing when there are none. -/
def enclosedTokens (lead : List Token) (separator : Token) (tss : List (List Token)) :
    List (List Token) :=
  if tss = [] then [] else [lead ++ .opening :: joinedTokens separator tss ++ [.closing]]

/-- Words are written one after the other. -/
@[simp]
theorem written_append (ts us : List Token) : written (ts ++ us) = written ts ++ written us := by
  induction ts with
  | nil => simp [written]
  | cons t ts ih => simp [written, ih, String.append_assoc]

/-- Words put together are written with the separator between them. -/
@[simp]
theorem written_joinedTokens (separator : Token) (tss : List (List Token)) :
    written (joinedTokens separator tss) = Text.joined separator.text (tss.map written) := by
  induction tss with
  | nil => rfl
  | cons ts rest ih =>
    cases rest with
    | nil => rfl
    | cons us rest => simp [joinedTokens, written, ih, Text.joined, String.append_assoc]

variable (v : String → Truth)

/-- Words are an operand with a value. -/
def OperandIs (ts : List Token) (t : Truth) : Prop := ∃ a, Operand ts a ∧ a.eval v = t

/-- Words are a conjunction with a value. -/
def ConjunctionIs (ts : List Token) (t : Truth) : Prop := ∃ a, Conjunction ts a ∧ a.eval v = t

/-- Words are a disjunction with a value. -/
def DisjunctionIs (ts : List Token) (t : Truth) : Prop := ∃ a, Disjunction ts a ∧ a.eval v = t

variable {v}

/-- A condition has the value that is assumed for it. -/
theorem OperandIs.atom (text : String) : OperandIs v [.atom text] (v text) :=
  ⟨.atom text, Operand.atom text, rfl⟩

/-- A negated operand has the negated value. -/
theorem OperandIs.not {ts : List Token} {t : Truth} (h : OperandIs v ts t) :
    OperandIs v (.not :: ts) t.not := by
  obtain ⟨a, ha, rfl⟩ := h
  exact ⟨.not a, ha.not, rfl⟩

/-- Parentheses keep the value. -/
theorem DisjunctionIs.enclosed {ts : List Token} {t : Truth} (h : DisjunctionIs v ts t) :
    OperandIs v (.opening :: ts ++ [.closing]) t := by
  obtain ⟨a, ha, rfl⟩ := h
  exact ⟨a, Operand.enclosed ha, rfl⟩

/-- One operand is a conjunction. -/
theorem OperandIs.conjunction {ts : List Token} {t : Truth} (h : OperandIs v ts t) :
    ConjunctionIs v ts t := by
  obtain ⟨a, ha, rfl⟩ := h
  exact ⟨a, .one ha, rfl⟩

/-- One conjunction is a disjunction. -/
theorem ConjunctionIs.disjunction {ts : List Token} {t : Truth} (h : ConjunctionIs v ts t) :
    DisjunctionIs v ts t := by
  obtain ⟨a, ha, rfl⟩ := h
  exact ⟨a, .one ha, rfl⟩

/-- Conjunctions with `AND` between them are one conjunction, grouped in another way. -/
theorem conjunction_append {us : List Token} {b : Formula} (hb : Conjunction us b) :
    ∀ {ts : List Token} {a : Formula}, Conjunction ts a →
      ConjunctionIs v (ts ++ .and :: us) ((a.eval v).and (b.eval v))
  | _, a, .one h => ⟨.and a b, .more h hb, rfl⟩
  | _, _, @Conjunction.more ts ts' a a' h rest => by
    obtain ⟨c, hc, he⟩ := conjunction_append hb rest
    refine ⟨.and a c, ?_, ?_⟩
    · rw [List.append_assoc, List.cons_append]
      exact .more h hc
    · rw [eval, he, eval, Truth.and_assoc]

/-- Conjunctions put together with `AND` have the conjunction of their values. -/
theorem ConjunctionIs.joined {tss : List (List Token)} {ts : List Truth}
    (h : List.Forall₂ (ConjunctionIs v) tss ts) {t : Truth} (ht : Truth.all? ts = some t) :
    ConjunctionIs v (joinedTokens .and tss) t := by
  induction h generalizing t with
  | nil => cases ht
  | @cons ts' t' tss ts head tail ih =>
    cases tail with
    | nil =>
      cases ht
      exact head
    | @cons us u tss ts head' tail' =>
      obtain ⟨w, hw⟩ : ∃ w, Truth.all? (u :: ts) = some w := by
        rw [← Option.ne_none_iff_exists']
        exact fun hnone => List.cons_ne_nil u ts ((Truth.joined_eq_none_iff _).mp hnone)
      rw [Truth.all?, Truth.joined, ← Truth.all?, hw] at ht
      cases ht
      obtain ⟨a, ha, rfl⟩ := head
      obtain ⟨b, hb, rfl⟩ := ih hw
      exact conjunction_append hb ha

/-- Conjunctions put together with `OR` have the disjunction of their values. -/
theorem DisjunctionIs.joined {tss : List (List Token)} {ts : List Truth}
    (h : List.Forall₂ (ConjunctionIs v) tss ts) {t : Truth} (ht : Truth.any? ts = some t) :
    DisjunctionIs v (joinedTokens .or tss) t := by
  induction h generalizing t with
  | nil => cases ht
  | @cons ts' t' tss ts head tail ih =>
    cases tail with
    | nil =>
      cases ht
      exact head.disjunction
    | @cons us u tss ts head' tail' =>
      obtain ⟨w, hw⟩ : ∃ w, Truth.any? (u :: ts) = some w := by
        rw [← Option.ne_none_iff_exists']
        exact fun hnone => List.cons_ne_nil u ts ((Truth.joined_eq_none_iff _).mp hnone)
      rw [Truth.any?, Truth.joined, ← Truth.any?, hw] at ht
      cases ht
      obtain ⟨a, ha, rfl⟩ := head
      obtain ⟨b, hb, rfl⟩ := ih hw
      exact ⟨.or a b, .more ha hb, rfl⟩

end TableGraph.Formula
