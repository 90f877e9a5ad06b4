import Mathlib.Data.List.Forall2
import TableGraph.Proofs.Sql.Token

/-!
# Texts spelt alike

Two texts are spelt alike when they are written from the same tokens but for the contents of quoted
texts. Texts put together from parts that are spelt alike are spelt alike, as long as an unquoted
character stands between quoted tokens.
-/

namespace TableGraph.Sql

/-- Texts without marks. -/
def Plain (s : String) : Prop := ∀ c ∈ s.toList, isMark c = false

instance (s : String) : Decidable (Plain s) :=
  List.decidableBAll (fun c => isMark c = false) s.toList

/-- Texts without marks put together. -/
theorem Plain.append {a b : String} (ha : Plain a) (hb : Plain b) : Plain (a ++ b) := by
  intro c hc
  rw [String.toList_append, List.mem_append] at hc
  rcases hc with hc | hc
  · exact ha c hc
  · exact hb c hc

/-- Tokens that do not start with a quoted one, put together. -/
theorem Led.append : ∀ {ts us : List Token}, Led ts → Led us → Led (ts ++ us)
  | [], _, _, hu => hu
  | .plain _ :: _, _, _, _ => trivial
  | .identifier _ :: _, _, ht, _ => ht.elim
  | .text _ :: _, _, ht, _ => ht.elim

variable (R : String → String → Prop) (N : String → Prop)

/-- Tokens that are the same, but for the contents of quoted texts. `R` holds of these contents, `N`
of the identifiers. -/
inductive Token.Alike : Token → Token → Prop
  /-- The same character. -/
  | plain (c : Char) : Alike (.plain c) (.plain c)
  /-- The same identifier. -/
  | identifier {name : String} (h : N name) : Alike (.identifier name) (.identifier name)
  /-- Quoted texts. -/
  | text {a b : String} (h : R a b) : Alike (.text a) (.text b)

/-- Texts spelt alike. -/
def Spelt (a b : String) : Prop :=
  ∃ ts us, List.Forall₂ (Token.Alike R N) ts us ∧ Apart ts ∧ a.toList = written ts
    ∧ b.toList = written us

/-- Texts spelt alike that do not start with a quoted token. -/
def SpeltLed (a b : String) : Prop :=
  ∃ ts us, List.Forall₂ (Token.Alike R N) ts us ∧ Apart ts ∧ Led ts ∧ a.toList = written ts
    ∧ b.toList = written us

variable {R N}

/-- Tokens alike start alike. -/
theorem led_of_forall₂ {ts us : List Token} (h : List.Forall₂ (Token.Alike R N) ts us)
    (hl : Led ts) : Led us := by
  cases h with
  | nil => trivial
  | cons ht _ =>
    cases ht with
    | plain c => trivial
    | identifier _ => exact hl
    | text _ => exact hl

/-- Tokens alike are apart alike. -/
theorem apart_of_forall₂ {ts us : List Token} (h : List.Forall₂ (Token.Alike R N) ts us)
    (ha : Apart ts) : Apart us := by
  induction h with
  | nil => trivial
  | cons ht hts ih =>
    cases ht with
    | plain c => exact ⟨ha.1, ih ha.2⟩
    | identifier hn => exact ⟨led_of_forall₂ hts ha.1, ih ha.2⟩
    | text hr => exact ⟨led_of_forall₂ hts ha.1, ih ha.2⟩

/-- Texts spelt alike are read as tokens that are alike. -/
theorem Spelt.tokens {a b : String} (h : Spelt R N a b) :
    ∃ ts us, tokens? a = some ts ∧ tokens? b = some us
      ∧ List.Forall₂ (Token.Alike R N) ts us := by
  obtain ⟨ts, us, halike, hapart, ha, hb⟩ := h
  refine ⟨ts, us, ?_, ?_, halike⟩
  · rw [tokens?, ha, scan_written hapart]
  · rw [tokens?, hb, scan_written (apart_of_forall₂ halike hapart)]

/-- Not starting with a quoted token may be forgotten. -/
theorem SpeltLed.spelt {a b : String} (h : SpeltLed R N a b) : Spelt R N a b := by
  obtain ⟨ts, us, halike, hapart, _, ha, hb⟩ := h
  exact ⟨ts, us, halike, hapart, ha, hb⟩

/-- Characters are alike. -/
theorem forall₂_plain (cs : List Char) :
    List.Forall₂ (Token.Alike R N) (cs.map Token.plain) (cs.map Token.plain) := by
  rw [List.forall₂_same]
  intro t ht
  obtain ⟨c, _, rfl⟩ := List.mem_map.mp ht
  exact Token.Alike.plain c

/-- A text without marks is spelt like itself. -/
theorem Plain.spelt {c : String} (h : Plain c) : SpeltLed R N c c := by
  refine ⟨c.toList.map Token.plain, c.toList.map Token.plain, forall₂_plain _, ?_, ?_,
    (written_plain _).symm, (written_plain _).symm⟩
  · have ha : Apart (c.toList.map Token.plain ++ []) := apart_plain_append h trivial
    rwa [List.append_nil] at ha
  · cases c.toList <;> trivial

/-- A quoted identifier is spelt like itself. -/
theorem spelt_identifier {name : String} (h : N name) :
    Spelt R N (Catalog.quoteIdentifier name) (Catalog.quoteIdentifier name) := by
  have hw : (Catalog.quoteIdentifier name).toList = written [.identifier name] :=
    (List.append_nil _).symm
  exact ⟨[.identifier name], [.identifier name], .cons (.identifier h) .nil, ⟨trivial, trivial⟩, hw,
    hw⟩

/-- Quoted texts are spelt alike. -/
theorem spelt_text {a b : String} (h : R a b) :
    Spelt R N (Text.delimited '\'' a) (Text.delimited '\'' b) :=
  ⟨[.text a], [.text b], .cons (.text h) .nil, ⟨trivial, trivial⟩, (List.append_nil _).symm,
    (List.append_nil _).symm⟩

section

variable {a a' b b' c : String}

/-- Texts put together, when the second does not start with a quoted token. -/
theorem Spelt.append (ha : Spelt R N a a') (hb : SpeltLed R N b b') :
    Spelt R N (a ++ b) (a' ++ b') := by
  obtain ⟨ts, ts', hts, hta, ha, ha'⟩ := ha
  obtain ⟨us, us', hus, hua, hul, hb, hb'⟩ := hb
  refine ⟨ts ++ us, ts' ++ us', List.rel_append hts hus, hta.append hul hua, ?_, ?_⟩
  · simp [ha, hb]
  · simp [ha', hb']

/-- Texts put together, when neither starts with a quoted token. -/
theorem SpeltLed.append (ha : SpeltLed R N a a') (hb : SpeltLed R N b b') :
    SpeltLed R N (a ++ b) (a' ++ b') := by
  obtain ⟨ts, ts', hts, hta, htl, ha, ha'⟩ := ha
  obtain ⟨us, us', hus, hua, hul, hb, hb'⟩ := hb
  refine ⟨ts ++ us, ts' ++ us', List.rel_append hts hus, hta.append hul hua, htl.append hul, ?_, ?_⟩
  · simp [ha, hb]
  · simp [ha', hb']

/-- A text behind one without marks does not start with a quoted token. -/
theorem Spelt.behind (hc : Plain c) (hne : c ≠ "") (ha : Spelt R N a a') :
    SpeltLed R N (c ++ a) (c ++ a') := by
  obtain ⟨ts, ts', hts, hta, ha, ha'⟩ := ha
  refine ⟨c.toList.map Token.plain ++ ts, c.toList.map Token.plain ++ ts',
    List.rel_append (forall₂_plain _) hts, apart_plain_append hc hta, ?_, ?_, ?_⟩
  · cases hl : c.toList with
    | nil => exact absurd (String.toList_eq_nil_iff.mp hl) hne
    | cons _ _ => trivial
  · simp [ha]
  · simp [ha']

/-- Texts with one without marks between them. -/
theorem Spelt.between (ha : Spelt R N a a') (hc : Plain c) (hne : c ≠ "") (hb : Spelt R N b b') :
    Spelt R N (a ++ c ++ b) (a' ++ c ++ b') := by
  rw [String.append_assoc, String.append_assoc]
  exact ha.append (hb.behind hc hne)

/-- Texts with one without marks between them, the first of which does not start with a quoted
token. -/
theorem SpeltLed.between (ha : SpeltLed R N a a') (hc : Plain c) (hne : c ≠ "")
    (hb : Spelt R N b b') : SpeltLed R N (a ++ c ++ b) (a' ++ c ++ b') := by
  rw [String.append_assoc, String.append_assoc]
  exact ha.append (hb.behind hc hne)

/-- A text with one without marks behind it. -/
theorem Spelt.before (ha : Spelt R N a a') (hc : Plain c) : Spelt R N (a ++ c) (a' ++ c) :=
  ha.append hc.spelt

end

/-- Texts joined with a separator without marks. -/
theorem spelt_joined {separator : String} (hs : Plain separator) (hne : separator ≠ "")
    {xs ys : List String} (h : List.Forall₂ (Spelt R N) xs ys) :
    Spelt R N (Text.joined separator xs) (Text.joined separator ys) := by
  induction h with
  | nil =>
    have hp : Plain "" := by decide
    exact hp.spelt.spelt
  | cons hx hxs ih =>
    cases hxs with
    | nil => exact hx
    | cons hy hys => exact hx.between hs hne ih

end TableGraph.Sql
