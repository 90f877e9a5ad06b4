import TableGraph.Catalog.Statement

/-!
# Tokens of a statement

How the database cuts a statement into tokens: a text stands between single quotes and an identifier
between double quotes, a quote inside is doubled, and any other character stands for itself. Tokens
that are written one after another are read back if no two quoted ones touch.
-/

namespace TableGraph.Sql

/-- A token of a statement. -/
inductive Token where
  /-- A character outside of quotes. -/
  | plain (c : Char)
  /-- A quoted identifier, with the name it stands for. -/
  | identifier (name : String)
  /-- A quoted text, with the text it stands for. -/
  | text (value : String)
  deriving DecidableEq, Repr, Inhabited

/-- Whether a character opens a quoted token. -/
def isMark (c : Char) : Bool := c = '\'' || c = '"'

/-- The token between two marks. -/
def quoted (mark : Char) (cs : List Char) : Token :=
  if mark = '"' then .identifier (String.ofList cs) else .text (String.ofList cs)

/-- Where the reader stands. -/
inductive Place where
  /-- Outside of quotes. -/
  | outside
  /-- Inside of quotes, behind some characters. -/
  | inside (mark : Char) (read : List Char)
  /-- Behind a mark that closes a token unless it is doubled. -/
  | behind (mark : Char) (read : List Char)

/-- Reads tokens; there are none if a quote is left open. -/
def scan : Place → List Char → Option (List Token)
  | .outside, [] => some []
  | .outside, c :: cs =>
    if isMark c then scan (.inside c []) cs
    else (scan .outside cs).map fun ts => .plain c :: ts
  | .inside _ _, [] => none
  | .inside mark read, c :: cs =>
    if c = mark then scan (.behind mark read) cs else scan (.inside mark (read ++ [c])) cs
  | .behind mark read, [] => some [quoted mark read]
  | .behind mark read, c :: cs =>
    if c = mark then scan (.inside mark (read ++ [mark])) cs
    else if isMark c then (scan (.inside c []) cs).map fun ts => quoted mark read :: ts
    else (scan .outside cs).map fun ts => quoted mark read :: .plain c :: ts

/-- The tokens of a statement. -/
def tokens? (statement : String) : Option (List Token) := scan .outside statement.toList

/-- A token as it is written. -/
def Token.written : Token → List Char
  | plain c => [c]
  | identifier name => (Catalog.quoteIdentifier name).toList
  | text value => (Text.delimited '\'' value).toList

/-- Tokens written one after another. -/
def written (ts : List Token) : List Char := ts.flatMap Token.written

/-- The first token is written first. -/
@[simp]
theorem written_cons (t : Token) (ts : List Token) : written (t :: ts) = t.written ++ written ts :=
  rfl

/-- Whether tokens do not start with a quoted one. -/
def Led : List Token → Prop
  | [] => True
  | .plain _ :: _ => True
  | .identifier _ :: _ => False
  | .text _ :: _ => False

/-- Tokens of which no two quoted ones touch, with marks in quoted ones only. -/
def Apart : List Token → Prop
  | [] => True
  | .plain c :: ts => isMark c = false ∧ Apart ts
  | .identifier _ :: ts => Led ts ∧ Apart ts
  | .text _ :: ts => Led ts ∧ Apart ts

/-- Doubled marks are read as part of the token. -/
theorem scan_inside (mark : Char) (read cs rest : List Char) :
    scan (.inside mark read)
        ((cs.flatMap fun c => if c = mark then [mark, mark] else [c]) ++ mark :: rest)
      = scan (.behind mark (read ++ cs)) rest := by
  induction cs generalizing read with
  | nil =>
    rw [List.flatMap_nil, List.nil_append, scan, if_pos rfl, List.append_nil]
  | cons c cs ih =>
    have hread : read ++ c :: cs = (read ++ [c]) ++ cs := by rw [List.append_assoc]; rfl
    rw [List.flatMap_cons, List.append_assoc, hread]
    by_cases hc : c = mark
    · rw [if_pos hc, List.cons_append, List.cons_append, List.nil_append, scan, if_pos rfl, scan,
        if_pos rfl, ih, hc]
    · rw [if_neg hc, List.cons_append, List.nil_append, scan, if_neg hc, ih]

/-- A quoted token is read up to its closing mark. -/
theorem scan_delimited {mark : Char} (hm : isMark mark = true) (s : String) (rest : List Char) :
    scan .outside ((Text.delimited mark s).toList ++ rest)
      = scan (.behind mark s.toList) rest := by
  rw [Text.delimited, String.toList_ofList, List.append_assoc, List.cons_append, scan, if_pos hm,
    List.singleton_append, scan_inside, List.nil_append]

/-- Behind a closing mark the token ends, if no quoted token follows. -/
theorem scan_behind {mark : Char} (hm : isMark mark = true) (read : List Char) {ts : List Token}
    (hl : Led ts) (ha : Apart ts) (hs : scan .outside (written ts) = some ts) :
    scan (.behind mark read) (written ts) = some (quoted mark read :: ts) := by
  cases ts with
  | nil => rfl
  | cons t ts =>
    cases t with
    | plain c =>
      have hc : ¬isMark c = true := by
        rw [ha.1]
        exact Bool.false_ne_true
      have hne : ¬c = mark := by
        rintro rfl
        exact hc hm
      rw [written_cons, Token.written, List.singleton_append] at hs ⊢
      rw [scan, if_neg hc, Option.map_eq_some_iff] at hs
      obtain ⟨us, hus, he⟩ := hs
      obtain ⟨_, rfl⟩ := List.cons.inj he
      rw [scan, if_neg hne, if_neg hc, hus]
      rfl
    | identifier name => exact hl.elim
    | text value => exact hl.elim

/-- Written tokens are read back. -/
theorem scan_written : ∀ {ts : List Token}, Apart ts → scan .outside (written ts) = some ts
  | [], _ => rfl
  | .plain c :: ts, h => by
    simp [Token.written, scan, h.1, scan_written h.2]
  | .identifier name :: ts, h => by
    rw [written_cons, Token.written, Catalog.quoteIdentifier, scan_delimited rfl,
      scan_behind rfl _ h.1 h.2 (scan_written h.2), quoted, if_pos rfl, String.ofList_toList]
  | .text value :: ts, h => by
    rw [written_cons, Token.written, scan_delimited rfl,
      scan_behind rfl _ h.1 h.2 (scan_written h.2), quoted, if_neg (by decide),
      String.ofList_toList]

/-- A quoted identifier is read as its name. -/
@[simp]
theorem tokens?_quoteIdentifier (name : String) :
    tokens? (Catalog.quoteIdentifier name) = some [.identifier name] := by
  have hapart : Apart [.identifier name] := ⟨trivial, trivial⟩
  have h := scan_written hapart
  rwa [written, List.flatMap_singleton] at h

/-- Different identifiers are quoted differently. -/
theorem quoteIdentifier_injective : Function.Injective Catalog.quoteIdentifier := by
  intro a b h
  have ht := tokens?_quoteIdentifier a
  rw [h, tokens?_quoteIdentifier] at ht
  simpa using ht.symm

/-- Doubled marks are part of a token. -/
example : tokens? "\"a\"\"b\"='it''s'" = some [.identifier "a\"b", .plain '=', .text "it's"] := by
  decide

/-- Written tokens stay apart when what follows does not start with a quoted one. -/
theorem Apart.append : ∀ {ts us : List Token}, Apart ts → Led us → Apart us → Apart (ts ++ us)
  | [], _, _, _, hu => hu
  | .plain _ :: _, _, ht, hl, hu => ⟨ht.1, ht.2.append hl hu⟩
  | .identifier _ :: ts, us, ht, hl, hu => by
    refine ⟨?_, ht.2.append hl hu⟩
    cases ts with
    | nil => exact hl
    | cons t ts => cases t <;> first | trivial | exact ht.1.elim
  | .text _ :: ts, us, ht, hl, hu => by
    refine ⟨?_, ht.2.append hl hu⟩
    cases ts with
    | nil => exact hl
    | cons t ts => cases t <;> first | trivial | exact ht.1.elim

/-- Tokens behind characters without marks stay apart. -/
theorem apart_plain_append {cs : List Char} (h : ∀ c ∈ cs, isMark c = false) {ts : List Token}
    (ha : Apart ts) : Apart (cs.map Token.plain ++ ts) := by
  induction cs with
  | nil => exact ha
  | cons c cs ih =>
    exact ⟨h c List.mem_cons_self, ih fun c' hc => h c' (List.mem_cons_of_mem _ hc)⟩

/-- Characters are written as they are. -/
@[simp]
theorem written_plain (cs : List Char) : written (cs.map Token.plain) = cs := by
  rw [written, List.flatMap_map]
  exact List.flatMap_singleton' cs

/-- Tokens are written one list after the other. -/
@[simp]
theorem written_append (ts us : List Token) : written (ts ++ us) = written ts ++ written us :=
  List.flatMap_append

end TableGraph.Sql
