import TableGraph.Json.Skipping
import TableGraph.Proofs.Json.Reading
import TableGraph.Proofs.Outcome
import TableGraph.Proofs.Text.Coding

/-!
# Skipped values

A text that spells a value is skipped up to the blanks behind it, also when it is given by its bytes. So
each member of an object is found with a text that spells its value, and those that are asked for are
read as they were written, whatever the other members are.
-/

namespace TableGraph.Json

open Text (units)

section

variable {c : Char} {cs rest : List Char}

/-- A quote ends a string. -/
@[simp]
theorem skipString_quote (cs : List Char) : skipString ('"' :: cs) = some cs := by
  rw [skipString.eq_def]
  rfl

/-- A character that is no quote, no backslash and no control character is passed over. -/
theorem skipString_cons (hquote : c ≠ '"') (hback : c ≠ '\\') (hcontrol : ¬c.toNat < 32) :
    skipString (c :: cs) = skipString cs := by
  rw [skipString.eq_def]
  simp only [hquote, hback, hcontrol, if_false]

/-- A backslash with a letter behind it is passed over. -/
theorem skipString_letter (h : c ∈ ['"', '\\', '/', 'b', 'f', 'n', 'r', 't']) (cs : List Char) :
    skipString ('\\' :: c :: cs) = skipString cs := by
  rw [skipString.eq_def]
  simp only [List.mem_cons, List.not_mem_nil, or_false] at h
  rcases h with rfl | rfl | rfl | rfl | rfl | rfl | rfl | rfl <;> rfl

/-- A backslash with `u` and four hexadecimal digits behind it is passed over. -/
theorem skipString_unicode {h i j k : Char} (hex : (hexFour [h, i, j, k]).isSome)
    (cs : List Char) : skipString ('\\' :: 'u' :: h :: i :: j :: k :: cs) = skipString cs := by
  rw [skipString.eq_def]
  exact if_pos hex

/-- A character inside a quoted text is passed over. -/
@[simp]
theorem skipString_escape (c : Char) (rest : List Char) :
    skipString (units (escape c) ++ rest) = skipString rest := by
  rcases escape_cases c with ⟨hquote, hback, hcontrol, he⟩ | ⟨e, hmem, he, _⟩ | ⟨hcontrol, he⟩
  · rw [he]
    by_cases hc : c.toNat < 128
    · simp [hc, skipString_cons hquote hback hcontrol]
    · -- The bytes of other characters are too large for a quote, a backslash or a control character.
      have hall : ∀ d ∈ units [c], 128 ≤ d.toNat := fun d => Text.le_of_mem_units (Nat.not_lt.mp hc)
      generalize units [c] = ds at hall
      induction ds with
      | nil => rfl
      | cons d ds ih =>
        rw [List.forall_mem_cons] at hall
        have hle := hall.1
        have hquote : d ≠ '"' := by
          rintro rfl
          exact absurd hle (by decide)
        have hback : d ≠ '\\' := by
          rintro rfl
          exact absurd hle (by decide)
        rw [List.cons_append, skipString_cons hquote hback (by omega), ih hall.2]
  · have hletter : e ∈ ['"', '\\', '/', 'b', 'f', 'n', 'r', 't'] := by
      simp only [List.mem_cons] at hmem ⊢
      tauto
    have hascii : e.toNat < 128 := by
      simp only [List.mem_cons, List.not_mem_nil, or_false] at hmem
      rcases hmem with rfl | rfl | rfl | rfl | rfl | rfl | rfl <;> decide
    simp [he, hascii, skipString_letter hletter]
  · have hdigit : ∀ n < 16, (hexDigit n).toNat < 128 := by decide
    have hhigh := hdigit (c.toNat / 16) (by omega)
    have hlow := hdigit (c.toNat % 16) (by omega)
    have hex : (hexFour ['0', '0', hexDigit (c.toNat / 16), hexDigit (c.toNat % 16)]).isSome := by
      have hz : hexValue '0' = some 0 := by decide
      simp [hexFour, hz, hexValue_hexDigit (show c.toNat / 16 < 16 by omega),
        hexValue_hexDigit (show c.toNat % 16 < 16 by omega)]
    simp [he, hhigh, hlow, skipString_unicode hex]

/-- A quoted text is passed over. -/
@[simp]
theorem skipString_escapes (cs rest : List Char) :
    skipString (units (cs.flatMap escape) ++ '"' :: rest) = some rest := by
  induction cs with
  | nil => simp
  | cons c cs ih => simp [ih]

end

/-- What is in front of the rest of a text. -/
@[simp]
theorem front_append (cs rest : List Char) : front (cs ++ rest) rest = cs := by
  simp [front]

/-- The name of a member is read. -/
@[simp]
theorem name?_escapes (k : String) (rest : List Char) :
    name? (units (k.toList.flatMap escape) ++ '"' :: rest) = some (k, rest) := by
  have hend : ∀ cs : List Char, units cs ++ '"' :: rest = units (cs ++ ['"']) ++ rest := by
    intro cs
    simp
  have hfront : front (units (k.toList.flatMap escape) ++ '"' :: rest) rest
      = units (k.toList.flatMap escape ++ ['"']) := by
    rw [hend, front_append]
  simp only [name?, skipString_escapes, Option.bind_eq_bind, Option.bind_some, hfront,
    Text.ofByteChars?_units, String.toList_ofList, string?_escapes]

/-- An integer is passed over up to its end. -/
theorem skipNumber_signed (i : Int) {rest : List Char} (hrest : Decimal.EndsNumber rest) :
    skipNumber (Decimal.signed i ++ rest) = some rest := by
  have hfraction : skipFraction rest = some rest := by
    unfold skipFraction
    split
    next cs => exact absurd rfl (hrest '.' rfl).2.1
    next => rfl
  have hexponent : skipExponent rest = some rest := by
    unfold skipExponent
    split
    next cs => exact absurd rfl (hrest 'e' rfl).2.2.1
    next cs => exact absurd rfl (hrest 'E' rfl).2.2.2
    next => rfl
  have hdigits : ∀ n, skipUnsigned (Decimal.digits n ++ rest) = some rest := by
    intro n
    obtain ⟨htake, hdrop⟩ := hrest.cut_digits n
    unfold skipUnsigned
    simp only [htake, hdrop]
    rw [if_neg (Decimal.digits_start n), hfraction, Option.bind_some, hexponent]
  unfold Decimal.signed
  split_ifs with hi
  · exact hdigits _
  · unfold skipNumber
    split
    next cs hcs => exact absurd hcs (Decimal.digits_append_ne_cons (by decide) _ _ _)
    next => exact hdigits _

section

variable {n : Nat} {cs rest : List Char}

/-- A value may have blanks in front of it. -/
@[simp]
theorem skipValue_skipSpace (n : Nat) (cs : List Char) :
    skipValue n (skipSpace cs) = skipValue n cs := by
  cases n with
  | zero => simp [skipValue]
  | succ n => simp [skipValue]

/-- Items may have blanks in front of them. -/
@[simp]
theorem skipItems_skipSpace (n : Nat) (cs : List Char) :
    skipItems n (skipSpace cs) = skipItems n cs := by
  cases n with
  | zero => simp [skipItems]
  | succ n => simp [skipItems]

/-- Members may have blanks in front of them. -/
@[simp]
theorem skipMembers_skipSpace (n : Nat) (cs : List Char) :
    skipMembers n (skipSpace cs) = skipMembers n cs := by
  cases n with
  | zero => simp [skipMembers]
  | succ n => simp [skipMembers]

/-- The end of an array is no item of it. -/
@[simp]
theorem skipItems_bracket (n : Nat) (cs : List Char) : skipItems n (']' :: cs) = none := by
  have hspace : skipSpace (']' :: cs) = ']' :: cs := skipSpace_cons rfl _
  have hnumber : skipNumber (']' :: cs) = none := rfl
  cases n with
  | zero => simp [skipItems]
  | succ n =>
    cases n with
    | zero => simp [skipItems, skipValue]
    | succ n => simp [skipItems, skipValue, hspace, hnumber]

/-- The end of an object is no member of it. -/
@[simp]
theorem skipMembers_brace (n : Nat) (cs : List Char) : skipMembers n ('\x7d' :: cs) = none := by
  have hspace : skipSpace ('\x7d' :: cs) = '\x7d' :: cs := skipSpace_cons rfl _
  cases n with
  | zero => simp [skipMembers]
  | succ n => simp [skipMembers, hspace]

/-- An array is passed over with its items. -/
theorem skipValue_array (h : skipItems n cs = some rest) :
    skipValue (n + 1) ('[' :: cs) = some rest := by
  have hopen : skipSpace ('[' :: cs) = '[' :: cs := skipSpace_cons rfl cs
  rw [← skipItems_skipSpace] at h
  simp only [skipValue, hopen]
  split
  next more he =>
    simp [he] at h
  next => exact h

/-- An object is passed over with its members. -/
theorem skipValue_object (h : skipMembers n cs = some rest) :
    skipValue (n + 1) ('\x7b' :: cs) = some rest := by
  have hopen : skipSpace ('\x7b' :: cs) = '\x7b' :: cs := skipSpace_cons rfl cs
  rw [← skipMembers_skipSpace] at h
  simp only [skipValue, hopen]
  split
  next more he =>
    simp [he] at h
  next => exact h

end

/-- Blanks are ASCII characters. -/
theorem Blanks.units_eq {gap : List Char} (h : Blanks gap) : units gap = gap := by
  refine Text.units_eq_self fun c hc => ?_
  have hspace := h c hc
  simp only [isSpace, Bool.or_eq_true, decide_eq_true_eq] at hspace
  rcases hspace with ((rfl | rfl) | rfl) | rfl <;> decide

/-- The digits and the sign of an integer are ASCII characters. -/
@[simp]
theorem units_signed (i : Int) : units (Decimal.signed i) = Decimal.signed i := by
  refine Text.units_eq_self fun c hc => ?_
  rcases Decimal.mem_signed hc with rfl | hdigit
  · decide
  · rw [Decimal.isDigit, Bool.and_eq_true, decide_eq_true_eq, decide_eq_true_eq] at hdigit
    exact Nat.lt_of_le_of_lt hdigit.2 (by decide)

/-- A quoted text by its bytes. -/
theorem units_quoted (k : String) :
    units (quoted k).toList = '"' :: (units (k.toList.flatMap escape) ++ ['"']) := by
  simp

/-- A member by its bytes. -/
theorem units_member {before after : List Char} (hbefore : Blanks before) (k : String)
    (hafter : Blanks after) (cs : List Char) :
    units (before ++ ((quoted k).toList ++ (after ++ ':' :: cs)))
      = before ++ (units (quoted k).toList ++ (after ++ ':' :: units cs)) := by
  simp [hbefore.units_eq, hafter.units_eq]

/-- An integer is passed over up to its end, as a value. -/
theorem skipValue_signed (i : Int) (n : Nat) {rest : List Char}
    (hrest : Decimal.EndsNumber rest) :
    skipValue (n + 1) (Decimal.signed i ++ rest) = some rest := by
  obtain ⟨c, cs, hcs, hspace, hother⟩ := exists_first_of_signed i
  have hskip : skipSpace (Decimal.signed i ++ rest) = Decimal.signed i ++ rest := by
    rw [hcs, List.cons_append, skipSpace_cons hspace]
  have hfirst : ∀ {d : Char} {ds : List Char}, Decimal.signed i ++ rest = d :: ds →
      d ∉ ['n', 't', 'f', '"', '[', ']', '\x7b'] := by
    intro d ds he
    rw [hcs, List.cons_append] at he
    exact (List.cons.inj he).1 ▸ hother
  rw [skipValue, hskip]
  split
  next _ he => exact absurd (by decide) (hfirst he)
  next _ he => exact absurd (by decide) (hfirst he)
  next _ he => exact absurd (by decide) (hfirst he)
  next _ he => exact absurd (by decide) (hfirst he)
  next _ he => exact absurd (by decide) (hfirst he)
  next _ he => exact absurd (by decide) (hfirst he)
  next => exact skipNumber_signed i hrest

/-- A text of a value that is skipped, but for the blanks behind it. -/
def Skipped (n : Nat) (j : Json) (cs rest : List Char) : Prop :=
  ∃ head gap, cs = head ++ gap ∧ Spells j head ∧ Blanks gap
    ∧ skipValue n (units cs ++ rest) = some (gap ++ rest)

/-- A text of a value that is skipped to its end. -/
theorem Skipped.of_eq {n : Nat} {j : Json} {cs rest : List Char} (h : Spells j cs)
    (hskip : skipValue n (units cs ++ rest) = some rest) : Skipped n j cs rest :=
  ⟨cs, [], (List.append_nil _).symm, h, blanks_nil, hskip⟩

/-- Blanks may stand around a value that is skipped. -/
theorem Skipped.padded {n : Nat} {j : Json} {before cs after rest : List Char}
    (hbefore : Blanks before) (hafter : Blanks after) (h : Skipped n j cs (after ++ rest)) :
    Skipped n j (before ++ (cs ++ after)) rest := by
  obtain ⟨head, gap, rfl, hspells, hgap, hskip⟩ := h
  refine ⟨before ++ head, gap ++ after, by simp, hspells.behind hbefore, ?_, ?_⟩
  · intro c hc
    exact (List.mem_append.mp hc).elim (hgap c) (hafter c)
  · have hchars : units (before ++ (head ++ gap ++ after)) ++ rest
        = before ++ (units (head ++ gap) ++ (after ++ rest)) := by
      simp [hbefore.units_eq, hafter.units_eq]
    rw [hchars, ← skipValue_skipSpace, skipSpace_append hbefore, skipValue_skipSpace, hskip,
      List.append_assoc]

section

variable {n : Nat} {cs more rest : List Char} {j : Json}

/-- The end of an array is reached behind its last item. -/
theorem Skipped.items_last (h : Skipped n j cs (']' :: rest)) :
    skipItems (n + 1) (units cs ++ ']' :: rest) = some rest := by
  obtain ⟨_, gap, _, _, hgap, hskip⟩ := h
  have hend : skipSpace (gap ++ ']' :: rest) = ']' :: rest := hgap.skipSpace_cons rfl _
  simp [skipItems, hskip, hend]

/-- More items are reached behind a comma. -/
theorem Skipped.items_more (h : Skipped n j cs (',' :: more)) :
    skipItems (n + 1) (units cs ++ ',' :: more) = skipItems n more := by
  obtain ⟨_, gap, _, _, hgap, hskip⟩ := h
  have hcomma : skipSpace (gap ++ ',' :: more) = ',' :: more := hgap.skipSpace_cons rfl _
  simp [skipItems, hskip, hcomma]

/-- A member is passed over up to what stands behind its value. -/
theorem skipMembers_named {before after behind : List Char} (hbefore : Blanks before) (k : String)
    (hafter : Blanks after) (h : skipValue n cs = some behind) :
    skipMembers (n + 1) (before ++ ((units (quoted k).toList) ++ (after ++ ':' :: cs)))
      = match skipSpace behind with
        | ',' :: more => skipMembers n more
        | '\x7d' :: rest => some rest
        | _ => none := by
  have hquote : ∀ cs, skipSpace ('"' :: cs) = '"' :: cs := skipSpace_cons rfl
  have hcolon : skipSpace (after ++ ':' :: cs) = ':' :: cs := hafter.skipSpace_cons rfl _
  rw [← skipMembers_skipSpace, skipSpace_append hbefore, units_quoted, List.cons_append,
    skipMembers_skipSpace, skipMembers, hquote]
  simp only [List.append_assoc, List.singleton_append, skipString_escapes, Option.bind_eq_bind,
    Option.bind_some, hcolon]
  exact congrArg (fun o => Option.bind o _) h

/-- The end of an object is reached behind its last member. -/
theorem Skipped.members_last {before after : List Char} (hbefore : Blanks before) (k : String)
    (hafter : Blanks after) (h : Skipped n j cs ('\x7d' :: rest)) :
    skipMembers (n + 1)
      (before ++ ((units (quoted k).toList) ++ (after ++ ':' :: (units cs ++ '\x7d' :: rest))))
      = some rest := by
  obtain ⟨_, gap, _, _, hgap, hskip⟩ := h
  have hend : skipSpace (gap ++ '\x7d' :: rest) = '\x7d' :: rest := hgap.skipSpace_cons rfl _
  simp only [skipMembers_named hbefore k hafter hskip, hend]

/-- More members are reached behind a comma. -/
theorem Skipped.members_more {before after : List Char} (hbefore : Blanks before) (k : String)
    (hafter : Blanks after) (h : Skipped n j cs (',' :: more)) :
    skipMembers (n + 1)
      (before ++ ((units (quoted k).toList) ++ (after ++ ':' :: (units cs ++ ',' :: more))))
      = skipMembers n more := by
  obtain ⟨_, gap, _, _, hgap, hskip⟩ := h
  have hcomma : skipSpace (gap ++ ',' :: more) = ',' :: more := hgap.skipSpace_cons rfl _
  simp only [skipMembers_named hbefore k hafter hskip, hcomma]

end

mutual

/-- A value is skipped in the bytes of a text that spells it. -/
theorem Spells.skipped : ∀ {j : Json} {cs : List Char}, Spells j cs → ∀ {n : Nat}
    (rest : List Char), 2 * (units cs).length ≤ n + 1 → Decimal.EndsNumber rest →
      Skipped (n + 1) j cs rest
  | _, _, .padded hbefore h hafter, n, rest => by
    intro hn hrest
    simp only [Text.units_append, List.length_append] at hn
    exact .padded hbefore hafter (h.skipped _ (by omega) (hafter.endsNumber hrest))
  | _, _, .null, _, _ => fun _ _ => .of_eq .null rfl
  | _, _, .yes, _, _ => fun _ _ => .of_eq .yes rfl
  | _, _, .no, _, _ => fun _ _ => .of_eq .no rfl
  | _, _, .int (i := i) h, n, rest => by
    intro _ hrest
    refine .of_eq (.int h) ?_
    simp [skipValue_signed i n hrest]
  | _, _, .str s, n, rest => by
    intro _ _
    refine .of_eq (.str s) ?_
    rw [units_quoted, List.cons_append, List.append_assoc, skipValue, skipSpace_cons rfl]
    exact skipString_escapes s.toList rest
  | _, _, .noItems, _, _ => fun _ _ => .of_eq .noItems rfl
  | _, _, @Spells.arr xs cs h, n, rest => by
    intro hn _
    -- The two brackets pay for the steps down to the items.
    have hchars : units ('[' :: (cs ++ [']'])) = '[' :: (units cs ++ [']']) := by simp
    rw [hchars, List.length_cons, List.length_append, List.length_singleton] at hn
    obtain ⟨m, rfl⟩ : ∃ m, n = m + 2 := ⟨n - 2, by omega⟩
    refine .of_eq (.arr h) ?_
    rw [hchars, List.cons_append, List.append_assoc]
    exact skipValue_array (h.skipped rest (by omega))
  | _, _, .noMembers, _, _ => fun _ _ => .of_eq .noMembers rfl
  | _, _, @Spells.obj ms cs hnames h, n, rest => by
    intro hn _
    have hchars : units ('\x7b' :: (cs ++ ['\x7d'])) = '\x7b' :: (units cs ++ ['\x7d']) := by simp
    rw [hchars, List.length_cons, List.length_append, List.length_singleton] at hn
    obtain ⟨m, rfl⟩ : ∃ m, n = m + 2 := ⟨n - 2, by omega⟩
    refine .of_eq (.obj hnames h) ?_
    rw [hchars, List.cons_append, List.append_assoc]
    exact skipValue_object (h.skipped rest (by omega))

/-- The items of an array are skipped up to its end. -/
theorem SpellsItems.skipped : ∀ {xs : List Json} {cs : List Char}, SpellsItems xs cs →
    ∀ {n : Nat} (rest : List Char), 2 * (units cs).length ≤ n →
      skipItems (n + 2) (units cs ++ ']' :: rest) = some rest
  | _, _, .last h, n, rest => fun hn =>
    (h.skipped (']' :: rest) (by omega) (endsNumber_cons (by decide) rest)).items_last
  | _, _, @SpellsItems.more _ _ cs cs' h hmore, n, rest => by
    intro hn
    have hchars : units (cs ++ ',' :: cs') = units cs ++ ',' :: units cs' := by simp
    rw [hchars, List.length_append, List.length_cons] at hn
    obtain ⟨m, rfl⟩ : ∃ m, n = m + 1 := ⟨n - 1, by omega⟩
    have hfirst := h.skipped (n := m + 1) (',' :: (units cs' ++ ']' :: rest)) (by omega)
      (endsNumber_cons (by decide) _)
    rw [hchars, List.append_assoc, List.cons_append, hfirst.items_more]
    exact hmore.skipped rest (by omega)

/-- The members of an object are skipped up to its end. -/
theorem SpellsMembers.skipped : ∀ {ms : List (String × Json)} {cs : List Char},
    SpellsMembers ms cs → ∀ {n : Nat} (rest : List Char), 2 * (units cs).length ≤ n →
      skipMembers (n + 2) (units cs ++ '\x7d' :: rest) = some rest
  | _, _, @SpellsMembers.last _ before after cs hbefore k hafter h, n, rest => by
    intro hn
    have hchars := units_member hbefore k hafter cs
    rw [hchars] at hn
    simp only [List.length_append, List.length_cons] at hn
    have hfirst := h.skipped (n := n) ('\x7d' :: rest) (by omega) (endsNumber_cons (by decide) _)
    rw [hchars]
    simp only [List.append_assoc, List.cons_append]
    exact hfirst.members_last hbefore k hafter
  | _, _, @SpellsMembers.more _ _ before after cs cs' hbefore k hafter h hmore, n, rest => by
    intro hn
    have hchars := units_member hbefore k hafter (cs ++ ',' :: cs')
    have hvalue : units (cs ++ ',' :: cs') = units cs ++ ',' :: units cs' := by simp
    rw [hchars, hvalue] at hn
    simp only [List.length_append, List.length_cons] at hn
    obtain ⟨m, rfl⟩ : ∃ m, n = m + 1 := ⟨n - 1, by omega⟩
    have hfirst := h.skipped (n := m + 1) (',' :: (units cs' ++ '\x7d' :: rest)) (by omega)
      (endsNumber_cons (by decide) _)
    rw [hchars, hvalue]
    simp only [List.append_assoc, List.cons_append]
    rw [hfirst.members_more hbefore k hafter]
    exact hmore.skipped rest (by omega)

end

/-- A member with its name and what its value is written as. -/
def Written (m : String × Json) (span : String × List Char) : Prop :=
  span.1 = m.1 ∧ ∃ cs, span.2 = units cs ∧ Spells m.2 cs

section

variable {n : Nat} {cs more rest : List Char} {j : Json} {before after : List Char}

/-- Members may have blanks in front of them. -/
@[simp]
theorem spans_skipSpace (n : Nat) (cs : List Char) : spans n (skipSpace cs) = spans n cs := by
  cases n with
  | zero => simp [spans]
  | succ n => simp [spans]

/-- The end of an object is no member of it. -/
@[simp]
theorem spans_brace (n : Nat) (cs : List Char) : spans n ('\x7d' :: cs) = none := by
  have hspace : skipSpace ('\x7d' :: cs) = '\x7d' :: cs := skipSpace_cons rfl _
  cases n with
  | zero => simp [spans]
  | succ n => simp [spans, hspace]

/-- A member is found up to what stands behind its value. -/
theorem spans_named {behind : List Char} (hbefore : Blanks before) (k : String)
    (hafter : Blanks after) (n : Nat) (h : skipValue (2 * cs.length + 2) cs = some behind) :
    spans (n + 1) (before ++ ((units (quoted k).toList) ++ (after ++ ':' :: cs)))
      = match skipSpace behind with
        | ',' :: more => (spans n more).bind fun e => some ((k, front cs behind) :: e.1, e.2)
        | '\x7d' :: rest => some ([(k, front cs behind)], rest)
        | _ => none := by
  have hquote : ∀ cs, skipSpace ('"' :: cs) = '"' :: cs := skipSpace_cons rfl
  have hcolon : skipSpace (after ++ ':' :: cs) = ':' :: cs := hafter.skipSpace_cons rfl _
  rw [← spans_skipSpace, skipSpace_append hbefore, units_quoted, List.cons_append,
    spans_skipSpace, spans, hquote]
  simp only [List.append_assoc, List.singleton_append, name?_escapes, Option.bind_eq_bind,
    Option.bind_some, hcolon]
  exact congrArg (fun o => Option.bind o _) h

/-- What a skipped value is written as. -/
theorem Skipped.written (h : Skipped n j cs rest) (k : String) : ∃ gap, Blanks gap
    ∧ skipValue n (units cs ++ rest) = some (gap ++ rest)
    ∧ Written (k, j) (k, front (units cs ++ rest) (gap ++ rest)) := by
  obtain ⟨head, gap, rfl, hspells, hgap, hskip⟩ := h
  refine ⟨gap, hgap, hskip, rfl, head, ?_, hspells⟩
  rw [Text.units_append, hgap.units_eq, List.append_assoc, front_append]

end

/-- The members of an object are found in the bytes of a text that spells them. -/
theorem SpellsMembers.written {ms : List (String × Json)} {cs : List Char}
    (h : SpellsMembers ms cs) {n : Nat} (rest : List Char) (hn : (units cs).length < n) :
    ∃ sps, spans n (units cs ++ '\x7d' :: rest) = some (sps, rest)
      ∧ List.Forall₂ Written ms sps := by
  induction ms generalizing cs n with
  | nil => cases h
  | cons member ms ih => cases h with
  | @last v before after cs hbefore k hafter h =>
    obtain ⟨m, rfl⟩ : ∃ m, n = m + 1 := ⟨n - 1, by omega⟩
    have hskipped := h.skipped (n := 2 * (units cs ++ '\x7d' :: rest).length + 1) ('\x7d' :: rest)
      (by rw [List.length_append]; omega) (endsNumber_cons (by decide) _)
    obtain ⟨gap, hgap, hskip, hwritten⟩ := hskipped.written k
    have hend : skipSpace (gap ++ '\x7d' :: rest) = '\x7d' :: rest := hgap.skipSpace_cons rfl _
    refine ⟨_, ?_, .cons hwritten .nil⟩
    rw [units_member hbefore k hafter]
    simp only [List.append_assoc, List.cons_append]
    simp only [spans_named hbefore k hafter m hskip, hend]
  | @more v _ before after cs cs' hbefore k hafter h hmore =>
    have hchars := units_member hbefore k hafter (cs ++ ',' :: cs')
    have hvalue : units (cs ++ ',' :: cs') = units cs ++ ',' :: units cs' := by simp
    rw [hchars, hvalue] at hn
    simp only [List.length_append, List.length_cons] at hn
    obtain ⟨m, rfl⟩ : ∃ m, n = m + 1 := ⟨n - 1, by omega⟩
    obtain ⟨sps, hsps, hall⟩ := ih hmore (n := m) (by omega)
    have hskipped := h.skipped
      (n := 2 * (units cs ++ ',' :: (units cs' ++ '\x7d' :: rest)).length + 1)
      (',' :: (units cs' ++ '\x7d' :: rest)) (by rw [List.length_append]; omega)
      (endsNumber_cons (by decide) _)
    obtain ⟨gap, hgap, hskip, hwritten⟩ := hskipped.written k
    have hcomma : skipSpace (gap ++ ',' :: (units cs' ++ '\x7d' :: rest))
        = ',' :: (units cs' ++ '\x7d' :: rest) :=
      hgap.skipSpace_cons rfl _
    refine ⟨_, ?_, .cons hwritten hall⟩
    rw [hchars, hvalue]
    simp only [List.append_assoc, List.cons_append]
    simp only [spans_named hbefore k hafter m hskip, hcomma, hsps, Option.bind_some]

/-- A member whose value is not nested too deep is read. -/
theorem readSpan?_of_written {m : String × Json} {span : String × List Char}
    (h : Written m span) (hd : m.2.depth < maxDepth) : readSpan? span = some m := by
  obtain ⟨hname, cs, hcs, hspells⟩ := h
  have hread : parseWithin? (maxDepth - 1) (String.ofList cs) = some m.2 := by
    refine parseWithin?_of_spells ?_ (by omega)
    rwa [String.toList_ofList]
  simp [readSpan?, hcs, hread, hname]

/-- Members that are asked for are read, whatever the others are. -/
theorem mapM_readSpan? {names : List String} {ms : List (String × Json)}
    {sps : List (String × List Char)} (h : List.Forall₂ Written ms sps)
    (hd : ∀ m ∈ ms, m.1 ∈ names → m.2.depth < maxDepth) :
    (sps.filter fun m => m.1 ∈ names).mapM readSpan?
      = some (ms.filter fun m => m.1 ∈ names) := by
  induction h with
  | nil => simp
  | @cons m span ms sps hm _ ih =>
    rw [List.forall_mem_cons] at hd
    have hrest := ih hd.2
    have hname := hm.1
    by_cases hmem : m.1 ∈ names
    · simp [hname, hmem, readSpan?_of_written hm (hd.1 hmem), hrest]
    · simp [hname, hmem, hrest]

/-- The members that are asked for are read from the bytes of an object. -/
theorem parseMembers?_of_spells {names : List String} {ms : List (String × Json)}
    {cs : List Char} (h : SpellsMembers ms cs)
    (hd : ∀ m ∈ ms, m.1 ∈ names → m.2.depth < maxDepth) :
    parseMembers? names (Text.bytes ('\x7b' :: (cs ++ ['\x7d'])))
      = some (ms.filter fun m => m.1 ∈ names) := by
  have hchars : units ('\x7b' :: (cs ++ ['\x7d'])) = '\x7b' :: (units cs ++ ['\x7d']) := by simp
  have hlength : (Text.bytes ('\x7b' :: (cs ++ ['\x7d']))).length = (units cs).length + 2 := by
    have hbytes : (units ('\x7b' :: (cs ++ ['\x7d']))).length
        = (Text.bytes ('\x7b' :: (cs ++ ['\x7d']))).length := List.length_map _
    rw [← hbytes, hchars]
    simp
  obtain ⟨sps, hsps, hall⟩ := h.written (n := (units cs).length + 2) [] (by omega)
  rw [← spans_skipSpace] at hsps
  have hopen : skipSpace (Text.byteChars (Text.bytes ('\x7b' :: (cs ++ ['\x7d']))))
      = '\x7b' :: (units cs ++ ['\x7d']) := by
    rw [← units, hchars, skipSpace_cons rfl]
  simp only [parseMembers?, hlength, hopen]
  split
  next more he =>
    simp [he] at hsps
  next =>
    rw [hsps]
    exact mapM_readSpan? hall hd

/-- The members that are asked for are read from the bytes of the text of an object. -/
theorem parseMembers?_text {names : List String} {ms : List (String × Json)}
    (h : MembersReadable ms) (hne : ms ≠ [])
    (hd : ∀ m ∈ ms, m.1 ∈ names → m.2.depth < maxDepth) :
    parseMembers? names (Text.utf8 (text (.obj ms))) = some (ms.filter fun m => m.1 ∈ names) := by
  have hspells := spellsMembers_joined "" blanks_nil blanks_nil (spells_memberTexts ms h) hne
  have hchars : (text (.obj ms)).toList
      = '\x7b' :: ((Text.joined "," (memberTexts ms)).toList ++ ['\x7d']) := by
    rw [text, String.append_assoc, String.toList_append, String.toList_append]
    rfl
  rw [String.toList_empty, List.nil_append, List.append_nil, String.append_empty] at hspells
  rw [Text.utf8_eq_bytes, hchars]
  exact parseMembers?_of_spells hspells hd

end TableGraph.Json
