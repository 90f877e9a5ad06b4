import Mathlib.Data.List.DropRight
import TableGraph.Proofs.Decimal.Digits
import TableGraph.Proofs.Json.Grammar
import TableGraph.Proofs.Json.Text
import TableGraph.Proofs.Members

/-!
# Values are read back

A text that spells a value is read as the value, by recursion over the spelling: every text is read
up to what stands behind it, and takes no more steps than twice its characters. So the compact text
of a value and its text over lines are read back.
-/

namespace TableGraph.Json

mutual

/-- How deep arrays and objects are nested. -/
def depth : Json → Nat
  | .null => 0
  | .bool _ => 0
  | .num _ => 0
  | .str _ => 0
  | .arr xs => itemsDepth xs + 1
  | .obj ms => membersDepth ms + 1

/-- How deep the items of an array are nested. -/
def itemsDepth : List Json → Nat
  | [] => 0
  | x :: xs => max (depth x) (itemsDepth xs)

/-- How deep the values of members are nested. -/
def membersDepth : List (String × Json) → Nat
  | [] => 0
  | (_, v) :: ms => max (depth v) (membersDepth ms)

end

/-- An escaped character is not left out. -/
theorem escape_ne_nil (c : Char) : escape c ≠ [] := by
  intro he
  have hread := stringBody_escape 0 c ['"']
  rw [he] at hread
  simp [stringBody] at hread

/-- Escaping does not make a text shorter. -/
theorem length_le_escapes (cs : List Char) : cs.length ≤ (cs.flatMap escape).length := by
  induction cs with
  | nil => exact Nat.le_refl _
  | cons c cs ih =>
    have hc := List.length_pos_of_ne_nil (escape_ne_nil c)
    rw [List.flatMap_cons, List.length_append, List.length_cons]
    omega

/-- The characters of a quoted text. -/
@[simp]
theorem toList_quoted (s : String) :
    (quoted s).toList = '"' :: (s.toList.flatMap escape ++ ['"']) := by
  rw [quoted, String.toList_ofList, List.cons_append]

/-- A quoted text is read back. -/
@[simp]
theorem string?_escapes (s : String) (rest : List Char) :
    string? (s.toList.flatMap escape ++ '"' :: rest) = some (s, rest) := by
  have hlength := length_le_escapes s.toList
  have hfuel : s.toList.length < (s.toList.flatMap escape ++ '"' :: rest).length + 1 := by
    rw [List.length_append]
    omega
  rw [string?, stringBody_escapes hfuel, Option.map_some, String.ofList_toList]

/-- The first character of an integer is no blank, and none that starts another value or ends an
array. -/
theorem exists_first_of_signed (i : Int) : ∃ c cs, Decimal.signed i = c :: cs
    ∧ isSpace c = false ∧ c ∉ ['n', 't', 'f', '"', '[', ']', '\x7b'] := by
  obtain ⟨c, cs, hcs⟩ := Decimal.exists_signed_eq i
  have hmem : c ∈ Decimal.signed i := hcs ▸ List.mem_cons_self
  have hspace : c ∉ [' ', '\t', '\n', '\r'] := Decimal.not_mem_of_mem_signed (by decide) hmem
  refine ⟨c, cs, hcs, ?_, Decimal.not_mem_of_mem_signed (by decide) hmem⟩
  simpa [isSpace, and_assoc] using hspace

/-- What is no blank is not skipped. -/
theorem skipSpace_cons {c : Char} (h : isSpace c = false) (cs : List Char) :
    skipSpace (c :: cs) = c :: cs := by
  rw [skipSpace, List.dropWhile_cons_of_neg (by simp [h])]

/-- An integer is read up to its end. -/
theorem value_signed (n depth : Nat) {i : Int} (h : Decimal.FitsWord i) {rest : List Char}
    (hrest : Decimal.EndsNumber rest) :
    value (n + 1) depth (Decimal.signed i ++ rest) = some (.num (.int i), rest) := by
  obtain ⟨c, cs, hcs, hspace, hother⟩ := exists_first_of_signed i
  have hskip : skipSpace (Decimal.signed i ++ rest) = Decimal.signed i ++ rest := by
    rw [hcs, List.cons_append, skipSpace_cons hspace]
  have hfirst : ∀ {d : Char} {ds : List Char}, Decimal.signed i ++ rest = d :: ds →
      d ∉ ['n', 't', 'f', '"', '[', ']', '\x7b'] := by
    intro d ds he
    rw [hcs, List.cons_append] at he
    exact (List.cons.inj he).1 ▸ hother
  rw [value, hskip]
  split
  next _ he => exact absurd (by decide) (hfirst he)
  next _ he => exact absurd (by decide) (hfirst he)
  next _ he => exact absurd (by decide) (hfirst he)
  next _ he => exact absurd (by decide) (hfirst he)
  next _ he => exact absurd (by decide) (hfirst he)
  next _ he => exact absurd (by decide) (hfirst he)
  next =>
    rw [Decimal.number?_signed h hrest]
    rfl

section

variable {rest cs : List Char}

/-- Blanks are skipped. -/
theorem skipSpace_append {gap : List Char} (h : Blanks gap) (cs : List Char) :
    skipSpace (gap ++ cs) = skipSpace cs := List.dropWhile_append_of_pos h

/-- Blanks are skipped up to a mark. -/
theorem Blanks.skipSpace_cons {gap : List Char} (h : Blanks gap) {c : Char}
    (hc : isSpace c = false) (cs : List Char) : skipSpace (gap ++ c :: cs) = c :: cs := by
  rw [skipSpace_append h, Json.skipSpace_cons hc]

/-- Skipping blanks twice is skipping them once. -/
@[simp]
theorem skipSpace_skipSpace (cs : List Char) : skipSpace (skipSpace cs) = skipSpace cs :=
  List.dropWhile_idempotent _ _

/-- A value may have blanks in front of it. -/
theorem value_congr {cs cs' : List Char} (h : skipSpace cs = skipSpace cs') (n d : Nat) :
    value n d cs = value n d cs' := by
  cases n with
  | zero => rw [value, value]
  | succ n => rw [value, value, h]

/-- Items may have blanks in front of them. -/
theorem items_congr {cs cs' : List Char} (h : skipSpace cs = skipSpace cs') (n d : Nat) :
    items n d cs = items n d cs' := by
  cases n with
  | zero => rw [items, items]
  | succ n => rw [items, items, value_congr h]

/-- Members may have blanks in front of them. -/
theorem members_congr {cs cs' : List Char} (h : skipSpace cs = skipSpace cs') (n d : Nat) :
    members n d cs = members n d cs' := by
  cases n with
  | zero => rw [members, members]
  | succ n => rw [members, members, h]

/-- A comma does not go on with a number, and neither does the end of an array or object, nor a
blank. -/
theorem endsNumber_cons {c : Char} (h : c ∈ [',', ']', '\x7d', ' ', '\t', '\n', '\r'])
    (cs : List Char) : Decimal.EndsNumber (c :: cs) := by
  have hall : [',', ']', '\x7d', ' ', '\t', '\n', '\r'].all
      (fun d => !Decimal.isDigit d && (d != '.' && d != 'e' && d != 'E')) = true := by decide
  intro d hd
  cases hd
  simpa [and_assoc] using List.all_eq_true.mp hall c h

/-- Blanks do not go on with a number. -/
theorem Blanks.endsNumber {gap : List Char} (h : Blanks gap) (hcs : Decimal.EndsNumber cs) :
    Decimal.EndsNumber (gap ++ cs) := by
  cases gap with
  | nil => exact hcs
  | cons c gap =>
    have hc := h c List.mem_cons_self
    refine endsNumber_cons ?_ _
    simp only [isSpace, Bool.or_eq_true, decide_eq_true_eq] at hc
    simp only [List.mem_cons]
    tauto

/-- The first character of a value behind its blanks does not end an array. -/
theorem Spells.exists_first : ∀ {j : Json} {cs : List Char}, Spells j cs → ∀ rest,
    ∃ c more, skipSpace (cs ++ rest) = c :: more ∧ c ≠ ']'
  | _, _, .padded hbefore h hafter, rest => by
    rw [List.append_assoc, List.append_assoc, skipSpace_append hbefore]
    exact h.exists_first _
  | _, _, .null, _ => ⟨'n', _, rfl, by decide⟩
  | _, _, .yes, _ => ⟨'t', _, rfl, by decide⟩
  | _, _, .no, _ => ⟨'f', _, rfl, by decide⟩
  | _, _, .int (i := i) _, rest => by
    obtain ⟨c, more, hcs, hspace, hother⟩ := exists_first_of_signed i
    rw [hcs, List.cons_append]
    exact ⟨c, _, skipSpace_cons hspace _, fun he => hother (by rw [he]; decide)⟩
  | _, _, .str s, rest => by
    rw [toList_quoted, List.cons_append]
    exact ⟨'"', _, skipSpace_cons rfl _, by decide⟩
  | _, _, .noItems, _ => ⟨'[', _, rfl, by decide⟩
  | _, _, .arr _, _ => ⟨'[', _, skipSpace_cons rfl _, by decide⟩
  | _, _, .noMembers, _ => ⟨'\x7b', _, rfl, by decide⟩
  | _, _, .obj _ _, _ => ⟨'\x7b', _, skipSpace_cons rfl _, by decide⟩

/-- The first character of items behind their blanks does not end an array. -/
theorem SpellsItems.exists_first {xs : List Json} (h : SpellsItems xs cs) (rest : List Char) :
    ∃ c more, skipSpace (cs ++ rest) = c :: more ∧ c ≠ ']' := by
  cases h with
  | last h => exact h.exists_first rest
  | more h _ =>
    rw [List.append_assoc]
    exact h.exists_first _

/-- Members start with a quote behind their blanks. -/
theorem SpellsMembers.exists_first {ms : List (String × Json)} (h : SpellsMembers ms cs)
    (rest : List Char) : ∃ more, skipSpace (cs ++ rest) = '"' :: more := by
  cases h with
  | last hbefore | more hbefore =>
    rw [List.append_assoc, skipSpace_append hbefore, toList_quoted]
    exact ⟨_, skipSpace_cons rfl _⟩

end

section

variable {n d : Nat} {rest more cs r : List Char}

/-- An array that is not empty is read item by item. -/
theorem value_array {c : Char} (h : skipSpace cs = c :: more) (hend : c ≠ ']') :
    value (n + 1) (d + 1) ('[' :: cs) = (items n d cs).map fun r => (.arr r.1, r.2) := by
  have hskip : skipSpace ('[' :: cs) = '[' :: cs := skipSpace_cons rfl _
  rw [items_congr (skipSpace_skipSpace cs).symm, h, value]
  simp only [hskip, h, Nat.add_one_ne_zero, if_false, Nat.add_sub_cancel]
  split
  next _ he => exact absurd (List.cons.inj he).1 hend
  next => rfl

/-- An object that is not empty is read member by member. -/
theorem value_object (h : skipSpace cs = '"' :: more) : value (n + 1) (d + 1) ('\x7b' :: cs)
    = (members n d cs).map fun r => (.obj (Members.ofList r.1), r.2) := by
  have hskip : skipSpace ('\x7b' :: cs) = '\x7b' :: cs := skipSpace_cons rfl _
  rw [members_congr (skipSpace_skipSpace cs).symm, h, value]
  simp only [hskip, h, Nat.add_one_ne_zero, if_false, Nat.add_sub_cancel]
  rfl

/-- The last item of an array. -/
theorem items_last {x : Json} (h : value n d cs = some (x, r)) (hr : skipSpace r = ']' :: rest) :
    items (n + 1) d cs = some ([x], rest) := by
  rw [items, h]
  simp only [Option.bind_eq_bind, Option.bind_some, hr]

/-- An item of an array in front of more of them. -/
theorem items_more {x : Json} {xs : List Json} (h : value n d cs = some (x, r))
    (hr : skipSpace r = ',' :: more) (hmore : items n d more = some (xs, rest)) :
    items (n + 1) d cs = some (x :: xs, rest) := by
  rw [items, h]
  simp only [Option.bind_eq_bind, Option.bind_some, hr, hmore]

/-- A member of an object is read up to what stands behind its value. -/
theorem members_named {v : Json} {before after : List Char} (hbefore : Blanks before) (k : String)
    (hafter : Blanks after) (h : value n d cs = some (v, r)) :
    members (n + 1) d (before ++ ((quoted k).toList ++ (after ++ ':' :: cs)))
      = match skipSpace r with
        | ',' :: more => (members n d more).bind fun e => some ((k, v) :: e.1, e.2)
        | '\x7d' :: rest => some ([(k, v)], rest)
        | _ => none := by
  have hquote : ∀ cs, skipSpace ('"' :: cs) = '"' :: cs := skipSpace_cons rfl
  have hcolon : skipSpace (after ++ ':' :: cs) = ':' :: cs := hafter.skipSpace_cons rfl _
  rw [members_congr (skipSpace_append hbefore _), toList_quoted, List.cons_append,
    List.append_assoc, List.singleton_append, members]
  simp only [hquote, string?_escapes, Option.bind_eq_bind, Option.bind_some, hcolon]
  exact congrArg (fun o => Option.bind o _) h

/-- The last member of an object. -/
theorem members_last {v : Json} {before after : List Char} (hbefore : Blanks before) (k : String)
    (hafter : Blanks after) (h : value n d cs = some (v, r)) (hr : skipSpace r = '\x7d' :: rest) :
    members (n + 1) d (before ++ ((quoted k).toList ++ (after ++ ':' :: cs)))
      = some ([(k, v)], rest) := by
  simp only [members_named hbefore k hafter h, hr]

/-- A member of an object in front of more of them. -/
theorem members_more {v : Json} {ms : List (String × Json)} {before after : List Char}
    (hbefore : Blanks before) (k : String) (hafter : Blanks after)
    (h : value n d cs = some (v, r)) (hr : skipSpace r = ',' :: more)
    (hmore : members n d more = some (ms, rest)) :
    members (n + 1) d (before ++ ((quoted k).toList ++ (after ++ ':' :: cs)))
      = some ((k, v) :: ms, rest) := by
  simp only [members_named hbefore k hafter h, hr, hmore, Option.bind_some]

end

mutual

/-- A value is read from a text that spells it, up to the blanks behind it. -/
theorem Spells.value_eq : ∀ {j : Json} {cs : List Char}, Spells j cs → ∀ {n d : Nat}
    (rest : List Char), j.depth ≤ d → 2 * cs.length ≤ n + 1 → Decimal.EndsNumber rest →
      ∃ r, value (n + 1) d (cs ++ rest) = some (j, r) ∧ skipSpace r = skipSpace rest
  | _, _, .padded hbefore h hafter, n, d, rest => by
    intro hd hn hrest
    rw [List.length_append, List.length_append] at hn
    obtain ⟨r, hr, hskip⟩ := h.value_eq (n := n) _ hd (by omega) (hafter.endsNumber hrest)
    refine ⟨r, ?_, hskip.trans (skipSpace_append hafter rest)⟩
    rw [List.append_assoc, value_congr (skipSpace_append hbefore _), List.append_assoc, hr]
  | _, _, .null, _, _, _ => fun _ _ _ => ⟨_, rfl, rfl⟩
  | _, _, .yes, _, _, _ => fun _ _ _ => ⟨_, rfl, rfl⟩
  | _, _, .no, _, _, _ => fun _ _ _ => ⟨_, rfl, rfl⟩
  | _, _, .int h, n, d, _ => fun _ _ hrest => ⟨_, value_signed n d h hrest, rfl⟩
  | _, _, .str s, n, d, rest => by
    intro _ _ _
    refine ⟨rest, ?_, rfl⟩
    rw [toList_quoted, List.cons_append, List.append_assoc, value, skipSpace_cons rfl]
    exact congrArg (Option.map _) (string?_escapes s rest)
  | _, _, .noItems, n, d, rest => by
    intro hd _ _
    obtain ⟨e, rfl⟩ : ∃ e, d = e + 1 := ⟨d - 1, by rw [depth] at hd; omega⟩
    exact ⟨rest, rfl, rfl⟩
  | _, _, @Spells.arr xs cs h, n, d, rest => by
    intro hd hn _
    -- The two brackets pay for the steps down to the items.
    rw [depth] at hd
    rw [List.length_cons, List.length_append, List.length_singleton] at hn
    obtain ⟨m, rfl⟩ : ∃ m, n = m + 2 := ⟨n - 2, by omega⟩
    obtain ⟨e, rfl⟩ : ∃ e, d = e + 1 := ⟨d - 1, by omega⟩
    obtain ⟨c, more, hfirst, hend⟩ := h.exists_first (']' :: rest)
    have hitems : items (m + 2) e (cs ++ ']' :: rest) = some (xs, rest) :=
      h.items_eq rest (by omega) (by omega)
    refine ⟨rest, ?_, rfl⟩
    rw [List.cons_append, List.append_assoc, List.singleton_append, value_array hfirst hend, hitems,
      Option.map_some]
  | _, _, .noMembers, n, d, rest => by
    intro hd _ _
    obtain ⟨e, rfl⟩ : ∃ e, d = e + 1 := ⟨d - 1, by rw [depth] at hd; omega⟩
    exact ⟨rest, rfl, rfl⟩
  | _, _, @Spells.obj ms cs hnames h, n, d, rest => by
    intro hd hn _
    rw [depth] at hd
    rw [List.length_cons, List.length_append, List.length_singleton] at hn
    obtain ⟨m, rfl⟩ : ∃ m, n = m + 2 := ⟨n - 2, by omega⟩
    obtain ⟨e, rfl⟩ : ∃ e, d = e + 1 := ⟨d - 1, by omega⟩
    obtain ⟨more, hfirst⟩ := h.exists_first ('\x7d' :: rest)
    have hmembers : members (m + 2) e (cs ++ '\x7d' :: rest) = some (ms, rest) :=
      h.members_eq rest (by omega) (by omega)
    refine ⟨rest, ?_, rfl⟩
    rw [List.cons_append, List.append_assoc, List.singleton_append, value_object hfirst, hmembers,
      Option.map_some, Members.ofList_of_nodup hnames]

/-- The items of an array are read up to its end. -/
theorem SpellsItems.items_eq : ∀ {xs : List Json} {cs : List Char}, SpellsItems xs cs →
    ∀ {n d : Nat} (rest : List Char), itemsDepth xs ≤ d → 2 * cs.length ≤ n →
      items (n + 2) d (cs ++ ']' :: rest) = some (xs, rest)
  | _, _, .last h, n, d, rest => by
    intro hd hn
    rw [itemsDepth] at hd
    -- The end of the array does not go on with a number, and neither does a comma below.
    obtain ⟨r, hr, hskip⟩ := h.value_eq (n := n) (d := d) (']' :: rest) (by omega) (by omega)
      (endsNumber_cons (by decide) rest)
    exact items_last hr (hskip.trans (skipSpace_cons rfl _))
  | _, _, @SpellsItems.more _ _ _ cs' h hmore, n, d, rest => by
    intro hd hn
    rw [itemsDepth] at hd
    rw [List.length_append, List.length_cons] at hn
    obtain ⟨m, rfl⟩ : ∃ m, n = m + 1 := ⟨n - 1, by omega⟩
    obtain ⟨r, hr, hskip⟩ := h.value_eq (n := m + 1) (d := d) (',' :: (cs' ++ ']' :: rest))
      (by omega) (by omega) (endsNumber_cons (by decide) _)
    rw [List.append_assoc, List.cons_append]
    exact items_more hr (hskip.trans (skipSpace_cons rfl _))
      (hmore.items_eq rest (by omega) (by omega))

/-- The members of an object are read up to its end. -/
theorem SpellsMembers.members_eq : ∀ {ms : List (String × Json)} {cs : List Char},
    SpellsMembers ms cs → ∀ {n d : Nat} (rest : List Char), membersDepth ms ≤ d →
      2 * cs.length ≤ n → members (n + 2) d (cs ++ '\x7d' :: rest) = some (ms, rest)
  | _, _, .last hbefore k hafter h, n, d, rest => by
    intro hd hn
    rw [membersDepth] at hd
    simp only [List.length_append, List.length_cons] at hn
    obtain ⟨r, hr, hskip⟩ := h.value_eq (n := n) (d := d) ('\x7d' :: rest) (by omega)
      (by omega) (endsNumber_cons (by decide) rest)
    simp only [List.append_assoc, List.cons_append]
    exact members_last hbefore k hafter hr (hskip.trans (skipSpace_cons rfl _))
  | _, _, @SpellsMembers.more _ _ _ _ _ cs' hbefore k hafter h hmore, n, d, rest => by
    intro hd hn
    rw [membersDepth] at hd
    simp only [List.length_append, List.length_cons] at hn
    obtain ⟨m, rfl⟩ : ∃ m, n = m + 1 := ⟨n - 1, by omega⟩
    obtain ⟨r, hr, hskip⟩ := h.value_eq (n := m + 1) (d := d)
      (',' :: (cs' ++ '\x7d' :: rest)) (by omega) (by omega) (endsNumber_cons (by decide) _)
    simp only [List.append_assoc, List.cons_append]
    exact members_more hbefore k hafter hr (hskip.trans (skipSpace_cons rfl _))
      (hmore.members_eq rest (by omega) (by omega))

end

/-- A text that spells a value is read as the value, as far as nesting is allowed. -/
theorem parseWithin?_of_spells {s : String} {j : Json} {d : Nat} (h : Spells j s.toList)
    (hd : j.depth ≤ d) : parseWithin? d s = some j := by
  have hend : Decimal.EndsNumber [] := fun c hc => nomatch hc
  obtain ⟨r, hvalue, hr⟩ := h.value_eq (n := 2 * s.length + 1) [] hd
    (by rw [String.length_toList]; omega) hend
  rw [List.append_nil] at hvalue
  rw [parseWithin?, hvalue]
  exact if_pos hr

/-- The text of a value is read back. -/
theorem parse?_text {j : Json} (h : j.Readable) (hd : j.depth ≤ maxDepth) :
    parse? j.text = some j := parseWithin?_of_spells (spells_text j h) hd

/-- The text of a value over lines is read back. -/
theorem parse?_pretty {j : Json} (h : j.Readable) (hd : j.depth ≤ maxDepth) :
    parse? j.pretty = some j := parseWithin?_of_spells (spells_prettyAt j 0 h) hd

end TableGraph.Json
