import Mathlib.Data.List.Forall2
import TableGraph.Json.Parser
import TableGraph.Json.Printer
import TableGraph.Proofs.Json.Number

/-!
# Texts that spell a value

The texts of a value, with blanks wherever they may stand: around a value, and around the name of a
member. The compact text and the text over lines are two of them, for values whose integers fit 64
bits and whose objects name each member once; a number with a fraction is left to its own reader.
-/

namespace TableGraph.Json

mutual

/-- Whether the integers of a value fit 64 bits, there are no other numbers, and the members of each
object have different names. -/
def Readable : Json → Prop
  | .null => True
  | .bool _ => True
  | .num (.int i) => Decimal.FitsWord i
  | .num (.float _) => False
  | .str _ => True
  | .arr xs => ItemsReadable xs
  | .obj ms => (Members.names ms).Nodup ∧ MembersReadable ms

/-- Whether all items of an array are readable. -/
def ItemsReadable : List Json → Prop
  | [] => True
  | x :: xs => Readable x ∧ ItemsReadable xs

/-- Whether the values of all members of an object are readable. -/
def MembersReadable : List (String × Json) → Prop
  | [] => True
  | (_, v) :: ms => Readable v ∧ MembersReadable ms

end

/-- Whether a text is nothing but blanks. -/
def Blanks (cs : List Char) : Prop := ∀ c ∈ cs, isSpace c = true

mutual

/-- The texts that spell a value. -/
inductive Spells : Json → List Char → Prop
  /-- A value between blanks. -/
  | padded {j : Json} {before cs after : List Char} (hbefore : Blanks before) (h : Spells j cs)
    (hafter : Blanks after) : Spells j (before ++ (cs ++ after))
  /-- `null`. -/
  | null : Spells .null ['n', 'u', 'l', 'l']
  /-- `true`. -/
  | yes : Spells (.bool true) ['t', 'r', 'u', 'e']
  /-- `false`. -/
  | no : Spells (.bool false) ['f', 'a', 'l', 's', 'e']
  /-- An integer that fits 64 bits. -/
  | int {i : Int} (h : Decimal.FitsWord i) : Spells (.num (.int i)) (Decimal.signed i)
  /-- A string between quotes. -/
  | str (s : String) : Spells (.str s) (quoted s).toList
  /-- An array without items. -/
  | noItems : Spells (.arr []) ['[', ']']
  /-- An array between brackets. -/
  | arr {xs : List Json} {cs : List Char} (h : SpellsItems xs cs) :
    Spells (.arr xs) ('[' :: (cs ++ [']']))
  /-- An object without members. -/
  | noMembers : Spells (.obj []) ['\x7b', '\x7d']
  /-- An object between braces, whose members have different names. -/
  | obj {ms : List (String × Json)} {cs : List Char} (hn : (Members.names ms).Nodup)
    (h : SpellsMembers ms cs) : Spells (.obj ms) ('\x7b' :: (cs ++ ['\x7d']))

/-- The texts that spell items with commas between them. -/
inductive SpellsItems : List Json → List Char → Prop
  /-- The last item. -/
  | last {x : Json} {cs : List Char} (h : Spells x cs) : SpellsItems [x] cs
  /-- An item in front of more of them. -/
  | more {x : Json} {xs : List Json} {cs cs' : List Char} (h : Spells x cs)
    (hmore : SpellsItems xs cs') : SpellsItems (x :: xs) (cs ++ ',' :: cs')

/-- The texts that spell members with commas between them. -/
inductive SpellsMembers : List (String × Json) → List Char → Prop
  /-- The last member. -/
  | last {v : Json} {before after cs : List Char} (hbefore : Blanks before) (k : String)
    (hafter : Blanks after) (h : Spells v cs) :
    SpellsMembers [(k, v)] (before ++ ((quoted k).toList ++ (after ++ ':' :: cs)))
  /-- A member in front of more of them. -/
  | more {v : Json} {ms : List (String × Json)} {before after cs cs' : List Char}
    (hbefore : Blanks before) (k : String) (hafter : Blanks after) (h : Spells v cs)
    (hmore : SpellsMembers ms cs') :
    SpellsMembers ((k, v) :: ms)
      (before ++ ((quoted k).toList ++ (after ++ ':' :: (cs ++ ',' :: cs'))))

end

/-- Nothing is nothing but blanks. -/
theorem blanks_nil : Blanks [] := fun _ hc => nomatch hc

/-- A new line is nothing but blanks. -/
theorem blanks_lineBreak (level : Nat) : Blanks (lineBreak level).toList := by
  intro c hc
  rw [lineBreak, String.toList_ofList] at hc
  rcases List.mem_cons.mp hc with rfl | hc
  · rfl
  · rw [List.eq_of_mem_replicate hc]
    rfl

/-- A value with blanks in front of it. -/
theorem Spells.behind {j : Json} {gap cs : List Char} (hgap : Blanks gap) (h : Spells j cs) :
    Spells j (gap ++ cs) := by
  have hpadded := Spells.padded hgap h blanks_nil
  rwa [List.append_nil] at hpadded

/-- The texts of a member without blanks in front of it. -/
def SpellsMember (m : String × Json) (cs : List Char) : Prop :=
  ∃ cs', cs = (quoted m.1).toList ++ ':' :: cs' ∧ Spells m.2 cs'

/-- A member is spelled by its name and a text of its value behind a colon and a blank. -/
theorem spellsMember_spaced (k : String) {v : Json} {t : String} (h : Spells v t.toList) :
    SpellsMember (k, v) (quoted k ++ ": " ++ t).toList := by
  have hspace : Blanks [' '] := fun c hc => List.mem_singleton.mp hc ▸ rfl
  refine ⟨' ' :: t.toList, ?_, h.behind hspace⟩
  rw [String.append_assoc, String.toList_append, String.toList_append]
  rfl

section

variable (gap : String) {stop : List Char}

/-- Texts that spell items spell all of them when they are joined by commas and blanks. -/
theorem spellsItems_joined (hgap : Blanks gap.toList) (hstop : Blanks stop) {xs : List Json}
    {ts : List String} (h : List.Forall₂ (fun x t => Spells x t.toList) xs ts) (hne : xs ≠ []) :
    SpellsItems xs (gap.toList ++ ((Text.joined ("," ++ gap) ts).toList ++ stop)) := by
  induction h with
  | nil => exact absurd rfl hne
  | @cons x t xs ts hx hxs ih =>
    cases hxs with
    | nil => exact .last (.padded hgap hx hstop)
    | cons hy hys =>
      have hmore := SpellsItems.more (hx.behind hgap) (ih (List.cons_ne_nil _ _))
      simp only [Text.joined, String.toList_append, List.append_assoc] at hmore ⊢
      exact hmore

/-- Texts that spell members spell all of them when they are joined by commas and blanks. -/
theorem spellsMembers_joined (hgap : Blanks gap.toList) (hstop : Blanks stop)
    {ms : List (String × Json)} {ts : List String}
    (h : List.Forall₂ (fun m t => SpellsMember m t.toList) ms ts) (hne : ms ≠ []) :
    SpellsMembers ms (gap.toList ++ ((Text.joined ("," ++ gap) ts).toList ++ stop)) := by
  induction h with
  | nil => exact absurd rfl hne
  | @cons m t ms ts hm hms ih =>
    obtain ⟨cs, hcs, hv⟩ := hm
    cases hms with
    | nil =>
      have hlast := SpellsMembers.last hgap m.1 blanks_nil (.padded blanks_nil hv hstop)
      rw [Text.joined, hcs, List.append_assoc]
      exact hlast
    | cons hy hys =>
      have hmore := SpellsMembers.more hgap m.1 blanks_nil hv (ih (List.cons_ne_nil _ _))
      simp only [Text.joined, String.toList_append, List.append_assoc, hcs] at hmore ⊢
      exact hmore

/-- An array of items is spelled by their texts between brackets. -/
theorem spells_arr (hgap : Blanks gap.toList) (hstop : Blanks stop) {xs : List Json}
    {ts : List String} (h : List.Forall₂ (fun x t => Spells x t.toList) xs ts) (hne : xs ≠ []) :
    Spells (.arr xs)
      ('[' :: (gap.toList ++ ((Text.joined ("," ++ gap) ts).toList ++ (stop ++ [']'])))) := by
  have harr := Spells.arr (spellsItems_joined gap hgap hstop h hne)
  rwa [List.append_assoc, List.append_assoc] at harr

/-- An object of members is spelled by their texts between braces. -/
theorem spells_obj (hgap : Blanks gap.toList) (hstop : Blanks stop) {ms : List (String × Json)}
    {ts : List String} (hn : (Members.names ms).Nodup)
    (h : List.Forall₂ (fun m t => SpellsMember m t.toList) ms ts) (hne : ms ≠ []) :
    Spells (.obj ms)
      ('\x7b' :: (gap.toList ++ ((Text.joined ("," ++ gap) ts).toList ++ (stop ++ ['\x7d'])))) := by
  have hobj := Spells.obj hn (spellsMembers_joined gap hgap hstop h hne)
  rwa [List.append_assoc, List.append_assoc] at hobj

end

mutual

/-- The compact text of a value spells it. -/
theorem spells_text : ∀ j : Json, j.Readable → Spells j j.text.toList
  | .null, _ => .null
  | .bool true, _ => .yes
  | .bool false, _ => .no
  | .num (.int i), h => by
    rw [text, Number.text, String.toList_ofList]
    exact .int h
  | .num (.float _), h => h.elim
  | .str s, _ => .str s
  | .arr [], _ => .noItems
  | .arr (x :: xs), h => by
    have harr := spells_arr "" blanks_nil blanks_nil (spells_texts (x :: xs) h)
      (List.cons_ne_nil _ _)
    rw [text, String.toList_append, String.toList_append, List.append_assoc]
    exact harr
  | .obj [], _ => .noMembers
  | .obj (m :: ms), h => by
    have hobj := spells_obj "" blanks_nil blanks_nil h.1 (spells_memberTexts (m :: ms) h.2)
      (List.cons_ne_nil _ _)
    rw [text, String.toList_append, String.toList_append, List.append_assoc]
    exact hobj

/-- The compact texts of values spell them. -/
theorem spells_texts : ∀ xs : List Json, ItemsReadable xs →
    List.Forall₂ (fun x t => Spells x t.toList) xs (texts xs)
  | [], _ => .nil
  | x :: xs, h => .cons (spells_text x h.1) (spells_texts xs h.2)

/-- The compact texts of members spell them. -/
theorem spells_memberTexts : ∀ ms : List (String × Json), MembersReadable ms →
    List.Forall₂ (fun m t => SpellsMember m t.toList) ms (memberTexts ms)
  | [], _ => .nil
  | (k, v) :: ms, h => by
    refine .cons ⟨v.text.toList, ?_, spells_text v h.1⟩ (spells_memberTexts ms h.2)
    rw [String.append_assoc, String.toList_append, String.toList_append]
    rfl

end

mutual

/-- The text of a value over lines spells it, at each level. -/
theorem spells_prettyAt : ∀ (j : Json) (level : Nat), j.Readable →
    Spells j (prettyAt level j).toList
  | .null, _, _ => by
    rw [prettyAt]
    exact .null
  | .bool true, _, _ => by
    rw [prettyAt]
    exact .yes
  | .bool false, _, _ => by
    rw [prettyAt]
    exact .no
  | .num (.int i), level, h => by
    rw [prettyAt, Number.text, String.toList_ofList]
    exact .int h
  | .num (.float _), _, h => h.elim
  | .str s, _, _ => by
    rw [prettyAt]
    exact .str s
  | .arr [], _, _ => by
    rw [prettyAt]
    exact .noItems
  | .arr (x :: xs), level, h => by
    have harr := spells_arr _ (blanks_lineBreak (level + 1)) (blanks_lineBreak level)
      (.cons (spells_prettyAt x (level + 1) h.1) (spells_prettyItems xs (level + 1) h.2))
      (List.cons_ne_nil _ _)
    rw [prettyAt]
    simp only [String.toList_append, List.append_assoc]
    exact harr
  | .obj [], _, _ => by
    rw [prettyAt]
    exact .noMembers
  | .obj ((k, v) :: ms), level, h => by
    have hmember := spellsMember_spaced k (spells_prettyAt v (level + 1) h.2.1)
    have hobj := spells_obj _ (blanks_lineBreak (level + 1)) (blanks_lineBreak level) h.1
      (.cons hmember (spells_prettyMembers ms (level + 1) h.2.2)) (List.cons_ne_nil _ _)
    rw [prettyAt]
    simp only [String.toList_append, List.append_assoc] at hobj ⊢
    exact hobj

/-- The texts of items over lines spell them. -/
theorem spells_prettyItems : ∀ (xs : List Json) (level : Nat), ItemsReadable xs →
    List.Forall₂ (fun x t => Spells x t.toList) xs (prettyItems level xs)
  | [], _, _ => .nil
  | x :: xs, level, h => .cons (spells_prettyAt x level h.1) (spells_prettyItems xs level h.2)

/-- The texts of members over lines spell them. -/
theorem spells_prettyMembers : ∀ (ms : List (String × Json)) (level : Nat), MembersReadable ms →
    List.Forall₂ (fun m t => SpellsMember m t.toList) ms (prettyMembers level ms)
  | [], _, _ => .nil
  | (k, v) :: ms, level, h =>
    .cons (spellsMember_spaced k (spells_prettyAt v level h.1)) (spells_prettyMembers ms level h.2)

end

end TableGraph.Json
