import TableGraph.Proofs.Decimal.Texts
import TableGraph.Proofs.Json.Reading

/-!
# Texts tell values apart at any depth

The compact text of a value whose numbers are finite says where it ends: numbers end at a character
that no number has, texts at their closing quote, arrays and objects at their closing bracket. So a
text is that of one value only, and what follows it is the same. Arrays and objects list their parts
in the same way, and what is listed is told apart when the parts are.
-/

namespace TableGraph

/-- Joined texts are the first one and the others with a separator in front of each. -/
theorem Text.toList_joined_cons (separator t : String) (ts : List String) :
    (joined separator (t :: ts)).toList
      = t.toList ++ ts.flatMap fun u => separator.toList ++ u.toList := by
  induction ts generalizing t with
  | nil => rw [joined, List.flatMap_nil, List.append_nil]
  | cons u ts ih =>
    rw [joined, String.toList_append, String.toList_append, ih, List.flatMap_cons,
      List.append_assoc, List.append_assoc]

namespace Number

/-- The number is an integer, or neither infinite nor undefined. -/
def Finite : Number → Prop
  | .int _ => True
  | .float d => d.isSpecial = false

/-- A number is written with characters of numbers. -/
theorem isNumeric_of_mem_text {n : Number} (h : n.Finite) :
    ∀ c ∈ n.text.toList, Decimal.isNumeric c = true := by
  cases n with
  | int i =>
    rw [text, String.toList_ofList]
    intro c hc
    rcases Decimal.mem_signed hc with rfl | hc
    · rfl
    · exact Decimal.isNumeric_of_isDigit hc
  | float d =>
    obtain ⟨cs, hcs, hunsigned, _⟩ := Decimal.Double.exists_text_eq h
    rw [text, hcs, String.toList_ofList]
    refine List.forall_mem_append.mpr ⟨?_, hunsigned.numeric⟩
    unfold Decimal.Double.sign
    split <;> exact List.all_eq_true.mp rfl

/-- A number is written with at least one character. -/
theorem toList_text_ne_nil {n : Number} (h : n.Finite) : n.text.toList ≠ [] := by
  cases n with
  | int i =>
    obtain ⟨c, cs, hcs⟩ := Decimal.exists_signed_eq i
    rw [text, String.toList_ofList, hcs]
    exact List.cons_ne_nil _ _
  | float d =>
    obtain ⟨cs, hcs, hunsigned, _⟩ := Decimal.Double.exists_text_eq h
    obtain ⟨c, rest, rfl, _⟩ := hunsigned.first
    rw [text, hcs, String.toList_ofList]
    exact List.append_ne_nil_of_right_ne_nil _ (List.cons_ne_nil _ _)

/-- An integer has no point and no exponent. -/
theorem text_int_ne_text_float {i : Int} {d : Decimal.Double} (h : d.isSpecial = false) :
    text (.int i) ≠ text (.float d) := by
  intro he
  obtain ⟨cs, hcs, hunsigned, _⟩ := Decimal.Double.exists_text_eq h
  have hsigned : Decimal.signed i = d.sign ++ cs := by
    rw [text, text, hcs] at he
    exact String.ofList_injective he
  have hmark : ∃ c ∈ Decimal.signed i, c = '.' ∨ c = 'e' := by
    rw [hsigned]
    rcases hunsigned.mark with hc | hc
    · exact ⟨_, List.mem_append_right _ hc, Or.inl rfl⟩
    · exact ⟨_, List.mem_append_right _ hc, Or.inr rfl⟩
  obtain ⟨c, hc, hcases⟩ := hmark
  have hnot : c ∉ ['.', 'e'] := Decimal.not_mem_of_mem_signed (by decide) hc
  rcases hcases with rfl | rfl
  · exact hnot (by decide)
  · exact hnot (by decide)

/-- Different finite numbers have different texts. -/
theorem text_injective {m n : Number} (hm : m.Finite) (hn : n.Finite) (h : m.text = n.text) :
    m = n := by
  cases m with
  | int i =>
    cases n with
    | int j => rw [Decimal.signed_injective (String.ofList_injective h)]
    | float d => exact absurd h (text_int_ne_text_float hn)
  | float d =>
    cases n with
    | int j => exact absurd h.symm (text_int_ne_text_float hm)
    | float e => rw [Decimal.Double.text_injective hm hn h]

end Number

namespace Json

/-- The numbers of a value are finite, as they are in every text of a value. -/
inductive Finite : Json → Prop
  /-- `null` has no numbers. -/
  | null : Finite .null
  /-- A boolean has no numbers. -/
  | bool (value : Bool) : Finite (.bool value)
  /-- A finite number. -/
  | num {value : Number} (h : value.Finite) : Finite (.num value)
  /-- A string has no numbers. -/
  | str (value : String) : Finite (.str value)
  /-- The numbers of the items are finite. -/
  | arr {items : List Json} (h : ∀ j ∈ items, Finite j) : Finite (.arr items)
  /-- The numbers in the values of the members are finite. -/
  | obj {ms : Members Json} (h : ∀ m ∈ ms, Finite m.2) : Finite (.obj ms)

/-- The forms that values have. -/
inductive Form
  /-- `null`. -/
  | null
  /-- `true`. -/
  | yes
  /-- `false`. -/
  | no
  /-- A number. -/
  | number
  /-- A string. -/
  | string
  /-- An array. -/
  | array
  /-- An object. -/
  | object

/-- The form of a value. -/
def form : Json → Form
  | .null => .null
  | .bool true => .yes
  | .bool false => .no
  | .num _ => .number
  | .str _ => .string
  | .arr _ => .array
  | .obj _ => .object

/-- The form of the value whose text begins with a character. -/
def formOf? (c : Char) : Option Form :=
  if Decimal.isNumeric c then some .number
  else match c with
    | 'n' => some .null
    | 't' => some .yes
    | 'f' => some .no
    | '"' => some .string
    | '[' => some .array
    | '\x7b' => some .object
    | _ => none

/-- The first character of a text tells the form of the value. -/
theorem exists_first_of_text {j : Json} (h : j.Finite) :
    ∃ c cs, j.text.toList = c :: cs ∧ formOf? c = some j.form := by
  cases h with
  | null => exact ⟨_, _, rfl, rfl⟩
  | bool b => cases b <;> exact ⟨_, _, rfl, rfl⟩
  | str s => exact ⟨_, _, by rw [text, toList_quoted], rfl⟩
  | arr => exact ⟨'[', _, by rw [text, String.toList_append, String.toList_append]; rfl, rfl⟩
  | obj => exact ⟨'\x7b', _, by rw [text, String.toList_append, String.toList_append]; rfl, rfl⟩
  | @num n h =>
    obtain ⟨c, cs, hcs⟩ := List.exists_cons_of_ne_nil (n.toList_text_ne_nil h)
    have hc := n.isNumeric_of_mem_text h c (hcs ▸ List.mem_cons_self)
    exact ⟨c, cs, by rw [text, hcs], if_pos hc⟩

/-- Two values of one form. -/
inductive SameForm : Json → Json → Prop
  /-- Both are `null`. -/
  | null : SameForm .null .null
  /-- Both are the same boolean. -/
  | bool (value : Bool) : SameForm (.bool value) (.bool value)
  /-- Both are numbers. -/
  | num (m n : Number) : SameForm (.num m) (.num n)
  /-- Both are strings. -/
  | str (s t : String) : SameForm (.str s) (.str t)
  /-- Both are arrays. -/
  | arr (xs ys : List Json) : SameForm (.arr xs) (.arr ys)
  /-- Both are objects. -/
  | obj (ms ns : Members Json) : SameForm (.obj ms) (.obj ns)

/-- The form tells whether two values are of one form. -/
theorem sameForm_of_form_eq : ∀ {a b : Json}, a.form = b.form → SameForm a b
  | .null, .null, _ => .null
  | .bool true, .bool true, _ => .bool true
  | .bool false, .bool false, _ => .bool false
  | .num m, .num n, _ => .num m n
  | .str s, .str t, _ => .str s t
  | .arr xs, .arr ys, _ => .arr xs ys
  | .obj ms, .obj ns, _ => .obj ms ns

/-- Values whose texts begin alike are of one form. -/
theorem sameForm_of_text {a b : Json} (ha : a.Finite) (hb : b.Finite) {r r' : List Char}
    (h : a.text.toList ++ r = b.text.toList ++ r') : SameForm a b := by
  obtain ⟨c, cs, hcs, hc⟩ := exists_first_of_text ha
  obtain ⟨c', cs', hcs', hc'⟩ := exists_first_of_text hb
  rw [hcs, hcs'] at h
  obtain ⟨rfl, _⟩ := List.cons.inj h
  exact sameForm_of_form_eq (Option.some.inj (hc.symm.trans hc'))

/-- A text does not go on with a value: it is empty, or begins with a comma or a closing bracket. -/
def EndsValue (cs : List Char) : Prop := ∀ c ∈ cs.head?, c ∈ [',', ']', '\x7d']

/-- A comma or a closing bracket does not go on with a value. -/
theorem endsValue_cons {c : Char} (h : c ∈ [',', ']', '\x7d']) (cs : List Char) :
    EndsValue (c :: cs) := by
  rintro _ ⟨⟩
  exact h

/-- A number ends where the characters of numbers end. -/
theorem takeWhile_number {n : Number} (h : n.Finite) {r : List Char} (hr : EndsValue r) :
    (n.text.toList ++ r).takeWhile Decimal.isNumeric = n.text.toList := by
  rw [List.takeWhile_append_of_pos (n.isNumeric_of_mem_text h)]
  cases r with
  | nil => exact List.append_nil _
  | cons c r =>
    have hmarks : [',', ']', '\x7d'].any Decimal.isNumeric = false := rfl
    rw [List.takeWhile_cons_of_neg (List.any_eq_false.mp hmarks c (hr c rfl)), List.append_nil]

/-- Numbers in front of texts that do not go on with them are told apart. -/
theorem number_append {m n : Number} (hm : m.Finite) (hn : n.Finite) {r r' : List Char}
    (hr : EndsValue r) (hr' : EndsValue r') (h : m.text.toList ++ r = n.text.toList ++ r') :
    m = n ∧ r = r' := by
  have htext : m.text.toList = n.text.toList := by
    rw [← takeWhile_number hm hr, h, takeWhile_number hn hr']
  rw [htext] at h
  exact ⟨Number.text_injective hm hn (String.toList_injective htext), List.append_cancel_left h⟩

/-- Quoted texts end at their closing quote. -/
theorem quoted_append {s t : String} {r r' : List Char}
    (h : (quoted s).toList ++ r = (quoted t).toList ++ r') : s = t ∧ r = r' := by
  have hbody : s.toList.flatMap escape ++ '"' :: r = t.toList.flatMap escape ++ '"' :: r' := by
    simpa using h
  have hs := string?_escapes s r
  rw [hbody, string?_escapes, Option.some.injEq, Prod.mk.injEq] at hs
  exact ⟨hs.1.symm, hs.2.symm⟩

/-- The text of a member. -/
def memberText (m : String × Json) : List Char := (quoted m.1).toList ++ ':' :: m.2.text.toList

section

variable {α : Type} (form : α → List Char) (close : Char)

/-- Texts with a comma in front of each, up to a closing bracket. -/
def furtherTexts (xs : List α) (r : List Char) : List Char :=
  (xs.flatMap fun x => ',' :: form x) ++ close :: r

/-- Texts with commas between them, up to a closing bracket. -/
def listedTexts (xs : List α) (r : List Char) : List Char :=
  match xs with
  | [] => close :: r
  | x :: xs => form x ++ furtherTexts form close xs r

/-- Further texts are listed behind a comma. -/
theorem furtherTexts_cons (x : α) (xs : List α) (r : List Char) :
    furtherTexts form close (x :: xs) r = ',' :: listedTexts form close (x :: xs) r := by
  rw [furtherTexts, List.flatMap_cons, List.append_assoc]
  rfl

variable {form close} {r r' : List Char}

/-- Further texts do not go on with the one before. -/
theorem endsValue_furtherTexts (hclose : close ∈ [',', ']', '\x7d']) (xs : List α) (r : List Char) :
    EndsValue (furtherTexts form close xs r) := by
  cases xs with
  | nil => exact endsValue_cons hclose _
  | cons x xs => exact endsValue_cons List.mem_cons_self _

/-- Further texts that are the same are listed in the same way. -/
theorem listedTexts_of_furtherTexts (hclose : close ≠ ',') {xs ys : List α}
    (h : furtherTexts form close xs r = furtherTexts form close ys r') :
    listedTexts form close xs r = listedTexts form close ys r' := by
  cases xs with
  | nil =>
    cases ys with
    | nil => exact h
    | cons y ys => exact absurd (List.cons.inj h).1 hclose
  | cons x xs =>
    cases ys with
    | nil => exact absurd (List.cons.inj h).1.symm hclose
    | cons y ys =>
      rw [furtherTexts_cons, furtherTexts_cons] at h
      exact (List.cons.inj h).2

/-- What is listed is told apart, with what follows the closing bracket, if the single texts are and
none of them begins with the closing bracket. -/
theorem listedTexts_inj (hmark : close ∈ [']', '\x7d']) {xs ys : List α}
    (hxs : ∀ x ∈ xs, ∀ r r', form x ++ r ≠ close :: r')
    (hys : ∀ y ∈ ys, ∀ r r', form y ++ r ≠ close :: r')
    (heach : ∀ x ∈ xs, ∀ y ∈ ys, ∀ r r', EndsValue r → EndsValue r' → form x ++ r = form y ++ r' →
      x = y ∧ r = r')
    (h : listedTexts form close xs r = listedTexts form close ys r') : xs = ys ∧ r = r' := by
  have hclose : close ≠ ',' := fun he => absurd (he ▸ hmark) (by decide)
  have hends := List.mem_cons_of_mem ',' hmark
  induction xs generalizing ys with
  | nil =>
    cases ys with
    | nil => exact ⟨rfl, (List.cons.inj h).2⟩
    | cons y ys => exact absurd h.symm (hys y List.mem_cons_self _ _)
  | cons x xs ih =>
    cases ys with
    | nil => exact absurd h (hxs x List.mem_cons_self _ _)
    | cons y ys =>
      obtain ⟨rfl, hmore⟩ := heach x List.mem_cons_self y List.mem_cons_self _ _
        (endsValue_furtherTexts hends xs r) (endsValue_furtherTexts hends ys r') h
      obtain ⟨rfl, hrest⟩ := ih (fun x hx => hxs x (List.mem_cons_of_mem _ hx))
        (fun y hy => hys y (List.mem_cons_of_mem _ hy))
        (fun x hx y hy => heach x (List.mem_cons_of_mem _ hx) y (List.mem_cons_of_mem _ hy))
        (listedTexts_of_furtherTexts hclose hmore)
      exact ⟨rfl, hrest⟩

end

/-- The text of an array lists its items. -/
theorem text_arr_append (xs : List Json) (r : List Char) : (text (.arr xs)).toList ++ r
    = '[' :: listedTexts (fun x => x.text.toList) ']' xs r := by
  have htexts : ∀ xs : List Json, texts xs = xs.map text := by
    intro xs
    induction xs with
    | nil => rfl
    | cons x xs ih => rw [texts, ih, List.map_cons]
  cases xs with
  | nil => rfl
  | cons x xs =>
    rw [text, String.toList_append, String.toList_append, texts, Text.toList_joined_cons, htexts,
      List.flatMap_map, listedTexts, furtherTexts]
    simp only [List.append_assoc]
    rfl

/-- The text of an object lists its members. -/
theorem text_obj_append (ms : Members Json) (r : List Char) :
    (text (.obj ms)).toList ++ r = '\x7b' :: listedTexts memberText '\x7d' ms r := by
  have htexts : ∀ ms : Members Json,
      memberTexts ms = ms.map fun m => quoted m.1 ++ ":" ++ text m.2 := by
    intro ms
    induction ms with
    | nil => rfl
    | cons m ms ih => rw [memberTexts, ih, List.map_cons]
  have hmember : ∀ m : String × Json, (quoted m.1 ++ ":" ++ text m.2).toList = memberText m := by
    intro m
    rw [String.toList_append, String.toList_append, List.append_assoc]
    rfl
  have hopen : ("\x7b" : String).toList = ['\x7b'] := rfl
  have hcomma : ("," : String).toList = [','] := rfl
  have hclose : ("\x7d" : String).toList = ['\x7d'] := rfl
  cases ms with
  | nil => rfl
  | cons m ms =>
    rw [text, String.toList_append, String.toList_append, htexts, List.map_cons,
      Text.toList_joined_cons, List.flatMap_map, listedTexts, furtherTexts, hmember]
    simp only [hmember, List.append_assoc]
    simp only [hopen, hcomma, hclose, List.singleton_append]

/-- No value begins with the end of an array. -/
theorem text_append_ne {j : Json} (h : j.Finite) (r r' : List Char) :
    j.text.toList ++ r ≠ ']' :: r' := by
  intro he
  obtain ⟨c, cs, hcs, hc⟩ := exists_first_of_text h
  rw [hcs, List.cons_append] at he
  rw [(List.cons.inj he).1] at hc
  exact absurd hc nofun

/-- No member begins with the end of an object. -/
theorem memberText_append_ne (m : String × Json) (r r' : List Char) :
    memberText m ++ r ≠ '\x7d' :: r' := by
  simp [memberText]

/-- Members are told apart if their values are. -/
theorem memberText_append {m n : String × Json} {r r' : List Char}
    (hvalue : m.2.text.toList ++ r = n.2.text.toList ++ r' → m.2 = n.2 ∧ r = r')
    (h : memberText m ++ r = memberText n ++ r') : m = n ∧ r = r' := by
  rw [memberText, memberText, List.append_assoc, List.append_assoc, List.cons_append,
    List.cons_append] at h
  obtain ⟨hname, hrest⟩ := quoted_append h
  obtain ⟨hm, hr⟩ := hvalue (List.cons.inj hrest).2
  exact ⟨Prod.ext hname hm, hr⟩

/-- Values in front of texts that do not go on with them are told apart. -/
theorem text_append {a b : Json} (ha : a.Finite) (hb : b.Finite) {r r' : List Char}
    (hr : EndsValue r) (hr' : EndsValue r') (h : a.text.toList ++ r = b.text.toList ++ r') :
    a = b ∧ r = r' := by
  induction ha generalizing b r r' with
  | null =>
    cases sameForm_of_text .null hb h with
    | null => exact ⟨rfl, List.append_cancel_left h⟩
  | bool v =>
    cases sameForm_of_text (.bool v) hb h with
    | bool => exact ⟨rfl, List.append_cancel_left h⟩
  | @num m hm =>
    cases sameForm_of_text (.num hm) hb h with
    | num m n =>
      cases hb with
      | num hn =>
        obtain ⟨rfl, hrest⟩ := number_append hm hn hr hr' h
        exact ⟨rfl, hrest⟩
  | str s =>
    cases sameForm_of_text (.str s) hb h with
    | str s t =>
      obtain ⟨rfl, hrest⟩ := quoted_append h
      exact ⟨rfl, hrest⟩
  | @arr xs hxs ih =>
    cases sameForm_of_text (.arr hxs) hb h with
    | arr xs ys =>
      cases hb with
      | arr hys =>
        rw [text_arr_append, text_arr_append] at h
        obtain ⟨rfl, hrest⟩ := listedTexts_inj (by decide) (fun x hx => text_append_ne (hxs x hx))
          (fun y hy => text_append_ne (hys y hy))
          (fun x hx y hy r r' hr hr' => ih x hx (hys y hy) hr hr') (List.cons.inj h).2
        exact ⟨rfl, hrest⟩
  | @obj ms hms ih =>
    cases sameForm_of_text (.obj hms) hb h with
    | obj ms ns =>
      cases hb with
      | obj hns =>
        rw [text_obj_append, text_obj_append] at h
        obtain ⟨rfl, hrest⟩ := listedTexts_inj (by decide) (fun m _ => memberText_append_ne m)
          (fun n _ => memberText_append_ne n)
          (fun m hm n hn r r' hr hr' => memberText_append (ih m hm (hns n hn) hr hr'))
          (List.cons.inj h).2
        exact ⟨rfl, hrest⟩

/-- Different values with finite numbers have different texts. -/
theorem text_injective {a b : Json} (ha : a.Finite) (hb : b.Finite) (h : a.text = b.text) : a = b :=
  have hnothing : EndsValue [] := fun _ hc => nomatch hc
  (text_append ha hb hnothing hnothing (congrArg (·.toList ++ []) h)).1

/-- A key has no numbers but integers. -/
theorem IsKey.finite {j : Json} (h : j.IsKey) : j.Finite := by
  cases j with
  | str s => exact .str s
  | bool v => exact .bool v
  | num n =>
    cases n with
    | int i => exact .num trivial
    | float d => exact h.elim
  | _ => exact h.elim

/-- The text of a list with one key tells the key. -/
theorem IsKey.list_text_injective {a b : Json} (ha : a.IsKey) (hb : b.IsKey)
    (h : (Json.arr [a]).text = (Json.arr [b]).text) : a = b := by
  have hfinite : ∀ {j : Json}, j.IsKey → (Json.arr [j]).Finite := fun hj =>
    .arr fun _ hmem => List.mem_singleton.mp hmem ▸ hj.finite
  have hlist := text_injective (hfinite ha) (hfinite hb) h
  exact List.singleton_inj.mp (Json.arr.inj hlist)

end Json

end TableGraph
