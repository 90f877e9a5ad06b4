import Mathlib.Data.List.TakeWhile
import TableGraph.Proofs.Decimal.Reading
import TableGraph.Proofs.Decimal.Shortest
import TableGraph.Proofs.Text.Cutting

/-!
# Texts of binary64 values

A decimal text stands for a number: its digits, scaled by the places behind the point and by the
exponent. The shortest text of a value stands for a number that reads back as the value, and a number
reads back as one magnitude only. So different values have different texts.
-/

namespace TableGraph.Decimal

/-- The places behind the point of a text without exponent. -/
def places (cs : List Char) : ℕ := (cs.dropWhile (· ≠ '.')).tail.length

/-- Digits are what is left without the zeros at their end, and these zeros. -/
theorem eq_append_zeros (cs : List Char) :
    cs = (cs.reverse.dropWhile (· = '0')).reverse
      ++ List.replicate (cs.reverse.takeWhile (· = '0')).length '0' := by
  have hzeros : cs.reverse.takeWhile (· = '0')
      = List.replicate (cs.reverse.takeWhile (· = '0')).length '0' :=
    List.eq_replicate_of_mem fun c hc =>
      of_decide_eq_true (List.mem_takeWhile_imp (p := fun c => decide (c = '0')) hc)
  calc cs = (cs.reverse.takeWhile (· = '0') ++ cs.reverse.dropWhile (· = '0')).reverse := by
        rw [List.takeWhile_append_dropWhile, List.reverse_reverse]
    _ = (cs.reverse.dropWhile (· = '0')).reverse ++ (cs.reverse.takeWhile (· = '0')).reverse :=
        List.reverse_append
    _ = _ := by
        conv_lhs => rw [hzeros, List.reverse_replicate]

/-- The number that a text stands for. -/
def readBack (cs : List Char) : ℚ :=
  let mantissa := cs.takeWhile (· ≠ 'e')
  ofDigits (mantissa.filter isDigit)
    * 10 ^ (((integer? (cs.dropWhile (· ≠ 'e')).tail).getD 0) - (places mantissa : ℤ))

section

variable {whole frac cs : List Char}

/-- Digits have no places behind a point. -/
theorem places_digits (hw : ∀ c ∈ whole, isDigit c = true) : places whole = 0 := by
  have hmark : '.' ∉ whole := not_mem_of_isDigit rfl hw
  obtain ⟨-, hnone⟩ := Text.cut_without_mark hmark
  rw [places, hnone]
  rfl

/-- The places behind the point are counted. -/
theorem places_point (hw : ∀ c ∈ whole, isDigit c = true) :
    places (whole ++ '.' :: frac) = frac.length := by
  rw [places, (Text.cut_at_mark (not_mem_of_isDigit rfl hw) frac).2]
  rfl

/-- The digits around a point are the digits of the text. -/
theorem filter_point (hw : ∀ c ∈ whole, isDigit c = true) (hf : ∀ c ∈ frac, isDigit c = true) :
    (whole ++ '.' :: frac).filter isDigit = whole ++ frac := by
  rw [List.filter_append, List.filter_cons_of_neg (by decide), List.filter_eq_self.mpr hw,
    List.filter_eq_self.mpr hf]

/-- A text without exponent stands for its digits, scaled by the places behind the point. -/
theorem readBack_plain (h : 'e' ∉ cs) :
    readBack cs = ofDigits (cs.filter isDigit) * 10 ^ (-(places cs : ℤ)) := by
  obtain ⟨htake, hdrop⟩ := Text.cut_without_mark h
  have hnone : (integer? ([] : List Char).tail).getD 0 = 0 := by decide
  unfold readBack
  dsimp only
  rw [htake, hdrop, hnone, zero_sub]

/-- The exponent scales what stands in front of it. -/
theorem readBack_exponent {exponent : List Char} (h : 'e' ∉ cs) :
    readBack (cs ++ 'e' :: exponent) = ofDigits (cs.filter isDigit)
      * 10 ^ (((integer? exponent).getD 0) - (places cs : ℤ)) := by
  obtain ⟨htake, hdrop⟩ := Text.cut_at_mark h exponent
  unfold readBack
  dsimp only
  rw [htake, hdrop, List.tail_cons]

/-- A text with point stands for its digits, scaled by the places behind the point. -/
theorem readBack_point (hw : ∀ c ∈ whole, isDigit c = true) (hf : ∀ c ∈ frac, isDigit c = true) :
    readBack (whole ++ '.' :: frac) = ofDigits (whole ++ frac) * 10 ^ (-(frac.length : ℤ)) := by
  have hmark : 'e' ∉ whole ++ '.' :: frac := by
    rw [List.mem_append, List.mem_cons, not_or, not_or]
    exact ⟨not_mem_of_isDigit rfl hw, by decide, not_mem_of_isDigit rfl hf⟩
  rw [readBack_plain hmark, filter_point hw hf, places_point hw]

/-- The integer of a mark is that of its digits with its sign. -/
theorem integer?_exponent (e : ℤ) :
    integer? ((if e < 0 then '-' else '+') :: digits e.natAbs) = some e := by
  split
  next h =>
    have hvalue : -(e.natAbs : ℤ) = e := by omega
    rw [integer?, natural?_digits]
    exact congrArg some hvalue
  next h =>
    have hvalue : (e.natAbs : ℤ) = e := by omega
    rw [integer?, natural?_digits]
    exact congrArg some hvalue

/-- Digits with a point after some of them stand for the digits, scaled by how many more there are. -/
theorem readBack_positional (hcs : ∀ c ∈ cs, isDigit c = true) (p : ℤ) :
    readBack (positional cs p) = ofDigits cs * 10 ^ (p - cs.length) := by
  have hzeros : ∀ n, ∀ c ∈ List.replicate n '0', isDigit c = true := fun _ _ => isDigit_of_mem_zeros
  unfold positional
  by_cases hp : p ≤ 0
  · have hfront := @readBack_point ['0'] _ (List.all_eq_true.mp rfl)
      (List.forall_mem_append.mpr ⟨hzeros p.natAbs, hcs⟩)
    have hlength : -((List.replicate p.natAbs '0' ++ cs).length : ℤ) = p - cs.length := by
      rw [List.length_append, List.length_replicate]
      omega
    rw [if_pos hp]
    refine hfront.trans ?_
    rw [hlength]
    simp
  · rw [if_neg hp]
    dsimp only
    by_cases hn : cs.length ≤ p.toNat
    · have hback := @readBack_point _ ['0']
        (List.forall_mem_append.mpr ⟨hcs, hzeros (p.toNat - cs.length)⟩) (List.all_eq_true.mp rfl)
      have hpow : p - cs.length = (p.toNat - cs.length : ℕ) := by omega
      rw [if_pos hn]
      refine hback.trans ?_
      rw [ofDigits_append, ofDigits_append, ofDigits_zeros, List.length_replicate, hpow, zpow_natCast]
      simp [ofDigits, digitValue]
    · have hlength : -((cs.drop p.toNat).length : ℤ) = p - cs.length := by
        rw [List.length_drop]
        omega
      rw [if_neg hn, readBack_point (fun c hc => hcs c (List.mem_of_mem_take hc))
        (fun c hc => hcs c (List.mem_of_mem_drop hc)), List.take_append_drop, hlength]

/-- Digits with an exponent stand for the digits, scaled by the exponent and how many there are after
the first. -/
theorem readBack_scientific (hcs : ∀ c ∈ cs, isDigit c = true) (hne : cs ≠ []) (e : ℤ) :
    readBack (scientific cs e) = ofDigits cs * 10 ^ (e - (cs.length - 1)) := by
  have hmark : (if e < 0 then ['e', '-'] else ['e', '+']) ++ digits e.natAbs
      = 'e' :: ((if e < 0 then '-' else '+') :: digits e.natAbs) := by
    split <;> rfl
  have hfirst : ∀ c ∈ cs.take 1, isDigit c = true := fun c hc => hcs c (List.mem_of_mem_take hc)
  have hlast : ∀ c ∈ cs.drop 1, isDigit c = true := fun c hc => hcs c (List.mem_of_mem_drop hc)
  unfold scientific
  dsimp only
  rw [List.append_assoc, hmark]
  by_cases hone : cs.length ≤ 1
  · have hall : cs.take 1 = cs := List.take_of_length_le hone
    have hlength : cs.length = 1 := le_antisymm hone (List.length_pos_iff.mpr hne)
    rw [if_pos hone, List.append_nil, hall, readBack_exponent (not_mem_of_isDigit rfl hcs),
      integer?_exponent, List.filter_eq_self.mpr hcs, places_digits hcs, hlength]
    simp
  · have hpoint : 'e' ∉ cs.take 1 ++ '.' :: cs.drop 1 := by
      rw [List.mem_append, List.mem_cons, not_or, not_or]
      exact ⟨not_mem_of_isDigit rfl hfirst, by decide, not_mem_of_isDigit rfl hlast⟩
    have hlength : ((cs.drop 1).length : ℤ) = cs.length - 1 := by
      rw [List.length_drop]
      omega
    rw [if_neg hone, readBack_exponent hpoint, integer?_exponent, filter_point hfirst hlast,
      places_point hfirst, List.take_append_drop, hlength, Option.getD_some]

end

namespace Scaled

/-- The text of a number stands for the number. -/
theorem readBack_text (s : Scaled) : readBack s.text = s.value := by
  have hdigits : ∀ c ∈ digits s.coefficient, isDigit c = true := fun _ => isDigit_of_mem_digits
  unfold text value
  dsimp only
  split
  · rw [readBack_positional hdigits, ofDigits_digits]
    congr 2
    ring
  · rw [readBack_scientific hdigits (digits_ne_nil _), ofDigits_digits]
    congr 2
    ring

/-- Without trailing zeros the digits stand for the same number. -/
theorem value_stripped (s : Scaled) : s.stripped.value = s.value := by
  unfold stripped
  dsimp only
  split
  · rfl
  · have hsplit := eq_append_zeros (digits s.coefficient)
    generalize ((digits s.coefficient).reverse.takeWhile (· = '0')).length = n at hsplit ⊢
    have hcoefficient : s.coefficient = ofDigits
        ((digits s.coefficient).reverse.dropWhile (· = '0')).reverse * 10 ^ n := by
      conv_lhs => rw [← ofDigits_digits s.coefficient, hsplit]
      simp
    generalize ofDigits ((digits s.coefficient).reverse.dropWhile (· = '0')).reverse = m
      at hcoefficient
    have hquotient : s.coefficient / Nat.pow 10 n = m := by
      rw [hcoefficient]
      exact Nat.mul_div_cancel m (Nat.pow_pos (by norm_num))
    unfold value
    dsimp only
    rw [hquotient, hcoefficient, zpow_add₀ (by norm_num), zpow_natCast]
    push_cast
    ring

end Scaled

/-- A character that numbers are written with. -/
def isNumeric (c : Char) : Bool := isDigit c || c = '.' || c = 'e' || c = '+' || c = '-'

/-- The text of a positive number with point or exponent, or of zero with a point. -/
structure IsUnsigned (cs : List Char) : Prop where
  /-- A digit stands in front. -/
  first : ∃ c rest, cs = c :: rest ∧ isDigit c = true
  /-- All characters are those of numbers. -/
  numeric : ∀ c ∈ cs, isNumeric c = true
  /-- There is a point or an exponent. -/
  mark : '.' ∈ cs ∨ 'e' ∈ cs

/-- A digit is a character of numbers. -/
theorem isNumeric_of_isDigit {c : Char} (h : isDigit c = true) : isNumeric c = true := by
  simp only [isNumeric, h, Bool.true_or]

section

variable {cs : List Char}

/-- Digits with a point are a text of this kind. -/
theorem isUnsigned_positional (hcs : ∀ c ∈ cs, isDigit c = true) (hne : cs ≠ []) (p : ℤ) :
    IsUnsigned (positional cs p) := by
  have hnumeric : ∀ c ∈ cs, isNumeric c = true := fun c hc => isNumeric_of_isDigit (hcs c hc)
  have hzeros : ∀ n, ∀ c ∈ List.replicate n '0', isNumeric c = true := fun _ _ hc =>
    isNumeric_of_isDigit (isDigit_of_mem_zeros hc)
  obtain ⟨c, rest, rfl⟩ := List.exists_cons_of_ne_nil hne
  have hc := hcs c List.mem_cons_self
  unfold positional
  by_cases hp : p ≤ 0
  · rw [if_pos hp]
    have hlead : ∀ c ∈ ['0', '.'], isNumeric c = true := List.all_eq_true.mp rfl
    exact ⟨⟨_, _, rfl, by decide⟩, List.forall_mem_append.mpr ⟨hlead,
      List.forall_mem_append.mpr ⟨hzeros _, hnumeric⟩⟩, Or.inl (by simp)⟩
  · rw [if_neg hp]
    dsimp only
    by_cases hn : (c :: rest).length ≤ p.toNat
    · rw [if_pos hn]
      have hlast : ∀ c ∈ ['.', '0'], isNumeric c = true := List.all_eq_true.mp rfl
      exact ⟨⟨_, _, rfl, hc⟩, List.forall_mem_append.mpr
        ⟨List.forall_mem_append.mpr ⟨hnumeric, hzeros _⟩, hlast⟩, Or.inl (by simp)⟩
    · obtain ⟨n, hsucc⟩ : ∃ n, p.toNat = n + 1 := ⟨p.toNat - 1, by omega⟩
      have hpoint : ∀ d ∈ '.' :: (c :: rest).drop p.toNat, isNumeric d = true :=
        List.forall_mem_cons.mpr ⟨rfl, fun d hd => hnumeric d (List.mem_of_mem_drop hd)⟩
      rw [if_neg hn]
      refine ⟨⟨c, rest.take n ++ '.' :: (c :: rest).drop p.toNat, by rw [hsucc]; rfl, hc⟩,
        List.forall_mem_append.mpr ⟨fun c hc => hnumeric c (List.mem_of_mem_take hc), hpoint⟩,
        Or.inl (by simp)⟩

/-- Digits with an exponent are a text of this kind. -/
theorem isUnsigned_scientific (hcs : ∀ c ∈ cs, isDigit c = true) (hne : cs ≠ []) (e : ℤ) :
    IsUnsigned (scientific cs e) := by
  have hnumeric : ∀ c ∈ cs, isNumeric c = true := fun c hc => isNumeric_of_isDigit (hcs c hc)
  have hexponent : ∀ c ∈ (if e < 0 then ['e', '-'] else ['e', '+']) ++ digits e.natAbs,
      isNumeric c = true := by
    refine List.forall_mem_append.mpr ⟨?_, fun c hc => isNumeric_of_isDigit (isDigit_of_mem_digits hc)⟩
    split <;> exact List.all_eq_true.mp rfl
  have hmiddle : ∀ c ∈ if cs.length ≤ 1 then [] else '.' :: cs.drop 1, isNumeric c = true := by
    split
    · exact fun c hc => absurd hc List.not_mem_nil
    · exact List.forall_mem_cons.mpr ⟨rfl, fun d hd => hnumeric d (List.mem_of_mem_drop hd)⟩
  have hmark : 'e' ∈ if e < 0 then ['e', '-'] else ['e', '+'] := by
    split <;> decide
  obtain ⟨c, rest, rfl⟩ := List.exists_cons_of_ne_nil hne
  unfold scientific
  dsimp only
  rw [List.append_assoc]
  have hfirst : ∀ d ∈ (c :: rest).take 1, isNumeric d = true :=
    fun d hd => hnumeric d (List.mem_of_mem_take hd)
  refine ⟨⟨c, _, rfl, hcs c List.mem_cons_self⟩, List.forall_mem_append.mpr
    ⟨List.forall_mem_append.mpr ⟨hfirst, hmiddle⟩, hexponent⟩, Or.inr ?_⟩
  exact List.mem_append_right _ (List.mem_append_left _ hmark)

/-- The text of a number is a text of this kind. -/
theorem Scaled.isUnsigned_text (s : Scaled) : IsUnsigned s.text := by
  have hdigits : ∀ c ∈ digits s.coefficient, isDigit c = true := fun _ => isDigit_of_mem_digits
  unfold text
  dsimp only
  split
  · exact isUnsigned_positional hdigits (digits_ne_nil _) _
  · exact isUnsigned_scientific hdigits (digits_ne_nil _) _

end

namespace Double

variable {d d' : Double}

/-- The sign of a value as it is written. -/
def sign (d : Double) : List Char := if d.isNegative then ['-'] else []

/-- A finite value is written with its sign and a text that stands for a number that reads back. -/
theorem exists_text_eq (h : d.isSpecial = false) : ∃ cs, d.text = String.ofList (d.sign ++ cs)
    ∧ IsUnsigned cs ∧ ReadsBack d.magnitude (readBack cs) := by
  unfold text
  rw [if_neg (by rw [h]; exact Bool.false_ne_true)]
  by_cases hm : d.mantissa = 0
  · have hzero : d.magnitude = 0 := by
      rw [d.mantissa_eq, mantissaAt] at hm
      split at hm <;> omega
    have hread : readBack ['0', '.', '0'] = 0 := by
      have hdigits : ofDigits ['0', '0'] = 0 := ofDigits_zeros 2
      have hdigit : ∀ c ∈ ['0'], isDigit c = true := List.all_eq_true.mp rfl
      refine (readBack_point hdigit hdigit).trans ?_
      rw [List.singleton_append, hdigits, Nat.cast_zero, zero_mul]
    refine ⟨['0', '.', '0'], by rw [if_pos hm]; rfl,
      ⟨⟨_, _, rfl, by decide⟩, List.all_eq_true.mp rfl, by decide⟩, ?_⟩
    rw [hread, hzero]
    exact readsBack_zero
  · obtain ⟨s, hs, _, hreads⟩ := Interval.exists_shortest (Nat.pos_of_ne_zero hm)
    refine ⟨s.stripped.text, by rw [if_neg hm, hs]; rfl, s.stripped.isUnsigned_text, ?_⟩
    rw [s.stripped.readBack_text, s.value_stripped]
    exact hreads

/-- A minus in front of a text and a text that begins with a digit are told apart. -/
theorem sign_append_inj {cs cs' : List Char} (hcs : IsUnsigned cs) (hcs' : IsUnsigned cs')
    (h : d.sign ++ cs = d'.sign ++ cs') : d.isNegative = d'.isNegative ∧ cs = cs' := by
  obtain ⟨c, rest, rfl, hc⟩ := hcs.first
  obtain ⟨c', rest', rfl, hc'⟩ := hcs'.first
  unfold sign at h
  cases hd : d.isNegative <;> cases hd' : d'.isNegative <;> simp only [hd, hd'] at h
  · exact ⟨rfl, h⟩
  · obtain ⟨rfl, _⟩ := List.cons.inj h
    exact absurd hc (by decide)
  · obtain ⟨rfl, _⟩ := List.cons.inj h
    exact absurd hc' (by decide)
  · exact ⟨rfl, (List.cons.inj h).2⟩

/-- Different finite values have different texts. -/
theorem text_injective (h : d.isSpecial = false) (h' : d'.isSpecial = false)
    (htext : d.text = d'.text) : d = d' := by
  obtain ⟨cs, hcs, hunsigned, hreads⟩ := exists_text_eq h
  obtain ⟨cs', hcs', hunsigned', hreads'⟩ := exists_text_eq h'
  rw [hcs, hcs'] at htext
  obtain ⟨hsign, rfl⟩ := sign_append_inj hunsigned hunsigned' (String.ofList_injective htext)
  exact eq_of_magnitude hsign (hreads.eq hreads')

end Double

end TableGraph.Decimal
