import Mathlib.Algebra.Group.Nat.Defs
import TableGraph.Proofs.Text.Coding

/-!
# Each sequence of bytes has one Base64 text

A text is read as bytes only if it is the one that is written for them. What is written is the Base64
text of the standard: the bits of the bytes in groups of six, zero bits where they do not fill the
last group, a character for each group, and `=` up to a multiple of four characters.
-/

namespace TableGraph.Text.Base64

/-- An alphabet in which no number has two characters. -/
structure Alphabet.Exact (a : Alphabet) : Prop where
  /-- What a character stands for is a number below 64, and the character is the one for it. -/
  digit_value : ∀ c n, a.value c = some n → n < 64 ∧ a.digit n = c

/-- In the alphabet of cursors no number has two characters. -/
theorem exact_standard : standard.Exact := by
  refine ⟨fun c n h => ?_⟩
  have hle : ∀ a b : Char, a ≤ b ↔ a.toNat ≤ b.toNat := fun _ _ => Iff.rfl
  have hcode : ∀ {k : Nat}, k = c.toNat → Char.ofNat k = c := fun hk => hk ▸ Char.ofNat_toNat c
  unfold Alphabet.value at h
  simp only [hle, Char.reduceToNat] at h
  -- one case for each range of characters; the number tells which branch `digit` takes
  split_ifs at h with hupper hlower hdigit hplus hslash
  · cases h
    refine ⟨by omega, ?_⟩
    rw [Alphabet.digit, if_pos (by omega)]
    exact hcode (by omega)
  · cases h
    refine ⟨by omega, ?_⟩
    rw [Alphabet.digit, if_neg (by omega), if_pos (by omega)]
    exact hcode (by omega)
  · cases h
    refine ⟨by omega, ?_⟩
    rw [Alphabet.digit, if_neg (by omega), if_neg (by omega), if_pos (by omega)]
    exact hcode (by omega)
  · cases h
    exact ⟨by omega, hplus.symm⟩
  · cases h
    exact ⟨by omega, hslash.symm⟩

section

variable {a : Alphabet} (h : a.Exact)

include h

/-- Two characters that are read as a byte are those that are written for it. -/
theorem eq_digits_of_lastOne {c d : Char} {bytes : List UInt8} (hr : lastOne a c d = some bytes) :
    ∃ x : UInt8, bytes = [x] ∧ c = a.digit (x.toNat * 16 / 64) ∧ d = a.digit (x.toNat * 16 % 64) := by
  unfold lastOne at hr
  simp only [Option.bind_eq_bind, Option.bind_eq_some_iff] at hr
  obtain ⟨m, hm, n, hn, hr⟩ := hr
  obtain ⟨hmlt, rfl⟩ := h.digit_value c m hm
  obtain ⟨hnlt, rfl⟩ := h.digit_value d n hn
  split_ifs at hr with hzero
  have hx : (UInt8.ofNat ((m * 64 + n) / 16)).toNat = (m * 64 + n) / 16 := by
    rw [UInt8.toNat_ofNat']
    omega
  refine ⟨_, (Option.some.inj hr).symm, ?_, ?_⟩
  · rw [hx, show (m * 64 + n) / 16 * 16 / 64 = m by omega]
  · rw [hx, show (m * 64 + n) / 16 * 16 % 64 = n by omega]

/-- Three characters that are read as two bytes are those that are written for them. -/
theorem eq_digits_of_lastTwo {c d e : Char} {bytes : List UInt8}
    (hr : lastTwo a c d e = some bytes) :
    ∃ x y : UInt8, bytes = [x, y] ∧ c = a.digit ((x.toNat * 256 + y.toNat) * 4 / 4096)
      ∧ d = a.digit ((x.toNat * 256 + y.toNat) * 4 / 64 % 64)
      ∧ e = a.digit ((x.toNat * 256 + y.toNat) * 4 % 64) := by
  unfold lastTwo at hr
  simp only [Option.bind_eq_bind, Option.bind_eq_some_iff] at hr
  obtain ⟨l, hl, m, hm, n, hn, hr⟩ := hr
  obtain ⟨hllt, rfl⟩ := h.digit_value c l hl
  obtain ⟨hmlt, rfl⟩ := h.digit_value d m hm
  obtain ⟨hnlt, rfl⟩ := h.digit_value e n hn
  split_ifs at hr with hzero
  have hx : (UInt8.ofNat (((l * 64 + m) * 64 + n) / 1024)).toNat = ((l * 64 + m) * 64 + n) / 1024 := by
    rw [UInt8.toNat_ofNat']
    omega
  have hy : (UInt8.ofNat (((l * 64 + m) * 64 + n) / 4 % 256)).toNat
      = ((l * 64 + m) * 64 + n) / 4 % 256 := by
    rw [UInt8.toNat_ofNat']
    omega
  have hjoin : (((l * 64 + m) * 64 + n) / 1024 * 256 + ((l * 64 + m) * 64 + n) / 4 % 256) * 4
      = (l * 64 + m) * 64 + n := by omega
  refine ⟨_, _, (Option.some.inj hr).symm, ?_, ?_, ?_⟩
  · rw [hx, hy, hjoin, show ((l * 64 + m) * 64 + n) / 4096 = l by omega]
  · rw [hx, hy, hjoin, show ((l * 64 + m) * 64 + n) / 64 % 64 = m by omega]
  · rw [hx, hy, hjoin, show ((l * 64 + m) * 64 + n) % 64 = n by omega]

/-- Four characters that are read as three bytes are those that are written for them. -/
theorem eq_digits_of_three {c d e f : Char} {bytes : List UInt8}
    (hr : three a c d e f = some bytes) :
    ∃ x y z : UInt8, bytes = [x, y, z]
      ∧ c = a.digit (((x.toNat * 256 + y.toNat) * 256 + z.toNat) / 262144)
      ∧ d = a.digit (((x.toNat * 256 + y.toNat) * 256 + z.toNat) / 4096 % 64)
      ∧ e = a.digit (((x.toNat * 256 + y.toNat) * 256 + z.toNat) / 64 % 64)
      ∧ f = a.digit (((x.toNat * 256 + y.toNat) * 256 + z.toNat) % 64) := by
  unfold three at hr
  simp only [Option.bind_eq_bind, Option.bind_eq_some_iff] at hr
  obtain ⟨k, hk, l, hl, m, hm, n, hn, hr⟩ := hr
  obtain ⟨hklt, rfl⟩ := h.digit_value c k hk
  obtain ⟨hllt, rfl⟩ := h.digit_value d l hl
  obtain ⟨hmlt, rfl⟩ := h.digit_value e m hm
  obtain ⟨hnlt, rfl⟩ := h.digit_value f n hn
  obtain ⟨t, ht⟩ : ∃ t, t = ((k * 64 + l) * 64 + m) * 64 + n := ⟨_, rfl⟩
  rw [← ht] at hr
  have hx : (UInt8.ofNat (t / 65536)).toNat = t / 65536 := by
    rw [UInt8.toNat_ofNat']
    omega
  have hy : (UInt8.ofNat (t / 256 % 256)).toNat = t / 256 % 256 := by
    rw [UInt8.toNat_ofNat']
    omega
  have hz : (UInt8.ofNat (t % 256)).toNat = t % 256 := by
    rw [UInt8.toNat_ofNat']
    omega
  have hjoin : (t / 65536 * 256 + t / 256 % 256) * 256 + t % 256 = t := by omega
  refine ⟨_, _, _, (Option.some.inj hr).symm, ?_, ?_, ?_, ?_⟩
  · rw [hx, hy, hz, hjoin, show t / 262144 = k by omega]
  · rw [hx, hy, hz, hjoin, show t / 4096 % 64 = l by omega]
  · rw [hx, hy, hz, hjoin, show t / 64 % 64 = m by omega]
  · rw [hx, hy, hz, hjoin, show t % 64 = n by omega]

/-- A text that is read as bytes is the one that is written for them. -/
theorem eq_encode_of_decode {text : List Char} {bytes : List UInt8}
    (hr : decode a text = some bytes) : text = encode a bytes := by
  induction text using decode.induct a generalizing bytes with
  | case1 =>
    cases hr
    rfl
  | case2 c d hp =>
    rw [decode, if_pos hp] at hr
    cases hr
  | case3 c d hp =>
    rw [decode, if_neg hp] at hr
    obtain ⟨x, rfl, hc, hd⟩ := eq_digits_of_lastOne h hr
    rw [encode, Alphabet.filling, if_neg hp, ← hc, ← hd]
  | case4 c d e hp =>
    rw [decode, if_pos hp] at hr
    cases hr
  | case5 c d e hp =>
    rw [decode, if_neg hp] at hr
    obtain ⟨x, y, rfl, hc, hd, he⟩ := eq_digits_of_lastTwo h hr
    rw [encode, Alphabet.filling, if_neg hp, ← hc, ← hd, ← he]
  | case6 c d f rest hlast =>
    rw [decode, if_pos hlast, if_pos rfl] at hr
    obtain ⟨hp, rfl, rfl⟩ := hlast
    obtain ⟨x, rfl, hc, hd⟩ := eq_digits_of_lastOne h hr
    rw [encode, Alphabet.filling, if_pos hp, ← hc, ← hd]
    rfl
  | case7 c d e f rest hlast he =>
    rw [decode, if_pos hlast, if_neg he] at hr
    obtain ⟨hp, rfl, rfl⟩ := hlast
    obtain ⟨x, y, rfl, hc, hd, he⟩ := eq_digits_of_lastTwo h hr
    rw [encode, Alphabet.filling, if_pos hp, ← hc, ← hd, ← he]
    rfl
  | case8 c d e f rest hlast ih =>
    rw [decode, if_neg hlast] at hr
    simp only [Option.bind_eq_bind, Option.bind_eq_some_iff] at hr
    obtain ⟨group, hgroup, more, hmore, hr⟩ := hr
    obtain ⟨x, y, z, rfl, hc, hd, he, hf⟩ := eq_digits_of_three h hgroup
    rw [← Option.some.inj hr, ih hmore, List.cons_append, List.cons_append, List.cons_append,
      List.nil_append, encode, ← hc, ← hd, ← he, ← hf]
  | case9 c => cases hr

end

/-- In a sound alphabet without doubles, exactly what is written for bytes is read as them. -/
theorem decode_eq_some_iff {a : Alphabet} (hs : a.Sound) (he : a.Exact) {text : List Char}
    {bytes : List UInt8} : decode a text = some bytes ↔ text = encode a bytes :=
  ⟨eq_encode_of_decode he, fun h => h ▸ decode_encode hs bytes⟩

/-- The lowest bits of a number, as many as `width`, the highest of them first. -/
def bits : Nat → Nat → List Bool
  | 0, _ => []
  | width + 1, n => bits width (n / 2) ++ [decide (n % 2 = 1)]

/-- As many bits as asked for. -/
@[simp]
theorem length_bits (width n : Nat) : (bits width n).length = width := by
  induction width generalizing n with
  | zero => rfl
  | succ width ih => rw [bits, List.length_append, ih, List.length_singleton]

/-- The bits of a number are the higher ones with the lower ones behind them. -/
theorem bits_add (high low n : Nat) : bits (high + low) n = bits high (n / 2 ^ low) ++ bits low n := by
  induction low generalizing n with
  | zero => rw [Nat.add_zero, Nat.pow_zero, Nat.div_one, bits, List.append_nil]
  | succ low ih =>
    rw [← Nat.add_assoc, bits, ih, bits, Nat.div_div_eq_div_mul, Nat.pow_succ, Nat.mul_comm 2,
      List.append_assoc]

/-- Numbers with the same rest have the same lowest bits. -/
theorem bits_congr {width m n : Nat} (h : m % 2 ^ width = n % 2 ^ width) :
    bits width m = bits width n := by
  induction width generalizing m n with
  | zero => rfl
  | succ width ih =>
    have hhalf : m / 2 % 2 ^ width = n / 2 % 2 ^ width := by
      rw [Nat.pow_succ, Nat.mul_comm] at h
      rw [← Nat.mod_mul_right_div_self, h, Nat.mod_mul_right_div_self]
    have hlast : m % 2 = n % 2 := by
      have hdvd : 2 ∣ 2 ^ (width + 1) := ⟨2 ^ width, by rw [Nat.pow_succ, Nat.mul_comm]⟩
      rw [← Nat.mod_mod_of_dvd m hdvd, h, Nat.mod_mod_of_dvd n hdvd]
    rw [bits, bits, ih hhalf, hlast]

/-- Numbers with the same bits are the same, if they have no others. -/
theorem eq_of_bits_eq {width m n : Nat} (hm : m < 2 ^ width) (hn : n < 2 ^ width)
    (h : bits width m = bits width n) : m = n := by
  induction width generalizing m n with
  | zero => omega
  | succ width ih =>
    rw [Nat.pow_succ] at hm hn
    rw [bits, bits] at h
    have hinit := List.append_inj h (by simp)
    have hhalf := ih (by omega) (by omega) hinit.1
    have hlast := List.singleton_inj.mp hinit.2
    rw [decide_eq_decide] at hlast
    omega

/-- Numbers of the same width are told apart by their bits, set one behind the other. -/
theorem eq_of_flatMap_bits_eq {width : Nat} (hw : 0 < width) {ms ns : List Nat}
    (hm : ∀ m ∈ ms, m < 2 ^ width) (hn : ∀ n ∈ ns, n < 2 ^ width)
    (h : ms.flatMap (bits width) = ns.flatMap (bits width)) : ms = ns := by
  have hcons : ∀ (k : Nat) (ks : List Nat), (k :: ks).flatMap (bits width) ≠ [] := by
    intro k ks hnil
    have hlength := congrArg List.length hnil
    rw [List.flatMap_cons, List.length_append, length_bits, List.length_nil] at hlength
    omega
  induction ms generalizing ns with
  | nil =>
    cases ns with
    | nil => rfl
    | cons n ns => exact absurd h.symm (hcons n ns)
  | cons m ms ih =>
    cases ns with
    | nil => exact absurd h (hcons m ms)
    | cons n ns =>
      rw [List.flatMap_cons, List.flatMap_cons] at h
      have hsplit := List.append_inj h (by simp)
      have hhead := eq_of_bits_eq (hm m List.mem_cons_self) (hn n List.mem_cons_self) hsplit.1
      have htail := ih (fun k hk => hm k (List.mem_cons_of_mem _ hk))
        (fun k hk => hn k (List.mem_cons_of_mem _ hk)) hsplit.2
      rw [hhead, htail]

/-- The characters of the standard alphabet, in the order of the numbers they stand for. -/
def letters : String := "ABCDEFGHIJKLMNOPQRSTUVWXYZabcdefghijklmnopqrstuvwxyz0123456789+/"

/-- A text that is made for bytes of the groups of six bits in `numbers` and of `fill` characters of
filling. -/
structure MadeOf (numbers : List Nat) (fill : Nat) (bytes : List UInt8) (text : List Char) :
    Prop where
  /-- A group has six bits. -/
  group : ∀ n ∈ numbers, n < 64
  /-- Each group has its character, and the filling comes last. -/
  text_eq : text = numbers.map (letters.toList.getD · '=') ++ List.replicate fill '='
  /-- With the filling there are a multiple of four characters. -/
  whole : (numbers.length + fill) % 4 = 0
  /-- No more is filled than that takes. -/
  fill_le : fill ≤ 2
  /-- The groups hold the bits of the bytes, with zero bits behind them. -/
  bits_eq : numbers.flatMap (bits 6)
    = bytes.flatMap (fun x => bits 8 x.toNat) ++ List.replicate (2 * fill) false

/-- The padded Base64 text of bytes, as the standard has it. -/
def IsText (bytes : List UInt8) (text : List Char) : Prop :=
  ∃ numbers fill, MadeOf numbers fill bytes text

/-- There is one character for each number. -/
theorem digit_standard : ∀ n < 64, standard.digit n = letters.toList.getD n '=' := by decide

/-- The bits beyond a group do not count for it. -/
@[simp]
theorem bits_six_mod (n : Nat) : bits 6 (n % 64) = bits 6 n := bits_congr (by omega)

/-- The bits of four groups are those of three bytes. -/
theorem bits_full (x y z : UInt8) {n : Nat} (hn : n = (x.toNat * 256 + y.toNat) * 256 + z.toNat) :
    [n / 262144, n / 4096 % 64, n / 64 % 64, n % 64].flatMap (bits 6)
      = [x, y, z].flatMap fun b => bits 8 b.toNat := by
  have hy := y.toNat_lt
  have hz := z.toNat_lt
  have hgroups : bits 24 n
      = bits 6 (n / 262144) ++ bits 6 (n / 4096) ++ bits 6 (n / 64) ++ bits 6 n := by
    rw [bits_add 18 6, bits_add 12 6, bits_add 6 6]
    simp only [Nat.div_div_eq_div_mul, Nat.reducePow, Nat.reduceMul]
  have hbytes : bits 24 n = bits 8 (n / 65536) ++ bits 8 (n / 256) ++ bits 8 n := by
    rw [bits_add 16 8, bits_add 8 8]
    simp only [Nat.div_div_eq_div_mul, Nat.reducePow, Nat.reduceMul]
  have hx' : n / 65536 = x.toNat := by omega
  have hy' : bits 8 (n / 256) = bits 8 y.toNat := bits_congr (by omega)
  have hz' : bits 8 n = bits 8 z.toNat := bits_congr (by omega)
  rw [hx', hy', hz'] at hbytes
  simp only [List.flatMap_cons, List.flatMap_nil, List.append_nil, bits_six_mod]
  simpa only [List.append_assoc] using hgroups.symm.trans hbytes

/-- The bits of three groups are those of two bytes and two that are zero. -/
theorem bits_lastTwo (x y : UInt8) {n : Nat} (hn : n = (x.toNat * 256 + y.toNat) * 4) :
    [n / 4096, n / 64 % 64, n % 64].flatMap (bits 6)
      = [x, y].flatMap (fun b => bits 8 b.toNat) ++ List.replicate 2 false := by
  have hy := y.toNat_lt
  have hgroups : bits 18 n = bits 6 (n / 4096) ++ bits 6 (n / 64) ++ bits 6 n := by
    rw [bits_add 12 6, bits_add 6 6]
    simp only [Nat.div_div_eq_div_mul, Nat.reducePow, Nat.reduceMul]
  have hbytes : bits 18 n = bits 8 (n / 1024) ++ bits 8 (n / 4) ++ bits 2 n := by
    rw [bits_add 16 2, bits_add 8 8]
    simp only [Nat.div_div_eq_div_mul, Nat.reducePow, Nat.reduceMul]
  have hx' : n / 1024 = x.toNat := by omega
  have hy' : bits 8 (n / 4) = bits 8 y.toNat := bits_congr (by omega)
  have hzero : bits 2 n = List.replicate 2 false :=
    (bits_congr (by omega) : bits 2 n = bits 2 0)
  rw [hx', hy', hzero] at hbytes
  simp only [List.flatMap_cons, List.flatMap_nil, List.append_nil, bits_six_mod]
  simpa only [List.append_assoc] using hgroups.symm.trans hbytes

/-- The bits of two groups are those of one byte and four that are zero. -/
theorem bits_lastOne (x : UInt8) {n : Nat} (hn : n = x.toNat * 16) :
    [n / 64, n % 64].flatMap (bits 6)
      = [x].flatMap (fun b => bits 8 b.toNat) ++ List.replicate 4 false := by
  have hgroups : bits 12 n = bits 6 (n / 64) ++ bits 6 n := bits_add 6 6 n
  have hbytes : bits 12 n = bits 8 (n / 16) ++ bits 4 n := bits_add 8 4 n
  have hx' : n / 16 = x.toNat := by omega
  have hzero : bits 4 n = List.replicate 4 false :=
    (bits_congr (by omega) : bits 4 n = bits 4 0)
  rw [hx', hzero] at hbytes
  simp only [List.flatMap_cons, List.flatMap_nil, List.append_nil, bits_six_mod]
  exact hgroups.symm.trans hbytes

/-- What is written for bytes is their Base64 text. -/
theorem isText_encode (bytes : List UInt8) : IsText bytes (encode standard bytes) := by
  have hbyte : ∀ x : UInt8, x.toNat < 256 := fun x => x.toNat_lt
  have hnil : ∀ n ∈ ([] : List Nat), n < 64 := fun _ h => absurd h List.not_mem_nil
  induction bytes using encode.induct with
  | case1 => exact ⟨[], 0, hnil, rfl, rfl, Nat.zero_le 2, rfl⟩
  | case2 x =>
    have hx := hbyte x
    obtain ⟨n, hn⟩ : ∃ n, n = x.toNat * 16 := ⟨_, rfl⟩
    have htext : encode standard [x]
        = [n / 64, n % 64].map (letters.toList.getD · '=') ++ List.replicate 2 '=' := by
      rw [encode, ← hn, digit_standard _ (by omega), digit_standard _ (by omega)]
      rfl
    refine ⟨[n / 64, n % 64], 2, ?_, htext, Nat.mod_self 4, Nat.le_refl 2,
      bits_lastOne x hn⟩
    simp only [List.forall_mem_cons]
    exact ⟨by omega, by omega, hnil⟩
  | case3 x y =>
    have hx := hbyte x
    have hy := hbyte y
    obtain ⟨n, hn⟩ : ∃ n, n = (x.toNat * 256 + y.toNat) * 4 := ⟨_, rfl⟩
    have htext : encode standard [x, y]
        = [n / 4096, n / 64 % 64, n % 64].map (letters.toList.getD · '=')
          ++ List.replicate 1 '=' := by
      rw [encode, ← hn, digit_standard _ (by omega), digit_standard _ (by omega),
        digit_standard _ (by omega)]
      rfl
    refine ⟨[n / 4096, n / 64 % 64, n % 64], 1, ?_, htext, Nat.mod_self 4, by omega,
      bits_lastTwo x y hn⟩
    simp only [List.forall_mem_cons]
    exact ⟨by omega, by omega, by omega, hnil⟩
  | case4 x y z rest ih =>
    have hx := hbyte x
    have hy := hbyte y
    have hz := hbyte z
    obtain ⟨numbers, fill, hgroup, htext, hwhole, hfill, hbits⟩ := ih
    obtain ⟨n, hn⟩ : ∃ n, n = (x.toNat * 256 + y.toNat) * 256 + z.toNat := ⟨_, rfl⟩
    refine ⟨[n / 262144, n / 4096 % 64, n / 64 % 64, n % 64] ++ numbers, fill, ?_, ?_, ?_, hfill, ?_⟩
    · simp only [List.cons_append, List.nil_append, List.forall_mem_cons]
      exact ⟨by omega, by omega, by omega, by omega, hgroup⟩
    · rw [encode, ← hn, digit_standard _ (by omega), digit_standard _ (by omega),
        digit_standard _ (by omega), digit_standard _ (by omega), htext]
      rfl
    · rw [List.length_append]
      simp only [List.length_cons, List.length_nil]
      omega
    · have hcons : x :: y :: z :: rest = [x, y, z] ++ rest := rfl
      rw [List.flatMap_append, bits_full x y z hn, hbits, hcons, List.flatMap_append,
        List.append_assoc]

/-- As many bits as groups have. -/
theorem length_flatMap_bits (width : Nat) (ns : List Nat) :
    (ns.flatMap (bits width)).length = width * ns.length := by
  induction ns with
  | nil => rfl
  | cons n ns ih =>
    rw [List.flatMap_cons, List.length_append, length_bits, ih, List.length_cons, Nat.mul_succ,
      Nat.add_comm]

/-- There are as many groups as the bytes and the zero bits behind them fill. -/
theorem MadeOf.count {numbers : List Nat} {fill : Nat} {bytes : List UInt8} {text : List Char}
    (h : MadeOf numbers fill bytes text) :
    6 * numbers.length = 8 * bytes.length + 2 * fill := by
  have hbits := congrArg List.length h.bits_eq
  have hbytes : bytes.flatMap (fun x => bits 8 x.toNat)
      = (bytes.map UInt8.toNat).flatMap (bits 8) := (List.flatMap_map UInt8.toNat (bits 8) bytes).symm
  rw [length_flatMap_bits, List.length_append, hbytes, length_flatMap_bits, List.length_map,
    List.length_replicate] at hbits
  exact hbits

/-- Bytes have one Base64 text. -/
theorem MadeOf.unique {ms ns : List Nat} {i j : Nat} {bytes : List UInt8} {text other : List Char}
    (h : MadeOf ms i bytes text) (ho : MadeOf ns j bytes other) : text = other := by
  have hfill : i = j := by
    have hm := h.count
    have hn := ho.count
    have hi := h.fill_le
    have hj := ho.fill_le
    have hwhole := h.whole
    have hwhole' := ho.whole
    omega
  have hbits := h.bits_eq
  rw [hfill, ← ho.bits_eq] at hbits
  rw [h.text_eq, ho.text_eq, hfill, eq_of_flatMap_bits_eq (by decide) h.group ho.group hbits]

/-- Read as bytes is exactly their Base64 text. -/
theorem decode_standard_eq_some_iff {text : List Char} {bytes : List UInt8} :
    decode standard text = some bytes ↔ IsText bytes text := by
  rw [decode_eq_some_iff sound_standard exact_standard]
  obtain ⟨numbers, fill, hmade⟩ := isText_encode bytes
  constructor
  · rintro rfl
    exact ⟨numbers, fill, hmade⟩
  · rintro ⟨ms, i, h⟩
    exact h.unique hmade

end TableGraph.Text.Base64
