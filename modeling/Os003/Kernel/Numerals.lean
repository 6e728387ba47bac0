import Os003.Lib.Positional

set_option autoImplicit false

/-! # Numbers as strings

`itoa_hex`, `itoa_dec` and `utoa_dec` (`lib/kstring.c`) take the digits of a number from the lowest
on and copy them to the buffer in reverse. The digits are those of `Nat.digits`, so what is in the
buffer is the numeral of the number, without leading zeros. Reading the numeral gives the number back, for
every word and in the base of each of the three (`numbers_read_back`).
-/

namespace Os003

/-- The bytes a function has written to its buffer, the terminator included, and the length it returns. -/
structure NumberText where
  buffer : List UInt8
  len : Nat
deriving DecidableEq, Repr

/-- `'0' + digit`. -/
def decDigit (digit : Nat) : UInt8 := UInt8.ofNat (0x30 + digit)

/-- `(digit < 10) ? ('0' + digit) : ('A' + digit - 10)`. -/
def hexDigit (digit : Nat) : UInt8 :=
  if digit < 10 then UInt8.ofNat (0x30 + digit) else UInt8.ofNat (0x41 + digit - 10)

/-- The loop that fills `temp`; a number of 64 bits has no more than 64 digits. -/
def tempDigits (base : Nat) (digit : Nat → UInt8) : (fuel num : Nat) → List UInt8
  | 0, _ => []
  | fuel + 1, num =>
      if num > 0 then digit (num % base) :: tempDigits base digit fuel (num / base) else []

def itoaHex (value : BitVec 64) : NumberText :=
  if value = 0 then ⟨[0x30, 0x78, 0x30, 0], 3⟩
  else
    let temp := tempDigits 16 hexDigit 64 value.toNat
    ⟨[0x30, 0x78] ++ temp.reverse ++ [0], 2 + temp.length⟩

/-- `itoa_dec`; the negation of the smallest number is itself, read as unsigned. -/
def itoaDec (value : BitVec 64) : NumberText :=
  let num := if value.slt 0 then -value else value
  if num = 0 then ⟨[0x30, 0], 1⟩
  else
    let temp := tempDigits 10 decDigit 64 num.toNat
    let sign : List UInt8 := if value.slt 0 then [0x2D] else []
    ⟨sign ++ temp.reverse ++ [0], sign.length + temp.length⟩

def utoaDec (value : BitVec 64) : NumberText :=
  if value = 0 then ⟨[0x30, 0], 1⟩
  else
    let temp := tempDigits 10 decDigit 64 value.toNat
    ⟨temp.reverse ++ [0], temp.length⟩

/-! ## Numerals -/

/-- The numeral of a number: its digits, the highest first. -/
def numeral (base : Nat) (digit : Nat → UInt8) (n : Nat) : List UInt8 :=
  if n = 0 then [digit 0] else ((base.digits n).map digit).reverse

/-- A sign in front of the numeral of the absolute value. -/
def signedNumeral (v : Int) : List UInt8 :=
  (if v < 0 then [0x2D] else []) ++ numeral 10 decDigit v.natAbs

/-- The text that a number has in the buffer. -/
def NumberText.Holds (t : NumberText) (s : List UInt8) : Prop :=
  t.buffer = s ++ [0] ∧ t.len = s.length

theorem tempDigits_eq {base : Nat} (digit : Nat → UInt8) (hb : 1 < base) {fuel num : Nat}
    (h : num < base ^ fuel) : tempDigits base digit fuel num = (base.digits num).map digit := by
  induction fuel generalizing num with
  | zero =>
      have h0 : num = 0 := by simpa using h
      rw [h0, Nat.digits_zero]
      rfl
  | succ fuel ih =>
      rw [tempDigits]
      by_cases hpos : num > 0
      · have hdiv : num / base < base ^ fuel := by
          rw [Nat.div_lt_iff_lt_mul (by omega)]
          rwa [Nat.pow_succ] at h
        rw [if_pos hpos, ih hdiv, Nat.digits_def' hb hpos]
        rfl
      · rw [if_neg hpos, show num = 0 by omega, Nat.digits_zero]
        rfl

/-- For a 64-bit number the loop writes all its digits. -/
theorem tempDigits_word {base : Nat} (digit : Nat → UInt8) (hb : 1 < base) (v : BitVec 64)
    (hne : v ≠ 0) : (tempDigits base digit 64 v.toNat).reverse = numeral base digit v.toNat := by
  have hlt : v.toNat < base ^ 64 :=
    lt_of_lt_of_le v.isLt (Nat.pow_le_pow_left hb 64)
  have hpos : v.toNat ≠ 0 := by
    intro h
    apply hne
    exact BitVec.eq_of_toNat_eq h
  rw [tempDigits_eq digit hb hlt, numeral, if_neg hpos]

theorem utoaDec_holds (v : BitVec 64) : (utoaDec v).Holds (numeral 10 decDigit v.toNat) := by
  rw [utoaDec]
  by_cases h0 : v = 0
  · subst h0
    exact ⟨rfl, rfl⟩
  · rw [if_neg h0, ← tempDigits_word decDigit (by decide) v h0]
    exact ⟨rfl, by simp⟩

theorem itoaHex_holds (v : BitVec 64) :
    (itoaHex v).Holds ([0x30, 0x78] ++ numeral 16 hexDigit v.toNat) := by
  rw [itoaHex]
  by_cases h0 : v = 0
  · subst h0
    exact ⟨rfl, rfl⟩
  · rw [if_neg h0, ← tempDigits_word hexDigit (by decide) v h0]
    exact ⟨rfl, by simp; omega⟩

theorem itoaDec_holds (v : BitVec 64) : (itoaDec v).Holds (signedNumeral v.toInt) := by
  have hslt : v.slt 0 = decide (v.toInt < 0) := by
    simp [BitVec.slt]
  have habs : v.toInt.natAbs = (if v.slt 0 then -v else v).toNat := by
    rw [hslt]
    by_cases hneg : v.toInt < 0
    · have hlt := v.isLt
      rw [decide_eq_true hneg, if_pos rfl, BitVec.toNat_neg]
      rw [BitVec.toInt_eq_toNat_cond] at hneg ⊢
      split_ifs at hneg ⊢ <;> omega
    · rw [decide_eq_false hneg, if_neg Bool.false_ne_true]
      rw [BitVec.toInt_eq_toNat_cond] at hneg ⊢
      have hlt := v.isLt
      split_ifs at hneg ⊢ <;> omega
  have hsign : (if v.toInt < 0 then [0x2D] else [] : List UInt8) = if v.slt 0 then [0x2D] else [] := by
    rw [hslt]
    by_cases hneg : v.toInt < 0 <;> simp [hneg]
  rw [signedNumeral, habs, hsign, itoaDec]
  by_cases h0 : (if v.slt 0 then -v else v) = 0
  · -- only 0 has the absolute value 0
    have hv : v = 0 := by
      by_cases hs : v.slt 0 = true
      · rw [if_pos hs] at h0
        rw [← neg_neg v, h0]
        rfl
      · rwa [if_neg hs] at h0
    subst hv
    exact ⟨rfl, rfl⟩
  · simp only
    rw [if_neg h0, ← tempDigits_word decDigit (by decide) _ h0]
    refine ⟨by simp, ?_⟩
    simp only [List.length_append, List.length_reverse]

/-! ## Reading a number back -/

/-- `temp` has room for 32 digits. -/
theorem tempDigits_length {base : Nat} (digit : Nat → UInt8) (hb : 10 ≤ base) (v : BitVec 64) :
    (tempDigits base digit 64 v.toNat).length ≤ 20 := by
  have hlt : v.toNat < base ^ 20 :=
    calc v.toNat < 2 ^ 64 := v.isLt
      _ ≤ 10 ^ 20 := by norm_num
      _ ≤ base ^ 20 := Nat.pow_le_pow_left hb 20
  have hfuel : v.toNat < base ^ 64 := hlt.trans_le (Nat.pow_le_pow_right (by omega) (by decide))
  rw [tempDigits_eq digit (by omega) hfuel, List.length_map]
  exact (Nat.digits_length_le_iff (by omega) _).mpr hlt

/-- The string in the buffer, which ends before the first NUL. -/
def NumberText.text (t : NumberText) : List UInt8 := t.buffer.takeWhile (· ≠ 0)

/-- The buffer has been written up to the NUL of its string, and the length is that of the string. -/
def NumberText.Terminated (t : NumberText) : Prop := t.Holds t.text

/-- There are digits, and the first of them is a zero only in the numeral of zero. -/
def Shortest (digits : List UInt8) : Prop := digits ≠ [] ∧ (digits.head? = some 0x30 → digits = [0x30])

/-- The value of a decimal digit. -/
def decValue (c : UInt8) : Option Nat := if 0x30 ≤ c ∧ c ≤ 0x39 then some (c.toNat - 0x30) else none

/-- The value of a hexadecimal digit with the letters from A to F. -/
def hexValue (c : UInt8) : Option Nat :=
  if 0x41 ≤ c ∧ c ≤ 0x46 then some (c.toNat - 0x41 + 10) else decValue c

/-- The text behind its sign, if it has one. -/
def unsigned (s : List UInt8) : List UInt8 := if s.head? = some 0x2D then s.tail else s

/-- The number of a decimal text with or without a sign. -/
def parseDec (s : List UInt8) : Option Int :=
  (Positional.read 10 decValue (unsigned s)).map fun (n : Nat) =>
    if s.head? = some 0x2D then -(n : Int) else n

/-- The number of a hexadecimal text, which starts with `0x`. -/
def parseHex (s : List UInt8) : Option Nat :=
  if s.take 2 = [0x30, 0x78] then Positional.read 16 hexValue (s.drop 2) else none

theorem alphabet_dec : Positional.Alphabet 10 decDigit decValue := by
  intro d hd
  interval_cases d <;> decide

theorem alphabet_hex : Positional.Alphabet 16 hexDigit hexValue := by
  intro d hd
  interval_cases d <;> decide

section Numeral

variable {base : Nat} {digit : Nat → UInt8} {value : UInt8 → Option Nat}

theorem read_numeral (hb : 1 < base) (hval : Positional.Alphabet base digit value) (n : Nat) :
    Positional.read base value (numeral base digit n) = some n := by
  rw [numeral]
  by_cases h0 : n = 0
  · subst h0
    have hzero : value (digit 0) = some 0 := hval 0 (by omega)
    simp [Positional.read, hzero]
  · rw [if_neg h0, Positional.read_digits hb hval]

theorem numeral_shortest (hb : 1 < base) (hval : Positional.Alphabet base digit value)
    (hzero : digit 0 = 0x30) (n : Nat) : Shortest (numeral base digit n) := by
  rw [numeral]
  by_cases h0 : n = 0
  · rw [if_pos h0, hzero]
    exact ⟨List.cons_ne_nil _ _, fun _ => rfl⟩
  · rw [if_neg h0]
    constructor
    · simpa [Nat.digits_eq_nil_iff_eq_zero] using h0
    · intro hhead
      rw [← hzero] at hhead
      exact absurd hhead (Positional.head_digits hb hval h0)

/-- A character that is no digit does not occur in a numeral. -/
theorem notMem_numeral (hb : 1 < base) (hval : Positional.Alphabet base digit value) {c : UInt8}
    (hc : value c = none) (n : Nat) : c ∉ numeral base digit n := by
  rw [numeral]
  by_cases h0 : n = 0
  · rw [if_pos h0, List.mem_singleton]
    rintro rfl
    rw [hval 0 (by omega)] at hc
    cases hc
  · rw [if_neg h0]
    exact Positional.notMem_digits hb hval hc

end Numeral

theorem NumberText.Holds.text_eq {t : NumberText} {s : List UInt8} (h : t.Holds s) (hs : 0 ∉ s) :
    t.text = s := by
  have hall : ∀ c ∈ s, decide (c ≠ 0) = true := by
    intro c hc
    have hne : c ≠ 0 := ne_of_mem_of_not_mem hc hs
    simpa using hne
  rw [NumberText.text, h.1, List.takeWhile_append_of_pos hall]
  simp

theorem NumberText.Holds.terminated {t : NumberText} {s : List UInt8} (h : t.Holds s) (hs : 0 ∉ s) :
    t.Terminated := by
  rw [NumberText.Terminated, h.text_eq hs]
  exact h

/-- A minus sign is no digit, so the sign of a text can be told from its numeral. -/
theorem unsigned_signedNumeral (v : Int) : unsigned (signedNumeral v) = numeral 10 decDigit v.natAbs ∧
    ((signedNumeral v).head? = some 0x2D ↔ v < 0) := by
  by_cases hneg : v < 0
  · simp [unsigned, signedNumeral, hneg]
  · have hhead : (numeral 10 decDigit v.natAbs).head? ≠ some 0x2D := by
      intro h
      exact notMem_numeral (by decide) alphabet_dec (by decide) _ (List.mem_of_mem_head? h)
    simp [unsigned, signedNumeral, hneg, hhead]

theorem parseDec_signedNumeral (v : Int) : parseDec (signedNumeral v) = some v := by
  obtain ⟨hdigits, hsign⟩ := unsigned_signedNumeral v
  rw [parseDec, hdigits, read_numeral (by decide) alphabet_dec, Option.map_some]
  simp only [hsign, Option.some.injEq]
  split <;> omega

theorem parseHex_numeral (n : Nat) : parseHex ([0x30, 0x78] ++ numeral 16 hexDigit n) = some n := by
  have hfront : ([0x30, 0x78] ++ numeral 16 hexDigit n).take 2 = [0x30, 0x78] := rfl
  rw [parseHex, if_pos hfront]
  exact read_numeral (by decide) alphabet_hex n

/-- A number is read back from what is printed of it, in decimal with or without a sign and in
hexadecimal. -/
theorem numbers_read_back (v : BitVec 64) :
    ((utoaDec v).Terminated ∧ Shortest (utoaDec v).text ∧
      Positional.read 10 decValue (utoaDec v).text = some v.toNat) ∧
    ((itoaDec v).Terminated ∧ Shortest (unsigned (itoaDec v).text) ∧
      parseDec (itoaDec v).text = some v.toInt) ∧
    ((itoaHex v).Terminated ∧ Shortest ((itoaHex v).text.drop 2) ∧
      parseHex (itoaHex v).text = some v.toNat) := by
  have hdec : ∀ n, (0 : UInt8) ∉ numeral 10 decDigit n :=
    notMem_numeral (by decide) alphabet_dec (by decide)
  have hhex : ∀ n, (0 : UInt8) ∉ numeral 16 hexDigit n :=
    notMem_numeral (by decide) alphabet_hex (by decide)
  refine ⟨?_, ?_, ?_⟩
  · have hholds := utoaDec_holds v
    rw [hholds.text_eq (hdec _)]
    exact ⟨hholds.terminated (hdec _), numeral_shortest (by decide) alphabet_dec rfl _,
      read_numeral (by decide) alphabet_dec _⟩
  · have hholds := itoaDec_holds v
    have hnul : (0 : UInt8) ∉ signedNumeral v.toInt := by
      rw [signedNumeral, List.mem_append, not_or]
      refine ⟨?_, hdec _⟩
      split <;> decide
    rw [hholds.text_eq hnul, (unsigned_signedNumeral _).1]
    exact ⟨hholds.terminated hnul, numeral_shortest (by decide) alphabet_dec rfl _,
      parseDec_signedNumeral _⟩
  · have hholds := itoaHex_holds v
    have hnul : (0 : UInt8) ∉ [0x30, 0x78] ++ numeral 16 hexDigit v.toNat := by
      rw [List.mem_append, not_or]
      exact ⟨by decide, hhex _⟩
    rw [hholds.text_eq hnul]
    exact ⟨hholds.terminated hnul, numeral_shortest (by decide) alphabet_hex rfl v.toNat,
      parseHex_numeral _⟩

/-! ## Lower-case letters -/

/-- `buffer[i] + ('a' - 'A')` for the letters from A to F. -/
def lowerByte (b : UInt8) : UInt8 := if 0x41 ≤ b ∧ b ≤ 0x46 then b + 0x20 else b

/-- The loop over the letters behind `0x`. -/
def lowerHex (t : NumberText) : NumberText :=
  ⟨t.buffer.take 2 ++ ((t.buffer.drop 2).take (t.len - 2)).map lowerByte ++ t.buffer.drop t.len, t.len⟩

/-- A digit with the letters from a to f. -/
def lowerDigit (digit : Nat) : UInt8 :=
  if digit < 10 then UInt8.ofNat (0x30 + digit) else UInt8.ofNat (0x61 + digit - 10)

theorem lowerByte_hexDigit {digit : Nat} (h : digit < 16) :
    lowerByte (hexDigit digit) = lowerDigit digit := by
  interval_cases digit <;> decide

theorem map_lowerByte_numeral (n : Nat) :
    (numeral 16 hexDigit n).map lowerByte = numeral 16 lowerDigit n := by
  rw [numeral, numeral]
  by_cases h0 : n = 0
  · rw [if_pos h0, if_pos h0]
    rfl
  · rw [if_neg h0, if_neg h0, List.map_reverse, List.map_map]
    congr 1
    apply List.map_congr_left
    intro digit hd
    exact lowerByte_hexDigit (Nat.digits_lt_base (by decide) hd)

theorem lowerHex_holds (v : BitVec 64) :
    (lowerHex (itoaHex v)).Holds ([0x30, 0x78] ++ numeral 16 lowerDigit v.toNat) := by
  obtain ⟨hbuf, hlen⟩ := itoaHex_holds v
  have hmap := map_lowerByte_numeral v.toNat
  have hsize := congrArg List.length hmap
  rw [List.length_map] at hsize
  have hlen' : (itoaHex v).len = (numeral 16 hexDigit v.toNat).length + 2 := by
    rw [hlen, List.length_append, Nat.add_comm]
    rfl
  constructor
  · rw [lowerHex, hbuf, hlen', ← hmap]
    simp
  · show (itoaHex v).len = _
    rw [hlen', List.length_append, hsize, Nat.add_comm]
    rfl

end Os003
