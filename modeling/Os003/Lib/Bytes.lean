import Mathlib

set_option autoImplicit false

/-! # Byte memories, buffers and little-endian words

A memory is a function from addresses to bytes, a buffer a list of bytes. `readBytes` and
`writeBytes` move a buffer out of and into a memory; `splice` overwrites part of a buffer in
place, as `memcpy` does. Words of two and four bytes are stored low byte first.
-/

namespace Bytes

/-! ## Buffers -/

/-- `l` with the bytes from offset `off` on replaced by `bs`. -/
def splice (l : List UInt8) (off : Nat) (bs : List UInt8) : List UInt8 :=
  l.take off ++ bs ++ l.drop (off + bs.length)

theorem splice_length (l : List UInt8) (off : Nat) (bs : List UInt8)
    (h : off + bs.length ≤ l.length) : (splice l off bs).length = l.length := by
  simp only [splice, List.length_append, List.length_take, List.length_drop]
  omega

theorem getD_splice (l : List UInt8) (off : Nat) (bs : List UInt8)
    (h : off + bs.length ≤ l.length) (i : Nat) :
    (splice l off bs).getD i 0 =
      if off ≤ i ∧ i < off + bs.length then bs.getD (i - off) 0 else l.getD i 0 := by
  have hlen : (l.take off).length = off := by rw [List.length_take]; omega
  simp only [splice, List.append_assoc, List.getD_eq_getElem?_getD]
  by_cases h1 : i < off
  · rw [List.getElem?_append_left (by omega), if_neg (by omega), List.getElem?_take_of_lt h1]
  · rw [List.getElem?_append_right (by omega), hlen]
    by_cases h2 : i < off + bs.length
    · rw [List.getElem?_append_left (by omega), if_pos (by omega)]
    · rw [List.getElem?_append_right (by omega), if_neg (by omega), List.getElem?_drop]
      congr 2
      omega

theorem splice_zero (l bs : List UInt8) : splice l 0 bs = bs ++ l.drop bs.length := by
  simp [splice]

theorem splice_append (l bs : List UInt8) : splice l l.length bs = l ++ bs := by
  simp [splice]

/-- Overwriting bytes of the middle part of a buffer. -/
theorem splice_middle (a b d bs : List UInt8) (off : Nat) (h : off + bs.length ≤ b.length) :
    splice (a ++ (b ++ d)) (a.length + off) bs = a ++ (splice b off bs ++ d) := by
  simp only [splice, Nat.add_assoc, List.take_length_add_append, List.drop_length_add_append,
    List.append_assoc]
  rw [List.take_append_of_le_length (by omega), List.drop_append_of_le_length h]

/-- Two adjacent writes are one. -/
theorem splice_splice (l bs bs' : List UInt8) (off : Nat) (h : off + bs.length ≤ l.length) :
    splice (splice l off bs) (off + bs.length) bs' = splice l off (bs ++ bs') := by
  have hlen : (l.take off ++ bs).length = off + bs.length := by
    rw [List.length_append, List.length_take]
    omega
  have htake : (splice l off bs).take (off + bs.length) = l.take off ++ bs := by
    rw [splice, ← hlen, List.take_left]
  have hdrop : (splice l off bs).drop (off + bs.length + bs'.length) =
      l.drop (off + (bs ++ bs').length) := by
    rw [splice, ← hlen, List.drop_length_add_append, List.drop_drop, hlen, List.length_append]
    congr 1
    omega
  rw [splice, htake, hdrop, splice]
  simp only [List.append_assoc]

/-- Writing the next `n` bytes of `data` and then the rest is writing all of them. -/
theorem splice_take_drop (l data : List UInt8) (off w n : Nat) (hn : w + n ≤ data.length)
    (h : off + n ≤ l.length) :
    splice (splice l off ((data.drop w).take n)) (off + n) (data.drop (w + n)) =
      splice l off (data.drop w) := by
  have hlen : ((data.drop w).take n).length = n := by
    rw [List.length_take, List.length_drop]
    omega
  have hss := splice_splice l ((data.drop w).take n) (data.drop (w + n)) off
    (by rw [hlen]; exact h)
  rw [hlen, ← List.drop_drop, List.take_append_drop] at hss
  rw [← List.drop_drop]
  exact hss

theorem splice_nil (l : List UInt8) (off : Nat) : splice l off [] = l := by
  simp [splice]

/-- Two buffers of one length are equal when they agree at every offset. -/
theorem ext_getD {l l' : List UInt8} (hlen : l.length = l'.length)
    (h : ∀ i, i < l.length → l.getD i 0 = l'.getD i 0) : l = l' := by
  apply List.ext_getElem hlen
  intro i h1 h2
  have := h i h1
  rwa [List.getD_eq_getElem _ _ h1, List.getD_eq_getElem _ _ h2] at this

/-! ## Memories -/

/-- The `n` bytes from address `a` on. -/
def readBytes (d : Nat → UInt8) (a n : Nat) : List UInt8 :=
  (List.range n).map (fun i => d (a + i))

/-- The memory `d` with the buffer `bs` stored at address `a`. -/
def writeBytes (d : Nat → UInt8) (a : Nat) (bs : List UInt8) : Nat → UInt8 :=
  fun x => if a ≤ x ∧ x < a + bs.length then bs.getD (x - a) 0 else d x

@[simp] theorem readBytes_length (d : Nat → UInt8) (a n : Nat) : (readBytes d a n).length = n := by
  simp [readBytes]

theorem getD_readBytes (d : Nat → UInt8) (a n i : Nat) (h : i < n) :
    (readBytes d a n).getD i 0 = d (a + i) := by
  rw [List.getD_eq_getElem _ _ (by simpa using h)]
  simp [readBytes]

theorem readBytes_congr {d d' : Nat → UInt8} {a n : Nat} (h : ∀ i, i < n → d (a + i) = d' (a + i)) :
    readBytes d a n = readBytes d' a n := by
  apply List.map_congr_left
  intro i hi
  exact h i (List.mem_range.mp hi)

theorem readBytes_add (d : Nat → UInt8) (a m n : Nat) :
    readBytes d a (m + n) = readBytes d a m ++ readBytes d (a + m) n := by
  simp only [readBytes, List.range_add, List.map_append, List.map_map]
  congr 1
  apply List.map_congr_left
  intro i _
  simp only [Function.comp_apply, Nat.add_assoc]

theorem writeBytes_of_lt (d : Nat → UInt8) (a x : Nat) (bs : List UInt8) (h : x < a) :
    writeBytes d a bs x = d x := by
  rw [writeBytes, if_neg (by omega)]

theorem writeBytes_of_ge (d : Nat → UInt8) (a x : Nat) (bs : List UInt8) (h : a + bs.length ≤ x) :
    writeBytes d a bs x = d x := by
  rw [writeBytes, if_neg (by omega)]

theorem readBytes_writeBytes (d : Nat → UInt8) (a : Nat) (bs : List UInt8) :
    readBytes (writeBytes d a bs) a bs.length = bs := by
  apply ext_getD (by simp)
  intro i hi
  rw [readBytes_length] at hi
  rw [getD_readBytes _ _ _ _ hi, writeBytes, if_pos (by omega)]
  congr 1
  omega

theorem readBytes_writeBytes_of_disjoint (d : Nat → UInt8) (a b n : Nat) (bs : List UInt8)
    (h : a + bs.length ≤ b ∨ b + n ≤ a) :
    readBytes (writeBytes d a bs) b n = readBytes d b n := by
  apply readBytes_congr
  intro i hi
  rw [writeBytes, if_neg (by omega)]

/-- Reading a buffer, overwriting a part of it and storing it back changes only that part. -/
theorem writeBytes_splice (d : Nat → UInt8) (a n off : Nat) (bs : List UInt8)
    (h : off + bs.length ≤ n) :
    writeBytes d a (splice (readBytes d a n) off bs) = writeBytes d (a + off) bs := by
  have hl : off + bs.length ≤ (readBytes d a n).length := by simpa using h
  funext x
  simp only [writeBytes, splice_length _ _ _ hl, readBytes_length]
  by_cases hx : a ≤ x ∧ x < a + n
  · rw [if_pos hx, getD_splice _ _ _ hl]
    by_cases h1 : off ≤ x - a ∧ x - a < off + bs.length
    · rw [if_pos h1, if_pos (by omega)]
      congr 1
      omega
    · rw [if_neg h1, if_neg (by omega), getD_readBytes _ _ _ _ (by omega)]
      congr 1
      omega
  · rw [if_neg hx, if_neg (by omega)]

/-! ## Little-endian words -/

/-- The 16-bit word at offset `off`. -/
def readLe16 (l : List UInt8) (off : Nat) : Nat :=
  (l.getD off 0).toNat ||| (l.getD (off + 1) 0).toNat <<< 8

/-- The 32-bit word at offset `off`. -/
def readLe32 (l : List UInt8) (off : Nat) : Nat :=
  (l.getD off 0).toNat ||| (l.getD (off + 1) 0).toNat <<< 8 |||
    (l.getD (off + 2) 0).toNat <<< 16 ||| (l.getD (off + 3) 0).toNat <<< 24

/-- The two bytes of a 16-bit word. -/
def le16 (v : Nat) : List UInt8 := [UInt8.ofNat (v &&& 0xFF), UInt8.ofNat ((v >>> 8) &&& 0xFF)]

/-- The four bytes of a 32-bit word. -/
def le32 (v : Nat) : List UInt8 :=
  [UInt8.ofNat (v &&& 0xFF), UInt8.ofNat ((v >>> 8) &&& 0xFF),
    UInt8.ofNat ((v >>> 16) &&& 0xFF), UInt8.ofNat ((v >>> 24) &&& 0xFF)]

/-- Store a 32-bit word at offset `off`. -/
def writeLe32 (l : List UInt8) (off value : Nat) : List UInt8 := splice l off (le32 value)

@[simp] theorem le16_length (v : Nat) : (le16 v).length = 2 := rfl

@[simp] theorem le32_length (v : Nat) : (le32 v).length = 4 := rfl

/-- A byte below a shifted number: the or is a sum. -/
theorem or_shiftLeft {a k : Nat} (b : Nat) (h : a < 2 ^ k) : a ||| b <<< k = a + b * 2 ^ k := by
  rw [Nat.lor_comm, ← Nat.shiftLeft_add_eq_or_of_lt h, Nat.shiftLeft_eq, Nat.add_comm]

theorem readLe16_eq (l : List UInt8) (off : Nat) :
    readLe16 l off = (l.getD off 0).toNat + (l.getD (off + 1) 0).toNat * 256 := by
  have h0 := (l.getD off 0).toNat_lt
  rw [readLe16, or_shiftLeft _ (by omega)]
  norm_num

theorem readLe32_eq (l : List UInt8) (off : Nat) :
    readLe32 l off = (l.getD off 0).toNat + (l.getD (off + 1) 0).toNat * 256 +
      (l.getD (off + 2) 0).toNat * 65536 + (l.getD (off + 3) 0).toNat * 16777216 := by
  have h0 := (l.getD off 0).toNat_lt
  have h1 := (l.getD (off + 1) 0).toNat_lt
  have h2 := (l.getD (off + 2) 0).toNat_lt
  rw [readLe32, or_shiftLeft _ (by omega : (l.getD off 0).toNat < 2 ^ 8),
    or_shiftLeft _ (by omega : _ < 2 ^ 16), or_shiftLeft _ (by omega : _ < 2 ^ 24)]
  norm_num

theorem readLe16_lt (l : List UInt8) (off : Nat) : readLe16 l off < 2 ^ 16 := by
  have h0 := (l.getD off 0).toNat_lt
  have h1 := (l.getD (off + 1) 0).toNat_lt
  rw [readLe16_eq]
  omega

theorem readLe32_lt (l : List UInt8) (off : Nat) : readLe32 l off < 2 ^ 32 := by
  have h0 := (l.getD off 0).toNat_lt
  have h1 := (l.getD (off + 1) 0).toNat_lt
  have h2 := (l.getD (off + 2) 0).toNat_lt
  have h3 := (l.getD (off + 3) 0).toNat_lt
  rw [readLe32_eq]
  omega

theorem readLe16_congr {l l' : List UInt8} {off off' : Nat}
    (h : ∀ i, i < 2 → l.getD (off + i) 0 = l'.getD (off' + i) 0) :
    readLe16 l off = readLe16 l' off' := by
  have h0 := h 0 (by omega)
  have h1 := h 1 (by omega)
  rw [Nat.add_zero, Nat.add_zero] at h0
  simp only [readLe16, h0, h1]

theorem readLe32_congr {l l' : List UInt8} {off off' : Nat}
    (h : ∀ i, i < 4 → l.getD (off + i) 0 = l'.getD (off' + i) 0) :
    readLe32 l off = readLe32 l' off' := by
  have h0 := h 0 (by omega)
  have h1 := h 1 (by omega)
  have h2 := h 2 (by omega)
  have h3 := h 3 (by omega)
  rw [Nat.add_zero, Nat.add_zero] at h0
  simp only [readLe32, h0, h1, h2, h3]

theorem toNat_ofNat_and (v : Nat) : (UInt8.ofNat (v &&& 0xFF)).toNat = v % 256 := by
  rw [UInt8.toNat_ofNat', show 0xFF = 2 ^ 8 - 1 from rfl, Nat.and_two_pow_sub_one_eq_mod]
  omega

theorem readLe16_le16 (v : Nat) : readLe16 (le16 v) 0 = v % 2 ^ 16 := by
  rw [readLe16_eq]
  simp only [le16, List.getD_cons_zero, List.getD_cons_succ, Nat.zero_add, toNat_ofNat_and,
    Nat.shiftRight_eq_div_pow]
  omega

theorem readLe32_le32 (v : Nat) : readLe32 (le32 v) 0 = v % 2 ^ 32 := by
  rw [readLe32_eq]
  simp only [le32, List.getD_cons_zero, List.getD_cons_succ, Nat.zero_add, toNat_ofNat_and,
    Nat.shiftRight_eq_div_pow]
  omega

/-- A word that has been stored is read back. -/
theorem readLe16_splice (l : List UInt8) (off v : Nat) (h : off + 2 ≤ l.length) :
    readLe16 (splice l off (le16 v)) off = v % 2 ^ 16 := by
  rw [← readLe16_le16 v]
  apply readLe16_congr
  intro i hi
  rw [getD_splice _ _ _ (by simpa using h), if_pos (by simp; omega), Nat.zero_add]
  congr 1
  omega

theorem readLe32_splice (l : List UInt8) (off v : Nat) (h : off + 4 ≤ l.length) :
    readLe32 (splice l off (le32 v)) off = v % 2 ^ 32 := by
  rw [← readLe32_le32 v]
  apply readLe32_congr
  intro i hi
  rw [getD_splice _ _ _ (by simpa using h), if_pos (by simp; omega), Nat.zero_add]
  congr 1
  omega

/-- A word beside the overwritten bytes keeps its value. -/
theorem readLe16_splice_of_disjoint (l : List UInt8) (off off' : Nat) (bs : List UInt8)
    (h : off + bs.length ≤ l.length) (hd : off' + 2 ≤ off ∨ off + bs.length ≤ off') :
    readLe16 (splice l off bs) off' = readLe16 l off' := by
  apply readLe16_congr
  intro i hi
  rw [getD_splice _ _ _ h, if_neg (by omega)]

theorem readLe32_splice_of_disjoint (l : List UInt8) (off off' : Nat) (bs : List UInt8)
    (h : off + bs.length ≤ l.length) (hd : off' + 4 ≤ off ∨ off + bs.length ≤ off') :
    readLe32 (splice l off bs) off' = readLe32 l off' := by
  apply readLe32_congr
  intro i hi
  rw [getD_splice _ _ _ h, if_neg (by omega)]

end Bytes
