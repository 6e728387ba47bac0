import Os003.Lib.Bytes

set_option autoImplicit false

/-! # Words in a memory of bytes

Words of any number of bytes, stored with the low byte first. A word that has been stored is read
back, and a store or a fill leaves every word alone that it does not overlap.
-/

namespace Bytes

variable {d d' : Nat → UInt8} {a b k n v x : Nat}

/-- The low `n` bytes of a number. -/
def leBytes : Nat → Nat → List UInt8
  | 0, _ => []
  | n + 1, v => UInt8.ofNat (v % 256) :: leBytes n (v / 256)

/-- The word of `n` bytes at address `a`. -/
def loadLe (d : Nat → UInt8) (a : Nat) : Nat → Nat
  | 0 => 0
  | n + 1 => (d a).toNat + 256 * loadLe d (a + 1) n

/-- The memory with a word of `n` bytes stored at address `a`. -/
def storeLe (d : Nat → UInt8) (a n v : Nat) : Nat → UInt8 := writeBytes d a (leBytes n v)

/-- The memory with `n` bytes from address `a` on set, as `memset` does it. -/
def fill (d : Nat → UInt8) (a n : Nat) (c : UInt8) : Nat → UInt8 :=
  fun x => if a ≤ x ∧ x < a + n then c else d x

@[simp] theorem leBytes_length (n v : Nat) : (leBytes n v).length = n := by
  induction n generalizing v with
  | zero => rfl
  | succ n ih => simp [leBytes, ih]

theorem loadLe_congr (h : ∀ i, i < n → d (a + i) = d' (a + i)) : loadLe d a n = loadLe d' a n := by
  induction n generalizing a with
  | zero => rfl
  | succ n ih =>
      have h0 : d a = d' a := h 0 (Nat.succ_pos n)
      have hrest : loadLe d (a + 1) n = loadLe d' (a + 1) n := by
        apply ih
        intro i hi
        have := h (i + 1) (by omega)
        rwa [show a + (i + 1) = a + 1 + i by omega] at this
      rw [loadLe, loadLe, h0, hrest]

theorem storeLe_of_lt (h : x < a) : storeLe d a n v x = d x := writeBytes_of_lt d a x _ h

theorem storeLe_of_ge (h : a + n ≤ x) : storeLe d a n v x = d x :=
  writeBytes_of_ge d a x _ (by rwa [leBytes_length])

theorem loadLe_writeBytes (d : Nat → UInt8) (a n v : Nat) :
    loadLe (writeBytes d a (leBytes n v)) a n = v % 256 ^ n := by
  induction n generalizing d a v with
  | zero => simp [loadLe, Nat.mod_one]
  | succ n ih =>
      have hhead : writeBytes d a (leBytes (n + 1) v) a = UInt8.ofNat (v % 256) := by
        simp [writeBytes, leBytes]
      -- behind the first byte the memory is the one with the rest of the word stored
      have htail : loadLe (writeBytes d a (leBytes (n + 1) v)) (a + 1) n =
          loadLe (writeBytes d (a + 1) (leBytes n (v / 256))) (a + 1) n := by
        apply loadLe_congr
        intro i hi
        have hlen := leBytes_length n (v / 256)
        rw [writeBytes, writeBytes, if_pos (by rw [leBytes_length]; omega), if_pos (by omega), leBytes,
          show a + 1 + i - a = i + 1 by omega, List.getD_cons_succ]
        congr 1
        omega
      have hbyte : (UInt8.ofNat (v % 256)).toNat = v % 256 := by
        rw [UInt8.toNat_ofNat']
        exact Nat.mod_mod _ _
      rw [loadLe, hhead, htail, ih, hbyte, Nat.pow_succ', Nat.mod_mul]

theorem loadLe_storeLe (d : Nat → UInt8) (a n v : Nat) : loadLe (storeLe d a n v) a n = v % 256 ^ n :=
  loadLe_writeBytes d a n v

theorem loadLe_storeLe_of_disjoint (h : a + n ≤ b ∨ b + k ≤ a) :
    loadLe (storeLe d a n v) b k = loadLe d b k := by
  apply loadLe_congr
  intro i hi
  obtain h | h := h
  · exact storeLe_of_ge (by omega)
  · exact storeLe_of_lt (by omega)

theorem loadLe_fill_of_disjoint {c : UInt8} (h : a + n ≤ b ∨ b + k ≤ a) :
    loadLe (fill d a n c) b k = loadLe d b k := by
  apply loadLe_congr
  intro i hi
  rw [fill, if_neg (by omega)]

/-- The low byte of a word. -/
theorem loadLe_mod (d : Nat → UInt8) (a n : Nat) : loadLe d a (n + 1) % 256 = (d a).toNat := by
  have := (d a).toNat_lt
  rw [loadLe]
  omega

theorem loadLe_lt (d : Nat → UInt8) (a n : Nat) : loadLe d a n < 256 ^ n := by
  induction n generalizing a with
  | zero => exact Nat.one_pos
  | succ n ih =>
      have h1 := (d a).toNat_lt
      have h2 := ih (a + 1)
      rw [loadLe, Nat.pow_succ']
      omega

/-- A word is its low part and, above it, the word behind that. -/
theorem loadLe_add (d : Nat → UInt8) (a m n : Nat) :
    loadLe d a (m + n) = loadLe d a m + 256 ^ m * loadLe d (a + m) n := by
  induction m generalizing a with
  | zero => simp [loadLe]
  | succ m ih =>
      rw [show m + 1 + n = m + n + 1 by omega, loadLe, loadLe, ih, Nat.pow_succ',
        show a + 1 + m = a + (m + 1) by omega]
      ring

end Bytes
