import Mathlib

set_option autoImplicit false

/-! # Comparing bytes

`memcmp` (`lib/kstring.c`) compares two memories from their first byte on and stops at the first byte that
differs.
-/

namespace Os003

/-- `memcmp`: the difference of the first two bytes that differ, or 0. -/
def memcmp : Nat → (p q : Nat → UInt8) → Int
  | 0, _, _ => 0
  | n + 1, p, q =>
      if p 0 ≠ q 0 then (p 0).toNat - (q 0).toNat
      else memcmp n (fun i => p (i + 1)) (fun i => q (i + 1))

/-- How many bytes of each side `memcmp` reads. -/
def memcmpReads : Nat → (p q : Nat → UInt8) → Nat
  | 0, _, _ => 0
  | n + 1, p, q =>
      if p 0 ≠ q 0 then 1 else memcmpReads n (fun i => p (i + 1)) (fun i => q (i + 1)) + 1

theorem memcmp_eq_zero {n : Nat} {p q : Nat → UInt8} :
    memcmp n p q = 0 ↔ ∀ i < n, p i = q i := by
  induction n generalizing p q with
  | zero => simp [memcmp]
  | succ n ih =>
      rw [memcmp]
      by_cases h : p 0 = q 0
      · rw [if_neg (not_not.mpr h), ih]
        constructor
        · intro hall i hi
          cases i with
          | zero => exact h
          | succ i => exact hall i (by omega)
        · intro hall i hi
          exact hall (i + 1) (by omega)
      · rw [if_pos h]
        constructor
        · intro hdiff
          apply absurd _ h
          apply UInt8.toNat_inj.mp
          omega
        · intro hall
          exact absurd (hall 0 (Nat.succ_pos n)) h

theorem memcmpReads_le (n : Nat) (p q : Nat → UInt8) : memcmpReads n p q ≤ n := by
  induction n generalizing p q with
  | zero => simp [memcmpReads]
  | succ n ih =>
      rw [memcmpReads]
      split
      · omega
      · have := ih (fun i => p (i + 1)) (fun i => q (i + 1))
        omega

end Os003
