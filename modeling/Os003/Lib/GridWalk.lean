import Mathlib

set_option autoImplicit false

/-! # Walking from corner to corner of a grid

Bresenham's walk over a grid of `dx` times `dy`, from one corner to the opposite one. Each step goes on in one
or in both of the directions, as an error term tells that is kept up to date by additions only.

In the longer of the two directions every step goes on: the error term stays within bounds (`Along`) that
let it. The bounds also leave one value for the other coordinate at the end, which is its corner. So the
walk is in the corner after as many steps as the longer side has, and never before. The two directions are
exchanged by `Walk.swap`, so one order of the sides is enough.
-/

namespace GridWalk

/-- The steps made in the two directions, and the error term. -/
structure Walk where
  i : Nat
  j : Nat
  err : Int

variable {dx dy k : Nat} {w : Walk}

def start (dx dy : Nat) : Walk := ⟨0, 0, dx - dy⟩

/-- Both conditions look at the error term before the step. -/
def step (dx dy : Nat) (w : Walk) : Walk where
  i := if -dy < 2 * w.err then w.i + 1 else w.i
  j := if 2 * w.err < dx then w.j + 1 else w.j
  err := w.err - (if -dy < 2 * w.err then (dy : Int) else 0) + if 2 * w.err < dx then (dx : Int) else 0

/-- The walk after `k` steps. -/
def after (dx dy k : Nat) : Walk := (step dx dy)^[k] (start dx dy)

theorem after_succ (dx dy k : Nat) : after dx dy (k + 1) = step dx dy (after dx dy k) :=
  Function.iterate_succ_apply' _ _ _

/-! ## The two directions -/

def Walk.swap (w : Walk) : Walk := ⟨w.j, w.i, -w.err⟩

theorem step_swap (dx dy : Nat) (w : Walk) : step dy dx w.swap = (step dx dy w).swap := by
  have hi : -(dx : Int) < 2 * -w.err ↔ 2 * w.err < dx := by omega
  have hj : 2 * -w.err < (dy : Int) ↔ -dy < 2 * w.err := by omega
  simp only [step, Walk.swap, hi, hj, Walk.mk.injEq, true_and]
  split_ifs <;> omega

theorem after_swap (dx dy k : Nat) : after dy dx k = (after dx dy k).swap := by
  induction k with
  | zero =>
      show (⟨0, 0, dy - dx⟩ : Walk) = ⟨0, 0, -(dx - dy)⟩
      rw [neg_sub]
  | succ k ih => rw [after_succ, after_succ, ih, step_swap]

/-! ## Along the longer side -/

/-- After `k` steps along the side `dx`: the error term counts the steps, within the bounds that make the next
step go on. -/
structure Along (dx dy k : Nat) (w : Walk) : Prop where
  i_eq : w.i = k
  err_eq : w.err = dx - dy - k * dy + w.j * dx
  lower : -dy < 2 * w.err
  upper : 2 * w.err < 3 * dx - 2 * dy

theorem along_start (h : dy ≤ dx) (hpos : 0 < dx) : Along dx dy 0 (start dx dy) where
  i_eq := rfl
  err_eq := by simp [start]
  lower := by simp only [start]; omega
  upper := by simp only [start]; omega

theorem Along.step (ha : Along dx dy k w) (h : dy ≤ dx) : Along dx dy (k + 1) (step dx dy w) := by
  have hlower := ha.lower
  have hupper := ha.upper
  have herr := ha.err_eq
  by_cases hj : 2 * w.err < dx
  · refine ⟨?_, ?_, ?_, ?_⟩
    · simp [GridWalk.step, hlower, ha.i_eq]
    · simp only [GridWalk.step, if_pos hlower, if_pos hj]
      push_cast
      linarith
    · simp only [GridWalk.step, if_pos hlower, if_pos hj]
      omega
    · simp only [GridWalk.step, if_pos hlower, if_pos hj]
      omega
  · refine ⟨?_, ?_, ?_, ?_⟩
    · simp [GridWalk.step, hlower, ha.i_eq]
    · simp only [GridWalk.step, if_pos hlower, if_neg hj]
      push_cast
      linarith
    -- between sides of the same length the error term is below `dx`
    · simp only [GridWalk.step, if_pos hlower, if_neg hj]
      omega
    · simp only [GridWalk.step, if_pos hlower, if_neg hj]
      omega

theorem along_after (h : dy ≤ dx) (hpos : 0 < dx) (k : Nat) : Along dx dy k (after dx dy k) := by
  induction k with
  | zero => exact along_start h hpos
  | succ k ih =>
      rw [after_succ]
      exact ih.step h

/-- The other coordinate does not run ahead of the line by as much as one half. -/
theorem Along.j_lt (ha : Along dx dy k w) : 2 * (w.j * dx : Int) < dx + 2 * (k * dy) := by
  have hupper := ha.upper
  rw [ha.err_eq] at hupper
  linarith

theorem Along.lt_j (ha : Along dx dy k w) : dy + 2 * (k * dy : Int) < 2 * (w.j * dx) + 2 * dx := by
  have hlower := ha.lower
  rw [ha.err_eq] at hlower
  linarith

theorem Along.j_le (ha : Along dx dy k w) (hk : k ≤ dx) : w.j ≤ dy := by
  have hlt := ha.j_lt
  have hkdy : (k * dy : Int) ≤ dx * dy := by
    exact_mod_cast Nat.mul_le_mul_right dy hk
  by_contra hj
  have hmul : ((dy + 1) * dx : Int) ≤ w.j * dx := by
    exact_mod_cast Nat.mul_le_mul_right dx (Nat.lt_of_not_le hj)
  nlinarith

/-- After the steps of the longer side both coordinates are at the corner. -/
theorem Along.j_eq (ha : Along dx dy dx w) : w.j = dy := by
  refine le_antisymm (ha.j_le le_rfl) ?_
  by_contra hj
  have hlt := ha.lt_j
  have hmul : ((w.j + 1) * dx : Int) ≤ dy * dx := by
    exact_mod_cast Nat.mul_le_mul_right dx (Nat.lt_of_not_le hj)
  nlinarith

/-! ## The whole walk -/

/-- What holds of the walk after `k` of its steps. -/
structure Within (dx dy k : Nat) (w : Walk) : Prop where
  i_le : w.i ≤ dx
  j_le : w.j ≤ dy
  /-- The corner is reached with the last step. -/
  corner : w.i = dx ∧ w.j = dy ↔ k = max dx dy
  err_le : |2 * w.err| ≤ 3 * (max dx dy : Nat)

theorem Along.within (ha : Along dx dy k w) (h : dy ≤ dx) (hk : k ≤ dx) : Within dx dy k w where
  i_le := ha.i_eq.trans_le hk
  j_le := ha.j_le hk
  corner := by
    rw [max_eq_left h, ha.i_eq]
    constructor
    · exact fun hc => hc.1
    · rintro rfl
      exact ⟨rfl, ha.j_eq⟩
  err_le := by
    have hlower := ha.lower
    have hupper := ha.upper
    rw [max_eq_left h, abs_le]
    omega

theorem Within.swap (hw : Within dx dy k w) : Within dy dx k w.swap where
  i_le := hw.j_le
  j_le := hw.i_le
  corner := by
    rw [max_comm, ← hw.corner]
    exact and_comm
  err_le := by
    have herr := hw.err_le
    rw [max_comm dy dx, Walk.swap, mul_neg, abs_neg]
    exact herr

/-- The walk stays on the grid and is in the corner after the steps of the longer side, not before. -/
theorem within_after (hk : k ≤ max dx dy) : Within dx dy k (after dx dy k) := by
  rcases Nat.eq_zero_or_pos (max dx dy) with h0 | hpos
  · obtain ⟨rfl, rfl⟩ : dx = 0 ∧ dy = 0 := by omega
    obtain rfl : k = 0 := by omega
    exact ⟨le_rfl, le_rfl, by simp [after, start], by simp [after, start]⟩
  · rcases le_total dy dx with h | h
    · exact (along_after h (by omega) k).within h (by omega)
    · rw [after_swap dy dx]
      exact ((along_after h (by omega) k).within h (by omega)).swap

/-- A step goes on by at most one in each of the directions. -/
theorem step_near (dx dy : Nat) (w : Walk) :
    (w.i ≤ (step dx dy w).i ∧ (step dx dy w).i ≤ w.i + 1) ∧
      w.j ≤ (step dx dy w).j ∧ (step dx dy w).j ≤ w.j + 1 := by
  simp only [step]
  split_ifs <;> omega

end GridWalk
