import Mathlib

set_option autoImplicit false

/-! # Ring buffers

A ring buffer of `n` cells holds, from the cell `start` on, `count` items. `ringList` reads them in
order, so that writing behind them appends and taking the cell `start` removes the head.
-/

namespace Ring

variable {α : Type} {n start count : Nat} {cells : Nat → α}

/-- The items of a ring of `n` cells. -/
def ringList (n : Nat) (cells : Nat → α) (start count : Nat) : List α :=
  (List.range count).map fun i => cells ((start + i) % n)

@[simp]
theorem ringList_zero : ringList n cells start 0 = [] := rfl

@[simp]
theorem length_ringList : (ringList n cells start count).length = count := by
  simp [ringList]

/-- The items do not depend on the cells outside. -/
theorem ringList_congr {cells' : Nat → α}
    (h : ∀ i, i < count → cells' ((start + i) % n) = cells ((start + i) % n)) :
    ringList n cells' start count = ringList n cells start count := by
  apply List.map_congr_left
  intro i hi
  exact h i (List.mem_range.mp hi)

/-- Different places less than one round apart are different cells. -/
theorem cell_ne {i j : Nat} (hij : i < j) (hj : j < i + n) : (start + j) % n ≠ (start + i) % n := by
  intro h
  have hmod : (start + i) ≡ (start + j) [MOD n] := h.symm
  have hdvd : n ∣ (start + j) - (start + i) := (Nat.modEq_iff_dvd' (by omega)).mp hmod
  have hle : n ≤ (start + j) - (start + i) := Nat.le_of_dvd (by omega) hdvd
  omega

/-- Writing the cell behind the last item appends. -/
theorem ringList_write (hcount : count < n) (x : α) :
    ringList n (Function.update cells ((start + count) % n) x) start (count + 1) =
      ringList n cells start count ++ [x] := by
  have hlast : ringList n (Function.update cells ((start + count) % n) x) start count =
      ringList n cells start count := by
    apply ringList_congr
    intro i hi
    exact Function.update_of_ne (cell_ne hi (by omega)).symm _ _
  calc ringList n (Function.update cells ((start + count) % n) x) start (count + 1)
      = ringList n (Function.update cells ((start + count) % n) x) start count ++
          [Function.update cells ((start + count) % n) x ((start + count) % n)] := by
        simp [ringList, List.range_succ]
    _ = ringList n cells start count ++ [x] := by rw [hlast, Function.update_self]

/-- The first item and the others. -/
theorem ringList_succ : ringList n cells start (count + 1) =
    cells (start % n) :: ringList n cells ((start + 1) % n) count := by
  have hshift : ∀ i, (start + (i + 1)) % n = ((start + 1) % n + i) % n := by
    intro i
    rw [Nat.mod_add_mod]
    congr 1
    omega
  unfold ringList
  rw [List.range_succ_eq_map, List.map_cons, List.map_map, Nat.add_zero]
  congr 1
  apply List.map_congr_left
  intro i _
  exact congrArg cells (hshift i)

/-- Clearing the cell of the first item leaves the others. -/
theorem ringList_clear (hcount : count < n) (x : α) :
    ringList n (Function.update cells (start % n) x) ((start + 1) % n) count =
      ringList n cells ((start + 1) % n) count := by
  apply ringList_congr
  intro i hi
  rw [Nat.mod_add_mod, show start + 1 + i = start + (i + 1) by omega]
  refine Function.update_of_ne ?_ _ _
  exact cell_ne (i := 0) (by omega) (by omega)

end Ring
