import Mathlib

set_option autoImplicit false

/-! # Positional notation

A text over any alphabet is read as a number digit by digit, the highest digit first. Reading the digits of a
number gives the number back, and the highest of them is not zero.
-/

namespace Positional

variable {α : Type} {base n : Nat} {digit : Nat → α} {value : α → Option Nat}

/-- The number that a text stands for; `none` when a character of it is no digit. -/
def read (base : Nat) (value : α → Option Nat) (s : List α) : Option Nat :=
  s.foldlM (fun n c => (value c).map fun d => n * base + d) 0

/-- Every digit of the base has a character, which `value` takes for this digit. -/
def Alphabet (base : Nat) (digit : Nat → α) (value : α → Option Nat) : Prop :=
  ∀ d < base, value (digit d) = some d

theorem read_concat (s : List α) (c : α) : read base value (s ++ [c]) =
    (read base value s).bind fun n => (value c).map fun d => n * base + d := by
  rw [read, List.foldlM_append]
  cases hs : s.foldlM (fun n c => (value c).map fun d => n * base + d) 0 with
  | none => simp [read, hs]
  | some n => simp [read, hs]

/-- A text with the digits `ds` from its end on stands for their number. -/
theorem read_reverse (hval : Alphabet base digit value) {ds : List Nat} (hds : ∀ d ∈ ds, d < base) :
    read base value (ds.map digit).reverse = some (Nat.ofDigits base ds) := by
  induction ds with
  | nil => rfl
  | cons d ds ih =>
      have hd : value (digit d) = some d := hval d (hds d List.mem_cons_self)
      have hrest := ih fun d' hd' => hds d' (List.mem_cons_of_mem d hd')
      rw [List.map_cons, List.reverse_cons, read_concat, hrest, hd, Nat.ofDigits_cons]
      simp only [Option.bind_some, Option.map_some, Option.some.injEq]
      ring

theorem read_digits (hb : 1 < base) (hval : Alphabet base digit value) (n : Nat) :
    read base value ((base.digits n).map digit).reverse = some n := by
  rw [read_reverse hval fun d hd => Nat.digits_lt_base hb hd, Nat.ofDigits_digits]

/-- The highest digit of a number other than 0 is not 0. -/
theorem head_digits (hb : 1 < base) (hval : Alphabet base digit value) (hn : n ≠ 0) :
    ((base.digits n).map digit).reverse.head? ≠ some (digit 0) := by
  have hne : base.digits n ≠ [] := Nat.digits_ne_nil_iff_ne_zero.mpr hn
  rw [List.head?_reverse, List.getLast?_map, List.getLast?_eq_some_getLast hne, Option.map_some]
  intro h
  have hlt := Nat.digits_lt_base hb (List.getLast_mem hne)
  have hval0 := congrArg value (Option.some.inj h)
  rw [hval _ hlt, hval 0 (by omega)] at hval0
  exact Nat.getLast_digit_ne_zero base hn (Option.some.inj hval0)

/-- A character that is no digit does not occur among digits. -/
theorem notMem_digits (hb : 1 < base) (hval : Alphabet base digit value) {c : α} (hc : value c = none) :
    c ∉ ((base.digits n).map digit).reverse := by
  intro hmem
  rw [List.mem_reverse, List.mem_map] at hmem
  obtain ⟨d, hd, rfl⟩ := hmem
  rw [hval d (Nat.digits_lt_base hb hd)] at hc
  cases hc

end Positional
