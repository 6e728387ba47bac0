import Mathlib

set_option autoImplicit false

/-! # Copies inside a memory

A copy that goes forward cell by cell reads what it has written when its target starts inside its
source: the cells between the two starts are repeated over the target (`forward_apply`).
`Copy.origin` names the cell of the old memory that ends up at a target cell, and `run_apply` says
the same of a list of copies none of which meets what an earlier one has written.
-/

namespace Copies

variable {α : Type}

/-- Copy `n` cells from `src` to `dst` forward, the first one at offset `i`. -/
def forward (dst src : Nat) : (n i : Nat) → (Nat → α) → (Nat → α)
  | 0, _, m => m
  | n + 1, i, m => forward dst src n (i + 1) (Function.update m (dst + i) (m (src + i)))

/-- The cell that a forward copy puts at offset `t` of its target. -/
def source (dst src t : Nat) : Nat := if dst ≤ src then src + t else src + t % (dst - src)

theorem source_lt {dst src t n : Nat} (h : t < n) :
    src ≤ source dst src t ∧ source dst src t < src + n := by
  have hmod := Nat.mod_le t (dst - src)
  rw [source]
  split <;> omega

/-- A copy down, or one whose target is behind its source, takes the cells in order. -/
theorem source_eq {dst src t : Nat} (h : dst ≤ src ∨ src + t < dst) : source dst src t = src + t := by
  rw [source]
  by_cases hle : dst ≤ src
  · rw [if_pos hle]
  · rw [if_neg hle, Nat.mod_eq_of_lt (by omega)]

/-- A sequence that is the repetition of its first `k` values has the period `k`, and the other way
round. -/
theorem repeats_iff {β : Type} {f : Nat → β} {k n : Nat} (hk : 0 < k) :
    (∀ i < n, f (i % k) = f i) ↔ ∀ i, k ≤ i → i < n → f i = f (i - k) := by
  constructor
  · intro h i hki hi
    rw [← h i hi, ← h (i - k) (by omega), Nat.mod_eq_sub_mod hki]
  · intro h i
    induction i using Nat.strong_induction_on with
    | _ i ih =>
        intro hi
        by_cases hki : k ≤ i
        · rw [Nat.mod_eq_sub_mod hki, ih (i - k) (by omega) (by omega), ← h i hki hi]
        · rw [Nat.mod_eq_of_lt (not_le.mp hki)]

/-- What the offset before has received is what the source of the offset is by now. -/
theorem source_sub {dst src t : Nat} (hlt : src < dst) (ht : dst - src ≤ t) :
    source dst src (t - (dst - src)) = source dst src t := by
  rw [source, source, if_neg (by omega), if_neg (by omega), Nat.mod_eq_sub_mod ht]

/-- The copy from the offset `i` on, over a memory whose target is already right below `i`. -/
theorem forward_from {dst src : Nat} (old : Nat → α) :
    ∀ (n i : Nat) (m : Nat → α),
      (∀ x, m x = if dst ≤ x ∧ x < dst + i then old (source dst src (x - dst)) else old x) →
      ∀ x, forward dst src n i m x =
        if dst ≤ x ∧ x < dst + (i + n) then old (source dst src (x - dst)) else old x := by
  intro n
  induction n with
  | zero => exact fun i m h x => h x
  | succ n ih =>
      intro i m h x
      rw [forward]
      have hval : m (src + i) = old (source dst src i) := by
        rw [h]
        by_cases hover : dst ≤ src + i ∧ src + i < dst + i
        · -- the source cell has been written by this copy
          have hlt : src < dst := by omega
          have hsub := source_sub (t := i) hlt (by omega)
          rw [if_pos hover, ← hsub]
          congr 2
          omega
        · rw [if_neg hover, source]
          by_cases hle : dst ≤ src
          · rw [if_pos hle]
          · rw [if_neg hle, Nat.mod_eq_of_lt (by omega)]
      rw [ih (i + 1)]
      · rw [show i + 1 + n = i + (n + 1) by omega]
      · intro y
        by_cases hy : y = dst + i
        · subst hy
          rw [Function.update_self, if_pos (by omega), hval, Nat.add_sub_cancel_left]
        · rw [Function.update_of_ne hy, h]
          by_cases hin : dst ≤ y ∧ y < dst + i
          · rw [if_pos hin, if_pos (by omega)]
          · rw [if_neg hin, if_neg (by omega)]

/-- A forward copy puts at each offset the cell of the old memory that `source` names. -/
theorem forward_apply (dst src n : Nat) (m : Nat → α) (x : Nat) :
    forward dst src n 0 m x =
      if dst ≤ x ∧ x < dst + n then m (source dst src (x - dst)) else m x := by
  have hnone : ∀ x, m x = if dst ≤ x ∧ x < dst + 0 then m (source dst src (x - dst)) else m x :=
    fun x => by rw [if_neg (by omega)]
  have h := forward_from m n 0 m hnone x
  rwa [Nat.zero_add] at h

/-! ## Lists of copies -/

/-- A copy of `len` cells. -/
structure Copy where
  dst : Nat
  src : Nat
  len : Nat
deriving DecidableEq, Repr

namespace Copy

/-- The cell `x` is one the copy writes. -/
def Writes (c : Copy) (x : Nat) : Prop := c.dst ≤ x ∧ x < c.dst + c.len

/-- The cell `x` is one the copy reads. -/
def Reads (c : Copy) (x : Nat) : Prop := c.src ≤ x ∧ x < c.src + c.len

instance (c : Copy) (x : Nat) : Decidable (c.Writes x) := by
  unfold Writes
  infer_instance

/-- The cell of the old memory that ends up in the cell `x` of the target. -/
def origin (c : Copy) (x : Nat) : Nat := source c.dst c.src (x - c.dst)

def run (c : Copy) (m : Nat → α) : Nat → α := forward c.dst c.src c.len 0 m

theorem run_apply (c : Copy) (m : Nat → α) (x : Nat) :
    c.run m x = if c.Writes x then m (c.origin x) else m x :=
  forward_apply c.dst c.src c.len m x

theorem reads_origin {c : Copy} {x : Nat} (h : c.Writes x) : c.Reads (c.origin x) := by
  apply source_lt
  have := h.1
  have := h.2
  omega

end Copy

/-- The copies of the list, one behind the other. -/
def run (cs : List Copy) (m : Nat → α) : Nat → α := cs.foldl (fun m c => c.run m) m

/-- The later copy neither reads nor writes what the earlier one has written. -/
def Apart (c later : Copy) : Prop := ∀ x, c.Writes x → ¬ later.Reads x ∧ ¬ later.Writes x

/-- A cell no copy writes keeps its value. -/
theorem run_of_not_writes {cs : List Copy} {x : Nat} (m : Nat → α) (h : ∀ c ∈ cs, ¬ c.Writes x) :
    run cs m x = m x := by
  induction cs generalizing m with
  | nil => rfl
  | cons c cs ih =>
      show run cs (c.run m) x = m x
      rw [ih _ fun d hd => h d (List.mem_cons_of_mem c hd), Copy.run_apply,
        if_neg (h c List.mem_cons_self)]

/-- A cell a copy writes receives the cell of the old memory that the copy alone would give it. -/
theorem run_of_writes {cs : List Copy} {c : Copy} {x : Nat} (m : Nat → α) (hap : cs.Pairwise Apart)
    (hc : c ∈ cs) (hx : c.Writes x) : run cs m x = m (c.origin x) := by
  induction cs generalizing m with
  | nil => simp at hc
  | cons d cs ih =>
      obtain ⟨hhead, htail⟩ := List.pairwise_cons.mp hap
      show run cs (d.run m) x = m (c.origin x)
      rcases List.mem_cons.mp hc with rfl | hc'
      · -- the copies behind it leave what it has written
        rw [run_of_not_writes _ fun e he => (hhead e he x hx).2, Copy.run_apply, if_pos hx]
      · rw [ih _ htail hc', Copy.run_apply, if_neg]
        intro hw
        exact (hhead c hc' _ hw).1 (Copy.reads_origin hx)

end Copies
