import Mathlib

set_option autoImplicit false

/-! # Computations with fuel

A loop over a structure that may be cyclic takes fuel and gives `none` when the fuel is used up.
`Settles f a` says that `f` gives `a` as soon as the fuel suffices and nothing else with less, so
it settles both that the loop ends and what it gives.
-/

/-- With enough fuel `f` gives `a`, with less it gives `a` or nothing. -/
def Settles {α : Type} (f : Nat → Option α) (a : α) : Prop :=
  ∃ n, ∀ fuel, f fuel = some a ∨ (f fuel = none ∧ fuel < n)

namespace Settles

variable {α β : Type} {f g : Nat → Option α} {a b : α}

theorem const (a : α) : Settles (fun _ => some a) a := ⟨0, fun _ => Or.inl rfl⟩

/-- One turn of a loop, which goes on as `g`. -/
theorem turn (h0 : f 0 = none) (hs : ∀ n, f (n + 1) = g n) (hg : Settles g a) : Settles f a := by
  obtain ⟨n, hn⟩ := hg
  refine ⟨n + 1, ?_⟩
  intro fuel
  cases fuel with
  | zero => exact Or.inr ⟨h0, by omega⟩
  | succ fuel =>
      rcases hn fuel with h | ⟨h, hlt⟩
      · exact Or.inl ((hs fuel).trans h)
      · exact Or.inr ⟨(hs fuel).trans h, by omega⟩

theorem congr (h : ∀ n, f n = g n) (hg : Settles g a) : Settles f a := by
  have hfg : f = g := funext h
  exact hfg ▸ hg

theorem bind {f : Nat → Option α} {g : Nat → α → Option β} {b : β} (hf : Settles f a)
    (hg : Settles (fun n => g n a) b) : Settles (fun n => (f n).bind (g n)) b := by
  obtain ⟨n, hn⟩ := hf
  obtain ⟨m, hm⟩ := hg
  refine ⟨max n m, ?_⟩
  intro fuel
  rcases hn fuel with h | ⟨h, hlt⟩
  · simp only [h, Option.bind_some]
    rcases hm fuel with h' | ⟨h', hlt⟩
    · exact Or.inl h'
    · exact Or.inr ⟨h', by omega⟩
  · refine Or.inr ⟨by simp [h], by omega⟩

theorem map {h : α → β} (hf : Settles f a) : Settles (fun n => (f n).map h) (h a) := by
  obtain ⟨n, hn⟩ := hf
  refine ⟨n, ?_⟩
  intro fuel
  rcases hn fuel with h | ⟨h, hlt⟩
  · exact Or.inl (by simp [h])
  · exact Or.inr ⟨by simp [h], hlt⟩

theorem result (h : Settles f a) {n : Nat} (hf : f n = some b) : b = a := by
  obtain ⟨m, hm⟩ := h
  rcases hm n with h | ⟨h, _⟩
  · exact Option.some.inj (hf.symm.trans h)
  · cases hf.symm.trans h

theorem ends (h : Settles f a) : ∃ n, f n = some a := by
  obtain ⟨n, hn⟩ := h
  rcases hn n with h | ⟨_, hlt⟩
  · exact ⟨n, h⟩
  · omega

end Settles
