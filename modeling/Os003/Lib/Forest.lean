import Mathlib.Data.Option.Basic
import Mathlib.Data.List.Infix

set_option autoImplicit false

/-! # Trees in a heap

Nodes with slots, and trees of them below a family of roots. What a slot holds may depend on the depth at
which its node is met (`Edges`), so that the same words can be inner nodes and leaves.

Paths are apart when no two of them lead to the same node. As long as they are, setting one slot changes one
path and what is below it, and nothing else (`follow_set`).
-/

namespace Forest

variable {κ ι α : Type}

/-- The child of a node at a depth in a slot. -/
abbrev Edges (ι α : Type) := Nat → α → ι → Option α

/-- The node at the end of a path from a node at depth `l`. -/
def follow (next : Edges ι α) : Nat → α → List ι → Option α
  | _, t, [] => some t
  | l, t, i :: π => (next l t i).bind fun c => follow next (l + 1) c π

variable {next next' : Edges ι α} {root : κ → α} {A B A' B' : κ → List ι → Prop}
  {l : Nat} {t c p : α} {i : ι} {k k' : κ} {π π' ρ σ : List ι} {F : α → Prop}

@[simp] theorem follow_nil : follow next l t [] = some t := rfl

theorem follow_cons :
    follow next l t (i :: π) = (next l t i).bind fun c => follow next (l + 1) c π := rfl

theorem follow_append :
    follow next l t (π ++ ρ) = (follow next l t π).bind fun c => follow next (l + π.length) c ρ := by
  induction π generalizing l t with
  | nil => simp
  | cons i π ih =>
      simp only [List.cons_append, follow_cons, Option.bind_assoc, ih, List.length_cons]
      congr 1
      funext c
      congr 1
      funext d
      congr 1
      omega

theorem follow_concat (h : follow next l t π = some c) :
    follow next l t (π ++ [i]) = next (l + π.length) c i := by
  rw [follow_append, h]
  simp [follow_cons]

/-- A path exists as far as a longer one does. -/
theorem follow_prefix (h : follow next l t (π ++ ρ) = some c) :
    ∃ d, follow next l t π = some d ∧ follow next (l + π.length) d ρ = some c := by
  rw [follow_append] at h
  exact Option.bind_eq_some_iff.mp h

/-- Only the slots a path goes through matter for it. -/
theorem follow_congr (h : ∀ σ j ρ x, π = σ ++ j :: ρ → follow next l t σ = some x →
    next' (l + σ.length) x j = next (l + σ.length) x j) :
    follow next' l t π = follow next l t π := by
  induction π generalizing l t with
  | nil => rfl
  | cons i π ih =>
      have hi : next' l t i = next l t i := h [] i π t rfl rfl
      rw [follow_cons, follow_cons, hi]
      cases hc : next l t i with
      | none => rfl
      | some c =>
          show follow next' (l + 1) c π = follow next (l + 1) c π
          refine ih fun σ j ρ x hπ hx => ?_
          have := h (i :: σ) j ρ x (by rw [hπ]; rfl) (by rw [follow_cons, hc]; exact hx)
          rw [List.length_cons] at this
          rwa [show l + 1 + σ.length = l + (σ.length + 1) by omega]

/-- With fewer children there are fewer paths. -/
theorem follow_mono (h : ∀ l t i c, next' l t i = some c → next l t i = some c)
    (hπ : follow next' l t π = some c) : follow next l t π = some c := by
  induction π generalizing l t with
  | nil => exact hπ
  | cons i π ih =>
      rw [follow_cons] at hπ ⊢
      obtain ⟨d, hd, hc⟩ := Option.bind_eq_some_iff.mp hπ
      rw [h l t i d hd]
      exact ih hc

/-- No path of the first kind leads to a node to which another path of the second kind leads. -/
def Apart (next : Edges ι α) (root : κ → α) (A B : κ → List ι → Prop) : Prop :=
  ∀ k π k' π' t, A k π → B k' π' → follow next 0 (root k) π = some t →
    follow next 0 (root k') π' = some t → k = k' ∧ π = π'

/-- No path leads to the node. -/
def Unreached (next : Edges ι α) (root : κ → α) (B : κ → List ι → Prop) (p : α) : Prop :=
  ∀ k π, B k π → follow next 0 (root k) π ≠ some p

/-- With a path also its prefixes. -/
def PrefixClosed (B : κ → List ι → Prop) : Prop := ∀ k π ρ, B k (π ++ ρ) → B k π

/-- The nodes that a path goes through before its end are reached by paths of `B`. -/
def Inner (B : κ → List ι → Prop) (k : κ) (π : List ι) : Prop := ∀ σ j ρ, π = σ ++ j :: ρ → B k σ

theorem PrefixClosed.inner (h : PrefixClosed B) (hB : B k π) : Inner B k π :=
  fun σ j ρ hπ => h k σ (j :: ρ) (hπ ▸ hB)

theorem Apart.mono (h : Apart next root A B)
    (hA : ∀ k π, A' k π → A k π) (hB : ∀ k π, B' k π → B k π) : Apart next root A' B' :=
  fun k π k' π' t ha hb => h k π k' π' t (hA k π ha) (hB k' π' hb)

theorem Unreached.mono (h : Unreached next root B p)
    (hB : ∀ k π, B' k π → B k π) : Unreached next root B' p :=
  fun k π hb => h k π (hB k π hb)

/-- A slot of the node `t` is set; the nodes of `F`, which are not part of the trees, may change too. -/
structure Sets (next next' : Edges ι α) (root : κ → α) (A B : κ → List ι → Prop) (F : α → Prop)
    (k : κ) (σ : List ι) (t : α) (i : ι) : Prop where
  apart : Apart next root A B
  closed : PrefixClosed B
  mine : A k σ
  node : follow next 0 (root k) σ = some t
  outside : ∀ p, F p → Unreached next root B p
  same : ∀ l x j, ¬ F x → (x ≠ t ∨ j ≠ i) → next' l x j = next l x j

/-- The other paths lead where they led before. -/
theorem Sets.follow_of_not_prefix (h : Sets next next' root A B F k σ t i) (hB : Inner B k' π')
    (hπ : ¬ (k' = k ∧ σ ++ [i] <+: π')) :
    follow next' 0 (root k') π' = follow next 0 (root k') π' := by
  refine follow_congr fun τ j ρ x hτ hx => ?_
  have hBτ : B k' τ := hB τ j ρ hτ
  refine h.same _ x j (fun hF => h.outside x hF k' τ hBτ hx) ?_
  by_contra hne
  push Not at hne
  obtain ⟨rfl, rfl⟩ := hne
  obtain ⟨rfl, rfl⟩ := h.apart k σ k' τ x h.mine hBτ h.node hx
  exact hπ ⟨rfl, ρ, by rw [hτ]; simp⟩

/-- The path to the slot and what is below it. -/
theorem Sets.follow_prefix (h : Sets next next' root A B F k σ t i) (hB : B k σ) :
    follow next' 0 (root k) (σ ++ i :: ρ) =
      (next' σ.length t i).bind fun c => follow next' (σ.length + 1) c ρ := by
  have hσ : follow next' 0 (root k) σ = some t := by
    rw [h.follow_of_not_prefix (h.closed.inner hB), h.node]
    rintro ⟨-, ρ, hρ⟩
    have := congrArg List.length hρ
    simp at this
  rw [follow_append, hσ]
  simp [follow_cons]

/-- When nothing is below the slot, before and after, only the path to the slot changes. -/
theorem Sets.follow_set [DecidableEq κ] [DecidableEq ι] (h : Sets next next' root A B F k σ t i)
    (hold : ∀ ρ, ρ ≠ [] → π' = σ ++ i :: ρ → follow next 0 (root k) π' = none)
    (hnew : ∀ ρ, ρ ≠ [] → π' = σ ++ i :: ρ → follow next' 0 (root k) π' = none)
    (hB : Inner B k' π') : follow next' 0 (root k') π' =
      if k' = k ∧ π' = σ ++ [i] then next' σ.length t i else follow next 0 (root k') π' := by
  by_cases hπ : k' = k ∧ σ ++ [i] <+: π'
  · obtain ⟨rfl, ρ, rfl⟩ := hπ
    have hσ : B k' σ := hB σ i ρ (by simp)
    by_cases hρ : ρ = []
    · subst hρ
      rw [if_pos ⟨rfl, by simp⟩, List.append_nil, h.follow_prefix hσ]
      simp
    · rw [if_neg (by simpa using hρ)]
      have heq : σ ++ [i] ++ ρ = σ ++ i :: ρ := by simp
      rw [hold ρ hρ heq, hnew ρ hρ heq]
  · rw [if_neg, h.follow_of_not_prefix hB hπ]
    rintro ⟨rfl, rfl⟩
    exact hπ ⟨rfl, List.prefix_refl _⟩

/-- The paths stay apart when the slot is emptied, or gets a node to which no path leads. -/
theorem Apart.set [DecidableEq κ] [DecidableEq ι] (h : Apart next root A B)
    (hAB : ∀ k π, A k π → B k π)
    (hset : ∀ k' π', B k' π' → follow next' 0 (root k') π' =
      if k' = k ∧ π' = σ ++ [i] then next' σ.length t i else follow next 0 (root k') π')
    (hfresh : ∀ c, next' σ.length t i = some c → Unreached next root B c) :
    Apart next' root A B := by
  intro k₁ π₁ k₂ π₂ x h₁ h₂ hf₁ hf₂
  rw [hset k₁ π₁ (hAB k₁ π₁ h₁)] at hf₁
  rw [hset k₂ π₂ h₂] at hf₂
  split at hf₁ <;> split at hf₂
  · rename_i e₁ e₂
    exact ⟨e₁.1.trans e₂.1.symm, e₁.2.trans e₂.2.symm⟩
  · exact absurd hf₂ (hfresh x hf₁ k₂ π₂ h₂)
  · exact absurd hf₁ (hfresh x hf₂ k₁ π₁ (hAB k₁ π₁ h₁))
  · exact h k₁ π₁ k₂ π₂ x h₁ h₂ hf₁ hf₂

end Forest
