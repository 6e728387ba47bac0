import Mathlib

set_option autoImplicit false

/-! # Chains in a table of successors

A table `next` gives every cell a successor, and a predicate `stop` marks the successors that
end a walk. `Chain next stop a l` says that the walk from `a` ends and that `l` lists the cells
it visits. Since the successor is a function, a walk that ends visits no cell twice
(`Chain.nodup`), and a chain is determined by its first cell (`Chain.unique`).

A change of the table is dealt with by two rules: `Chain.congr` when it leaves the cells of the
chain alone, and `Chain.splice_tail` when it changes the chain from one of its cells on.
-/

namespace Linked

variable {α : Type} {next next' : α → α} {stop : α → Prop} {a b c : α} {l l' p q r : List α}

/-- The walk from `a` along `next` visits the cells `l` and then meets a stop. -/
inductive Chain (next : α → α) (stop : α → Prop) : α → List α → Prop
  | last {a : α} (h : stop (next a)) : Chain next stop a [a]
  | step {a : α} {l : List α} (h : ¬ stop (next a)) (t : Chain next stop (next a) l) :
      Chain next stop a (a :: l)

namespace Chain

theorem eq_cons (h : Chain next stop a l) : ∃ t, l = a :: t := by
  cases h with
  | last h => exact ⟨[], rfl⟩
  | step h t => exact ⟨_, rfl⟩

theorem mem_self (h : Chain next stop a l) : a ∈ l := by
  obtain ⟨t, rfl⟩ := h.eq_cons
  exact List.mem_cons_self

/-- A chain with more than one cell goes on behind the first one. -/
theorem of_cons (h : Chain next stop a (c :: l)) (hl : l ≠ []) :
    c = a ∧ ¬ stop (next a) ∧ Chain next stop (next a) l := by
  generalize hm : c :: l = m at h
  cases h with
  | last hs => exact absurd (List.cons.inj hm).2 hl
  | step hn t =>
      cases hm
      exact ⟨rfl, hn, t⟩

/-- The cells of a chain are determined by the first one. -/
theorem unique (h : Chain next stop a l) (h' : Chain next stop a l') : l = l' := by
  induction h generalizing l' with
  | last hs =>
      cases h' with
      | last _ => rfl
      | step hn _ => exact absurd hs hn
  | step hn _ ih =>
      cases h' with
      | last hs => exact absurd hs hn
      | step _ t' => rw [ih t']

/-- From any cell on, a chain is the chain of that cell. -/
theorem suffix (h : Chain next stop a (p ++ b :: q)) : Chain next stop b (b :: q) := by
  induction p generalizing a with
  | nil =>
      obtain ⟨t, ht⟩ := h.eq_cons
      rw [List.nil_append] at ht h
      have hb : b = a := (List.cons.inj ht).1
      subst hb
      exact h
  | cons x p ih => exact ih (h.of_cons (by simp)).2.2

theorem nodup (h : Chain next stop a l) : l.Nodup := by
  induction h with
  | last _ => exact List.nodup_singleton _
  | @step a l hn t ih =>
      refine List.nodup_cons.mpr ⟨?_, ih⟩
      intro ha
      -- a second visit of `a` would give `a` two chains of different lengths
      obtain ⟨p, q, rfl⟩ := List.append_of_mem ha
      have h1 : Chain next stop a (a :: q) := t.suffix
      have h2 := (Chain.step hn t).unique h1
      have := congrArg List.length h2
      simp at this
      omega

theorem next_eq (h : Chain next stop a (p ++ b :: c :: q)) : next b = c := by
  cases h.suffix with
  | step hn t =>
      obtain ⟨u, hu⟩ := t.eq_cons
      exact ((List.cons.inj hu).1).symm

theorem not_stop (h : Chain next stop a (p ++ b :: c :: q)) : ¬ stop c := by
  have hc := h.next_eq
  cases h.suffix with
  | step hn t => rw [← hc]; exact hn

theorem stop_last (h : Chain next stop a (p ++ [b])) : stop (next b) := by
  cases h.suffix with
  | last hs => exact hs
  | step hn t => cases t

/-- A cell of a chain ends it or is followed by another cell of it. -/
theorem stop_or_mem (h : Chain next stop a l) (hb : b ∈ l) : stop (next b) ∨ next b ∈ l := by
  obtain ⟨p, q, rfl⟩ := List.append_of_mem hb
  cases q with
  | nil => exact Or.inl h.stop_last
  | cons c q =>
      right
      rw [h.next_eq]
      simp

/-- A table that agrees on the cells of a chain has the same chain. -/
theorem congr (h : Chain next stop a l) (hn : ∀ b ∈ l, next' b = next b) :
    Chain next' stop a l := by
  induction h with
  | last hs => exact Chain.last (by rw [hn _ List.mem_cons_self]; exact hs)
  | @step a l hs t ih =>
      have ha : next' a = next a := hn a List.mem_cons_self
      refine Chain.step (by rw [ha]; exact hs) ?_
      rw [ha]
      exact ih (fun b hb => hn b (List.mem_cons_of_mem _ hb))

/-- A table that agrees before the cell `b` and has another chain from `b` on. -/
theorem splice_tail (h : Chain next stop a (p ++ b :: q)) (hn : ∀ x ∈ p, next' x = next x)
    (hr : Chain next' stop b r) : Chain next' stop a (p ++ r) := by
  induction p generalizing a with
  | nil =>
      obtain ⟨t, ht⟩ := h.eq_cons
      have hb : b = a := (List.cons.inj ht).1
      subst hb
      exact hr
  | cons x p ih =>
      obtain ⟨rfl, hs, t⟩ := h.of_cons (by simp)
      have hx : next' x = next x := hn x List.mem_cons_self
      refine Chain.step (by rw [hx]; exact hs) ?_
      rw [hx]
      exact ih t (fun y hy => hn y (List.mem_cons_of_mem _ hy))

/-- Linking a fresh cell behind the last one. -/
theorem snoc (h : Chain next stop a (p ++ [b])) (hn : ∀ x ∈ p, next' x = next x)
    (hb : next' b = c) (hc : ¬ stop c) (hs : stop (next' c)) :
    Chain next' stop a (p ++ [b, c]) := by
  refine h.splice_tail hn (Chain.step (by rw [hb]; exact hc) ?_)
  rw [hb]
  exact Chain.last hs

/-- Cutting a chain behind one of its cells. -/
theorem truncate (h : Chain next stop a (p ++ b :: q)) (hn : ∀ x ∈ p, next' x = next x)
    (hs : stop (next' b)) : Chain next' stop a (p ++ [b]) :=
  h.splice_tail hn (Chain.last hs)

section Decidable

variable [DecidableEq α] [DecidablePred stop]

/-- Walk along the list and compare. -/
def check (next : α → α) (stop : α → Prop) [DecidablePred stop] : α → List α → Bool
  | _, [] => false
  | a, b :: l =>
      if a ≠ b then false
      else if stop (next a) then l.isEmpty
      else check next stop (next a) l

theorem check_iff (a : α) (l : List α) : check next stop a l = true ↔ Chain next stop a l := by
  induction l generalizing a with
  | nil =>
      constructor
      · intro h
        cases h
      · intro h
        cases h
  | cons b l ih =>
      unfold check
      by_cases hab : a = b
      · subst hab
        rw [if_neg (not_not.mpr rfl)]
        by_cases hs : stop (next a)
        · rw [if_pos hs, List.isEmpty_iff]
          constructor
          · rintro rfl
            exact last hs
          · intro h
            cases h with
            | last _ => rfl
            | step hn _ => exact absurd hs hn
        · rw [if_neg hs, ih]
          constructor
          · exact step hs
          · intro h
            cases h with
            | last h => exact absurd h hs
            | step _ t => exact t
      · rw [if_pos hab]
        constructor
        · intro h
          cases h
        · intro h
          obtain ⟨t, ht⟩ := h.eq_cons
          exact absurd (List.cons.inj ht).1.symm hab

instance (a : α) (l : List α) : Decidable (Chain next stop a l) :=
  decidable_of_iff _ (check_iff a l)

end Decidable

end Chain

/-! ## Closed sets -/

/-- The successors of the cells in `S` lie in `S` or stop the walk. -/
def ChainClosed (next : α → α) (stop : α → Prop) (S : Set α) : Prop :=
  ∀ a ∈ S, next a ∈ S ∨ stop (next a)

namespace ChainClosed

variable {S T : Set α}

/-- A chain that starts in a closed set stays in it. -/
theorem chain_mem (hS : ChainClosed next stop S) (h : Chain next stop a l) (ha : a ∈ S) :
    ∀ b ∈ l, b ∈ S := by
  induction h with
  | last hs =>
      intro b hb
      rw [List.mem_singleton.mp hb]
      exact ha
  | @step a l hs t ih =>
      intro b hb
      rcases List.mem_cons.mp hb with rfl | hb
      · exact ha
      · exact ih ((hS a ha).resolve_right hs) b hb

/-- A table that agrees on the cells of the set. -/
theorem congr (hS : ChainClosed next stop S) (hn : ∀ a ∈ S, next' a = next a) :
    ChainClosed next' stop S := by
  intro a ha
  rw [hn a ha]
  exact hS a ha

/-- One more cell, with whatever successor in the larger set. -/
theorem insert (hS : ChainClosed next stop S) (hb : next b ∈ insert b S ∨ stop (next b)) :
    ChainClosed next stop (insert b S) := by
  intro a ha
  rcases Set.mem_insert_iff.mp ha with rfl | ha
  · exact hb
  · exact (hS a ha).imp_left (Set.mem_insert_of_mem b)

/-- A cell of the set gets another successor in the set. -/
theorem relink (hS : ChainClosed next stop S) (hn : ∀ a ∈ S, a ≠ b → next' a = next a)
    (hb : b ∈ S → next' b ∈ S ∨ stop (next' b)) : ChainClosed next' stop S := by
  intro a ha
  by_cases hab : a = b
  · subst hab
    exact hb ha
  · rw [hn a ha hab]
    exact hS a ha

end ChainClosed

/-! ## Walks without an end -/

/-- The first `k + 1` cells of the walk from `a`, whether it ends or not. -/
def trail (next : α → α) : α → Nat → List α
  | a, 0 => [a]
  | a, k + 1 => a :: trail next (next a) k

/-- The walk from `a` comes back to a cell and never meets a stop. -/
def Cyclic (next : α → α) (stop : α → Prop) (a : α) : Prop :=
  ∃ i j, i < j ∧ next^[i] a = next^[j] a ∧ ∀ k, k < j → ¬ stop (next^[k + 1] a)

/-- A walk ends when it meets a stop after some number of steps. -/
theorem exists_chain_iff : (∃ l, Chain next stop a l) ↔ ∃ k, stop (next^[k + 1] a) := by
  constructor
  · rintro ⟨l, h⟩
    induction h with
    | last hs => exact ⟨0, hs⟩
    | step _ _ ih =>
        obtain ⟨k, hk⟩ := ih
        exact ⟨k + 1, hk⟩
  · rintro ⟨k, hk⟩
    induction k generalizing a with
    | zero => exact ⟨[a], Chain.last hk⟩
    | succ k ih =>
        by_cases hs : stop (next a)
        · exact ⟨[a], Chain.last hs⟩
        · obtain ⟨l, hl⟩ := ih hk
          exact ⟨a :: l, Chain.step hs hl⟩

/-- A walk that comes back to a cell goes round the same cells forever. -/
theorem iterate_mem_prefix {i j : Nat} (hij : i < j) (h : next^[i] a = next^[j] a) (k : Nat) :
    ∃ m, m < j ∧ next^[k] a = next^[m] a := by
  induction k using Nat.strong_induction_on with
  | _ k ih =>
      by_cases hk : k < j
      · exact ⟨k, hk, rfl⟩
      · obtain ⟨m, hm, heq⟩ := ih (k - j + i) (by omega)
        refine ⟨m, hm, ?_⟩
        calc next^[k] a = next^[k - j] (next^[j] a) := by
              rw [← Function.iterate_add_apply, Nat.sub_add_cancel (by omega)]
          _ = next^[k - j + i] a := by rw [← h, ← Function.iterate_add_apply]
          _ = next^[m] a := heq

/-- In a table with finitely many values a walk that does not end is cyclic. -/
theorem not_exists_chain_iff (hfin : (Set.range next).Finite) :
    (¬ ∃ l, Chain next stop a l) ↔ Cyclic next stop a := by
  rw [exists_chain_iff]
  constructor
  · intro h
    have hmaps : ∀ k : Nat, next^[k + 1] a ∈ Set.range next := by
      intro k
      rw [Function.iterate_succ_apply']
      exact Set.mem_range_self _
    -- two of the infinitely many steps lead to the same one of finitely many cells
    obtain ⟨i, -, j, -, hne, heq⟩ := Set.infinite_univ.exists_ne_map_eq_of_mapsTo
      (f := fun k : Nat => next^[k + 1] a) (t := Set.range next) (fun k _ => hmaps k) hfin
    rcases Nat.lt_or_gt_of_ne hne with hij | hji
    · exact ⟨i + 1, j + 1, by omega, heq, fun k _ hs => h ⟨k, hs⟩⟩
    · exact ⟨j + 1, i + 1, by omega, heq.symm, fun k _ hs => h ⟨k, hs⟩⟩
  · rintro ⟨i, j, hij, heq, hstop⟩ ⟨k, hk⟩
    obtain ⟨m, hm, hkm⟩ := iterate_mem_prefix hij heq k
    apply hstop m hm
    rw [Function.iterate_succ_apply'] at hk ⊢
    rw [← hkm]
    exact hk

end Linked
