import Mathlib

set_option autoImplicit false

/-! # Merging of runs

Labelled intervals that come one after the other are put on a table, and one that goes on where the last of
the table ends, under the same label, makes that one longer. The table is a list with the last run first.

A table covers what was put on it, and no two neighbours in it could be merged. When the intervals come in
ascending order the table is in ascending order.
-/

namespace Runs

/-- An interval, from `start` on and before `stop`. -/
@[ext]
structure Run (τ α : Type) [LE α] where
  label : τ
  start : α
  stop : α
  le : start ≤ stop

variable {τ α : Type} [LinearOrder α] {r x : Run τ α} {rs : List (Run τ α)} {a : α} {t : τ}

namespace Run

def Covers (r : Run τ α) (a : α) : Prop := r.start ≤ a ∧ a < r.stop

/-- The run `r` goes on where `x` ends. -/
def Joins (x r : Run τ α) : Prop := x.label = r.label ∧ x.stop = r.start

instance [DecidableEq τ] (x r : Run τ α) : Decidable (x.Joins r) := inferInstanceAs (Decidable (_ ∧ _))

def join (x r : Run τ α) (h : x.Joins r) : Run τ α where
  label := r.label
  start := x.start
  stop := r.stop
  le := x.le.trans (h.2.trans_le r.le)

theorem covers_join (h : x.Joins r) : (x.join r h).Covers a ↔ x.Covers a ∨ r.Covers a := by
  have hx := x.le
  have hr := r.le
  have hjoin := h.2
  simp only [Covers, join]
  constructor
  · rintro ⟨hstart, hstop⟩
    rcases lt_or_ge a x.stop with hlt | hge
    · exact .inl ⟨hstart, hlt⟩
    · exact .inr ⟨hjoin ▸ hge, hstop⟩
  · rintro (⟨hstart, hstop⟩ | ⟨hstart, hstop⟩)
    · exact ⟨hstart, hstop.trans_le (hjoin.trans_le hr)⟩
    · exact ⟨(hx.trans_eq hjoin).trans hstart, hstop⟩

end Run

/-! ## One run -/

/-- Part of a table under a label. -/
def CoversAs (t : τ) (rs : List (Run τ α)) (a : α) : Prop := ∃ x ∈ rs, x.label = t ∧ x.Covers a

@[simp] theorem coversAs_nil : ¬ CoversAs t ([] : List (Run τ α)) a := by
  simp [CoversAs]

@[simp] theorem coversAs_cons :
    CoversAs t (x :: rs) a ↔ (x.label = t ∧ x.Covers a) ∨ CoversAs t rs a := by
  simp [CoversAs]

@[simp] theorem coversAs_append {rs' : List (Run τ α)} :
    CoversAs t (rs ++ rs') a ↔ CoversAs t rs a ∨ CoversAs t rs' a := by
  simp only [CoversAs, List.mem_append, or_and_right, exists_or]

variable [DecidableEq τ]

/-- Put a run on a table. -/
def push (r : Run τ α) : List (Run τ α) → List (Run τ α)
  | [] => [r]
  | x :: rs => if h : x.Joins r then x.join r h :: rs else r :: x :: rs

theorem coversAs_push :
    CoversAs t (push r rs) a ↔ CoversAs t rs a ∨ (r.label = t ∧ r.Covers a) := by
  cases rs with
  | nil => simp [push]
  | cons x rs =>
      rw [push]
      split
      next h =>
        rw [coversAs_cons, coversAs_cons, Run.covers_join, h.1]
        simp only [Run.join]
        tauto
      next => simp only [coversAs_cons]; tauto

/-- No two neighbours could be merged. -/
abbrev Merged (rs : List (Run τ α)) : Prop := rs.IsChain fun r x => ¬ x.Joins r

/-- In ascending order, and disjoint. -/
abbrev Ascending (rs : List (Run τ α)) : Prop := rs.Pairwise fun r x => x.stop ≤ r.start

theorem Merged.push (h : Merged rs) : Merged (push r rs) := by
  cases rs with
  | nil => exact .singleton r
  | cons x rs =>
      rw [Runs.push]
      split
      next hjoin =>
        -- the run that is longer begins where it began
        cases rs with
        | nil => exact .singleton _
        | cons y rs =>
            obtain ⟨hxy, hrest⟩ := List.isChain_cons_cons.mp h
            refine List.isChain_cons_cons.mpr ⟨fun hy => hxy ⟨?_, hy.2⟩, hrest⟩
            exact hy.1.trans hjoin.1.symm
      next hjoin => exact List.isChain_cons_cons.mpr ⟨hjoin, h⟩

/-- A run of the table ends where one ended that was put on it. -/
theorem stop_push (hx : x ∈ push r rs) : x ∈ rs ∨ x.stop = r.stop := by
  cases rs with
  | nil =>
      rw [List.mem_singleton.mp hx]
      exact .inr rfl
  | cons y rs =>
      rw [push] at hx
      split at hx
      · rcases List.mem_cons.mp hx with rfl | hx
        · exact .inr rfl
        · exact .inl (.tail _ hx)
      · rcases List.mem_cons.mp hx with rfl | hx
        · exact .inr rfl
        · exact .inl hx

theorem Ascending.push (h : Ascending rs) (hr : ∀ x ∈ rs, x.stop ≤ r.start) :
    Ascending (push r rs) := by
  cases rs with
  | nil => exact List.pairwise_singleton _ r
  | cons x rs =>
      rw [Runs.push]
      split
      · exact List.pairwise_cons.mpr (List.pairwise_cons.mp h)
      · exact List.pairwise_cons.mpr ⟨hr, h⟩

theorem length_push_le : (push r rs).length ≤ rs.length + 1 := by
  cases rs with
  | nil => exact le_rfl
  | cons x rs =>
      rw [push]
      split
      · exact Nat.le_succ _
      · exact le_rfl

/-! ## All runs -/

/-- The table of the runs `rs`, which come in this order. -/
def table (rs : List (Run τ α)) : List (Run τ α) := rs.foldl (fun rs r => push r rs) []

@[simp] theorem table_nil : table ([] : List (Run τ α)) = [] := rfl

theorem table_concat : table (rs ++ [r]) = push r (table rs) := by
  simp [table]

/-- A table covers what was put on it. -/
theorem coversAs_table : CoversAs t (table rs) a ↔ CoversAs t rs a := by
  induction rs using List.reverseRecOn with
  | nil => simp
  | append_singleton rs r ih =>
      rw [table_concat, coversAs_push, ih, coversAs_append, coversAs_cons]
      simp

theorem merged_table (rs : List (Run τ α)) : Merged (table rs) := by
  induction rs using List.reverseRecOn with
  | nil => exact .nil
  | append_singleton rs r ih =>
      rw [table_concat]
      exact ih.push

theorem stop_table (hx : x ∈ table rs) : ∃ r ∈ rs, x.stop = r.stop := by
  induction rs using List.reverseRecOn with
  | nil => cases hx
  | append_singleton rs r ih =>
      rw [table_concat] at hx
      rcases stop_push hx with hx | hstop
      · obtain ⟨r', hr', hstop⟩ := ih hx
        exact ⟨r', List.mem_append_left _ hr', hstop⟩
      · exact ⟨r, by simp, hstop⟩

/-- The runs come in ascending order. -/
theorem ascending_table (h : rs.Pairwise fun x r => x.stop ≤ r.start) : Ascending (table rs) := by
  induction rs using List.reverseRecOn with
  | nil => exact .nil
  | append_singleton rs r ih =>
      obtain ⟨hrs, -, hr⟩ := List.pairwise_append.mp h
      rw [table_concat]
      refine (ih hrs).push fun x hx => ?_
      obtain ⟨r', hr', hstop⟩ := stop_table hx
      calc x.stop = r'.stop := hstop
        _ ≤ r.start := hr r' hr' r (by simp)

theorem length_table_le (rs : List (Run τ α)) : (table rs).length ≤ rs.length := by
  induction rs using List.reverseRecOn with
  | nil => exact le_rfl
  | append_singleton rs r ih =>
      rw [table_concat, List.length_append, List.length_singleton]
      exact length_push_le.trans (Nat.succ_le_succ ih)

end Runs
