import Mathlib

set_option autoImplicit false

/-! # Linked queues

Cells that each carry one pointer `next : α → Option α` form queues: a head pointer from which
the cells are reached one after the other, and a tail pointer to the last of them.
`Seg next p l m` says that the pointer `p` leads along `next` through the cells `l` to the pointer
`m`; `IsQueue next q l` says that the head of `q` leads through `l` to the null pointer and that
the tail of `q` is the last cell of `l`. Such a list visits no cell twice (`IsQueue.nodup`), so
the queue has no cycle.

Three rules cover the operations on queues: `IsQueue.enqueue` links a cell behind the last one,
`IsQueue.dequeue` takes the first one off, `IsQueue.unlink` takes a cell out anywhere.
`IsQueue.congr` is the frame rule: a queue does not see writes to cells that it does not hold.
`IsQueue.transfer` moves a cell from one queue to the end of another one.
-/

namespace Linked

variable {α : Type} {next next' : α → Option α} {a b : α} {l l' p r : List α} {x y m : Option α}

/-- A queue: pointers to its first and its last cell. -/
structure Queue (α : Type) where
  head : Option α
  tail : Option α
  deriving DecidableEq, Repr

/-- The queue without a cell. -/
def Queue.empty : Queue α := ⟨none, none⟩

/-- The pointer `x` leads along `next` through the cells `l` to the pointer `m`. -/
def Seg (next : α → Option α) : Option α → List α → Option α → Prop
  | x, [], m => x = m
  | x, a :: l, m => x = some a ∧ Seg next (next a) l m

/-- The head of `q` leads through the cells `l` to the null pointer; the tail is the last cell. -/
structure IsQueue (next : α → Option α) (q : Queue α) (l : List α) : Prop where
  seg : Seg next q.head l none
  tail : q.tail = l.getLast?

/-- The cell `a` is met on the way along `next` from the pointer `x`. -/
inductive Meets (next : α → Option α) (a : α) : Option α → Prop
  | here : Meets next a (some a)
  | there {b : α} (h : Meets next a (next b)) : Meets next a (some b)

/-! ## Segments -/

@[simp] theorem seg_nil : Seg next x [] m ↔ x = m := Iff.rfl

@[simp] theorem seg_cons : Seg next x (a :: l) m ↔ x = some a ∧ Seg next (next a) l m := Iff.rfl

theorem seg_append : Seg next x (l ++ r) m ↔ ∃ y, Seg next x l y ∧ Seg next y r m := by
  induction l generalizing x with
  | nil => simp
  | cons a l ih => simp only [List.cons_append, seg_cons, ih, and_assoc, exists_and_left]

theorem seg_concat : Seg next x (l ++ [a]) m ↔ Seg next x l (some a) ∧ next a = m := by
  rw [seg_append]
  constructor
  · rintro ⟨y, hl, rfl, hm⟩
    exact ⟨hl, hm⟩
  · rintro ⟨hl, hm⟩
    exact ⟨some a, hl, rfl, hm⟩

theorem Seg.congr (h : Seg next x l m) (hn : ∀ a ∈ l, next' a = next a) : Seg next' x l m := by
  induction l generalizing x with
  | nil => exact h
  | cons a l ih =>
      obtain ⟨hx, ht⟩ := h
      refine ⟨hx, ?_⟩
      rw [hn a List.mem_cons_self]
      exact ih ht fun b hb => hn b (List.mem_cons_of_mem a hb)

/-- The cells up to the null pointer are determined by the first pointer. -/
theorem Seg.unique (h : Seg next x l none) (h' : Seg next x l' none) : l = l' := by
  induction l generalizing x l' with
  | nil =>
      cases l' with
      | nil => rfl
      | cons b l' => cases h.symm.trans h'.1
  | cons a l ih =>
      cases l' with
      | nil => cases h'.symm.trans h.1
      | cons b l' =>
          have hab : a = b := Option.some.inj (h.1.symm.trans h'.1)
          subst hab
          rw [ih h.2 h'.2]

theorem Seg.nodup (h : Seg next x l none) : l.Nodup := by
  induction l generalizing x with
  | nil => exact List.nodup_nil
  | cons a l ih =>
      refine List.nodup_cons.mpr ⟨?_, ih h.2⟩
      intro ha
      -- a second visit of `a` gives two lists of different lengths behind it
      obtain ⟨p, r, rfl⟩ := List.append_of_mem ha
      obtain ⟨y, _, hy⟩ := seg_append.mp h.2
      have hlen := congrArg List.length (h.2.unique hy.2)
      simp at hlen
      omega

theorem Seg.head (h : Seg next x l none) : x = l.head? := by
  cases l with
  | nil => exact h
  | cons a l => exact h.1

theorem Seg.next_eq (h : Seg next x (p ++ a :: r) none) : next a = r.head? := by
  obtain ⟨y, _, hy⟩ := seg_append.mp h
  exact hy.2.head

theorem Seg.meets_iff (h : Seg next x l none) : Meets next a x ↔ a ∈ l := by
  constructor
  · intro hm
    induction hm generalizing l with
    | here =>
        cases l with
        | nil => cases h
        | cons b l =>
            have hb : a = b := Option.some.inj h.1
            exact hb ▸ List.mem_cons_self
    | @there b _ ih =>
        cases l with
        | nil => cases h
        | cons c l =>
            have hb : b = c := Option.some.inj h.1
            subst hb
            exact List.mem_cons_of_mem b (ih h.2)
  · intro ha
    induction l generalizing x with
    | nil => cases ha
    | cons b l ih =>
        rw [h.1]
        rcases List.mem_cons.mp ha with rfl | ha
        · exact Meets.here
        · exact Meets.there (ih h.2 ha)

/-! ## Queues -/

namespace IsQueue

variable {q : Queue α}

theorem nodup (h : IsQueue next q l) : l.Nodup := h.seg.nodup

theorem head (h : IsQueue next q l) : q.head = l.head? := h.seg.head

theorem unique (h : IsQueue next q l) (h' : IsQueue next q l') : l = l' := h.seg.unique h'.seg

theorem meets_iff (h : IsQueue next q l) : Meets next a q.head ↔ a ∈ l := h.seg.meets_iff

theorem empty : IsQueue next Queue.empty [] := ⟨rfl, rfl⟩

/-- Writes to other cells are not seen. -/
theorem congr (h : IsQueue next q l) (hn : ∀ a ∈ l, next' a = next a) : IsQueue next' q l :=
  ⟨h.seg.congr hn, h.tail⟩

theorem next_eq (h : IsQueue next q (p ++ a :: r)) : next a = r.head? := h.seg.next_eq

/-- A queue without a first cell has no last one. -/
theorem tail_none (h : IsQueue next q l) (hq : q.head = none) : q.tail = none := by
  have hl : l = [] := List.head?_eq_none_iff.mp (h.head.symm.trans hq)
  rw [h.tail, hl]
  rfl

end IsQueue

/-! ## Closed sets

A set that contains the head of a queue and is closed under `next` contains every cell of the queue,
whether or not the queue is a proper list. -/

/-- No pointer leads out of the set. -/
def Closed (next : α → Option α) (L : Set α) : Prop := ∀ c ∈ L, ∀ d ∈ next c, d ∈ L

/-- A cell outside a closed set is not met from inside. -/
theorem Closed.not_meets {L : Set α} (h : Closed next L) (ha : a ∉ L) (hx : ∀ c ∈ x, c ∈ L) :
    ¬ Meets next a x := by
  intro hm
  induction hm with
  | here => exact ha (hx a rfl)
  | @there b _ ih => exact ih (h b (hx b rfl))

/-- A cell without a pointer joins the set. -/
theorem Closed.insert {L : Set α} (h : Closed next L) (ha : next a = none) :
    Closed next (insert a L) := by
  rintro c hc d hd
  rcases hc with rfl | hc
  · rw [ha] at hd
    cases hd
  · exact Or.inr (h c hc d hd)

theorem IsQueue.closed {q : Queue α} (h : IsQueue next q l) : ∀ c ∈ l, ∀ d ∈ next c, d ∈ l := by
  intro c hc d hd
  obtain ⟨p, r, rfl⟩ := List.append_of_mem hc
  rw [h.next_eq] at hd
  have hr : d ∈ r := List.mem_of_head? hd
  simp [hr]

section Operations

variable [DecidableEq α] {q : Queue α}

/-- A pointer into the set is written. -/
theorem Closed.update {L : Set α} {v : Option α} (h : Closed next L) (hv : ∀ d ∈ v, d ∈ L) :
    Closed (Function.update next a v) L := by
  intro c hc d hd
  by_cases hca : c = a
  · subst hca
    rw [Function.update_self] at hd
    exact hv d hd
  · rw [Function.update_of_ne hca] at hd
    exact h c hc d hd

/-- The heap after a write of `v` through the pointer `x`; a write through the null pointer has
no cell to go to. -/
def link (next : α → Option α) (x v : Option α) : α → Option α :=
  match x with
  | none => next
  | some c => Function.update next c v

@[simp] theorem link_none (v : Option α) : link next none v = next := rfl

@[simp] theorem link_some (c : α) (v : Option α) :
    link next (some c) v = Function.update next c v := rfl

/-- A write to a cell outside a list leaves the pointers of the list alone. -/
theorem update_frame {v : Option α} (ha : a ∉ l) :
    ∀ b ∈ l, Function.update next a v b = next b := by
  intro b hb
  refine Function.update_of_ne ?_ _ _
  rintro rfl
  exact ha hb

/-- A new cell goes behind the last one. -/
theorem IsQueue.enqueue (h : IsQueue next q l) (ha : a ∉ l) :
    IsQueue (link (Function.update next a none) q.tail (some a)) ⟨q.head.or (some a), some a⟩
      (l ++ [a]) := by
  refine ⟨?_, by simp⟩
  have hseg := h.seg.congr (update_frame (v := none) ha)
  rcases List.eq_nil_or_concat l with rfl | ⟨l, c, rfl⟩
  · have hh : q.head = none := h.seg
    have ht : q.tail = none := h.tail
    simp [hh, ht]
  · rw [List.concat_eq_append] at h ha hseg ⊢
    have ht : q.tail = some c := h.tail.trans (by simp)
    have hca : a ≠ c := fun e => ha (by simp [e])
    have hnd := h.nodup
    obtain ⟨hl, _⟩ := seg_concat.mp hseg
    have hhead : q.head.or (some a) = q.head := by
      rw [h.head]
      cases l <;> rfl
    rw [ht, link_some, hhead]
    have hcl : c ∉ l := fun hc => (List.disjoint_of_nodup_append hnd) hc (by simp)
    refine seg_concat.mpr
      ⟨seg_concat.mpr ⟨hl.congr (update_frame hcl), Function.update_self _ _ _⟩, ?_⟩
    · rw [Function.update_of_ne hca, Function.update_self]

/-- The first cell is taken off; its own pointer is reset. -/
theorem IsQueue.dequeue (h : IsQueue next q (a :: l)) :
    IsQueue (Function.update next a none)
      ⟨next a, if next a = none then none else q.tail⟩ l := by
  have hal : a ∉ l := (List.nodup_cons.mp h.nodup).1
  have hseg : Seg next (next a) l none := h.seg.2
  refine ⟨hseg.congr (update_frame hal), ?_⟩
  · have hn : next a = l.head? := hseg.head
    cases l with
    | nil => simp [hn]
    | cons b l => simp [hn, h.tail, List.getLast?_cons_cons]

/-- A cell is taken out behind the cells `p`: the cell before it is linked to the one after. -/
theorem IsQueue.unlink (h : IsQueue next q (p ++ a :: r)) :
    IsQueue (link next p.getLast? (next a))
      ⟨if p = [] then next a else q.head, if q.tail = some a then p.getLast? else q.tail⟩
      (p ++ r) := by
  have hnd := h.nodup
  have hr : a ∉ r := (List.nodup_cons.mp (List.nodup_append.mp hnd).2.1).1
  obtain ⟨y, hp, hy⟩ := seg_append.mp h.seg
  have htail : (if q.tail = some a then p.getLast? else q.tail) = (p ++ r).getLast? := by
    rw [h.tail]
    rcases List.eq_nil_or_concat r with rfl | ⟨r, c, rfl⟩
    · simp
    · have hc : ¬ c = a := fun e => hr (by simp [e])
      have hlast : (p ++ a :: (r ++ [c])).getLast? = some c := by
        rw [show p ++ a :: (r ++ [c]) = (p ++ a :: r) ++ [c] by simp]
        exact List.getLast?_concat
      rw [List.concat_eq_append, hlast, if_neg (by simpa using hc), ← List.append_assoc]
      exact List.getLast?_concat.symm
  refine ⟨?_, htail⟩
  rcases List.eq_nil_or_concat p with rfl | ⟨p, c, rfl⟩
  · simpa using hy.2
  · rw [List.concat_eq_append] at hp hnd ⊢
    obtain ⟨hp, _⟩ := seg_concat.mp hp
    simp only [List.getLast?_concat, link_some, List.append_eq_nil_iff, List.cons_ne_self,
      and_false, if_false]
    have hcp : c ∉ p := fun hc => (List.disjoint_of_nodup_append
      (List.nodup_append.mp hnd).1) hc (by simp)
    have hcr : c ∉ r := fun hc => (List.disjoint_of_nodup_append hnd) (by simp)
      (List.mem_cons_of_mem a hc)
    exact seg_append.mpr ⟨next a,
      seg_concat.mpr ⟨hp.congr (update_frame hcp), Function.update_self _ _ _⟩,
      hy.2.congr (update_frame hcr)⟩

/-- A write through a pointer to cells outside a list leaves the pointers of the list alone. -/
theorem link_frame {v : Option α} (hx : ∀ c ∈ x, c ∉ l) : ∀ b ∈ l, link next x v b = next b := by
  intro b hb
  cases x with
  | none => rfl
  | some c => exact update_frame (hx c rfl) b hb

/-- A cell is taken out behind the cells `p` of one queue and goes behind the last cell of another
one. -/
theorem IsQueue.transfer {q' : Queue α} (h : IsQueue next q (p ++ a :: r)) (h' : IsQueue next q' l)
    (hd : List.Disjoint (p ++ a :: r) l) :
    IsQueue (link (Function.update (link next p.getLast? (next a)) a none) q'.tail (some a))
        ⟨if p = [] then next a else q.head, if q.tail = some a then p.getLast? else q.tail⟩
        (p ++ r) ∧
      IsQueue (link (Function.update (link next p.getLast? (next a)) a none) q'.tail (some a))
        ⟨q'.head.or (some a), some a⟩ (l ++ [a]) := by
  have ha : a ∉ l := fun ha => hd (by simp) ha
  have hself : a ∉ p ++ r := (List.nodup_middle.mp h.nodup).notMem
  constructor
  · refine h.unlink.congr ?_
    intro b hb
    have hne : b ≠ a := by
      rintro rfl
      exact hself hb
    -- the last cell of the other queue is not one of these
    have htail : ∀ c ∈ q'.tail, c ∉ p ++ r := by
      intro c hc hmem
      have hcl : c ∈ l := List.mem_of_getLast? (h'.tail.symm.trans hc)
      refine hd ?_ hcl
      simp only [List.mem_append, List.mem_cons] at hmem ⊢
      tauto
    rw [link_frame htail b hb, Function.update_of_ne hne]
  · refine (h'.congr (link_frame ?_)).enqueue ha
    intro c hc hcl
    exact hd (List.mem_append_left _ (List.mem_of_getLast? hc)) hcl

end Operations

end Linked
