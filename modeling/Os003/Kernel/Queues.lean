import Os003.Kernel.Thread
import Os003.Lib.Fuel

set_option autoImplicit false

/-! # The queues of the kernel

`Queues s xs` says that every queue `q` of the kernel is the list `xs q` of TCBs, and that no
TCB is in two of them; `Placed s xs` adds that the threads in state READY are those of the ready
queue and the threads in state BLOCKED those of the other queues. Each queue operation of
`Kernel.Thread` has one lemma that gives the lists behind it.

`Relinked s s'` is what these operations change: the queues, and of the TCBs the `next` pointers
and the states.
-/

namespace Os003

open Linked

namespace Kernel

variable {s s' : Kernel} {xs xs' : QueueId → List Addr} {q : QueueId} {t c : Addr}
  {p r : List Addr}

/-! ## Writes -/

@[simp] theorem next_setTcb (b : Tcb) : (s.setTcb t b).next = Function.update s.next t b.next := by
  funext u
  by_cases h : u = t
  · subst h; simp [setTcb, next]
  · simp [setTcb, next, Function.update_of_ne h]

@[simp] theorem state_setTcb (b : Tcb) :
    (s.setTcb t b).state = Function.update s.state t b.state := by
  funext u
  by_cases h : u = t
  · subst h; simp [setTcb, state]
  · simp [setTcb, state, Function.update_of_ne h]

@[simp] theorem next_setNext (x : Option Addr) :
    (s.setNext t x).next = Function.update s.next t x := next_setTcb _

@[simp] theorem state_setNext (x : Option Addr) : (s.setNext t x).state = s.state :=
  (state_setTcb _).trans (Function.update_eq_self t s.state)

@[simp] theorem next_setState (x : ThreadState) : (s.setState t x).next = s.next :=
  (next_setTcb _).trans (Function.update_eq_self t s.next)

@[simp] theorem state_setState (x : ThreadState) :
    (s.setState t x).state = Function.update s.state t x := state_setTcb _

@[simp] theorem next_linkNext (x v : Option Addr) : (s.linkNext x v).next = link s.next x v := by
  cases x with
  | none => rfl
  | some c => exact next_setNext v

@[simp] theorem state_linkNext (x v : Option Addr) : (s.linkNext x v).state = s.state := by
  cases x with
  | none => rfl
  | some c => exact state_setNext v

@[simp] theorem queue_linkNext (x v : Option Addr) : (s.linkNext x v).queue = s.queue := by
  cases x <;> rfl

@[simp] theorem next_setQueue (v : Queue Addr) : (s.setQueue q v).next = s.next := rfl

@[simp] theorem state_setQueue (v : Queue Addr) : (s.setQueue q v).state = s.state := rfl

@[simp] theorem queue_setQueue (v : Queue Addr) :
    (s.setQueue q v).queue = Function.update s.queue q v := rfl

@[simp] theorem next_moveTail (x : Option Addr) : (moveTail q t x s).next = s.next := by
  unfold moveTail
  split <;> rfl

@[simp] theorem state_moveTail (x : Option Addr) : (moveTail q t x s).state = s.state := by
  unfold moveTail
  split <;> rfl

@[simp] theorem queue_moveTail (x : Option Addr) :
    (moveTail q t x s).queue = Function.update s.queue q
      ⟨(s.queue q).head, if (s.queue q).tail = some t then x else (s.queue q).tail⟩ := by
  unfold moveTail
  by_cases h : (s.queue q).tail = some t
  · rw [if_pos h, if_pos h]
    rfl
  · rw [if_neg h, if_neg h]
    exact (Function.update_eq_self q s.queue).symm

@[simp] theorem queue_setNext (x : Option Addr) : (s.setNext t x).queue = s.queue := rfl

@[simp] theorem queue_setState (x : ThreadState) : (s.setState t x).queue = s.queue := rfl

/-- Only the queues, the `next` pointers and the states of the threads differ. -/
structure Relinked (s s' : Kernel) : Prop where
  rest : s' = { s with tcb := s'.tcb, queue := s'.queue }
  tcb : ∀ t, s'.tcb t = { s.tcb t with next := (s'.tcb t).next, state := (s'.tcb t).state }

namespace Relinked

theorem refl (s : Kernel) : Relinked s s := ⟨rfl, fun _ => rfl⟩

theorem trans {u : Kernel} (h : Relinked s s') (h' : Relinked s' u) : Relinked s u := by
  refine ⟨?_, ?_⟩
  · rw [h'.rest, h.rest]
  · intro t
    rw [h'.tcb t, h.tcb t]

theorem setNext (s : Kernel) (t : Addr) (x : Option Addr) : Relinked s (s.setNext t x) := by
  refine ⟨rfl, ?_⟩
  intro u
  by_cases h : u = t
  · subst h; simp [Kernel.setNext, setTcb]
  · simp [Kernel.setNext, setTcb, Function.update_of_ne h]

theorem setState (s : Kernel) (t : Addr) (x : ThreadState) : Relinked s (s.setState t x) := by
  refine ⟨rfl, ?_⟩
  intro u
  by_cases h : u = t
  · subst h; simp [Kernel.setState, setTcb]
  · simp [Kernel.setState, setTcb, Function.update_of_ne h]

theorem setQueue (s : Kernel) (q : QueueId) (v : Queue Addr) : Relinked s (s.setQueue q v) :=
  ⟨rfl, fun _ => rfl⟩

theorem moveTail (q : QueueId) (t : Addr) (x : Option Addr) (s : Kernel) :
    Relinked s (Kernel.moveTail q t x s) := by
  unfold Kernel.moveTail
  split
  · exact setQueue s q _
  · exact refl s

theorem linkNext (s : Kernel) (x v : Option Addr) : Relinked s (s.linkNext x v) := by
  cases x with
  | none => exact refl s
  | some c => exact setNext s c v

theorem enqueue (q : QueueId) (t : Addr) (s : Kernel) : Relinked s (Kernel.enqueue q t s) := by
  unfold Kernel.enqueue
  dsimp only
  split
  · exact (setNext s t none).trans (setQueue _ _ _)
  · exact ((setNext s t none).trans (linkNext _ _ _)).trans (setQueue _ _ _)

theorem dequeue (q : QueueId) (s : Kernel) : Relinked s (Kernel.dequeue q s).2 := by
  unfold Kernel.dequeue
  split
  · exact refl s
  · exact (setQueue s _ _).trans (setNext _ _ _)

theorem threadEnqueue (t : Addr) (s : Kernel) : Relinked s (Kernel.threadEnqueue t s) :=
  (enqueue .ready t s).trans (setState _ _ _)

theorem currentThread (h : Relinked s s') : s'.currentThread = s.currentThread := by rw [h.rest]

theorem tcbs (h : Relinked s s') : s'.tcbs = s.tcbs := by rw [h.rest]

theorem stack (h : Relinked s s') : s'.stack = s.stack := by rw [h.rest]

theorem freeTcbList (h : Relinked s s') : s'.freeTcbList = s.freeTcbList := by rw [h.rest]

theorem numOfFreeTcb (h : Relinked s s') : s'.numOfFreeTcb = s.numOfFreeTcb := by rw [h.rest]

theorem mutex (h : Relinked s s') : s'.mutex = s.mutex := by rw [h.rest]

theorem due (h : Relinked s s') (t : Addr) :
    (s'.tcb t).wakeupTime = (s.tcb t).wakeupTime ∧ s'.timerTicks = s.timerTicks := by
  refine ⟨?_, ?_⟩
  · rw [h.tcb t]
  · rw [h.rest]

end Relinked

@[simp] theorem state_enqueue : (enqueue q t s).state = s.state := by
  unfold enqueue
  dsimp only
  split <;> simp

/-- An empty queue has no last cell, so both branches write through the tail pointer. -/
theorem next_enqueue (h : (s.queue q).head = none → (s.queue q).tail = none) :
    (enqueue q t s).next = link (Function.update s.next t none) (s.queue q).tail (some t) := by
  unfold enqueue
  cases hh : (s.queue q).head with
  | none => simp [hh, h hh]
  | some u => simp [hh]

theorem queue_enqueue (s : Kernel) (q : QueueId) (t : Addr) :
    (enqueue q t s).queue =
      Function.update s.queue q ⟨(s.queue q).head.or (some t), some t⟩ := by
  unfold enqueue
  cases hh : (s.queue q).head with
  | none => simp [hh]
  | some u => simp [hh]

/-! ## The lists behind the queues -/

/-- The queue `q` holds the TCBs `xs q`; no TCB is in two queues. -/
structure Queues (s : Kernel) (xs : QueueId → List Addr) : Prop where
  listed : ∀ q, IsQueue s.next (s.queue q) (xs q)
  apart : ∀ t q q', t ∈ xs q → t ∈ xs q' → q = q'

/-- A list without one of its members. -/
theorem mem_update_erase {u : Addr} (hq : xs q = p ++ t :: r) (hu : u ≠ t) (q' : QueueId) :
    u ∈ Function.update xs q (p ++ r) q' ↔ u ∈ xs q' := by
  by_cases h : q' = q
  · subst h; simp [hq, hu]
  · rw [Function.update_of_ne h]

/-- A list with one more member. -/
theorem mem_update_concat {u : Addr} (hu : u ≠ t) (q' : QueueId) :
    u ∈ Function.update xs q (xs q ++ [t]) q' ↔ u ∈ xs q' := by
  by_cases h : q' = q
  · subst h; simp [hu]
  · rw [Function.update_of_ne h]

namespace Queues

/-- The pointers say what the lists are. -/
theorem unique {ys : QueueId → List Addr} (h : Queues s xs) (h' : Queues s ys) : xs = ys :=
  funext fun q => (h.listed q).unique (h'.listed q)

theorem congr (h : Queues s xs) (hnext : s'.next = s.next) (hqueue : s'.queue = s.queue) :
    Queues s' xs := by
  refine ⟨?_, h.apart⟩
  rw [hnext, hqueue]
  exact h.listed

/-- One queue gets another list; the cells of the others keep their pointers. -/
theorem change (h : Queues s xs) {l : List Addr} (hl : IsQueue s'.next (s'.queue q) l)
    (hnew : ∀ t ∈ l, ∀ q', t ∈ xs q' → q' = q) (hqueue : ∀ q', q' ≠ q → s'.queue q' = s.queue q')
    (hnext : ∀ q', q' ≠ q → ∀ t ∈ xs q', s'.next t = s.next t) :
    Queues s' (Function.update xs q l) := by
  refine ⟨?_, ?_⟩
  · intro q'
    by_cases hq : q' = q
    · subst hq
      rw [Function.update_self]
      exact hl
    · rw [Function.update_of_ne hq, hqueue q' hq]
      exact (h.listed q').congr (hnext q' hq)
  · intro t a b ha hb
    by_cases hqa : a = q <;> by_cases hqb : b = q
    · rw [hqa, hqb]
    · subst hqa
      rw [Function.update_self] at ha
      rw [Function.update_of_ne hqb] at hb
      exact (hnew t ha b hb).symm
    · subst hqb
      rw [Function.update_self] at hb
      rw [Function.update_of_ne hqa] at ha
      exact hnew t hb a ha
    · rw [Function.update_of_ne hqa] at ha
      rw [Function.update_of_ne hqb] at hb
      exact h.apart t a b ha hb

/-- A TCB of one queue is in no other one. -/
theorem not_mem_of_ne (h : Queues s xs) {q' : QueueId} (ht : t ∈ xs q) (hne : q' ≠ q) :
    t ∉ xs q' := fun ht' => hne (h.apart t q' q ht' ht)

theorem enqueue (h : Queues s xs) (ht : ∀ q', t ∉ xs q') :
    Queues (Kernel.enqueue q t s) (Function.update xs q (xs q ++ [t])) := by
  have hl := h.listed q
  have hnext := next_enqueue (t := t) hl.tail_none
  have hqueue := queue_enqueue s q t
  refine h.change ?_ ?_ ?_ ?_
  · rw [hnext, hqueue, Function.update_self]
    exact hl.enqueue (ht q)
  · intro u hu q' hq'
    rcases List.mem_append.mp hu with hu | hu
    · exact h.apart u q' q hq' hu
    · cases List.mem_singleton.mp hu
      exact absurd hq' (ht q')
  · intro q' hne
    rw [hqueue, Function.update_of_ne hne]
  · intro q' hne u hu
    have hut : u ≠ t := fun e => ht q' (e ▸ hu)
    rw [hnext]
    cases htail : (s.queue q).tail with
    | none => rw [link_none, Function.update_of_ne hut]
    | some c =>
        have hc : c ∈ xs q := List.mem_of_getLast? (hl.tail.symm.trans htail)
        have huc : u ≠ c := fun e => h.not_mem_of_ne hc hne (e ▸ hu)
        rw [link_some, Function.update_of_ne huc, Function.update_of_ne hut]

theorem threadEnqueue (h : Queues s xs) (ht : ∀ q', t ∉ xs q') :
    Queues (Kernel.threadEnqueue t s) (Function.update xs .ready (xs .ready ++ [t])) :=
  (h.enqueue ht).congr (next_setState _) (queue_setState _)

/-- A TCB is taken out: the pointer to it now leads to the cell behind it. -/
theorem unlink (h : Queues s xs) (hq : xs q = p ++ t :: r)
    (hnext : ∀ u, u ≠ t → s'.next u = link s.next p.getLast? (s.next t) u)
    (hself : s'.queue q = ⟨if p = [] then s.next t else (s.queue q).head,
      if (s.queue q).tail = some t then p.getLast? else (s.queue q).tail⟩)
    (hqueue : ∀ q', q' ≠ q → s'.queue q' = s.queue q') :
    Queues s' (Function.update xs q (p ++ r)) := by
  have hl := h.listed q
  rw [hq] at hl
  have htpr : t ∉ p ++ r := by
    have := hl.nodup
    rw [List.nodup_middle] at this
    exact (List.nodup_cons.mp this).1
  have hmem : ∀ u ∈ p ++ r, u ∈ xs q := by
    intro u hu
    rw [hq]
    simp only [List.mem_append, List.mem_cons] at hu ⊢
    tauto
  refine h.change ?_ ?_ hqueue ?_
  · rw [hself]
    refine hl.unlink.congr ?_
    intro u hu
    exact hnext u fun e => htpr (e ▸ hu)
  · intro u hu q' hq'
    exact h.apart u q' q hq' (hmem u hu)
  · intro q' hne u hu
    have ht : t ∈ xs q := by simp [hq]
    rw [hnext u fun e => h.not_mem_of_ne ht hne (e ▸ hu)]
    cases hlast : p.getLast? with
    | none => rfl
    | some c =>
        have hc : c ∈ xs q := hmem c (List.mem_append_left r (List.mem_of_getLast? hlast))
        rw [link_some, Function.update_of_ne]
        exact fun e => h.not_mem_of_ne hc hne (e ▸ hu)

/-- A TCB that has been taken out is in no queue. -/
theorem not_mem_erase (h : Queues s xs) (hq : xs q = p ++ t :: r) (q' : QueueId) :
    t ∉ Function.update xs q (p ++ r) q' := by
  have ht : t ∈ xs q := by simp [hq]
  by_cases hne : q' = q
  · subst hne
    have hnd := (h.listed q').nodup
    rw [hq, List.nodup_middle] at hnd
    rw [Function.update_self]
    exact (List.nodup_cons.mp hnd).1
  · rw [Function.update_of_ne hne]
    exact h.not_mem_of_ne ht hne

/-- The first cell of a queue is the last one when no cell follows. -/
theorem tail_of_first (h : Queues s xs) (hq : xs q = t :: r) :
    (if s.next t = none then none else (s.queue q).tail) =
      if (s.queue q).tail = some t then none else (s.queue q).tail := by
  have hl := h.listed q
  rw [hq] at hl
  have hn : s.next t = r.head? := IsQueue.next_eq (p := []) hl
  have htr : t ∉ r := (List.nodup_cons.mp hl.nodup).1
  rw [hn, hl.tail]
  cases r with
  | nil => simp
  | cons c r =>
      have hlast : (t :: c :: r).getLast? ≠ some t := by
        rw [List.getLast?_cons_cons]
        exact fun e => htr (List.mem_of_getLast? e)
      rw [if_neg hlast]
      simp

theorem dequeue_nil (h : Queues s xs) (hq : xs q = []) : dequeue q s = (none, s) := by
  have hh : (s.queue q).head = none := by rw [(h.listed q).head, hq]; rfl
  simp [Kernel.dequeue, hh]

theorem dequeue_cons (h : Queues s xs) (hq : xs q = t :: r) :
    (dequeue q s).1 = some t ∧ Queues (dequeue q s).2 (Function.update xs q r) ∧
      (dequeue q s).2.state = s.state := by
  have hh : (s.queue q).head = some t := by rw [(h.listed q).head, hq]; rfl
  simp only [Kernel.dequeue, hh]
  refine ⟨trivial, ?_, by simp⟩
  refine h.unlink (p := []) hq ?_ ?_ ?_
  · intro u hu
    simp [Function.update_of_ne hu]
  · simp only [queue_setNext, queue_setQueue, Function.update_self, if_pos, List.getLast?_nil]
    rw [h.tail_of_first hq]
  · intro q' hne
    simp [Function.update_of_ne hne]

end Queues

/-! ## Searching a queue -/

theorem findBefore_none {x : Option Addr} {l : List Addr} (h : Seg s.next x l none)
    (ht : t ∉ l) : Settles (fun n => findBefore s t n x) none := by
  induction l generalizing x with
  | nil =>
      cases h
      exact Settles.turn rfl (fun _ => rfl) (Settles.const none)
  | cons c l ih =>
      obtain ⟨rfl, hl⟩ := h
      have hne : s.next c ≠ some t := by
        rw [hl.head]
        exact fun e => ht (List.mem_cons_of_mem c (List.mem_of_head? e))
      refine Settles.turn rfl ?_ (ih hl fun hm => ht (List.mem_cons_of_mem c hm))
      intro n
      simp only [findBefore, if_neg hne]

theorem findBefore_some {x : Option Addr} (h : Seg s.next x (p ++ c :: t :: r) none) :
    Settles (fun n => findBefore s t n x) (some c) := by
  induction p generalizing x with
  | nil =>
      obtain ⟨rfl, hn, _⟩ := h
      refine Settles.turn rfl ?_ (Settles.const _)
      intro n
      simp only [findBefore, if_pos hn]
  | cons a p ih =>
      have hnd := h.nodup
      obtain ⟨rfl, hl⟩ := h
      have hne : s.next a ≠ some t := by
        rw [hl.head]
        cases p with
        | nil =>
            have hct : c ≠ t := by simp at hnd; tauto
            simpa using hct
        | cons b p =>
            have hbt : b ≠ t := by simp at hnd; tauto
            simpa using hbt
      refine Settles.turn rfl ?_ (ih hl)
      intro n
      simp only [findBefore, if_neg hne]

/-- A member of a list is the first one or has one before it. -/
theorem first_or_before {l : List Addr} (ht : t ∈ l) :
    (∃ r, l = t :: r) ∨ ∃ p c r, l = p ++ c :: t :: r := by
  obtain ⟨p, r, rfl⟩ := List.append_of_mem ht
  rcases List.eq_nil_or_concat p with rfl | ⟨p, c, rfl⟩
  · exact Or.inl ⟨r, rfl⟩
  · exact Or.inr ⟨p, c, r, by simp⟩

/-! ## Taking a thread out of a queue -/

/-- A member in the middle of a queue is unlinked behind the one before it. -/
theorem Queues.unlinkBehind (h : Queues s xs) (hq : xs q = p ++ c :: t :: r)
    (hnext : ∀ u, u ≠ t → s'.next u = (moveTail q t (some c) (s.setNext c (s.next t))).next u)
    (hqueue : s'.queue = (moveTail q t (some c) (s.setNext c (s.next t))).queue) :
    Queues s' (Function.update xs q ((xs q).erase t)) := by
  have hsplit : xs q = (p ++ [c]) ++ t :: r := by rw [hq]; simp
  have hnd := (h.listed q).nodup
  rw [hsplit] at hnd
  have htp : t ∉ p ++ [c] := fun hm =>
    (List.disjoint_of_nodup_append hnd) hm List.mem_cons_self
  have herase : (xs q).erase t = (p ++ [c]) ++ r := by
    rw [hsplit, List.erase_append_right _ htp, List.erase_cons_head]
  rw [herase]
  refine h.unlink hsplit ?_ ?_ ?_
  · intro u hu
    rw [hnext u hu]
    simp
  · rw [hqueue]
    by_cases htail : (s.queue q).tail = some t <;> simp [htail]
  · intro q' hne
    rw [hqueue]
    simp [Function.update_of_ne hne]

/-- The queue of a TCB that is not its first cell has another head. -/
theorem Queues.head_ne (h : Queues s xs) (hq : xs q = p ++ c :: t :: r) :
    ∃ u, (s.queue q).head = some u ∧ u ≠ t := by
  have hnd := (h.listed q).nodup
  rw [(h.listed q).head]
  rw [hq] at hnd ⊢
  cases p with
  | nil => exact ⟨c, rfl, by simp at hnd; tauto⟩
  | cons a p => exact ⟨a, rfl, by simp at hnd; tauto⟩

/-- `remove_from_sleep_queue` takes the TCB out of the sleep queue when it is there. -/
theorem removeFromSleepQueue_spec (h : Queues s xs) (t : Addr) :
    ∃ s', Settles (fun n => removeFromSleepQueue n t s) s' ∧ Relinked s s' ∧ s'.state = s.state ∧
      Queues s' (Function.update xs .sleep ((xs .sleep).erase t)) := by
  have hl := h.listed .sleep
  by_cases ht : t ∈ xs .sleep
  · rcases first_or_before ht with ⟨r, hq⟩ | ⟨p, c, r, hq⟩
    · have hh : (s.queue .sleep).head = some t := by rw [hl.head, hq]; rfl
      obtain ⟨_, hdeq, hstate⟩ := h.dequeue_cons hq
      have hfun : ∀ n, removeFromSleepQueue n t s = some (sleepDequeue s).2 := by
        intro n
        simp [removeFromSleepQueue, hh]
      refine ⟨_, (Settles.const _).congr hfun, Relinked.dequeue _ s, hstate, ?_⟩
      rw [hq, List.erase_cons_head]
      exact hdeq
    · -- behind the head the list is searched for the TCB before `t`
      obtain ⟨u, hu, hut⟩ := h.head_ne hq
      have hseg := hl.seg
      rw [hq] at hseg
      have hfun : ∀ n, removeFromSleepQueue n t s =
          (findBefore s t n (some u)).map fun x => x.elim s fun c =>
            (moveTail .sleep t (some c) (s.setNext c (s.next t))).setNext t none := by
        intro n
        simp only [removeFromSleepQueue, hu, if_neg hut]
        rcases findBefore s t n (some u) with _ | _ | c <;> rfl
      refine ⟨_, (Settles.map (hu ▸ findBefore_some hseg)).congr hfun, ?_, ?_, ?_⟩
      · exact ((Relinked.setNext s c _).trans (Relinked.moveTail _ _ _ _)).trans
          (Relinked.setNext _ _ _)
      · simp
      · refine h.unlinkBehind hq ?_ ?_
        · intro v hv
          simp [Function.update_of_ne hv]
        · simp
  · -- not asleep: the search runs to the end of the list
    rw [List.erase_of_not_mem ht, Function.update_eq_self]
    refine ⟨s, ?_, Relinked.refl s, rfl, h⟩
    cases hh : (s.queue .sleep).head with
    | none =>
        refine (Settles.const s).congr ?_
        intro n
        simp [removeFromSleepQueue, hh]
    | some u =>
        have hut : u ≠ t := by
          rintro rfl
          exact ht (List.mem_of_head? (hl.head.symm.trans hh))
        have hfun : ∀ n, removeFromSleepQueue n t s =
            (findBefore s t n (some u)).map fun x => x.elim s fun c =>
              (moveTail .sleep t (some c) (s.setNext c (s.next t))).setNext t none := by
          intro n
          simp only [removeFromSleepQueue, hh, if_neg hut]
          rcases findBefore s t n (some u) with _ | _ | c <;> rfl
        exact (Settles.map (hh ▸ findBefore_none hl.seg ht)).congr hfun

/-- `KillThread` takes the TCB out of the ready queue when it is there. -/
theorem removeFromReadyQueue_spec (h : Queues s xs) (t : Addr) :
    ∃ s', Settles (fun n => removeFromReadyQueue n t s) s' ∧ Relinked s s' ∧ s'.state = s.state ∧
      Queues s' (Function.update xs .ready ((xs .ready).erase t)) := by
  have hl := h.listed .ready
  have hfun : (s.queue .ready).head ≠ some t → ∀ n, removeFromReadyQueue n t s =
      (findBefore s t n (s.queue .ready).head).map fun x => x.elim s fun c =>
        moveTail .ready t (some c) (s.setNext c (s.next t)) := by
    intro hh n
    simp only [removeFromReadyQueue, if_neg hh]
    rcases findBefore s t n (s.queue .ready).head with _ | _ | c <;> rfl
  by_cases ht : t ∈ xs .ready
  · rcases first_or_before ht with ⟨r, hq⟩ | ⟨p, c, r, hq⟩
    · have hh : (s.queue .ready).head = some t := by rw [hl.head, hq]; rfl
      have hset : ∀ n, removeFromReadyQueue n t s = some (s.setQueue .ready
          ⟨s.next t, if s.next t = none then none else (s.queue .ready).tail⟩) := by
        intro n
        simp only [removeFromReadyQueue, if_pos hh]
      refine ⟨_, (Settles.const _).congr hset, Relinked.setQueue s _ _, rfl, ?_⟩
      rw [hq, List.erase_cons_head]
      refine h.unlink (p := []) hq ?_ ?_ ?_
      · intro u _
        rfl
      · rw [h.tail_of_first hq]
        simp
      · intro q' hne
        simp [Function.update_of_ne hne]
    · obtain ⟨u, hu, hut⟩ := h.head_ne hq
      have hh : (s.queue .ready).head ≠ some t := by simpa [hu] using hut
      have hseg := hl.seg
      rw [hq] at hseg
      refine ⟨_, (Settles.map (findBefore_some hseg)).congr (hfun hh),
        (Relinked.setNext s c _).trans (Relinked.moveTail _ _ _ _), by simp, ?_⟩
      exact h.unlinkBehind hq (fun _ _ => rfl) rfl
  · rw [List.erase_of_not_mem ht, Function.update_eq_self]
    have hh : (s.queue .ready).head ≠ some t := fun e =>
      ht (List.mem_of_head? (hl.head.symm.trans e))
    exact ⟨s, (Settles.map (findBefore_none hl.seg ht)).congr (hfun hh), Relinked.refl s, rfl, h⟩

/-! ## Threads and their queues -/

/-- The ready queue holds the threads in state READY, the others those in state BLOCKED. -/
structure Placed (s : Kernel) (xs : QueueId → List Addr) : Prop extends Queues s xs where
  ready_iff : ∀ t, t ∈ xs .ready ↔ t ∈ s.tcbs ∧ s.state t = .ready
  blocked_iff : ∀ t, (∃ q, q ≠ .ready ∧ t ∈ xs q) ↔ t ∈ s.tcbs ∧ s.state t = .blocked

namespace Placed

theorem congr (h : Placed s xs) (hnext : s'.next = s.next) (hstate : s'.state = s.state)
    (hqueue : s'.queue = s.queue) (htcbs : s'.tcbs = s.tcbs) : Placed s' xs := by
  refine ⟨h.toQueues.congr hnext hqueue, ?_, ?_⟩
  · rw [htcbs, hstate]; exact h.ready_iff
  · rw [htcbs, hstate]; exact h.blocked_iff

/-- A thread changes its place. -/
theorem move (h : Placed s xs) (hq : Queues s' xs') (t : Addr)
    (hstate : ∀ u, u ≠ t → s'.state u = s.state u)
    (htcbs : ∀ u, u ≠ t → (u ∈ s'.tcbs ↔ u ∈ s.tcbs))
    (hmem : ∀ u, u ≠ t → ∀ q, u ∈ xs' q ↔ u ∈ xs q)
    (hready : t ∈ xs' .ready ↔ t ∈ s'.tcbs ∧ s'.state t = .ready)
    (hblocked : (∃ q, q ≠ .ready ∧ t ∈ xs' q) ↔ t ∈ s'.tcbs ∧ s'.state t = .blocked) :
    Placed s' xs' := by
  refine ⟨hq, ?_, ?_⟩
  · intro u
    by_cases hu : u = t
    · subst hu; exact hready
    · rw [hmem u hu, hstate u hu, htcbs u hu]; exact h.ready_iff u
  · intro u
    by_cases hu : u = t
    · subst hu; exact hblocked
    · simp only [hmem u hu, hstate u hu, htcbs u hu]; exact h.blocked_iff u

/-- A thread in no queue is neither READY nor BLOCKED. -/
theorem not_mem (h : Placed s xs) (hr : s.state t ≠ .ready) (hb : s.state t ≠ .blocked)
    (q : QueueId) : t ∉ xs q := by
  intro ht
  by_cases hq : q = .ready
  · subst hq
    exact hr ((h.ready_iff t).mp ht).2
  · exact hb ((h.blocked_iff t).mp ⟨q, hq, ht⟩).2

theorem known (h : Placed s xs) (ht : t ∈ xs q) : t ∈ s.tcbs := by
  by_cases hq : q = .ready
  · subst hq
    exact ((h.ready_iff t).mp ht).1
  · exact ((h.blocked_iff t).mp ⟨q, hq, ht⟩).1

/-- A thread of no queue goes to the end of the ready queue. -/
theorem threadEnqueue (h : Placed s xs) (ht : ∀ q, t ∉ xs q) (hk : t ∈ s.tcbs) :
    Placed (Kernel.threadEnqueue t s) (Function.update xs .ready (xs .ready ++ [t])) := by
  have hrel := Relinked.threadEnqueue t s
  have hknown : (Kernel.threadEnqueue t s).tcbs = s.tcbs := by rw [hrel.rest]
  have hstate : (Kernel.threadEnqueue t s).state = Function.update s.state t .ready := by
    rw [Kernel.threadEnqueue, state_setState, state_enqueue]
  refine h.move (h.toQueues.threadEnqueue ht) t ?_ ?_ ?_ ?_ ?_
  · intro u hu
    rw [hstate, Function.update_of_ne hu]
  · intro u _
    rw [hknown]
  · intro u hu q
    exact mem_update_concat hu q
  · rw [hstate, hknown]
    simp [hk]
  · rw [hstate, hknown]
    simp only [Function.update_self, reduceCtorEq, and_false, iff_false]
    rintro ⟨q, hq, hm⟩
    rw [Function.update_of_ne hq] at hm
    exact ht q hm

/-- The current thread, in no queue, is blocked on a queue. -/
theorem block (h : Placed s xs) (ht : ∀ q, t ∉ xs q) (hk : t ∈ s.tcbs) (hq : q ≠ .ready) :
    Placed (Kernel.enqueue q t (s.setState t .blocked))
      (Function.update xs q (xs q ++ [t])) := by
  have hrel := (Relinked.setState s t .blocked).trans (Relinked.enqueue q t _)
  have hknown : (Kernel.enqueue q t (s.setState t .blocked)).tcbs = s.tcbs := by rw [hrel.rest]
  have hstate : (Kernel.enqueue q t (s.setState t .blocked)).state =
      Function.update s.state t .blocked := by
    rw [state_enqueue, state_setState]
  have hset : Queues (s.setState t .blocked) xs :=
    h.toQueues.congr (next_setState _) (queue_setState _)
  refine h.move (hset.enqueue ht) t ?_ ?_ ?_ ?_ ?_
  · intro u hu
    rw [hstate, Function.update_of_ne hu]
  · intro u _
    rw [hknown]
  · intro u hu q
    exact mem_update_concat hu q
  · rw [hstate]
    simp only [Function.update_self, reduceCtorEq, and_false, iff_false]
    rw [Function.update_of_ne (Ne.symm hq)]
    exact ht .ready
  · rw [hstate, hknown]
    simp only [Function.update_self, and_true, hk, iff_true]
    exact ⟨q, hq, by rw [Function.update_self]; simp⟩

/-- The first thread of a queue other than the ready queue goes to the ready queue. -/
theorem wake (h : Placed s xs) (hq : xs q = p ++ t :: r) (hne : q ≠ .ready)
    (h' : Queues s' (Function.update xs q (p ++ r))) (hstate : s'.state = s.state)
    (htcbs : s'.tcbs = s.tcbs) :
    Placed (Kernel.threadEnqueue t (s'.setState t .ready))
      (Function.update (Function.update xs q (p ++ r)) .ready (xs .ready ++ [t])) := by
  have hout := h.toQueues.not_mem_erase hq
  have hset : Queues (s'.setState t .ready) (Function.update xs q (p ++ r)) :=
    h'.congr (next_setState _) (queue_setState _)
  have henq := hset.threadEnqueue hout
  rw [Function.update_of_ne (Ne.symm hne)] at henq
  have hrel := (Relinked.setState s' t .ready).trans (Relinked.threadEnqueue t _)
  have hknown : (Kernel.threadEnqueue t (s'.setState t .ready)).tcbs = s.tcbs := by
    rw [hrel.rest]
    exact htcbs
  have hst : (Kernel.threadEnqueue t (s'.setState t .ready)).state =
      Function.update s.state t .ready := by
    rw [Kernel.threadEnqueue, state_setState, state_enqueue, state_setState, hstate]
    simp
  have ht : t ∈ s.tcbs := h.known (q := q) (by simp [hq])
  refine h.move henq t ?_ ?_ ?_ ?_ ?_
  · intro u hu
    rw [hst, Function.update_of_ne hu]
  · intro u _
    rw [hknown]
  · intro u hu q'
    rw [← mem_update_erase hq hu q']
    by_cases hr : q' = .ready
    · subst hr
      simp [hu, Function.update_of_ne (Ne.symm hne)]
    · rw [Function.update_of_ne hr]
  · rw [hst, hknown]
    simp [ht]
  · rw [hst, hknown]
    simp only [Function.update_self, reduceCtorEq, and_false, iff_false]
    rintro ⟨q', hr, hm⟩
    rw [Function.update_of_ne hr] at hm
    exact hout q' hm

end Placed

end Kernel

end Os003
