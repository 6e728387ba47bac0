import Os003.Kernel.Queues

set_option autoImplicit false

/-! # Waking sleepers

`wake_sleeping_threads` goes through the sleep queue once and moves every sleeper whose time has come
to the end of the ready queue, along the same `next` pointers. `WokenFrom s s' p r l` says what it does
from one place of the sleep queue on, when the sleepers `p` before that place stay asleep, `r` are
still to be looked at and `l` is the ready queue.
-/

namespace Os003

open Linked

namespace Kernel

variable {s s' : Kernel} {xs : QueueId → List Addr} {t c : Addr} {p r l : List Addr}

/-- The wake-up time of the thread has come. -/
def due (s : Kernel) (t : Addr) : Bool := decide ((s.tcb t).wakeupTime ≤ s.timerTicks)

theorem Relinked.due_eq (h : Relinked s s') : s'.due = s.due := by
  funext t
  rw [Kernel.due, (h.due t).1, (h.due t).2, Kernel.due]

/-- Of the sleepers `r`, those that are due go behind `l` and are READY. -/
structure WokenFrom (s s' : Kernel) (p r l : List Addr) : Prop where
  relinked : Relinked s s'
  sleep : IsQueue s'.next (s'.queue .sleep) (p ++ r.filter fun t => !s.due t)
  ready : IsQueue s'.next (s'.queue .ready) (l ++ r.filter s.due)
  others : ∀ q, q ≠ .sleep → q ≠ .ready → s'.queue q = s.queue q
  woken : ∀ t ∈ r, s.due t = true → s'.state t = .ready
  states : ∀ t, t ∉ r ∨ s.due t = false → s'.state t = s.state t
  frame : ∀ t, t ∉ p ++ r → t ∉ l → s'.next t = s.next t

/-- The kernel after the turn of the loop that wakes the thread `c`. -/
def wakeOne (c : Addr) (prev : Option Addr) (s : Kernel) : Kernel :=
  let s1 := match prev with
    | some b => s.setNext b (s.next c)
    | none => s.setQueue .sleep ⟨s.next c, (s.queue .sleep).tail⟩
  threadEnqueue c (((moveTail .sleep c prev s1).setNext c none).setState c .ready)

theorem wakeOne_relinked (c : Addr) (prev : Option Addr) (s : Kernel) :
    Relinked s (wakeOne c prev s) := by
  unfold wakeOne
  refine Relinked.trans ?_ (Relinked.threadEnqueue _ _)
  refine Relinked.trans ?_ (Relinked.setState _ _ _)
  refine Relinked.trans ?_ (Relinked.setNext _ _ _)
  refine Relinked.trans ?_ (Relinked.moveTail _ _ _ _)
  split
  · exact Relinked.setNext s _ _
  · exact Relinked.setQueue s _ _

theorem wakeOne_state (c : Addr) (prev : Option Addr) (s : Kernel) :
    (wakeOne c prev s).state = Function.update s.state c .ready := by
  unfold wakeOne threadEnqueue
  cases prev <;> simp

theorem wakeOne_next (prev : Option Addr)
    (h : (s.queue .ready).head = none → (s.queue .ready).tail = none) :
    (wakeOne c prev s).next =
      link (Function.update (link s.next prev (s.next c)) c none) (s.queue .ready).tail (some c) := by
  unfold wakeOne threadEnqueue
  rw [next_setState, next_enqueue]
  · cases prev <;> simp
  · cases prev <;> simpa using h

theorem wakeOne_queue (c : Addr) (prev : Option Addr) (s : Kernel) :
    (wakeOne c prev s).queue .sleep =
        ⟨if prev = none then s.next c else (s.queue .sleep).head,
          if (s.queue .sleep).tail = some c then prev else (s.queue .sleep).tail⟩ ∧
      (wakeOne c prev s).queue .ready = ⟨(s.queue .ready).head.or (some c), some c⟩ ∧
      ∀ q, q ≠ .sleep → q ≠ .ready → (wakeOne c prev s).queue q = s.queue q := by
  unfold wakeOne threadEnqueue
  simp only [queue_setState, queue_enqueue, queue_setNext, queue_moveTail]
  refine ⟨?_, ?_, ?_⟩
  · by_cases htail : (s.queue .sleep).tail = some c <;> cases prev <;> simp [htail]
  · cases prev <;> simp
  · intro q hsleep hready
    cases prev <;> simp [Function.update_of_ne hsleep, Function.update_of_ne hready]

/-- A thread that is not due stays asleep. -/
theorem WokenFrom.skip (hlate : s.due c = false) (hw : WokenFrom s s' (p ++ [c]) r l) :
    WokenFrom s s' p (c :: r) l := by
  refine ⟨hw.relinked, ?_, ?_, hw.others, ?_, ?_, ?_⟩
  · simpa [hlate] using hw.sleep
  · simpa [hlate] using hw.ready
  · intro t ht htd
    rcases List.mem_cons.mp ht with rfl | htr
    · cases hlate.symm.trans htd
    · exact hw.woken t htr htd
  · intro t ht
    refine hw.states t (ht.imp_left ?_)
    exact fun h hr => h (List.mem_cons_of_mem c hr)
  · intro t ht htl
    exact hw.frame t (by simpa using ht) htl

/-- Only `c`, the sleeper before it and the last ready thread get another pointer. -/
theorem wakeOne_frame (hready : IsQueue s.next (s.queue .ready) l) (htp : t ∉ p) (htc : t ≠ c) (htl : t ∉ l) :
    (wakeOne c p.getLast? s).next t = s.next t := by
  have hlast : ∀ b ∈ p.getLast?, b ∉ [t] := by
    intro b hb hbt
    exact htp (List.mem_singleton.mp hbt ▸ List.mem_of_getLast? hb)
  have htail : ∀ b ∈ (s.queue .ready).tail, b ∉ [t] := by
    intro b hb hbt
    exact htl (List.mem_singleton.mp hbt ▸ List.mem_of_getLast? (hready.tail.symm.trans hb))
  calc (wakeOne c p.getLast? s).next t
    _ = (Function.update (link s.next p.getLast? (s.next c)) c none) t := by
        rw [wakeOne_next (c := c) p.getLast? hready.tail_none]
        exact link_frame htail t (by simp)
    _ = link s.next p.getLast? (s.next c) t := Function.update_of_ne htc _ _
    _ = s.next t := link_frame hlast t (by simp)

/-- A thread that is due is woken, and the loop goes on behind it. -/
theorem WokenFrom.wake (hready : IsQueue s.next (s.queue .ready) l) (hdue : s.due c = true)
    (hw : WokenFrom (wakeOne c p.getLast? s) s' p r (l ++ [c])) : WokenFrom s s' p (c :: r) l := by
  have hstate := wakeOne_state c p.getLast? s
  have hrel := wakeOne_relinked c p.getLast? s
  have hdues := hrel.due_eq
  refine ⟨hrel.trans hw.relinked, ?_, ?_, ?_, ?_, ?_, ?_⟩
  · have h := hw.sleep
    rw [hdues] at h
    simpa [hdue] using h
  · have h := hw.ready
    rw [hdues] at h
    simpa [hdue] using h
  · intro q h1 h2
    rw [hw.others q h1 h2, (wakeOne_queue c p.getLast? s).2.2 q h1 h2]
  · intro t ht htd
    by_cases htr : t ∈ r
    · exact hw.woken t htr (by rw [hdues]; exact htd)
    · have htc : t = c := by
        simpa [htr] using ht
      rw [hw.states t (Or.inl htr), hstate, htc, Function.update_self]
  · intro t ht
    have htc : t ≠ c := by
      rintro rfl
      rcases ht with ht | ht
      · exact ht List.mem_cons_self
      · cases hdue.symm.trans ht
    have htr : t ∉ r ∨ (wakeOne c p.getLast? s).due t = false := by
      rw [hdues]
      refine ht.imp_left ?_
      exact fun h hr => h (List.mem_cons_of_mem c hr)
    rw [hw.states t htr, hstate, Function.update_of_ne htc]
  · intro t ht htl
    simp only [List.mem_append, List.mem_cons, not_or] at ht
    obtain ⟨htp, htc, htr⟩ := ht
    rw [hw.frame t (by simp [htp, htr]) (by simp [htl, htc])]
    exact wakeOne_frame hready htp htc htl

/-- The turn of the loop for a thread that is due. -/
theorem wakeLoop_due (hsleep : IsQueue s.next (s.queue .sleep) (p ++ c :: r))
    (hdue : s.due c = true) (n : Nat) :
    wakeLoop (n + 1) (some c) p.getLast? s =
      wakeLoop n r.head? p.getLast? (wakeOne c p.getLast? s) := by
  have hle : (s.tcb c).wakeupTime ≤ s.timerTicks := of_decide_eq_true hdue
  have hnodup : c ∉ p ++ r := (List.nodup_middle.mp hsleep.nodup).notMem
  have hcp : ∀ b ∈ p.getLast?, b ∉ [c] := by
    intro b hb hbc
    rw [List.mem_singleton.mp hbc] at hb
    exact hnodup (List.mem_append_left r (List.mem_of_getLast? hb))
  -- the pointer of `c` is read after it has been unlinked
  have hcur : (link s.next p.getLast? (s.next c)) c = r.head? :=
    (link_frame hcp c (by simp)).trans hsleep.next_eq
  simp only [wakeLoop, if_pos hle, next_moveTail]
  rw [← hcur]
  cases p.getLast? with
  | none => rfl
  | some b =>
      simp only [next_setNext, link_some]
      rfl

/-- The loop from one place of the sleep queue on. -/
theorem wakeLoop_woken (hsleep : IsQueue s.next (s.queue .sleep) (p ++ r))
    (hready : IsQueue s.next (s.queue .ready) l) (hd : List.Disjoint (p ++ r) l) :
    ∃ s', Settles (fun n => wakeLoop n r.head? p.getLast? s) s' ∧ WokenFrom s s' p r l := by
  induction r generalizing s p l with
  | nil =>
      refine ⟨s, Settles.turn rfl (fun _ => rfl) (Settles.const s), ?_⟩
      exact
        { relinked := Relinked.refl s
          sleep := by simpa using hsleep
          ready := by simpa using hready
          others := fun _ _ _ => rfl
          woken := fun t ht _ => absurd ht List.not_mem_nil
          states := fun _ _ => rfl
          frame := fun _ _ _ => rfl }
  | cons c r ih =>
      cases hdue : s.due c with
      | true =>
          -- `c` is taken out behind `p` and goes behind `l`
          have hprev : p.getLast? = none ↔ p = [] := List.getLast?_eq_none_iff
          have hnodup : c ∉ p ++ r := (List.nodup_middle.mp hsleep.nodup).notMem
          obtain ⟨hqsleep, hqready, -⟩ := wakeOne_queue c p.getLast? s
          obtain ⟨hsleep1, hready1⟩ := hsleep.transfer hready hd
          rw [← wakeOne_next (c := c) p.getLast? hready.tail_none] at hsleep1 hready1
          have hd1 : List.Disjoint (p ++ r) (l ++ [c]) := by
            intro t ht htl
            rcases List.mem_append.mp htl with htl | htc
            · refine hd ?_ htl
              simp only [List.mem_append, List.mem_cons] at ht ⊢
              tauto
            · exact hnodup (List.mem_singleton.mp htc ▸ ht)
          obtain ⟨s', hrun, hw⟩ := ih (s := wakeOne c p.getLast? s) (p := p) (l := l ++ [c])
            (by rw [hqsleep]; simpa only [hprev] using hsleep1) (by rw [hqready]; exact hready1) hd1
          exact ⟨s', Settles.turn rfl (wakeLoop_due hsleep hdue) hrun, hw.wake hready hdue⟩
      | false =>
          have hlate : ¬ (s.tcb c).wakeupTime ≤ s.timerTicks := of_decide_eq_false hdue
          obtain ⟨s', hrun, hw⟩ := ih (s := s) (p := p ++ [c]) (by simpa using hsleep) hready
            (by simpa using hd)
          refine ⟨s', Settles.turn rfl (fun n => ?_) hrun, hw.skip hdue⟩
          simp only [List.head?_cons, wakeLoop, if_neg hlate]
          rw [hsleep.next_eq]
          simp

/-- A thread that is woken is in the ready queue, any other one where it was. -/
theorem mem_woken (h : Placed s xs) (hq : xs .sleep = p ++ r) (u : Addr) (q : QueueId) :
    u ∈ Function.update (Function.update xs .sleep (p ++ r.filter fun t => !s.due t)) .ready
        (xs .ready ++ r.filter s.due) q ↔
      if u ∈ r ∧ s.due u = true then q = .ready else u ∈ xs q := by
  by_cases hu : u ∈ r ∧ s.due u = true
  · have hsleeper : u ∈ xs .sleep := hq ▸ List.mem_append_right p hu.1
    have hup : u ∉ p := by
      have hnodup := (h.listed .sleep).nodup
      rw [hq] at hnodup
      exact fun hp => (List.disjoint_of_nodup_append hnodup) hp hu.1
    rw [if_pos hu]
    by_cases hr : q = .ready
    · subst hr
      simp [hu]
    · rw [Function.update_of_ne hr]
      by_cases hs : q = .sleep
      · subst hs
        simp [hu.2, hup]
      · rw [Function.update_of_ne hs]
        simp only [hr, iff_false]
        exact h.not_mem_of_ne hsleeper hs
  · rw [if_neg hu]
    by_cases hr : q = .ready
    · subst hr
      simp [hu]
    · rw [Function.update_of_ne hr]
      by_cases hs : q = .sleep
      · subst hs
        have hasleep : u ∈ r ∧ s.due u = false ↔ u ∈ r := by
          constructor
          · exact And.left
          · intro hur
            exact ⟨hur, by simpa [hur] using hu⟩
        simp [hq, hasleep]
      · rw [Function.update_of_ne hs]

/-- What `wake_sleeping_threads` does to the sleepers from one place of the queue on, when the
sleepers `p` before it have been left asleep. -/
theorem wakeLoop_spec (h : Placed s xs) (hq : xs .sleep = p ++ r) :
    ∃ s', Settles (fun n => wakeLoop n r.head? p.getLast? s) s' ∧ Relinked s s' ∧
      Placed s' (Function.update (Function.update xs .sleep (p ++ r.filter fun t => !s.due t))
        .ready (xs .ready ++ r.filter s.due)) ∧
      ∀ u, s'.state u = s.state u ∨
        s.state u = .blocked ∧ s.due u = true ∧ s'.state u = .ready := by
  have hsleep := h.listed .sleep
  rw [hq] at hsleep
  have hd : List.Disjoint (p ++ r) (xs .ready) := by
    intro t ht htr
    rw [← hq] at ht
    cases h.apart t .sleep .ready ht htr
  obtain ⟨s', hrun, hw⟩ := wakeLoop_woken hsleep (h.listed .ready) hd
  have hsleeper : ∀ u ∈ r, u ∈ xs .sleep := by
    intro u hu
    rw [hq]
    exact List.mem_append_right p hu
  have hmem := mem_woken h hq
  -- a sleeper of the rest that is due is ready now, and nothing else changes its state
  have hstate : ∀ u, s'.state u = if u ∈ r ∧ s.due u = true then .ready else s.state u := by
    intro u
    by_cases hu : u ∈ r ∧ s.due u = true
    · rw [if_pos hu]
      exact hw.woken u hu.1 hu.2
    · rw [if_neg hu]
      refine hw.states u ?_
      by_cases hur : u ∈ r
      · exact Or.inr (by simpa [hur] using hu)
      · exact Or.inl hur
  have hblocked : ∀ u, u ∈ r → u ∈ s.tcbs ∧ s.state u = .blocked := fun u hu =>
    (h.blocked_iff u).mp ⟨.sleep, by decide, hsleeper u hu⟩
  have hknown : s'.tcbs = s.tcbs := hw.relinked.tcbs
  refine ⟨s', hrun, hw.relinked, ⟨⟨?_, ?_⟩, ?_, ?_⟩, ?_⟩
  · -- both lists are queues of the memory as it is now
    intro q
    by_cases hr : q = .ready
    · subst hr
      rw [Function.update_self]
      exact hw.ready
    · rw [Function.update_of_ne hr]
      by_cases hs : q = .sleep
      · subst hs
        rw [Function.update_self]
        exact hw.sleep
      · rw [Function.update_of_ne hs, hw.others q hs hr]
        refine (h.listed q).congr ?_
        intro u hu
        refine hw.frame u ?_ (h.not_mem_of_ne hu (Ne.symm hr))
        rw [← hq]
        exact h.not_mem_of_ne hu (Ne.symm hs)
  · -- no thread is in two of them
    intro u q q' h1 h2
    rw [hmem] at h1 h2
    by_cases hu : u ∈ r ∧ s.due u = true
    · rw [if_pos hu] at h1 h2
      rw [h1, h2]
    · rw [if_neg hu] at h1 h2
      exact h.apart u q q' h1 h2
  · -- the ready queue holds exactly the live threads that are ready
    intro u
    rw [hmem, hstate, hknown]
    by_cases hu : u ∈ r ∧ s.due u = true
    · simp [hu, (hblocked u hu.1).1]
    · simpa only [if_neg hu] using h.ready_iff u
  · intro u
    simp only [hmem, hstate, hknown]
    by_cases hu : u ∈ r ∧ s.due u = true
    · simp [hu]
    · simpa only [if_neg hu] using h.blocked_iff u
  · intro u
    rw [hstate]
    by_cases hu : u ∈ r ∧ s.due u = true
    · exact Or.inr ⟨(hblocked u hu.1).2, hu.2, if_pos hu⟩
    · exact Or.inl (if_neg hu)

/-- `wake_sleeping_threads` moves exactly the sleepers that are due to the end of the ready queue, in
their order, and leaves the others in theirs. -/
theorem wake_exact {sleepers readies : List Addr}
    (hsleep : IsQueue s.next (s.queue .sleep) sleepers)
    (hready : IsQueue s.next (s.queue .ready) readies) (hd : List.Disjoint sleepers readies) :
    ∃ s', Settles (fun n => wakeSleepingThreads n s) s' ∧
      IsQueue s'.next (s'.queue .sleep) (sleepers.filter fun t => !s.due t) ∧
      IsQueue s'.next (s'.queue .ready) (readies ++ sleepers.filter s.due) ∧
      (∀ t ∈ sleepers.filter s.due, s'.state t = .ready) ∧
      (∀ t, t ∉ sleepers.filter s.due → s'.state t = s.state t) ∧ Relinked s s' := by
  obtain ⟨s', hrun, hw⟩ := wakeLoop_woken (p := []) hsleep hready hd
  refine ⟨s', ?_, hw.sleep, hw.ready, ?_, ?_, hw.relinked⟩
  · refine hrun.congr ?_
    intro n
    rw [wakeSleepingThreads, hsleep.head]
    rfl
  · intro t ht
    obtain ⟨hts, htd⟩ := List.mem_filter.mp ht
    exact hw.woken t hts htd
  · intro t ht
    refine hw.states t ?_
    by_cases hts : t ∈ sleepers
    · exact Or.inr (by simpa [hts] using ht)
    · exact Or.inl hts

/-- Three sleepers until the ticks 0, 7 and 0, and a ready thread. -/
def sleepyKernel : Kernel :=
  let s := bootKernel 1 0 0 (fun _ => ⟨0, false⟩) 0 fun _ => 0
  let s := s.setTcb 3 { s.tcb 3 with wakeupTime := 7 }
  threadEnqueue 5 (sleepEnqueue 4 (sleepEnqueue 3 (sleepEnqueue 2 s)))

theorem wake_exact_sleepy : ∃ s', Settles (fun n => wakeSleepingThreads n sleepyKernel) s' ∧
    IsQueue s'.next (s'.queue .sleep) [3] ∧ IsQueue s'.next (s'.queue .ready) [5, 2, 4] := by
  obtain ⟨s', hrun, hsleep, hready, -⟩ := wake_exact (s := sleepyKernel)
    (show IsQueue _ _ [2, 3, 4] from ⟨⟨rfl, rfl, rfl, rfl⟩, rfl⟩)
    (show IsQueue _ _ [5] from ⟨⟨rfl, rfl⟩, rfl⟩) (by simp)
  exact ⟨s', hrun, hsleep, hready⟩

end Kernel

end Os003
