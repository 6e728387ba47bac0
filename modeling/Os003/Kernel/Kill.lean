import Os003.Kernel.Partition

set_option autoImplicit false

/-! # Killed threads

`KillThread` takes a TCB out of the sleep queue and the ready queue. It does not know the wait
queues, so a thread killed while it waits for a mutex or a semaphore stays there and comes back
into the ready queue with the next unlock or post (`killed_waiter_returns`).

A TCB that is in no queue stays out until it is handed out again, whatever the other threads do and
whatever state the queues are in: every pointer that a function of the kernel stores comes from
the head of a queue, from the `next` of a TCB found from there, from the current thread, or from
the creation of a thread (`Absent.step`).
-/

namespace Os003

open Linked

namespace Kernel

variable {s s' : Kernel} {xs : QueueId → List Addr} {q : QueueId} {t u c : Addr} {n : Nat}
  {L : Set Addr}

/-- Queues and `next` pointers stay within the set `L`, and the TCB `t` is outside. -/
structure Outside (t : Addr) (L : Set Addr) (s : Kernel) : Prop where
  out : t ∉ L
  heads : ∀ q, ∀ u ∈ (s.queue q).head, u ∈ L
  closed : Closed s.next L

/-- The TCB is in no queue and is not the current thread's. -/
structure Absent (t : Addr) (s : Kernel) : Prop where
  outside : ∃ L, Outside t L s
  notCurrent : s.currentThread ≠ t

/-- The event does not hand out the TCB `t`, and `schedule()` takes it for the main thread only when
another thread can run. -/
def Spares (t : Addr) (s : Kernel) : Event → Prop
  | .tick => True
  | .call (.createThread page _ _ _ _) => (takeTcb page s.disableInterrupts).1 ≠ some t
  | .call (.createKernelThread page _ _) => (takeTcb page s.disableInterrupts).1 ≠ some t
  | .call (.createUserThread page _ _ _) => page ≠ some t
  | .call _ => True
  | .run => t = s.systemKernelThread → (∃ k, s.stack s.currentThread = .schedule :: k) →
      FindsReady s

/-- The TCB is in no queue now and after any events that spare it. -/
def StaysDead (t : Addr) (s : Kernel) : Prop :=
  ∀ u, Reaches (Spares t) s u → ∀ q, ¬ Meets u.next t (u.queue q).head

/-! ## Pointers -/

namespace Outside

theorem congr (h : Outside t L s) (hnext : s'.next = s.next) (hqueue : s'.queue = s.queue) :
    Outside t L s' := by
  refine ⟨h.out, ?_, ?_⟩
  · rw [hqueue]; exact h.heads
  · rw [hnext]; exact h.closed

theorem setNext {x : Option Addr} (h : Outside t L s) (hx : ∀ v ∈ x, v ∈ L) :
    Outside t L (s.setNext u x) := by
  refine ⟨h.out, h.heads, ?_⟩
  rw [next_setNext]
  exact h.closed.update hx

theorem setTcb {b : Tcb} (h : Outside t L s) (hb : b.next = none) :
    Outside t L (s.setTcb u b) := by
  refine ⟨h.out, h.heads, ?_⟩
  rw [next_setTcb, hb]
  exact h.closed.update fun v hv => by cases hv

theorem linkNext {p x : Option Addr} (h : Outside t L s) (hx : ∀ v ∈ x, v ∈ L) :
    Outside t L (s.linkNext p x) := by
  cases p with
  | none => exact h
  | some c => exact h.setNext hx

theorem setState (h : Outside t L s) (x : ThreadState) : Outside t L (s.setState u x) :=
  h.congr (next_setState _) rfl

theorem setQueue {v : Queue Addr} (h : Outside t L s) (hv : ∀ u ∈ v.head, u ∈ L) :
    Outside t L (s.setQueue q v) := by
  refine ⟨h.out, ?_, h.closed⟩
  intro q' u hu
  rw [queue_setQueue] at hu
  by_cases hq : q' = q
  · subst hq
    rw [Function.update_self] at hu
    exact hv u hu
  · rw [Function.update_of_ne hq] at hu
    exact h.heads q' u hu

/-- The head of the queue stays as it is. -/
theorem moveTail {x : Option Addr} (h : Outside t L s) : Outside t L (Kernel.moveTail q u x s) := by
  unfold Kernel.moveTail
  split
  · exact h.setQueue (h.heads q)
  · exact h

/-- Another TCB joins, its pointer reset. -/
theorem reset (h : Outside t L s) (hu : u ≠ t) : Outside t (insert u L) (s.setNext u none) := by
  have h0 : Outside t L (s.setNext u none) := h.setNext fun v hv => by cases hv
  refine ⟨?_, fun q v hv => Or.inr (h.heads q v hv), h0.closed.insert ?_⟩
  · rintro (rfl | ht)
    · exact hu rfl
    · exact h.out ht
  · rw [next_setNext, Function.update_self]

theorem enqueue (h : Outside t L s) (hu : u ≠ t) :
    Outside t (insert u L) (Kernel.enqueue q u s) := by
  have hin : ∀ v ∈ some u, v ∈ insert u L := by
    rintro v ⟨⟩
    exact Or.inl rfl
  have h1 := h.reset hu
  unfold Kernel.enqueue
  dsimp only
  split
  · exact h1.setQueue hin
  · rename_i head hhead
    refine (h1.linkNext hin).setQueue ?_
    rintro v ⟨⟩
    exact h1.heads q head hhead

theorem threadEnqueue (h : Outside t L s) (hu : u ≠ t) :
    Outside t (insert u L) (Kernel.threadEnqueue u s) := (h.enqueue hu).setState _

theorem dequeue (h : Outside t L s) :
    Outside t L (Kernel.dequeue q s).2 ∧ ∀ u ∈ (Kernel.dequeue q s).1, u ∈ L := by
  unfold Kernel.dequeue
  split
  · refine ⟨h, ?_⟩
    intro u hu
    cases hu
  · rename_i head hhead
    have hin := h.heads q head hhead
    refine ⟨(h.setQueue ?_).setNext fun v hv => (by cases hv), ?_⟩
    · exact h.closed head hin
    · rintro v ⟨⟩
      exact hin

/-- The search for the cell before `c` finds it on the way from the head. -/
theorem findBefore (h : Outside t L s) {x : Option Addr} (hx : ∀ v ∈ x, v ∈ L)
    (hf : Kernel.findBefore s c n x = some (some u)) : u ∈ L ∧ s.next u = some c := by
  induction n generalizing x with
  | zero => cases hf
  | succ n ih =>
      cases x with
      | none => cases hf
      | some v =>
          have hv := hx v rfl
          unfold Kernel.findBefore at hf
          split at hf
          · rename_i hnext
            cases hf
            exact ⟨hv, hnext⟩
          · exact ih (h.closed v hv) hf

/-- The cell before `c` is linked to the one behind it. -/
theorem bypass (h : Outside t L s) {x : Option Addr} (hx : ∀ v ∈ x, v ∈ L)
    (hf : Kernel.findBefore s c n x = some (some u)) :
    Outside t L (Kernel.moveTail q c (some u) (s.setNext u (s.next c))) := by
  obtain ⟨hu, hnext⟩ := h.findBefore hx hf
  exact (h.setNext (h.closed c (h.closed u hu c hnext))).moveTail

theorem removeFromSleepQueue (h : Outside t L s)
    (hr : Kernel.removeFromSleepQueue n c s = some s') : Outside t L s' := by
  unfold Kernel.removeFromSleepQueue at hr
  split at hr
  · cases hr
    exact h
  · rename_i head hhead
    split at hr
    · cases hr
      exact h.dequeue.1
    · split at hr
      · cases hr
      · cases hr
        exact h
      · rename_i u hf
        cases hr
        refine (h.bypass ?_ hf).setNext fun v hv => (by cases hv)
        rw [← hhead]
        exact h.heads .sleep

theorem removeFromReadyQueue (h : Outside t L s)
    (hr : Kernel.removeFromReadyQueue n c s = some s') : Outside t L s' := by
  unfold Kernel.removeFromReadyQueue at hr
  split at hr
  · rename_i hhead
    cases hr
    exact h.setQueue (h.closed c (h.heads .ready c hhead))
  · split at hr
    · cases hr
    · cases hr
      exact h
    · rename_i u hf
      cases hr
      exact h.bypass (h.heads .ready) hf

/-- A sleeper is taken out behind the sleeper `p`. -/
theorem bypassSleeper (h : Outside t L s) (hc : c ∈ L) (p : Option Addr) :
    Outside t L (Kernel.moveTail .sleep c p (p.elim (s.setQueue .sleep ⟨s.next c, (s.queue .sleep).tail⟩)
      fun b => s.setNext b (s.next c))) := by
  apply Outside.moveTail
  cases p with
  | none => exact h.setQueue (h.closed c hc)
  | some p => exact h.setNext (h.closed c hc)

theorem wakeOne (h : Outside t L s) (hc : c ∈ L) (p : Option Addr) :
    Outside t L (Kernel.wakeOne c p s) := by
  have hct : c ≠ t := fun e => h.out (e ▸ hc)
  have hempty : ∀ v ∈ (none : Option Addr), v ∈ L := fun v hv => by cases hv
  have hwoken := (((h.bypassSleeper hc p).setNext (u := c) hempty).setState (u := c) .ready).threadEnqueue hct
  rw [Set.insert_eq_of_mem hc] at hwoken
  cases p with
  | none => exact hwoken
  | some p => exact hwoken

/-- The sleepers that are woken have been found from the head of the sleep queue. -/
theorem wakeLoop (h : Outside t L s) {x p : Option Addr} (hx : ∀ v ∈ x, v ∈ L)
    (hr : Kernel.wakeLoop n x p s = some s') : Outside t L s' := by
  induction n generalizing x p s with
  | zero => cases hr
  | succ n ih =>
      cases x with
      | none =>
          cases hr
          exact h
      | some c =>
          have hc := hx c rfl
          unfold Kernel.wakeLoop at hr
          split at hr
          · have hnext := (h.bypassSleeper hc p).closed c hc
            have hwoken := h.wakeOne hc p
            cases p with
            | none => exact ih hwoken hnext hr
            | some p => exact ih hwoken hnext hr
          · exact ih h (h.closed c hc) hr

end Outside

theorem relinked_removeFromSleepQueue (hr : Kernel.removeFromSleepQueue n c s = some s') :
    Relinked s s' := by
  unfold Kernel.removeFromSleepQueue at hr
  split at hr
  · cases hr
    exact Relinked.refl s
  · split at hr
    · cases hr
      exact Relinked.dequeue .sleep s
    · split at hr
      · cases hr
      · cases hr
        exact Relinked.refl _
      · cases hr
        exact ((Relinked.setNext _ _ _).trans (Relinked.moveTail _ _ _ _)).trans
          (Relinked.setNext _ _ _)

theorem relinked_removeFromReadyQueue (hr : Kernel.removeFromReadyQueue n c s = some s') :
    Relinked s s' := by
  unfold Kernel.removeFromReadyQueue at hr
  split at hr
  · cases hr
    exact Relinked.setQueue _ _ _
  · split at hr
    · cases hr
    · cases hr
      exact Relinked.refl _
    · cases hr
      exact (Relinked.setNext _ _ _).trans (Relinked.moveTail _ _ _ _)

theorem relinked_wakeLoop {x p : Option Addr} (hr : Kernel.wakeLoop n x p s = some s') :
    Relinked s s' := by
  induction n generalizing x p s with
  | zero => cases hr
  | succ n ih =>
      cases x with
      | none =>
          cases hr
          exact Relinked.refl _
      | some c =>
          unfold Kernel.wakeLoop at hr
          split at hr
          · exact (wakeOne_relinked c p s).trans (ih hr)
          · exact ih hr

/-! ## The thread that `schedule()` takes -/

theorem head_threadEnqueue (c : Addr) (s : Kernel) :
    ((threadEnqueue c s).queue .ready).head ≠ none := by
  unfold threadEnqueue enqueue
  dsimp only
  split
  · simp
  · simp

theorem head_threadEnqueue_of_none (c : Addr) (h : (s.queue .ready).head = none) :
    ((threadEnqueue c s).queue .ready).head = some c := by
  unfold threadEnqueue enqueue
  dsimp only
  split
  · simp
  · rename_i v hv
    cases h.symm.trans hv

/-- The thread at the head of the ready queue stays there when others join. -/
theorem head_threadEnqueue_of_some (c : Addr) (h : (s.queue .ready).head = some u) :
    ((threadEnqueue c s).queue .ready).head = some u := by
  unfold threadEnqueue enqueue
  dsimp only
  split
  · rename_i hn
    cases h.symm.trans hn
  · rename_i v hv
    obtain rfl : u = v := Option.some.inj (h.symm.trans hv)
    simp

theorem head_wakeLoop {x p : Option Addr} (h : (s.queue .ready).head = some u)
    (hr : wakeLoop n x p s = some s') : (s'.queue .ready).head = some u := by
  induction n generalizing x p s with
  | zero => cases hr
  | succ n ih =>
      cases x with
      | none =>
          cases hr
          exact h
      | some c =>
          unfold wakeLoop at hr
          split at hr
          · refine ih (head_threadEnqueue_of_some c ?_) hr
            show ((moveTail .sleep c p _).queue .ready).head = some u
            cases p <;> unfold moveTail <;> dsimp only <;> split <;>
              simpa [setQueue, setNext, setTcb] using h
          · exact ih h hr

/-- Waking sleepers does not empty the ready queue. -/
theorem ready_wakeLoop {x p : Option Addr} (h : (s.queue .ready).head ≠ none)
    (hr : wakeLoop n x p s = some s') : (s'.queue .ready).head ≠ none := by
  induction n generalizing x p s with
  | zero => cases hr
  | succ n ih =>
      cases x with
      | none =>
          cases hr
          exact h
      | some c =>
          unfold wakeLoop at hr
          split at hr
          · exact ih (head_threadEnqueue c _) hr
          · exact ih h hr

/-- A sleeper that is due is found, whatever the pointers are. -/
theorem due_wakeLoop {x p : Option Addr} (h : Meets s.next u x) (hd : s.due u = true)
    (hr : wakeLoop n x p s = some s') : (s'.queue .ready).head ≠ none := by
  induction h generalizing n p with
  | here =>
      cases n with
      | zero => cases hr
      | succ n =>
          unfold wakeLoop at hr
          rw [if_pos (of_decide_eq_true hd)] at hr
          exact ready_wakeLoop (head_threadEnqueue u _) hr
  | @there c _ ih =>
      cases n with
      | zero => cases hr
      | succ n =>
          unfold wakeLoop at hr
          split at hr
          · exact ready_wakeLoop (head_threadEnqueue c _) hr
          · exact ih hr

theorem FindsReady.ready (h : FindsReady s)
    (hr : wakeSleepingThreads n (putBack s) = some s') : (s'.queue .ready).head ≠ none := by
  unfold wakeSleepingThreads putBack at hr
  split at hr
  · exact ready_wakeLoop (head_threadEnqueue _ _) hr
  · rename_i hnot
    rcases h with hrun | hhead | ⟨u, hm, hd⟩
    · exact absurd hrun hnot
    · exact ready_wakeLoop hhead hr
    · exact due_wakeLoop hm hd hr

/-! ## The functions -/

namespace Absent

theorem congr (h : Absent t s) (hnext : s'.next = s.next) (hqueue : s'.queue = s.queue)
    (hcur : s'.currentThread = s.currentThread) : Absent t s' :=
  ⟨h.outside.imp fun _ ho => ho.congr hnext hqueue, by rw [hcur]; exact h.notCurrent⟩

theorem agrees (h : Absent t s) (ha : Agrees s s') : Absent t s' :=
  h.congr ha.next ha.queue ha.currentThread

theorem setState (h : Absent t s) (x : ThreadState) : Absent t (s.setState u x) :=
  h.congr (next_setState _) rfl rfl

theorem push (h : Absent t s) (f : Frame) : Absent t (s.push f) := h.congr rfl rfl rfl

theorem relinked (h : Absent t s) (hr : Relinked s s') (ho : ∃ L, Outside t L s') :
    Absent t s' := ⟨ho, by rw [hr.currentThread]; exact h.notCurrent⟩

theorem not_meets (h : Absent t s) (q : QueueId) : ¬ Meets s.next t (s.queue q).head := by
  obtain ⟨L, ho⟩ := h.outside
  exact ho.closed.not_meets ho.out (ho.heads q)

theorem enqueue (h : Absent t s) (hu : u ≠ t) : Absent t (Kernel.enqueue q u s) := by
  obtain ⟨L, ho⟩ := h.outside
  exact h.relinked (Relinked.enqueue q u s) ⟨_, ho.enqueue hu⟩

theorem threadEnqueue (h : Absent t s) (hu : u ≠ t) : Absent t (Kernel.threadEnqueue u s) :=
  (h.enqueue hu).setState _

theorem dequeue (h : Absent t s) :
    Absent t (Kernel.dequeue q s).2 ∧ ∀ u ∈ (Kernel.dequeue q s).1, u ≠ t := by
  obtain ⟨L, ho⟩ := h.outside
  refine ⟨h.relinked (Relinked.dequeue q s) ⟨L, ho.dequeue.1⟩, ?_⟩
  rintro u hu rfl
  exact ho.out (ho.dequeue.2 u hu)

theorem wakeWaiter (h : Absent t s) : Absent t (Kernel.wakeWaiter (Kernel.dequeue q s)) := by
  obtain ⟨h1, hne⟩ := h.dequeue (q := q)
  unfold Kernel.wakeWaiter
  split
  · rename_i s1 he
    rw [he] at h1
    exact h1
  · rename_i u s1 he
    rw [he] at h1 hne
    exact (h1.setState .ready).threadEnqueue (hne u rfl)

theorem poolTcb (h : Absent t s) (u : Addr) : Absent t (Kernel.poolTcb u s) := by
  unfold Kernel.poolTcb
  dsimp only
  split
  · exact h.congr rfl rfl rfl
  · exact h.congr rfl rfl rfl

theorem killThread (h : Absent t s) (hr : Kernel.killThread n u s = some s') : Absent t s' := by
  obtain ⟨s1, hr1, hr⟩ := Option.bind_eq_some_iff.mp hr
  have h0 : Absent t (s.disableInterrupts.setState u .terminated) :=
    (h.congr rfl rfl rfl : Absent t s.disableInterrupts).setState _
  have h1 : Absent t s1 := by
    obtain ⟨L, ho⟩ := h0.outside
    exact h0.relinked (relinked_removeFromSleepQueue hr1) ⟨L, ho.removeFromSleepQueue hr1⟩
  have h2 : Absent t (releaseMemory u s1) := h1.agrees (agrees_releaseMemory u s1)
  dsimp only at hr
  split at hr
  · cases hr
    have h3 : Absent t (Kernel.poolTcb u (releaseMemory u s1)).enableInterrupts :=
      (h2.poolTcb u).congr rfl rfl rfl
    exact (h3.push .stop).push .schedule
  · obtain ⟨s2, hr2, hr⟩ := Option.bind_eq_some_iff.mp hr
    cases hr
    obtain ⟨L, ho⟩ := h2.outside
    have h3 := h2.relinked (relinked_removeFromReadyQueue hr2) ⟨L, ho.removeFromReadyQueue hr2⟩
    exact (h3.poolTcb u).congr rfl rfl rfl

theorem scheduleTail (h : Absent t s) (hr : Kernel.scheduleTail n s = some s') :
    Absent t s' := by
  unfold Kernel.scheduleTail at hr
  split at hr
  · cases hr
    exact h
  · split at hr
    · obtain ⟨s1, hr1, hr⟩ := Option.bind_eq_some_iff.mp hr
      cases hr
      exact (h.killThread hr1).push .reclaimed
    · cases hr
      exact h.congr rfl rfl rfl

theorem threadExit (h : Absent t s) (hr : Kernel.threadExit n s = some s') : Absent t s' := by
  obtain ⟨s1, hr1, hr⟩ := Option.bind_eq_some_iff.mp hr
  cases hr
  have h0 : Absent t (s.disableInterrupts.setState s.currentThread .terminated) :=
    (h.congr rfl rfl rfl : Absent t s.disableInterrupts).setState _
  obtain ⟨L, ho⟩ := h0.outside
  have h1 := h0.relinked (relinked_removeFromSleepQueue hr1) ⟨L, ho.removeFromSleepQueue hr1⟩
  exact (h1.push .stop).push .schedule

/-- A thread goes on whose TCB is not `t`. -/
theorem choose (h : Absent t s) (hu : u ≠ t) {p : Option Addr} :
    Absent t ({ s with schedulePrevThread := p, currentThread := u }.setState u .running) := by
  obtain ⟨L, ho⟩ := h.outside
  have h0 : Outside t L { s with schedulePrevThread := p, currentThread := u } := ho.congr rfl rfl
  exact ⟨⟨L, h0.setState _⟩, hu⟩

theorem schedule (h : Absent t s) (hf : t = s.systemKernelThread → FindsReady s)
    (hr : Kernel.schedule n s = some s') : Absent t s' := by
  obtain ⟨s1, hr1, hr⟩ := Option.bind_eq_some_iff.mp hr
  have hback : Absent t (Kernel.putBack s) ∧ Relinked s (Kernel.putBack s) := by
    unfold Kernel.putBack
    split
    · exact ⟨(h.setState .ready).threadEnqueue h.notCurrent,
        (Relinked.setState s _ _).trans (Relinked.threadEnqueue _ _)⟩
    · exact ⟨h, Relinked.refl s⟩
  have hrel1 := relinked_wakeLoop hr1
  have h1 : Absent t s1 := by
    obtain ⟨L, ho⟩ := hback.1.outside
    exact hback.1.relinked hrel1 ⟨L, ho.wakeLoop (ho.heads .sleep) hr1⟩
  have hrel2 : Relinked s1 (threadDequeue s1).2 := Relinked.dequeue .ready s1
  obtain ⟨h2, hne⟩ := h1.dequeue (q := .ready)
  have hsys : (threadDequeue s1).2.systemKernelThread = s.systemKernelThread := by
    rw [hrel2.rest, hrel1.rest, hback.2.rest]
  have hnext : (threadDequeue s1).1.getD (threadDequeue s1).2.systemKernelThread ≠ t := by
    cases hd : (threadDequeue s1).1 with
    | some u => exact hne u hd
    | none =>
        intro he
        have hready := (hf (he.symm.trans hsys)).ready hr1
        rw [threadDequeue, Kernel.dequeue] at hd
        split at hd
        · rename_i hhead
          exact hready hhead
        · cases hd
  dsimp only at hr
  split at hr
  · cases hr
    exact (h2.choose hnext).congr rfl rfl rfl
  · exact (h2.choose hnext).scheduleTail hr

theorem resume {c : Nat} (h : Absent t s) (hr : Kernel.resume n c s = some s') :
    Absent t s' := by
  unfold Kernel.resume at hr
  split at hr
  · exact h.scheduleTail hr
  · exact (h.congr rfl rfl rfl : Absent t { s with
      currentVmmDesc := (s.tcb s.currentThread).vmm }).scheduleTail hr

/-! ## Creation -/

theorem setTcb {b : Tcb} (h : Absent t s) (hb : b.next = none) : Absent t (s.setTcb u b) :=
  ⟨h.outside.imp fun _ ho => ho.setTcb hb, h.notCurrent⟩

theorem registerThread {b : Tcb} (h : Absent t s) (hb : b.next = none) :
    Absent t (Kernel.registerThread u b s) := by
  let s2 := { s.setTcb u { b with
      id := s.nextThreadId
      positionInTable := if s.nextTortPosition < tortSize then s.nextTortPosition else 0 } with
    nextThreadId := s.nextThreadId + 1 }.setStack u []
  have h1 : Absent t (s.setTcb u { b with
      id := s.nextThreadId
      positionInTable := if s.nextTortPosition < tortSize then s.nextTortPosition else 0 }) :=
    h.setTcb hb
  have h2 : Absent t s2 := h1.congr rfl rfl rfl
  let s3 := if s2.nextTortPosition < tortSize then
      { s2 with
        tort := Function.update s2.tort s2.nextTortPosition (some u)
        nextTortPosition := s2.nextTortPosition + 1 }
    else s2
  have h3 : Absent t s3 := by
    simp only [s3]
    split
    · exact h2.congr rfl rfl rfl
    · exact h2
  have hreg : Kernel.registerThread u b s = if b.useVmm then
      (switchVirtualManager (switchVirtualManager b.vmm s3).1 (switchVirtualManager b.vmm s3).2).2
    else s3 := rfl
  rw [hreg]
  split
  · exact (h3.agrees (agrees_switchVirtualManager _ _)).agrees (agrees_switchVirtualManager _ _)
  · exact h3

theorem startThread {b : Tcb} (h : Absent t s) (hu : u ≠ t) (hb : b.next = none) :
    Absent t (Kernel.startThread u b s) :=
  ((h.registerThread hb).threadEnqueue hu).congr rfl rfl rfl

theorem takeTcb (h : Absent t s) (page : Option Addr) : Absent t (Kernel.takeTcb page s).2 := by
  unfold Kernel.takeTcb
  split
  · exact (h.setTcb (b := Tcb.zero) rfl).congr rfl rfl rfl
  · split
    · exact h
    · exact h.congr rfl rfl rfl

theorem createThread {page : Option Addr} {stack size : Nat} {useVmm : Bool} {vmm : Addr}
    (h : Absent t s) (hne : (Kernel.takeTcb page s.disableInterrupts).1 ≠ some t) :
    Absent t (Kernel.createThread page stack size useVmm vmm s) := by
  have h0 : Absent t s.disableInterrupts := h.congr rfl rfl rfl
  have h1 := h0.takeTcb page
  unfold Kernel.createThread
  split
  · rename_i s1 he
    rw [he] at h1
    exact h1
  · rename_i u s1 he
    rw [he] at h1 hne
    split
    · exact h1.congr rfl rfl rfl
    · exact h1.startThread (fun e => hne (congrArg some e)) rfl

theorem createUserThread {page : Option Addr} {kernelStack size : Nat} {vmm : Addr}
    (h : Absent t s) (hne : page ≠ some t) :
    Absent t (Kernel.createUserThread page kernelStack size vmm s) := by
  unfold Kernel.createUserThread
  dsimp only
  split
  · exact h.congr rfl rfl rfl
  · rename_i u
    have h1 : Absent t (allocTcb u s.disableInterrupts) := h.congr rfl rfl rfl
    split
    · exact h1.congr rfl rfl rfl
    · exact h1.startThread (fun e => hne (congrArg some e)) rfl

/-! ## Steps -/

/-- The current thread goes into a wait queue or the sleep queue. -/
theorem block (h : Absent t s) (q : QueueId) :
    Absent t (Kernel.enqueue q s.currentThread (s.setState s.currentThread .blocked)) :=
  (h.setState .blocked).enqueue h.notCurrent

theorem sleepUntil (h : Absent t s) (w : UInt64) : Absent t (Kernel.sleepUntil w s) := by
  have h1 : Absent t (s.disableInterrupts.setTcb s.currentThread
      { s.tcb s.currentThread with wakeupTime := w }) :=
    h.congr ((next_setTcb _).trans (Function.update_eq_self _ _)) rfl rfl
  exact ((h1.block .sleep).push .slept).push .schedule

theorem call {c : Call} (h : Absent t s) (hP : Spares t s (.call c))
    (hr : Kernel.call n c s = some s') : Absent t s' := by
  cases c with
  | createThread page stack size useVmm vmm =>
      cases hr
      exact h.createThread hP
  | createKernelThread page stack size =>
      cases hr
      exact h.createThread hP
  | createUserThread page stack size vmm =>
      cases hr
      exact h.createUserThread hP
  | threadSleepMs ms =>
      cases hr
      unfold threadSleepMs
      split
      · exact h
      · exact h.sleepUntil _
  | threadSleepSecond sec =>
      cases hr
      unfold threadSleepSecond
      split
      · exact h
      · exact h.sleepUntil _
  | mutexLock m =>
      cases hr
      unfold mutexLock
      dsimp only
      split
      · exact h.congr rfl rfl rfl
      · exact h.congr rfl rfl rfl
  | mutexUnlock m =>
      cases hr
      unfold mutexUnlock
      dsimp only
      split
      · exact h.congr rfl rfl rfl
      · have h1 : Absent t (s.disableInterrupts.setMutex m ⟨false, none⟩) := h.congr rfl rfl rfl
        exact (h1.wakeWaiter (q := .mutex m)).congr rfl rfl rfl
  | semWait m =>
      cases hr
      exact h.congr rfl rfl rfl
  | semPost m =>
      cases hr
      have h1 : Absent t (s.disableInterrupts.setCount m (s.semCount m + 1)) :=
        h.congr rfl rfl rfl
      exact (h1.wakeWaiter (q := .sem m)).congr rfl rfl rfl
  | threadExit => exact h.threadExit hr
  | killThread u => exact h.killThread hr

theorem runFrame {f : Frame} (h : Absent t s)
    (hf : f = .schedule → t = s.systemKernelThread → FindsReady s)
    (hr : Kernel.runFrame n f s = some s') : Absent t s' := by
  cases f with
  | schedule => exact h.schedule (hf rfl) hr
  | switchTo c b => exact h.resume hr
  | reclaimed =>
      cases hr
      exact h.congr rfl rfl rfl
  | irq0 =>
      cases hr
      exact h.congr rfl rfl rfl
  | lockTest m =>
      cases hr
      unfold lockTest
      split
      · exact ((h.block (.mutex m)).push (.lockTest m)).push .schedule
      · exact h.push _
  | lockTake m =>
      cases hr
      exact h.congr rfl rfl rfl
  | waitTest m =>
      cases hr
      unfold waitTest
      split
      · exact ((h.block (.sem m)).push (.waitTest m)).push .schedule
      · exact h.push _
  | waitTake m =>
      cases hr
      exact h.congr rfl rfl rfl
  | slept =>
      cases hr
      exact h.congr rfl rfl rfl
  | stop =>
      cases hr
      exact h.push .stop

/-- A TCB that is in no queue stays out when the event does not hand it out. -/
theorem step {e : Event} (h : Absent t s) (hP : Spares t s e)
    (hr : Kernel.step n e s = some s') : Absent t s' := by
  have he := enabled_of_step hr
  cases e with
  | tick =>
      cases (if_pos he).symm.trans hr
      exact h.congr rfl rfl rfl
  | call c => exact h.call hP ((if_pos he).symm.trans hr)
  | run =>
      obtain ⟨f, k, hk, hrun⟩ := runFrame_of_step hr
      have h0 : Absent t (s.setStack s.currentThread k) := h.congr rfl rfl rfl
      refine h0.runFrame ?_ hrun
      rintro rfl ht
      exact hP ht ⟨k, hk⟩

theorem staysDead (h : Absent t s) : StaysDead t s := by
  intro u hu
  have hinv : Absent t u := hu.invariant h fun _ _ _ _ h hP hs => h.step hP hs
  exact hinv.not_meets

end Absent

/-! ## Runs -/

/-- Behind `KillThread` the TCB is in no queue if the thread waited for no mutex or semaphore. -/
theorem Killed.absent (hk : Killed s t s') (h : Queues s xs) (h' : Queues s' (erased xs t))
    (hc : t ≠ s.currentThread) (hw : ¬ Waits s t) : Absent t s' := by
  refine ⟨⟨{u | ∃ q, u ∈ erased xs t q}, ?_, ?_, ?_⟩, by rw [hk.currentThread]; exact Ne.symm hc⟩
  · rintro ⟨q, hm⟩
    exact hw (h.waits_iff.mpr ⟨q, (h.mem_erased q).mp hm⟩)
  · intro q u hu
    rw [(h'.listed q).head] at hu
    exact ⟨q, List.mem_of_head? hu⟩
  · rintro u ⟨q, hm⟩ v hv
    exact ⟨q, (h'.listed q).closed u hm v hv⟩

section Boot

variable {main idle bootStack idleStack kernelPml4 : Nat} {vmms : Addr → Vmm} {vmmDesc : Addr}
  {counts : Addr → Int}

theorem killThread_staysDead_iff (hne : main ≠ idle) (hstack : idleStack ≠ 0) {s s' : Kernel}
    {t : Addr} {n : Nat} (h : Reaches Fits
      (initMultitasking main idle bootStack idleStack kernelPml4 vmms vmmDesc counts) s)
    (hc : t ≠ s.currentThread) (hs : Kernel.step n (.call (.killThread t)) s = some s') :
    StaysDead t s' ↔ ¬ Waits s t := by
  obtain ⟨xs, hS⟩ := sched_reaches (fun _ _ hf => hf)
    ((booted_initMultitasking hne hstack).imp fun _ h0 => h0.sched) h
  obtain ⟨u, hrun, hq, hk⟩ := hS.toQueues.killThread hc
  rw [← hrun.result ((if_pos (enabled_of_step hs)).symm.trans hs)] at hq hk
  constructor
  · intro hdead hw
    obtain ⟨q, hm⟩ := hS.toQueues.waits_iff.mp hw
    exact hdead s' .start q ((hq.listed q).meets_iff.mpr ((hS.toQueues.mem_erased q).mpr hm))
  · intro hw
    exact (hk.absent hS.toQueues hq hc hw).staysDead

end Boot

/-- A ready thread is killed. -/
theorem killThread_staysDead_ready :
    ∃ s s', steps 5 [.call (.createThread (some 3) 8192 4096 false 0)]
        (initMultitasking 1 2 4096 8192 0 (fun _ => ⟨0, false⟩) 7 fun _ => 0) = some s ∧
      s.state 3 = .ready ∧ Kernel.step 5 (.call (.killThread 3)) s = some s' ∧ StaysDead 3 s' := by
  have hP : Meet Fits 5 [.call (.createThread (some 3) 8192 4096 false 0)]
      (initMultitasking 1 2 4096 8192 0 (fun _ => ⟨0, false⟩) 7 fun _ => 0) := by
    refine ⟨?_, fun _ _ => trivial⟩
    rintro t ⟨⟩
    decide
  refine ⟨_, _, rfl, rfl, rfl, ?_⟩
  refine (killThread_staysDead_iff (n := 5) (by decide) (by decide) (reaches_steps .start hP rfl)
    (by decide) rfl).mpr ?_
  rintro ⟨m, hm | hm⟩
  · cases (show Meets _ 3 none from hm)
  · cases (show Meets _ 3 none from hm)

/-- The thread 3 is killed while it waits for the main thread's mutex. -/
def killedWaiting : List Event :=
  [.call (.createThread (some 3) 8192 4096 false 0), .call (.mutexLock 9), .run, .run, .tick, .run,
    .tick, .run, .call (.mutexLock 9), .run, .run, .run, .run]

theorem killed_waiter_returns :
    ∃ s s', Reaches (fun _ _ => True)
        (initMultitasking 1 2 4096 8192 0 (fun _ => ⟨0, false⟩) 7 fun _ => 0) s ∧
      Alive s 3 ∧ 3 ≠ s.currentThread ∧
      Kernel.step 5 (.call (.killThread 3)) s = some s' ∧ ¬ StaysDead 3 s' := by
  have hrun : (steps 5 killedWaiting
      (initMultitasking 1 2 4096 8192 0 (fun _ => ⟨0, false⟩) 7 fun _ => 0)).any (fun s =>
        3 ∈ s.tcbs && s.state 3 ≠ .terminated && 3 ≠ s.currentThread &&
          (Kernel.step 5 (.call (.killThread 3)) s).any fun s1 =>
            (Kernel.step 5 (.call (.mutexUnlock 9)) s1).any fun s2 =>
              (s2.queue .ready).head = some 2 && s2.next 2 = some 3) = true := by decide +kernel
  obtain ⟨s, hs, h⟩ := (Option.any_eq_true _ _).mp hrun
  obtain ⟨h, hkill⟩ := Bool.and_eq_true_iff.mp h
  obtain ⟨h, hc⟩ := Bool.and_eq_true_iff.mp h
  obtain ⟨hk, ha⟩ := Bool.and_eq_true_iff.mp h
  obtain ⟨s1, hs1, h1⟩ := (Option.any_eq_true _ _).mp hkill
  obtain ⟨s2, hs2, h2⟩ := (Option.any_eq_true _ _).mp h1
  obtain ⟨hhead, hnext⟩ := Bool.and_eq_true_iff.mp h2
  refine ⟨s, s1, reaches_steps .start ?_ hs, ⟨of_decide_eq_true hk, of_decide_eq_true ha⟩,
    of_decide_eq_true hc, hs1, ?_⟩
  · exact meet_true 5 killedWaiting _
  · intro hdead
    refine hdead s2 (Reaches.start.step (e := .call (.mutexUnlock 9)) trivial hs2) .ready ?_
    rw [of_decide_eq_true hhead]
    refine .there ?_
    rw [of_decide_eq_true hnext]
    exact .here

end Kernel

end Os003
