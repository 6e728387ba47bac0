import Os003.Kernel.Scheduler

set_option autoImplicit false

/-! # Runs of the kernel

The creation of threads, and the invariant over whole runs: `Sched.step` puts the lemmas of
`Kernel.Scheduler` together, `sched_reaches` carries them over every run.

`Fits` are the circumstances under which a step keeps the invariant: a page that is allocated is
not in use already, a thread that is killed is alive and waits for no mutex or semaphore, a tick
comes only where the functions on the queues expect it, and `schedule()` finds a thread to run.
-/

namespace Os003

open Linked

/-- The places inside the functions that count on interrupts being off. -/
def Frame.isCritical : Frame → Bool
  | .schedule | .switchTo _ _ | .lockTest _ | .lockTake _ | .waitTest _ | .waitTake _ => true
  | _ => false

/-- The event creates a thread. -/
def Event.creates : Event → Bool
  | .call (.createThread _ _ _ _ _) => true
  | .call (.createKernelThread _ _ _) => true
  | .call (.createUserThread _ _ _ _) => true
  | _ => false

namespace Kernel

variable {s s' : Kernel} {xs xs' : QueueId → List Addr} {t : Addr} {f : Frame} {k : List Frame}

/-- The thread is in the wait queue of a mutex or a semaphore. -/
def Waits (s : Kernel) (t : Addr) : Prop :=
  ∃ m, Meets s.next t (s.queue (.mutex m)).head ∨ Meets s.next t (s.queue (.sem m)).head

/-- The thread has been created and has not ended. -/
def Alive (s : Kernel) (t : Addr) : Prop := t ∈ s.tcbs ∧ s.state t ≠ .terminated

/-- The circumstances of an event. -/
def Fits (s : Kernel) : Event → Prop
  | .tick => ∀ f ∈ s.stack s.currentThread, f.isCritical = false
  | .call (.createThread page _ _ _ _) => ∀ t, page = some t → t ∉ s.tcbs
  | .call (.createKernelThread page _ _) => ∀ t, page = some t → t ∉ s.tcbs
  | .call (.createUserThread page _ _ _) => ∀ t, page = some t → t ∉ s.tcbs
  | .call (.killThread t) => Alive s t ∧ t ≠ s.currentThread ∧ ¬ Waits s t
  | .call _ => True
  | .run => (∃ k, s.stack s.currentThread = .schedule :: k) → FindsReady s

/-- The event can happen. -/
def Enabled (s : Kernel) : Event → Prop
  | .tick => s.interrupts = true
  | .call _ => s.stack s.currentThread = []
  | .run => s.stack s.currentThread ≠ []

theorem Queues.waits_iff (h : Queues s xs) :
    Waits s t ↔ ∃ q, t ∈ xs q ∧ q ≠ .ready ∧ q ≠ .sleep := by
  constructor
  · rintro ⟨m, hm | hm⟩
    · exact ⟨.mutex m, (h.listed _).meets_iff.mp hm, by simp, by simp⟩
    · exact ⟨.sem m, (h.listed _).meets_iff.mp hm, by simp, by simp⟩
  · rintro ⟨q, hq, hr, hs⟩
    cases q with
    | ready => exact absurd rfl hr
    | sleep => exact absurd rfl hs
    | mutex m => exact ⟨m, Or.inl ((h.listed _).meets_iff.mpr hq)⟩
    | sem m => exact ⟨m, Or.inr ((h.listed _).meets_iff.mpr hq)⟩

/-! ## Creating threads -/

/-- A TCB `t` has been handed out; what the kernel holds apart from it is as before. -/
structure Handed (s : Kernel) (t : Addr) (s' : Kernel) : Prop where
  state : ∀ u, u ≠ t → s'.state u = s.state u
  mutex : s'.mutex = s.mutex
  currentThread : s'.currentThread = s.currentThread
  stack : ∀ u, u ≠ t → s'.stack u = s.stack u
  tcbs : ∀ u, u ≠ t → (u ∈ s'.tcbs ↔ u ∈ s.tcbs)
  base : s'.freeTcbList 0 = none
  filled : ∀ i, 1 ≤ i → i ≤ s'.numOfFreeTcb → ∃ u, s'.freeTcbList i = some u
  pooled : ∀ i u, 1 ≤ i → i ≤ s'.numOfFreeTcb → s'.freeTcbList i = some u →
    u ≠ t ∧ i ≤ s.numOfFreeTcb ∧ s.freeTcbList i = some u

/-- The queues and the pointers of all other TCBs are as before. -/
def SameQueues (s : Kernel) (t : Addr) (s' : Kernel) : Prop :=
  s'.queue = s.queue ∧ ∀ u, u ≠ t → s'.next u = s.next u

/-- A TCB in no queue, of a thread that is not alive. -/
structure Spare (s : Kernel) (xs : QueueId → List Addr) (t : Addr) : Prop where
  out : ∀ q, t ∉ xs q
  notCurrent : t ≠ s.currentThread
  notAlive : ¬ Alive s t

theorem Queues.outside (h : Queues s xs) (hs : SameQueues s t s') (ht : ∀ q, t ∉ xs q) :
    Queues s' xs := by
  refine ⟨?_, h.apart⟩
  intro q
  rw [hs.1]
  refine (h.listed q).congr ?_
  intro u hu
  exact hs.2 u fun e => ht q (e ▸ hu)

theorem Handed.pool (h : Handed s t s') (hs : Pool s) : Pool s' := by
  refine ⟨h.base, h.filled, ?_, ?_⟩
  · intro i j u hi1 hi hj1 hj hiu hju
    obtain ⟨_, hi', hiu'⟩ := h.pooled i u hi1 hi hiu
    obtain ⟨_, hj', hju'⟩ := h.pooled j u hj1 hj hju
    exact hs.distinct i j u hi1 hi' hj1 hj' hiu' hju'
  · rintro u ⟨i, h1, hi, hu⟩
    obtain ⟨hut, hi', hu'⟩ := h.pooled i u h1 hi hu
    obtain ⟨hk, hd, hc⟩ := hs.dead u ⟨i, h1, hi', hu'⟩
    exact ⟨(h.tcbs u hut).mpr hk, (h.state u hut).trans hd, by rw [h.currentThread]; exact hc⟩

/-- The scheduler's part of the kernel has not been touched since the TCB was handed out. -/
theorem Handed.agrees {u : Kernel} (h : Handed s t s') (ha : Agrees s' u) : Handed s t u := by
  refine ⟨?_, ha.mutex.trans h.mutex, ha.currentThread.trans h.currentThread, ?_, ?_, ?_, ?_, ?_⟩
  · rw [ha.state]; exact h.state
  · rw [ha.stack]; exact h.stack
  · rw [ha.tcbs]; exact h.tcbs
  · rw [ha.freeTcbList]; exact h.base
  · rw [ha.freeTcbList, ha.numOfFreeTcb]; exact h.filled
  · rw [ha.freeTcbList, ha.numOfFreeTcb]; exact h.pooled

/-- The invariant after a TCB has been handed out, whatever has become of it. -/
theorem Running.handOut (h : Running s xs) (hh : Handed s t s') (hs : Spare s xs t)
    (hq : Queues s' xs') (hmem : ∀ u, u ≠ t → ∀ q, u ∈ xs' q ↔ u ∈ xs q)
    (hready : t ∈ xs' .ready ↔ t ∈ s'.tcbs ∧ s'.state t = .ready)
    (hblocked : (∃ q, q ≠ .ready ∧ t ∈ xs' q) ↔ t ∈ s'.tcbs ∧ s'.state t = .blocked)
    (hrun : t ∈ s'.tcbs → s'.state t ≠ .running)
    (hstack : ∀ f ∈ (s'.stack t).tail, f.isSwitch = false) : Running s' xs' := by
  have hct : s.currentThread ≠ t := Ne.symm hs.notCurrent
  refine ⟨⟨h.toPlaced.move hq t hh.state hh.tcbs hmem hready hblocked, ?_, ?_, ?_,
    hh.pool h.pool⟩, ?_, ?_⟩
  · intro u hu hr
    rw [hh.currentThread]
    by_cases hut : u = t
    · subst hut
      exact absurd hr (hrun hu)
    · exact h.onlyRunning u ((hh.tcbs u hut).mp hu) ((hh.state u hut).symm.trans hr)
  · rw [hh.currentThread]
    exact (hh.tcbs _ hct).mpr h.current
  · intro u
    by_cases hut : u = t
    · subst hut; exact hstack
    · rw [hh.stack u hut]; exact h.frames u
  · rw [hh.currentThread, hh.state _ hct]
    exact h.running
  · rw [hh.currentThread, hh.stack _ hct]
    exact h.working

/-- The TCB on top of the pool. -/
theorem Running.popTcb (h : Running s xs) (hl : s.freeTcbList s.numOfFreeTcb = some t) :
    Handed s t (Kernel.popTcb t s) ∧ SameQueues s t (Kernel.popTcb t s) ∧ Spare s xs t ∧
      t ∈ s.tcbs := by
  have hpos : 1 ≤ s.numOfFreeTcb := by
    rcases Nat.eq_zero_or_pos s.numOfFreeTcb with h0 | hpos
    · rw [h0, h.pool.base] at hl
      cases hl
    · exact hpos
  obtain ⟨hk, hd, hc⟩ := h.pool.dead t ⟨s.numOfFreeTcb, hpos, le_refl _, hl⟩
  have hold : ∀ i, i ≠ s.numOfFreeTcb →
      (Kernel.popTcb t s).freeTcbList i = s.freeTcbList i := fun i hi =>
    Function.update_of_ne hi _ _
  refine ⟨⟨?_, rfl, rfl, fun _ _ => rfl, fun _ _ => Iff.rfl, ?_, ?_, ?_⟩, ⟨rfl, ?_⟩,
    ⟨?_, hc, fun ha => ha.2 hd⟩, hk⟩
  · intro u hu
    exact (congrFun (state_setTcb Tcb.zero) u).trans (Function.update_of_ne hu _ _)
  · rw [hold 0 (by omega)]
    exact h.pool.base
  · intro i h1 hi
    change i ≤ s.numOfFreeTcb - 1 at hi
    rw [hold i (by omega)]
    exact h.pool.filled i h1 (by omega)
  · intro i u h1 hi hu
    change i ≤ s.numOfFreeTcb - 1 at hi
    rw [hold i (by omega)] at hu
    refine ⟨?_, by omega, hu⟩
    rintro rfl
    have := h.pool.distinct i s.numOfFreeTcb u h1 (by omega) hpos (le_refl _) hu hl
    omega
  · intro u hu
    exact (congrFun (next_setTcb Tcb.zero) u).trans (Function.update_of_ne hu _ _)
  · exact h.toPlaced.not_mem (by rw [hd]; decide) (by rw [hd]; decide)

/-- A page that is not in use. -/
theorem Running.allocTcb (h : Running s xs) (ht : t ∉ s.tcbs) :
    Handed s t (Kernel.allocTcb t s) ∧ SameQueues s t (Kernel.allocTcb t s) ∧ Spare s xs t := by
  refine ⟨⟨fun _ _ => rfl, rfl, rfl, fun _ _ => rfl, ?_, h.pool.base, h.pool.filled, ?_⟩,
    ⟨rfl, fun _ _ => rfl⟩, ⟨?_, ?_, fun ha => ht ha.1⟩⟩
  · intro u hu
    show u ∈ t :: s.tcbs ↔ u ∈ s.tcbs
    simp [hu]
  · intro i u h1 hi hu
    refine ⟨?_, hi, hu⟩
    rintro rfl
    exact ht (h.pool.dead u ⟨i, h1, hi, hu⟩).1
  · intro q hm
    exact ht (h.toPlaced.known hm)
  · rintro rfl
    exact ht h.current

/-- A TCB whose thread got no stack goes back to the page allocator. -/
theorem Running.freeTcb (h : Running s xs) {s1 : Kernel} (hh : Handed s t s1)
    (hq : SameQueues s t s1) (hs : Spare s xs t) (hk : s1.stack t = s.stack t) :
    Running (Kernel.freeTcb t s1) xs ∧ Handed s t (Kernel.freeTcb t s1) ∧
      t ∉ (Kernel.freeTcb t s1).tcbs := by
  have hout : t ∉ (Kernel.freeTcb t s1).tcbs := by
    show t ∉ s1.tcbs.filter (· ≠ t)
    simp
  have hh' : Handed s t (Kernel.freeTcb t s1) := by
    refine ⟨hh.state, hh.mutex, hh.currentThread, hh.stack, ?_, hh.base, hh.filled, hh.pooled⟩
    intro u hu
    show u ∈ s1.tcbs.filter (· ≠ t) ↔ _
    simp [hu, hh.tcbs u hu]
  refine ⟨?_, hh', hout⟩
  have hqueues : Queues (Kernel.freeTcb t s1) xs := h.toQueues.outside hq hs.out
  refine h.handOut hh' hs hqueues (fun _ _ _ => Iff.rfl) ?_ ?_ (fun ht => absurd ht hout) ?_
  · simp [hs.out .ready, hout]
  · simp [hs.out, hout]
  · show ∀ f ∈ (s1.stack t).tail, _
    rw [hk]
    exact h.frames t

/-- The thread is registered; its stack is empty. -/
theorem registerThread_spec {s1 : Kernel} (h : Handed s t s1) (hq : SameQueues s t s1) (b : Tcb) :
    Handed s t (registerThread t b s1) ∧ SameQueues s t (registerThread t b s1) ∧
      (registerThread t b s1).tcbs = s1.tcbs ∧ (registerThread t b s1).stack t = [] := by
  let s2 := { s1.setTcb t { b with
      id := s1.nextThreadId
      positionInTable := if s1.nextTortPosition < tortSize then s1.nextTortPosition else 0 } with
    nextThreadId := s1.nextThreadId + 1 }.setStack t []
  have h2 : Handed s t s2 := by
    refine ⟨?_, h.mutex, h.currentThread, ?_, h.tcbs, h.base, h.filled, h.pooled⟩
    · intro u hu
      refine (congrFun (state_setTcb _) u).trans ?_
      rw [Function.update_of_ne hu]
      exact h.state u hu
    · intro u hu
      exact (Function.update_of_ne hu _ _).trans (h.stack u hu)
  have hq2 : SameQueues s t s2 := by
    refine ⟨hq.1, ?_⟩
    intro u hu
    refine (congrFun (next_setTcb _) u).trans ?_
    rw [Function.update_of_ne hu]
    exact hq.2 u hu
  have hempty : s2.stack t = [] := Function.update_self _ _ _
  let s3 := if s2.nextTortPosition < tortSize then
      { s2 with
        tort := Function.update s2.tort s2.nextTortPosition (some t)
        nextTortPosition := s2.nextTortPosition + 1 }
    else s2
  have ha3 : Agrees s2 s3 := by
    simp only [s3]
    split
    · exact ⟨rfl, rfl, rfl, rfl, rfl, rfl, rfl, rfl, rfl, rfl⟩
    · exact Agrees.refl s2
  have hreg : registerThread t b s1 = if b.useVmm then
      (switchVirtualManager (switchVirtualManager b.vmm s3).1 (switchVirtualManager b.vmm s3).2).2
    else s3 := rfl
  have ha : Agrees s2 (registerThread t b s1) := by
    rw [hreg]
    split
    · exact (ha3.trans (agrees_switchVirtualManager _ _)).trans (agrees_switchVirtualManager _ _)
    · exact ha3
  refine ⟨h2.agrees ha, ⟨ha.queue.trans hq2.1, ?_⟩, ha.tcbs, by rw [ha.stack]; exact hempty⟩
  rw [ha.next]
  exact hq2.2

/-- A new thread is ready. -/
theorem Running.startThread (h : Running s xs) {s1 : Kernel} (hh : Handed s t s1)
    (hq : SameQueues s t s1) (hs : Spare s xs t) (ht : t ∈ s1.tcbs) (b : Tcb) :
    ∃ xs', Running (Kernel.startThread t b s1) xs' ∧ Handed s t (Kernel.startThread t b s1) ∧
      (Kernel.startThread t b s1).stack t = [] ∧ (Kernel.startThread t b s1).state t = .ready ∧
      SameWaits .ready xs xs' := by
  obtain ⟨h2, hq2, htcbs2, hstack2⟩ := registerThread_spec hh hq b
  let s2 := registerThread t b s1
  let s3 := threadEnqueue t s2
  have hrel : Relinked s2 s3 := Relinked.threadEnqueue t s2
  have hqueues := (h.toQueues.outside hq2 hs.out).threadEnqueue hs.out
  -- it goes to the end of the ready queue
  have hstate3 : s3.state = Function.update s2.state t .ready := by
    simp [s3, threadEnqueue]
  have ht3 : t ∈ s3.tcbs := by
    rw [hrel.tcbs, show s2.tcbs = s1.tcbs from htcbs2]
    exact ht
  -- for the other threads nothing has changed
  have h3 : Handed s t s3.enableInterrupts := by
    refine ⟨?_, hrel.mutex.trans h2.mutex, hrel.currentThread.trans h2.currentThread, ?_, ?_, ?_,
      ?_, ?_⟩
    · intro u hu
      show s3.state u = _
      rw [hstate3, Function.update_of_ne hu]
      exact h2.state u hu
    · show ∀ u, u ≠ t → s3.stack u = _
      rw [hrel.stack]
      exact h2.stack
    · show ∀ u, u ≠ t → (u ∈ s3.tcbs ↔ _)
      rw [hrel.tcbs]
      exact h2.tcbs
    · show s3.freeTcbList 0 = none
      rw [hrel.freeTcbList]
      exact h2.base
    · show ∀ i, 1 ≤ i → i ≤ s3.numOfFreeTcb → ∃ u, s3.freeTcbList i = some u
      rw [hrel.freeTcbList, hrel.numOfFreeTcb]
      exact h2.filled
    · show ∀ i u, 1 ≤ i → i ≤ s3.numOfFreeTcb → s3.freeTcbList i = some u → _
      rw [hrel.freeTcbList, hrel.numOfFreeTcb]
      exact h2.pooled
  have hready : s3.state t = .ready := by rw [hstate3, Function.update_self]
  have hempty : s3.stack t = [] := by rw [hrel.stack]; exact hstack2
  refine ⟨_, h.handOut h3 hs (hqueues.congr rfl rfl) ?_ ?_ ?_ ?_ ?_, h3, hempty, hready,
    SameWaits.ready xs _⟩
  · intro u hu q
    exact mem_update_concat hu q
  · show _ ↔ t ∈ s3.tcbs ∧ s3.state t = .ready
    simp [ht3, hready]
  · show _ ↔ t ∈ s3.tcbs ∧ s3.state t = .blocked
    rw [hready]
    simp only [reduceCtorEq, and_false, iff_false]
    rintro ⟨q, hne, hm⟩
    rw [Function.update_of_ne hne] at hm
    exact hs.out q hm
  · intro _
    show s3.state t ≠ .running
    rw [hready]
    decide
  · show ∀ f ∈ (s3.stack t).tail, _
    rw [hempty]
    simp

/-- What a call that creates a thread has done: nothing but turning interrupts off, or a TCB has been
handed out, whose stack is then empty or as it was. -/
def Created (s s' : Kernel) : Prop :=
  s' = s.disableInterrupts ∨ ∃ t, ¬ Alive s t ∧ t ≠ s.currentThread ∧ Handed s t s' ∧
    (s'.stack t = [] ∨ s'.stack t = s.stack t) ∧ (t ∈ s'.tcbs → s'.state t = .ready)

theorem Running.create (h : Running s xs) {s1 : Kernel} (hh : Handed s.disableInterrupts t s1)
    (hq : SameQueues s.disableInterrupts t s1) (hs : Spare s.disableInterrupts xs t)
    (ht : t ∈ s1.tcbs) (hk : s1.stack t = s.stack t) (b : Tcb) (free : Prop) [Decidable free] :
    ∃ xs', Running (if free then Kernel.freeTcb t s1 else Kernel.startThread t b s1) xs' ∧
      Created s (if free then Kernel.freeTcb t s1 else Kernel.startThread t b s1) ∧
      SameWaits .ready xs xs' := by
  have hoff : Running s.disableInterrupts xs := h.interrupts false
  have hold : ∀ {s'}, Handed s.disableInterrupts t s' → Handed s t s' := fun h' =>
    ⟨h'.state, h'.mutex, h'.currentThread, h'.stack, h'.tcbs, h'.base, h'.filled, h'.pooled⟩
  split
  · obtain ⟨hrun, hh', hout⟩ := hoff.freeTcb hh hq hs hk
    exact ⟨xs, hrun, Or.inr ⟨t, hs.notAlive, hs.notCurrent, hold hh', Or.inr hk,
      fun ht => absurd ht hout⟩, SameWaits.refl _ xs⟩
  · obtain ⟨xs', hrun, hh', hempty, hready, hw⟩ := hoff.startThread hh hq hs ht b
    exact ⟨xs', hrun, Or.inr ⟨t, hs.notAlive, hs.notCurrent, hold hh', Or.inl hempty,
      fun _ => hready⟩, hw⟩

theorem Running.createThread (h : Running s xs) (page : Option Addr) (stack size : Nat)
    (useVmm : Bool) (vmm : Addr) (hpage : ∀ t, page = some t → t ∉ s.tcbs) :
    ∃ xs', Running (Kernel.createThread page stack size useVmm vmm s) xs' ∧
      Created s (Kernel.createThread page stack size useVmm vmm s) ∧ SameWaits .ready xs xs' := by
  have hoff : Running s.disableInterrupts xs := h.interrupts false
  unfold Kernel.createThread takeTcb
  cases hl : s.disableInterrupts.freeTcbList s.disableInterrupts.numOfFreeTcb with
  | some t =>
      obtain ⟨hh, hq, hs, ht⟩ := hoff.popTcb hl
      exact h.create hh hq hs ht rfl _ _
  | none =>
      cases page with
      | none => exact ⟨xs, hoff, Or.inl rfl, SameWaits.refl _ xs⟩
      | some t =>
          obtain ⟨hh, hq, hs⟩ := hoff.allocTcb (hpage t rfl)
          exact h.create hh hq hs List.mem_cons_self rfl _ _

theorem Running.createUserThread (h : Running s xs) (page : Option Addr)
    (kernelStack size : Nat) (vmm : Addr) (hpage : ∀ t, page = some t → t ∉ s.tcbs) :
    ∃ xs', Running (Kernel.createUserThread page kernelStack size vmm s) xs' ∧
      Created s (Kernel.createUserThread page kernelStack size vmm s) ∧
      SameWaits .ready xs xs' := by
  have hoff : Running s.disableInterrupts xs := h.interrupts false
  unfold Kernel.createUserThread
  cases page with
  | none => exact ⟨xs, hoff, Or.inl rfl, SameWaits.refl _ xs⟩
  | some t =>
      obtain ⟨hh, hq, hs⟩ := hoff.allocTcb (hpage t rfl)
      exact h.create hh hq hs List.mem_cons_self rfl _ _

/-! ## Steps and runs -/

/-- Only in front of `schedule()` the current thread may have blocked or ended. -/
theorem Sched.state_running (h : Sched s xs)
    (hk : ∀ k, s.stack s.currentThread ≠ .schedule :: k) : s.state s.currentThread = .running := by
  rcases h.currentState with hr | ⟨_, k, he⟩
  · exact hr
  · exact absurd he (hk k)

/-- Outside `schedule()` the current thread is at work. -/
theorem Sched.running (h : Sched s xs) (hk : ∀ k, s.stack s.currentThread ≠ .schedule :: k)
    (hw : ∀ f ∈ s.stack s.currentThread, f.isSwitch = false) : Running s xs :=
  ⟨h.toCore, h.state_running hk, hw⟩

theorem Sched.runningOfCall (h : Sched s xs) (he : s.stack s.currentThread = []) :
    Running s xs := by
  refine h.running ?_ ?_
  · intro k hk
    rw [he] at hk
    cases hk
  · rw [he]
    simp

theorem Sched.runningOfTick (h : Sched s xs)
    (hf : ∀ f ∈ s.stack s.currentThread, f.isCritical = false) : Running s xs := by
  refine h.running ?_ ?_
  · intro k hk
    have := hf .schedule (by rw [hk]; exact List.mem_cons_self)
    cases this
  · intro f hm
    have := hf f hm
    cases f <;> simp_all [Frame.isCritical, Frame.isSwitch]

theorem Running.tick (h : Running s xs) : Running (Kernel.tick s) xs := by
  have h1 : Running { s with
      timerTicks := if 0xFFFFFFFFFFFFFFFF ≤ s.timerTicks then 0 else s.timerTicks + 1
      interrupts := false } xs := h.other rfl rfl rfl rfl rfl rfl rfl
  exact (h1.push rfl).push rfl

/-- The wait queue that an event works on; `.ready` when there is none. -/
def waitQueue (s : Kernel) : Event → QueueId
  | .call (.mutexUnlock m) => .mutex m
  | .call (.semPost m) => .sem m
  | .run =>
      match s.stack s.currentThread with
      | .lockTest m :: _ => .mutex m
      | .waitTest m :: _ => .sem m
      | _ => .ready
  | _ => .ready

/-- A call from a thread's own code. -/
theorem Running.call (h : Running s xs) (c : Call) (hf : Fits s (.call c)) :
    ∃ s' xs', Settles (fun n => Kernel.call n c s) s' ∧ Sched s' xs' ∧
      SameWaits (waitQueue s (.call c)) xs xs' := by
  cases c with
  | createThread page stack size useVmm vmm =>
      obtain ⟨xs', h', _, hw⟩ := h.createThread page stack size useVmm vmm hf
      exact ⟨_, xs', Settles.const _, h'.sched, hw⟩
  | createKernelThread page stack size =>
      obtain ⟨xs', h', _, hw⟩ := h.createThread page stack
        (roundUp size) false s.currentVmmDesc hf
      exact ⟨_, xs', Settles.const _, h'.sched, hw⟩
  | createUserThread page stack size vmm =>
      obtain ⟨xs', h', _, hw⟩ := h.createUserThread page stack size vmm hf
      exact ⟨_, xs', Settles.const _, h'.sched, hw⟩
  | threadSleepMs ms =>
      by_cases h0 : ms = 0
      · refine ⟨s, xs, (Settles.const s).congr ?_, h.sched, SameWaits.refl _ xs⟩
        intro n
        simp [Kernel.call, threadSleepMs, h0]
      · obtain ⟨xs', h', hw⟩ := h.sleepUntil (s.timerTicks + ms * pitClockFreq / 1000)
        refine ⟨_, xs', (Settles.const _).congr ?_, h', hw⟩
        intro n
        simp only [Kernel.call, threadSleepMs, if_neg h0]
  | threadSleepSecond sec =>
      by_cases h0 : sec = 0
      · refine ⟨s, xs, (Settles.const s).congr ?_, h.sched, SameWaits.refl _ xs⟩
        intro n
        simp [Kernel.call, threadSleepSecond, h0]
      · obtain ⟨xs', h', hw⟩ := h.sleepUntil (s.timerTicks + sec * pitClockFreq)
        refine ⟨_, xs', (Settles.const _).congr ?_, h', hw⟩
        intro n
        simp only [Kernel.call, threadSleepSecond, if_neg h0]
  | mutexLock m => exact ⟨_, xs, Settles.const _, (h.mutexLock m).sched, SameWaits.refl _ xs⟩
  | mutexUnlock m =>
      obtain ⟨xs', h', hw⟩ := h.mutexUnlock m
      exact ⟨_, xs', Settles.const _, h'.sched, hw⟩
  | semWait m => exact ⟨_, xs, Settles.const _, (h.semWait m).sched, SameWaits.refl _ xs⟩
  | semPost m =>
      obtain ⟨xs', h', hw, _⟩ := h.semPost m
      exact ⟨_, xs', Settles.const _, h'.sched, hw⟩
  | threadExit =>
      obtain ⟨s', hrun, h', _⟩ := h.threadExit
      exact ⟨s', xs, hrun, h', SameWaits.refl _ xs⟩
  | killThread t =>
      obtain ⟨⟨hk, ha⟩, hc, hw⟩ := hf
      -- a thread to kill may be ready or asleep, but `Fits` keeps it out of the wait queues
      have hplace : ∀ q, t ∈ xs q → q = .ready ∨ q = .sleep := by
        intro q hq
        by_contra hother
        obtain ⟨hr, hs⟩ := not_or.mp hother
        exact hw (h.toQueues.waits_iff.mpr ⟨q, hq, hr, hs⟩)
      obtain ⟨s', hrun, h', hkill⟩ := h.toCore.killThread hk hc hplace fun hp =>
        ha (h.pool.dead t hp).2.1
      refine ⟨s', _, hrun, Running.sched ⟨h', ?_, ?_⟩,
        (SameWaits.sleep xs _).trans (SameWaits.ready _ _)⟩
      · rw [hkill.state, hkill.currentThread, Function.update_of_ne (Ne.symm hc)]
        exact h.running
      · rw [hkill.stack, hkill.currentThread]
        exact h.working

/-- A thread that has not blocked and not ended runs or is in the ready queue. -/
theorem Sched.findsReady (h : Sched s xs) (ht : t ∈ s.tcbs) (hb : s.state t ≠ .blocked)
    (hd : s.state t ≠ .terminated) : FindsReady s := by
  cases hst : s.state t with
  | ready =>
      right
      left
      have hm := (h.ready_iff t).mpr ⟨ht, hst⟩
      rw [(h.listed .ready).head]
      intro hnil
      rw [List.head?_eq_none_iff.mp hnil] at hm
      cases hm
  | running =>
      left
      rw [← h.onlyRunning t ht hst]
      exact hst
  | blocked => exact absurd hst hb
  | terminated => exact absurd hst hd

/-- The kernel at the start of `schedule()`. -/
theorem Sched.atSchedule (h : Sched s xs) (hk : s.stack s.currentThread = .schedule :: k) :
    Core (s.setStack s.currentThread k) xs ∧
      ∀ g ∈ (s.setStack s.currentThread k).stack s.currentThread, g.isSwitch = false := by
  have hframes := h.frames s.currentThread
  rw [hk, List.tail_cons] at hframes
  have hstack : (s.setStack s.currentThread k).stack s.currentThread = k :=
    Function.update_self _ _ _
  refine ⟨h.toCore.congr rfl rfl rfl rfl rfl rfl rfl ?_ ?_, ?_⟩
  · intro t ht
    exact Function.update_of_ne ht _ _
  · rw [hstack]
    intro g hg
    exact hframes g (List.mem_of_mem_tail hg)
  · rw [hstack]
    exact hframes

/-- The current thread goes on with the rest of its stack when it leaves another function. -/
theorem Sched.pop (h : Sched s xs) (hk : s.stack s.currentThread = f :: k) (hf : f ≠ .schedule) :
    Running (s.setStack s.currentThread k) xs := by
  refine h.toCore.pop (h.state_running fun k' hk' => ?_) hk
  exact hf (List.cons.inj (hk.symm.trans hk')).1

/-- The thread that `switch_to` has switched to goes on behind it. -/
theorem Sched.resume (h : Sched s xs) {c : Nat} {b : Bool}
    (hk : s.stack s.currentThread = .switchTo c b :: k) :
    ∃ s' xs', Settles (fun n => Kernel.resume n c (s.setStack s.currentThread k)) s' ∧
      Running s' xs' ∧ Resumed (s.setStack s.currentThread k) s' ∧ SameWaits .ready xs xs' := by
  obtain ⟨p, hprev, hp, hpc, hpool⟩ := h.pending c b k hk
  exact (h.pop hk (by simp)).resume c hprev hp hpc hpool

theorem waitQueue_run (hk : s.stack s.currentThread = f :: k) :
    waitQueue s .run = match f with
      | .lockTest m => .mutex m
      | .waitTest m => .sem m
      | _ => .ready := by
  simp only [waitQueue, hk]
  cases f <;> rfl

/-- The current thread goes on inside a function. -/
theorem Sched.runFrame (h : Sched s xs) (hk : s.stack s.currentThread = f :: k)
    (hf : Fits s .run) :
    ∃ s' xs', Settles (fun n => Kernel.runFrame n f (s.setStack s.currentThread k)) s' ∧
      Sched s' xs' ∧ SameWaits (waitQueue s .run) xs xs' := by
  rw [waitQueue_run hk]
  by_cases hsch : f = .schedule
  · subst hsch
    obtain ⟨hcore, hworking⟩ := h.atSchedule hk
    obtain ⟨s', xs', hrun, h', _, hw⟩ := hcore.schedule hworking (hf ⟨k, hk⟩)
    exact ⟨s', xs', hrun, h', hw⟩
  · have h0 := h.pop hk hsch
    cases f with
    | schedule => exact absurd rfl hsch
    | switchTo c b =>
        obtain ⟨s', xs', hrun, h', _, hw⟩ := h.resume hk
        exact ⟨s', xs', hrun, h'.sched, hw⟩
    | reclaimed =>
        let s1 := { s.setStack s.currentThread k with schedulePrevThread := none }
        have h1 : Running s1 xs := h0.other rfl rfl rfl rfl rfl rfl rfl
        exact ⟨s1, xs, Settles.const _, h1.sched, SameWaits.refl _ xs⟩
    | irq0 => exact ⟨_, xs, Settles.const _, (h0.interrupts true).sched, SameWaits.refl _ xs⟩
    | lockTest m =>
        obtain ⟨xs', h', hw⟩ := h0.lockTest m
        exact ⟨_, xs', Settles.const _, h', hw⟩
    | lockTake m => exact ⟨_, xs, Settles.const _, (h0.lockTake m).sched, SameWaits.refl _ xs⟩
    | waitTest m =>
        obtain ⟨xs', h', hw, _⟩ := h0.waitTest m
        exact ⟨_, xs', Settles.const _, h', hw⟩
    | waitTake m => exact ⟨_, xs, Settles.const _, (h0.waitTake m).sched, SameWaits.refl _ xs⟩
    | slept => exact ⟨_, xs, Settles.const _, (h0.interrupts true).sched, SameWaits.refl _ xs⟩
    | stop => exact ⟨_, xs, Settles.const _, (h0.push rfl).sched, SameWaits.refl _ xs⟩

/-- A step that fits ends, and the invariant holds behind it. -/
theorem Sched.step (h : Sched s xs) {e : Event} (he : Enabled s e) (hf : Fits s e) :
    ∃ s' xs', Settles (fun n => Kernel.step n e s) s' ∧ Sched s' xs' ∧
      SameWaits (waitQueue s e) xs xs' := by
  cases e with
  | tick =>
      refine ⟨_, xs, (Settles.const _).congr ?_, ((h.runningOfTick hf).tick).sched,
        SameWaits.refl _ xs⟩
      intro n
      exact if_pos he
  | call c =>
      obtain ⟨s', xs', hrun, h', hw⟩ := (h.runningOfCall he).call c hf
      refine ⟨s', xs', hrun.congr ?_, h', hw⟩
      intro n
      exact if_pos he
  | run =>
      obtain ⟨f, k, hk⟩ := List.exists_cons_of_ne_nil he
      obtain ⟨s', xs', hrun, h', hw⟩ := h.runFrame hk hf
      refine ⟨s', xs', hrun.congr ?_, h', hw⟩
      intro n
      simp only [Kernel.step, hk]

/-- A step that has been taken was enabled. -/
theorem enabled_of_step {n : Nat} {e : Event} (h : Kernel.step n e s = some s') : Enabled s e := by
  cases e with
  | tick =>
      by_contra hne
      cases (if_neg hne).symm.trans h
  | call c =>
      by_contra hne
      cases (if_neg hne).symm.trans h
  | run =>
      intro hnil
      simp only [Kernel.step, hnil] at h
      cases h

/-- Going on inside a function is going on with its innermost frame. -/
theorem runFrame_of_step {n : Nat} (h : Kernel.step n .run s = some s') :
    ∃ f k, s.stack s.currentThread = f :: k ∧
      Kernel.runFrame n f (s.setStack s.currentThread k) = some s' := by
  obtain ⟨f, k, hk⟩ := List.exists_cons_of_ne_nil (enabled_of_step h)
  refine ⟨f, k, hk, ?_⟩
  simpa only [Kernel.step, hk] using h

/-! ## What a step does -/

/-- What a step does to the threads. -/
inductive Moves (s : Kernel) (e : Event) (s' : Kernel) : Prop
  /-- The current thread stays at work. -/
  | stays {k : List Frame} (h : Stays s k s') (hk : ∀ f ∈ k, f.isSwitch = false)
  /-- The current thread has blocked or ended and stands at the call of `schedule()`. -/
  | leaves {f : Frame} {k : List Frame} {x : ThreadState}
      (hx : x = .blocked ∨ x = .terminated ∧ e = .call .threadExit) (htcbs : s'.tcbs = s.tcbs)
      (hcur : s'.currentThread = s.currentThread)
      (hstate : s'.state = Function.update s.state s.currentThread x)
      (hstack : s'.stack = Function.update s.stack s.currentThread (.schedule :: f :: k))
  /-- A thread has been created. -/
  | created (he : e.creates = true) (hk : s.stack s.currentThread = []) (h : Created s s')
  /-- A thread has been killed by another one. -/
  | killed {t : Addr} (he : e = .call (.killThread t)) (hk : s.stack s.currentThread = [])
      (h : Killed s t s')
  /-- `schedule()` has been called. -/
  | switched {k : List Frame} (he : e = .run) (hk : s.stack s.currentThread = .schedule :: k)
      (hw : ∀ f ∈ k, f.isSwitch = false) (h : Switched (s.setStack s.currentThread k) s')
  /-- The current thread has come back from `switch_to`. -/
  | resumed {c : Nat} {b : Bool} {k : List Frame} (he : e = .run)
      (hk : s.stack s.currentThread = .switchTo c b :: k) (hw : ∀ f ∈ k, f.isSwitch = false)
      (h : Resumed (s.setStack s.currentThread k) s')

theorem Running.moves_call (h : Running s xs) (hk : s.stack s.currentThread = []) {c : Call}
    (hf : Fits s (.call c)) {n : Nat} (hs : Kernel.call n c s = some s') :
    Moves s (.call c) s' := by
  -- a call returns, leaves a frame of its own on the stack, or sends the thread away
  have hkeep : ∀ {u}, Stays s (s.stack s.currentThread) u → Moves s (.call c) u :=
    fun hu => .stays hu h.working
  have hpush : ∀ {f u}, f.isSwitch = false → Stays s (f :: s.stack s.currentThread) u →
      Moves s (.call c) u := fun hf hu =>
    .stays hu (List.forall_mem_cons.mpr ⟨hf, h.working⟩)
  have hleave : ∀ {f x u}, (x = .blocked ∨ x = .terminated ∧ c = .threadExit) →
      Leaves s.disableInterrupts f x u → Moves s (.call c) u := by
    intro f x u hx hl
    refine .leaves ?_ hl.tcbs hl.currentThread hl.state hl.stack
    exact hx.imp id fun hx => ⟨hx.1, congrArg Event.call hx.2⟩
  cases c with
  | createThread page stack size useVmm vmm =>
      cases hs
      obtain ⟨_, _, hc, _⟩ := h.createThread page stack size useVmm vmm hf
      exact .created rfl hk hc
  | createKernelThread page stack size =>
      cases hs
      obtain ⟨_, _, hc, _⟩ := h.createThread page stack
        (roundUp size) false s.currentVmmDesc hf
      exact .created rfl hk hc
  | createUserThread page stack size vmm =>
      cases hs
      obtain ⟨_, _, hc, _⟩ := h.createUserThread page stack size vmm hf
      exact .created rfl hk hc
  | threadSleepMs ms =>
      cases hs
      unfold threadSleepMs
      split
      · exact hkeep (.of_eq rfl rfl rfl rfl)
      · exact hleave (.inl rfl) (sleepUntil_spec _ s).2
  | threadSleepSecond sec =>
      cases hs
      unfold threadSleepSecond
      split
      · exact hkeep (.of_eq rfl rfl rfl rfl)
      · exact hleave (.inl rfl) (sleepUntil_spec _ s).2
  | mutexLock m =>
      cases hs
      rcases (mutexLock_spec m s).2 with ⟨_, _, hst⟩ | ⟨_, _, hst⟩
      · exact hkeep hst
      · exact hpush rfl hst
  | mutexUnlock m =>
      cases hs
      exact hkeep (h.mutexUnlock_spec m).2.1
  | semWait m =>
      cases hs
      exact hpush rfl ((stays_push s _).other rfl rfl rfl rfl)
  | semPost m =>
      cases hs
      exact hkeep (h.semPost_spec m).2.1
  | threadExit =>
      obtain ⟨u, hset, _, hl⟩ := h.threadExit
      rw [hset.result hs]
      exact hleave (.inr ⟨rfl, rfl⟩) hl
  | killThread t =>
      obtain ⟨u, hset, _, hkill⟩ := h.toQueues.killThread hf.2.1
      rw [hset.result hs]
      exact .killed rfl hk hkill

/-- Outside `schedule()` the thread goes on with the frames `k`. -/
theorem Running.moves_runFrame (h : Running (s.setStack s.currentThread k) xs)
    (hk : s.stack s.currentThread = f :: k) (hf : f ≠ .schedule)
    (hp : ∀ c b, f = .switchTo c b → ∃ p, s.schedulePrevThread = some p ∧ p ∈ s.tcbs ∧
      p ≠ s.currentThread ∧ (s.state p = .terminated → ¬ Pooled s p)) {n : Nat}
    (hs : Kernel.runFrame n f (s.setStack s.currentThread k) = some s') : Moves s .run s' := by
  have hself : (s.setStack s.currentThread k).stack s.currentThread = k :=
    Function.update_self _ _ _
  have hw : ∀ g ∈ k, g.isSwitch = false := by
    have hworking := h.working
    rwa [show (s.setStack s.currentThread k).currentThread = s.currentThread from rfl,
      hself] at hworking
  -- a frame only changes the top of its own stack, sends the thread to a queue, or resumes another
  have hstays : ∀ {k' u}, Stays (s.setStack s.currentThread k) k' u →
      (∀ g ∈ k', g.isSwitch = false) → Moves s .run u := by
    intro k' u hu hk'
    refine .stays ⟨hu.tcbs, hu.currentThread, hu.state, ?_⟩ hk'
    rw [hu.stack]
    exact Function.update_idem _ _ _
  have hkeep : ∀ {u : Kernel}, u.tcb = s.tcb → u.tcbs = s.tcbs →
      u.currentThread = s.currentThread → u.stack = (s.setStack s.currentThread k).stack →
      Moves s .run u := by
    intro u htcb htcbs hcur hstack
    have hu : Stays (s.setStack s.currentThread k)
        ((s.setStack s.currentThread k).stack s.currentThread) u := .of_eq htcb htcbs hcur hstack
    rw [hself] at hu
    exact hstays hu hw
  have hpush : ∀ {g u}, g.isSwitch = false → Stays (s.setStack s.currentThread k)
      (g :: (s.setStack s.currentThread k).stack s.currentThread) u → Moves s .run u := by
    intro g u hg hu
    rw [hself] at hu
    exact hstays hu (List.forall_mem_cons.mpr ⟨hg, hw⟩)
  have hleave : ∀ {g u}, Leaves (s.setStack s.currentThread k) g .blocked u →
      Moves s .run u := by
    intro g u hl
    refine .leaves (.inl rfl) hl.tcbs hl.currentThread hl.state (f := g) (k := k) ?_
    rw [hl.stack]
    show Function.update (Function.update s.stack s.currentThread k) s.currentThread
      (.schedule :: g :: (s.setStack s.currentThread k).stack s.currentThread) = _
    rw [hself, Function.update_idem]
  cases f with
  | schedule => exact absurd rfl hf
  -- the second half of `switch_to`, which kills the thread it has left if that one has ended
  | switchTo c b =>
      obtain ⟨p, hprev, hmem, hc, hpool⟩ := hp c b rfl
      obtain ⟨u, _, hset, _, hr, _⟩ := h.resume c hprev hmem hc hpool
      rw [hset.result hs]
      exact .resumed rfl hk hw hr
  | reclaimed =>
      cases hs
      exact hkeep rfl rfl rfl rfl
  | irq0 =>
      cases hs
      exact hkeep rfl rfl rfl rfl
  | lockTest m =>
      cases hs
      rcases lockTest_spec m (s.setStack s.currentThread k) with ⟨_, hl⟩ | ⟨_, _, _, hst⟩
      · exact hleave hl
      · exact hpush rfl hst
  | lockTake m =>
      cases hs
      exact hkeep rfl rfl rfl rfl
  | waitTest m =>
      cases hs
      rcases waitTest_spec m (s.setStack s.currentThread k) with ⟨_, hl⟩ | ⟨_, _, _, hst⟩
      · exact hleave hl
      · exact hpush rfl hst
  | waitTake m =>
      cases hs
      exact hkeep rfl rfl rfl rfl
  | slept =>
      cases hs
      exact hkeep rfl rfl rfl rfl
  | stop =>
      cases hs
      exact hpush rfl (stays_push _ .stop)

theorem Sched.moves (h : Sched s xs) {e : Event} (hf : Fits s e) {n : Nat}
    (hs : Kernel.step n e s = some s') : Moves s e s' := by
  have he := enabled_of_step hs
  cases e with
  | tick =>
      have hR := h.runningOfTick hf
      rw [Option.some.inj (hs.symm.trans (if_pos he))]
      refine .stays (k := .schedule :: .irq0 :: s.stack s.currentThread)
        ⟨rfl, rfl, fun _ => .inl rfl, ?_⟩ ?_
      · simp [Kernel.tick]
      · exact List.forall_mem_cons.mpr ⟨rfl, List.forall_mem_cons.mpr ⟨rfl, hR.working⟩⟩
  | call c => exact (h.runningOfCall he).moves_call he hf ((if_pos he).symm.trans hs)
  | run =>
      obtain ⟨f, k, hfk, hrun⟩ := runFrame_of_step hs
      by_cases hsch : f = .schedule
      · subst hsch
        obtain ⟨hcore, hworking⟩ := h.atSchedule hfk
        obtain ⟨u, _, hset, _, hsw, _⟩ := hcore.schedule hworking (hf ⟨k, hfk⟩)
        rw [hset.result hrun]
        refine .switched rfl hfk (fun g hg => hworking g ?_) hsw
        show g ∈ Function.update s.stack s.currentThread k s.currentThread
        rwa [Function.update_self]
      · refine (h.pop hfk hsch).moves_runFrame hfk hsch ?_ hrun
        rintro c b rfl
        exact h.pending c b k hfk

/-- Only creating, killing and ending make a difference to which threads have ended. -/
theorem Moves.dead {e : Event} (h : Moves s e s') (hc : e.creates = false)
    (hk : ∀ t, e ≠ .call (.killThread t)) (hx : e ≠ .call .threadExit)
    (hcur : s.state s.currentThread ≠ .terminated) (u : Addr) :
    s'.state u = .terminated ↔ s.state u = .terminated := by
  cases h with
  | stays hst _ =>
      rcases hst.state u with hu | ⟨hb, hr⟩
      · rw [hu]
      · simp [hb, hr]
  | leaves hx' _ _ hstate _ =>
      obtain rfl : _ = ThreadState.blocked := hx'.resolve_right fun h => hx h.2
      rw [hstate]
      by_cases hu : u = s.currentThread
      · subst hu
        simp [hcur]
      · rw [Function.update_of_ne hu]
  | created he _ _ => rw [hc] at he; cases he
  | killed he _ _ => exact absurd he (hk _)
  | switched _ _ _ hsw => exact hsw.dead u
  | resumed _ _ _ hr =>
      rw [hr.state]
      rfl

/-- Another thread becomes the current one by a call of `schedule()` only. -/
theorem Moves.current {e : Event} (h : Moves s e s') : s'.currentThread = s.currentThread ∨
    e = .run ∧ (∃ k, s.stack s.currentThread = .schedule :: k) ∧
      s'.currentThread ≠ s.currentThread ∧
      s'.stack s'.currentThread = s.stack s'.currentThread := by
  cases h with
  | stays hst _ => exact .inl hst.currentThread
  | leaves _ _ hcur _ _ => exact .inl hcur
  | created _ _ hc =>
      rcases hc with rfl | ⟨_, _, _, hh, _⟩
      · exact .inl rfl
      · exact .inl hh.currentThread
  | killed _ _ hkill => exact .inl hkill.currentThread
  | switched he hk _ hsw =>
      rcases hsw.switch with ⟨hcur, _⟩ | ⟨hne, _, c, hstack⟩
      · exact .inl hcur
      · refine .inr ⟨he, ⟨_, hk⟩, hne, ?_⟩
        rw [hstack]
        exact (Function.update_of_ne hne _ _).trans (Function.update_of_ne hne _ _)
  | resumed _ _ _ hr => exact .inl hr.currentThread

/-- A thread that is not the current one has not started or stands in `switch_to`. -/
def Away (s : Kernel) : Prop :=
  ∀ t, t ≠ s.currentThread → s.stack t = [] ∨ ∃ c b k, s.stack t = .switchTo c b :: k

theorem Away.step (h : Away s) {e : Event} (hm : Moves s e s') : Away s' := by
  have hsame : s'.currentThread = s.currentThread →
      (∀ t, t ≠ s.currentThread → s'.stack t = s.stack t) → Away s' := by
    intro hcur hstack t ht
    rw [hcur] at ht
    rw [hstack t ht]
    exact h t ht
  cases hm with
  | stays hst _ =>
      refine hsame hst.currentThread fun t ht => ?_
      rw [hst.stack, Function.update_of_ne ht]
  | leaves _ _ hcur _ hstack =>
      refine hsame hcur fun t ht => ?_
      rw [hstack, Function.update_of_ne ht]
  | created _ _ hc =>
      rcases hc with rfl | ⟨t, _, htc, hh, hempty, _⟩
      · exact hsame rfl fun _ _ => rfl
      · intro u hu
        rw [hh.currentThread] at hu
        -- the TCB of the new thread has an empty stack, or the stack it had
        by_cases hut : u = t
        · subst hut
          rcases hempty with hnil | hold
          · exact .inl hnil
          · rw [hold]
            exact h u hu
        · rw [hh.stack u hut]
          exact h u hu
  | killed _ _ hkill => exact hsame hkill.currentThread fun t _ => by rw [hkill.stack]
  | @switched k _ _ _ hsw =>
      rcases hsw.switch with ⟨hcur, hstack, _⟩ | ⟨_, _, c, hstack⟩
      · refine hsame hcur fun t ht => ?_
        rw [hstack]
        exact Function.update_of_ne ht _ _
      · -- the thread that is left keeps the flag of now in its frame
        intro t ht
        by_cases htc : t = s.currentThread
        · subst htc
          refine .inr ⟨c, s.interrupts, k, ?_⟩
          rw [hstack]
          refine (Function.update_self _ _ _).trans ?_
          exact congrArg _ (Function.update_self _ _ _)
        · rw [hstack, Function.update_of_ne (show t ≠ (s.setStack s.currentThread k).currentThread
            from htc), show (s.setStack s.currentThread k).stack t = s.stack t from
              Function.update_of_ne htc _ _]
          exact h t htc
  | @resumed c b k _ _ _ hr =>
      refine hsame hr.currentThread fun t ht => ?_
      have hpop : (s.setStack s.currentThread k).stack t = s.stack t :=
        Function.update_of_ne ht _ _
      rcases hr.reclaims with ⟨hstack, _⟩ | ⟨_, _, hstack⟩
      · rw [hstack, hpop]
      · rw [hstack]
        exact (Function.update_of_ne ht _ _).trans hpop

/-- The current thread does not stand in `switch_to`. -/
def AtWork (s : Kernel) : Prop := ∀ f k, s.stack s.currentThread = f :: k → f.isSwitch = false

/-- A thread that stands in `switch_to` has just been switched to. -/
theorem Sched.switched (h : Sched s xs) {e : Event} (hf : Fits s e) {n : Nat}
    (hs : Kernel.step n e s = some s') (hk : ¬ AtWork s') :
    e = .run ∧ (∃ k, s.stack s.currentThread = .schedule :: k) ∧
      s'.currentThread ≠ s.currentThread ∧ s'.schedulePrevThread = some s.currentThread := by
  have hat : ∀ {k}, s'.currentThread = s.currentThread → s'.stack s.currentThread = k →
      (∀ f ∈ k, f.isSwitch = false) → AtWork s' := by
    intro k hcur hstack hw f r hfr
    rw [hcur, hstack] at hfr
    exact hw f (hfr ▸ List.mem_cons_self)
  cases h.moves hf hs with
  | stays hst hw =>
      exact absurd (hat hst.currentThread (by rw [hst.stack, Function.update_self]) hw) hk
  | leaves hx _ hcur _ hstack =>
      refine absurd ?_ hk
      intro g r hg
      rw [hcur, hstack, Function.update_self] at hg
      cases hg
      rfl
  | created he hnil hc =>
      refine absurd ?_ hk
      rcases hc with rfl | ⟨t, _, hne, hh, _⟩
      · exact hat rfl hnil (by simp)
      · exact hat hh.currentThread ((hh.stack _ hne.symm).trans hnil) (by simp)
  | killed he hnil hkill =>
      exact absurd (hat hkill.currentThread (by rw [hkill.stack, hnil]) (by simp)) hk
  | switched he hsch hw hsw =>
      have hne : s'.currentThread ≠ s.currentThread := by
        intro hcur
        rcases hsw.switch with ⟨_, hstack, _⟩ | ⟨hne, _⟩
        · exact hk (hat hcur (by rw [hstack]; exact Function.update_self _ _ _) hw)
        · exact hne hcur
      exact ⟨he, ⟨_, hsch⟩, hne, hsw.prev hne⟩
  | @resumed c b k he hsw hw hr =>
      refine absurd ?_ hk
      have hself : (s.setStack s.currentThread k).stack s.currentThread = k :=
        Function.update_self _ _ _
      rcases hr.reclaims with ⟨hstack, _⟩ | ⟨_, _, hstack⟩
      · exact hat hr.currentThread (by rw [hstack]; exact hself) hw
      · refine hat (k := .reclaimed :: k) hr.currentThread ?_
          (List.forall_mem_cons.mpr ⟨rfl, hw⟩)
        rw [hstack]
        exact (Function.update_self _ _ _).trans (congrArg _ hself)

/-- The states that a run reaches from `s` when each of its steps meets `P`. -/
inductive Reaches (P : Kernel → Event → Prop) (s : Kernel) : Kernel → Prop
  | start : Reaches P s s
  | step {t u : Kernel} {e : Event} {n : Nat} (h : Reaches P s t) (hP : P t e)
      (hs : Kernel.step n e t = some u) : Reaches P s u

/-- What holds at the start and is kept by each step holds in every state reached. -/
theorem Reaches.invariant {P : Kernel → Event → Prop} {I : Kernel → Prop} (h : Reaches P s s')
    (h0 : I s) (hstep : ∀ t u e n, I t → P t e → Kernel.step n e t = some u → I u) : I s' := by
  induction h with
  | start => exact h0
  | step _ hP hs ih => exact hstep _ _ _ _ ih hP hs

theorem Reaches.mono {P Q : Kernel → Event → Prop} (h : Reaches P s s')
    (hPQ : ∀ t e, P t e → Q t e) : Reaches Q s s' := by
  induction h with
  | start => exact .start
  | step _ hP hs ih => exact ih.step (hPQ _ _ hP) hs

/-- The events one after the other. -/
def steps (fuel : Nat) : List Event → Kernel → Option Kernel
  | [], s => some s
  | e :: es, s => (Kernel.step fuel e s).bind (steps fuel es)

/-- Each event meets `P` where it happens. -/
def Meet (P : Kernel → Event → Prop) (fuel : Nat) : List Event → Kernel → Prop
  | [], _ => True
  | e :: es, s => P s e ∧ ∀ u, Kernel.step fuel e s = some u → Meet P fuel es u

theorem meet_true (fuel : Nat) (es : List Event) (s : Kernel) :
    Meet (fun _ _ => True) fuel es s := by
  induction es generalizing s with
  | nil => trivial
  | cons e es ih => exact ⟨trivial, fun u _ => ih u⟩

theorem reaches_steps {P : Kernel → Event → Prop} {fuel : Nat} {es : List Event} {s u : Kernel}
    (h : Reaches P s u) (hP : Meet P fuel es u) (hs : steps fuel es u = some s') :
    Reaches P s s' := by
  induction es generalizing u with
  | nil =>
      cases hs
      exact h
  | cons e es ih =>
      obtain ⟨v, hv, hrest⟩ := Option.bind_eq_some_iff.mp hs
      exact ih (h.step hP.1 hv) (hP.2 v hv) hrest

/-- The events one after the other, as long as each meets `p` where it happens. -/
def stepsMeeting (fuel : Nat) (p : Kernel → Event → Bool) : List Event → Kernel → Option Kernel
  | [], s => some s
  | e :: es, s =>
      if p s e then (Kernel.step fuel e s).bind (stepsMeeting fuel p es) else none

theorem reaches_stepsMeeting {fuel : Nat} {p : Kernel → Event → Bool} {es : List Event}
    {u : Kernel} (h : Reaches (fun s e => p s e = true) s u)
    (hs : stepsMeeting fuel p es u = some s') : Reaches (fun s e => p s e = true) s s' := by
  induction es generalizing u with
  | nil =>
      cases hs
      exact h
  | cons e es ih =>
      unfold stepsMeeting at hs
      split at hs
      · rename_i hp
        obtain ⟨v, hv, hrest⟩ := Option.bind_eq_some_iff.mp hs
        exact ih (h.step hp hv) hrest
      · cases hs

/-- The runs from `s` whose steps meet `P`, with a record of them, `r` at the start, that every event
changes as `after` says. -/
inductive Traces {R : Type} (P : Kernel → Event → Prop) (after : R → Kernel → Event → R)
    (s : Kernel) (r : R) : Kernel → R → Prop
  | start : Traces P after s r s r
  | step {t u : Kernel} {q : R} {e : Event} {n : Nat} (h : Traces P after s r t q) (hP : P t e)
      (hs : Kernel.step n e t = some u) : Traces P after s r u (after q t e)

theorem Traces.invariant {R : Type} {P : Kernel → Event → Prop} {after : R → Kernel → Event → R}
    {I : Kernel → R → Prop} {r r' : R} (h : Traces P after s r s' r') (h0 : I s r)
    (hstep : ∀ t u q e n, I t q → P t e → Kernel.step n e t = some u → I u (after q t e)) :
    I s' r' := by
  induction h with
  | start => exact h0
  | step _ hP hs ih => exact hstep _ _ _ _ _ ih hP hs

/-- The events one after the other, with the record, as long as each meets `P` where it happens. -/
def traceSteps {R : Type} (fuel : Nat) (P : Kernel → Event → Prop) [∀ s e, Decidable (P s e)]
    (after : R → Kernel → Event → R) : List Event → Kernel × R → Option (Kernel × R)
  | [], p => some p
  | e :: es, (s, r) =>
      if P s e then
        (Kernel.step fuel e s).bind fun u => traceSteps fuel P after es (u, after r s e)
      else none

theorem traces_traceSteps {R : Type} {fuel : Nat} {P : Kernel → Event → Prop}
    [∀ s e, Decidable (P s e)] {after : R → Kernel → Event → R} {es : List Event} {r r' : R}
    {u : Kernel} {p : Kernel × R} (h : Traces P after s r u r')
    (hs : traceSteps fuel P after es (u, r') = some p) : Traces P after s r p.1 p.2 := by
  induction es generalizing u r' with
  | nil =>
      cases hs
      exact h
  | cons e es ih =>
      unfold traceSteps at hs
      split at hs
      · rename_i hP
        obtain ⟨v, hv, hrest⟩ := Option.bind_eq_some_iff.mp hs
        exact ih (h.step hP hv) hrest
      · cases hs

/-- In a run whose steps fit the invariant holds all the time. -/
theorem sched_reaches {P : Kernel → Event → Prop} (hP : ∀ t e, P t e → Fits t e)
    (h0 : ∃ xs, Sched s xs) (h : Reaches P s s') : ∃ xs, Sched s' xs := by
  refine h.invariant (I := fun t => ∃ xs, Sched t xs) h0 ?_
  rintro t u e n ⟨xs, ht⟩ he hs
  obtain ⟨u', xs', hrun, h', _⟩ := ht.step (enabled_of_step hs) (hP t e he)
  exact ⟨xs', hrun.result hs ▸ h'⟩

end Kernel

end Os003
