import Os003.Kernel.Exclusion
import Os003.Kernel.Books

set_option autoImplicit false

/-! # Runs without mutexes and semaphores

`orderly` are the runs in which threads are created, sleep, end, and are killed by others: the
idle thread makes no call, and `KillThread` is called on a live thread that is neither the caller
nor the idle thread. In such a run no function of a mutex or a semaphore is on a stack and no
thread is in their wait queues, so every step fits (`Orderly.fits`) and the invariant of the
scheduler holds all the time (`orderly_reaches`).
-/

namespace Os003

open Linked

/-- The places inside `mutex_lock` and `sem_wait`. -/
def Frame.isWait : Frame → Bool
  | .lockTest _ | .lockTake _ | .waitTest _ | .waitTake _ => true
  | _ => false

namespace Kernel

variable {s s' : Kernel} {xs : QueueId → List Addr} {t u idle m : Addr} {f : Frame}
  {k : List Frame} {n : Nat}

/-- Threads are created, sleep, end, and are killed by others while they are alive. -/
def orderly (idle : Addr) (s : Kernel) : Event → Bool
  | .tick => true
  | .run => true
  | .call c =>
      s.currentThread ≠ idle &&
        match c with
        | .createThread page _ _ _ _ => page.all (· ∉ s.tcbs)
        | .createKernelThread page _ _ => page.all (· ∉ s.tcbs)
        | .createUserThread page _ _ _ => page.all (· ∉ s.tcbs)
        | .threadSleepMs _ => true
        | .threadSleepSecond _ => true
        | .threadExit => true
        | .killThread t =>
            t ∈ s.tcbs && s.state t ≠ .terminated && t ≠ s.currentThread && t ≠ idle
        | .mutexLock _ => false
        | .mutexUnlock _ => false
        | .semWait _ => false
        | .semPost _ => false

/-! ## No waiting -/

theorem stack_registerThread (b : Tcb) :
    (registerThread t b s).stack = Function.update s.stack t [] := by
  have hframe : ∀ v : Kernel, (if b.useVmm then
      (switchVirtualManager (switchVirtualManager b.vmm v).1 (switchVirtualManager b.vmm v).2).2
      else v).stack = v.stack := by
    intro v
    split
    · exact (agrees_switchVirtualManager _ _).stack.trans (agrees_switchVirtualManager _ _).stack
    · rfl
  unfold registerThread
  dsimp only
  rw [hframe, apply_ite Kernel.stack]
  exact ite_self (Function.update s.stack t [])

/-- No thread is inside `mutex_lock` or `sem_wait`. -/
def NoWait (s : Kernel) : Prop := ∀ t, ∀ f ∈ s.stack t, f.isWait = false

namespace NoWait

theorem of_stack (h : NoWait s) (hs : s'.stack = s.stack) : NoWait s' := by
  unfold NoWait
  rw [hs]
  exact h

theorem setStack (h : NoWait s) (hk : ∀ f ∈ k, f.isWait = false) : NoWait (s.setStack t k) := by
  intro u
  by_cases hu : u = t
  · subst hu
    simpa [Kernel.setStack] using hk
  · simpa [Kernel.setStack, Function.update_of_ne hu] using h u

theorem push (h : NoWait s) (hf : f.isWait = false) : NoWait (s.push f) := by
  refine h.setStack fun g hg => ?_
  rcases List.mem_cons.mp hg with rfl | hg
  · exact hf
  · exact h _ g hg

theorem killThread (h : NoWait s) (hr : Kernel.killThread n t s = some s') : NoWait s' := by
  unfold Kernel.killThread at hr
  obtain ⟨s1, h1, hr⟩ := Option.bind_eq_some_iff.mp hr
  have hs1 : s1.stack = s.stack := (relinked_removeFromSleepQueue h1).stack
  have hpool : ∀ v : Kernel, NoWait v → NoWait (poolTcb t v).enableInterrupts := by
    intro v hv
    refine hv.of_stack ?_
    unfold poolTcb
    dsimp only
    split <;> rfl
  have hrel : NoWait (releaseMemory t s1) :=
    h.of_stack ((agrees_releaseMemory t s1).stack.trans hs1)
  dsimp only at hr
  split at hr
  · cases hr
    exact ((hpool _ hrel).push rfl).push rfl
  · obtain ⟨s2, h2, hr⟩ := Option.bind_eq_some_iff.mp hr
    cases hr
    exact hpool _ (hrel.of_stack (relinked_removeFromReadyQueue h2).stack)

theorem switchTo (h : NoWait s) : NoWait (Kernel.switchTo t u s) := by
  obtain ⟨c, hc⟩ := stack_switchTo t u s
  refine NoWait.of_stack (h.setStack (t := t) fun g hg => ?_) hc
  rcases List.mem_cons.mp hg with rfl | hg
  · rfl
  · exact h t g hg

theorem scheduleTail (h : NoWait s) (hr : Kernel.scheduleTail n s = some s') : NoWait s' := by
  unfold Kernel.scheduleTail at hr
  split at hr
  · cases hr
    exact h
  · split at hr
    · obtain ⟨s1, h1, hr⟩ := Option.bind_eq_some_iff.mp hr
      cases hr
      exact (h.killThread h1).push rfl
    · cases hr
      exact h

theorem schedule (h : NoWait s) (hr : Kernel.schedule n s = some s') : NoWait s' := by
  unfold Kernel.schedule at hr
  obtain ⟨s1, h1, hr⟩ := Option.bind_eq_some_iff.mp hr
  have hput : (putBack s).stack = s.stack := by
    unfold putBack
    split
    · exact ((Relinked.setState _ _ _).trans (Relinked.threadEnqueue _ _)).stack
    · rfl
  have hs2 : NoWait (threadDequeue s1).2 :=
    h.of_stack (((Relinked.dequeue .ready s1).stack.trans (relinked_wakeLoop h1).stack).trans hput)
  dsimp only at hr
  generalize (threadDequeue s1).2 = s2 at hr hs2
  generalize (threadDequeue s1).1.getD s2.systemKernelThread = next at hr
  have hchoose : NoWait ({ s2 with
      schedulePrevThread := some s2.currentThread, currentThread := next }.setState next
      .running) := hs2.of_stack rfl
  split at hr
  · cases hr
    exact hchoose.switchTo
  · exact hchoose.scheduleTail hr

theorem startThread {b : Tcb} (h : NoWait s) : NoWait (Kernel.startThread t b s) := by
  have hstack : (Kernel.startThread t b s).stack = Function.update s.stack t [] :=
    (Relinked.threadEnqueue t _).stack.trans (stack_registerThread b)
  exact NoWait.of_stack (h.setStack (t := t) (k := []) fun f hf => (by cases hf)) hstack

theorem createThread {page : Option Addr} {stack size : Nat} {useVmm : Bool} {vmm : Addr}
    (h : NoWait s) : NoWait (Kernel.createThread page stack size useVmm vmm s) := by
  have htake : NoWait (takeTcb page s.disableInterrupts).2 := by
    refine h.of_stack ?_
    unfold takeTcb
    split
    · rfl
    · split <;> rfl
  unfold Kernel.createThread
  generalize takeTcb page s.disableInterrupts = p at htake
  obtain ⟨t?, s1⟩ := p
  cases t? with
  | none => exact htake
  | some t =>
      dsimp only
      split
      · exact htake.of_stack rfl
      · exact htake.startThread

theorem createUserThread {page : Option Addr} {kernelStack size : Nat} {vmm : Addr}
    (h : NoWait s) : NoWait (Kernel.createUserThread page kernelStack size vmm s) := by
  unfold Kernel.createUserThread
  cases page with
  | none => exact h
  | some t =>
      dsimp only
      split
      · exact h.of_stack rfl
      · exact NoWait.startThread (h.of_stack rfl)

theorem sleepUntil (h : NoWait s) (w : UInt64) : NoWait (Kernel.sleepUntil w s) := by
  unfold Kernel.sleepUntil
  refine NoWait.push (f := .schedule) (NoWait.push (f := .slept) (h.of_stack ?_) rfl) rfl
  exact (Relinked.enqueue .sleep _ _).stack

theorem call {c : Call} (h : NoWait s) (hc : orderly idle s (.call c) = true)
    (hr : Kernel.call n c s = some s') : NoWait s' := by
  obtain ⟨_, hc⟩ := Bool.and_eq_true_iff.mp hc
  cases c with
  | createThread page stack size useVmm vmm =>
      cases hr
      exact h.createThread
  | createKernelThread page stack size =>
      cases hr
      exact h.createThread
  | createUserThread page stack size vmm =>
      cases hr
      exact h.createUserThread
  | threadSleepMs ms =>
      cases hr
      unfold threadSleepMs
      split
      · exact h
      · exact h.sleepUntil _
  | threadSleepSecond sec =>
      cases hr
      unfold threadSleepSecond
      split
      · exact h
      · exact h.sleepUntil _
  | threadExit =>
      obtain ⟨s1, h1, hr⟩ := Option.bind_eq_some_iff.mp hr
      cases hr
      exact (NoWait.push (h.of_stack (relinked_removeFromSleepQueue h1).stack) rfl).push rfl
  | killThread t => exact h.killThread hr
  | mutexLock m => cases hc
  | mutexUnlock m => cases hc
  | semWait m => cases hc
  | semPost m => cases hc

theorem runFrame (h : NoWait s) (hf : f.isWait = false)
    (hr : Kernel.runFrame n f s = some s') : NoWait s' := by
  cases f with
  | schedule => exact h.schedule hr
  | switchTo c b =>
      refine NoWait.scheduleTail (s := if c = 0 then s else
        { s with currentVmmDesc := (s.tcb s.currentThread).vmm }) ?_ hr
      split
      · exact h
      · exact h.of_stack rfl
  | reclaimed =>
      cases hr
      exact h.of_stack rfl
  | irq0 =>
      cases hr
      exact h.of_stack rfl
  | slept =>
      cases hr
      exact h.of_stack rfl
  | stop =>
      cases hr
      exact h.push rfl
  | lockTest m => cases hf
  | lockTake m => cases hf
  | waitTest m => cases hf
  | waitTake m => cases hf

theorem step {e : Event} (h : NoWait s) (hc : orderly idle s e = true)
    (hr : Kernel.step n e s = some s') : NoWait s' := by
  have he := enabled_of_step hr
  cases e with
  | tick =>
      have hs : s' = Kernel.tick s := Option.some.inj (hr.symm.trans (if_pos he))
      rw [hs]
      exact (NoWait.push (h.of_stack rfl) rfl).push rfl
  | call c => exact h.call hc ((if_pos he).symm.trans hr)
  | run =>
      obtain ⟨f, k, hk, hrun⟩ := runFrame_of_step hr
      have hmem : ∀ g ∈ f :: k, g.isWait = false := hk ▸ h s.currentThread
      have hpop : NoWait (s.setStack s.currentThread k) :=
        h.setStack fun g hg => hmem g (List.mem_cons_of_mem f hg)
      exact hpop.runFrame (hmem f List.mem_cons_self) hrun

end NoWait

/-! ## The invariant -/

/-- The invariant of the orderly runs. -/
structure Orderly (idle : Addr) (s : Kernel) (xs : QueueId → List Addr) : Prop where
  sched : Sched s xs
  lock : LockInv idle idle s fun _ => false
  noWait : NoWait s
  waits : ∀ q, q ≠ .ready → q ≠ .sleep → xs q = []

/-- The events of an orderly run use the mutex as it should be used, that is, not at all. -/
theorem orderly_uses {e : Event} (h : orderly idle s e = true)
    (hk : ∀ t, e ≠ .call (.killThread t)) (m : Addr) : uses idle m (fun _ => false) s e = true := by
  cases e with
  | tick => rfl
  | run => rfl
  | call c =>
      obtain ⟨h1, h2⟩ := Bool.and_eq_true_iff.mp h
      refine Bool.and_eq_true_iff.mpr ⟨h1, ?_⟩
      cases c with
      | killThread t => exact absurd rfl (hk t)
      | mutexLock m => cases h2
      | mutexUnlock m => cases h2
      | semWait m => cases h2
      | semPost m => cases h2
      | createThread page stack size useVmm vmm => exact h2
      | createKernelThread page stack size => exact h2
      | createUserThread page stack size vmm => exact h2
      | threadSleepMs ms => rfl
      | threadSleepSecond sec => rfl
      | threadExit => rfl

/-- The thread that may be killed. -/
theorem orderly_kill (h : orderly idle s (.call (.killThread t)) = true) :
    Alive s t ∧ t ≠ s.currentThread ∧ t ≠ idle := by
  simpa [orderly, Alive, and_assoc] using (Bool.and_eq_true_iff.mp h).2

/-- Nobody holds a mutex, and no event of an orderly run changes that. -/
theorem NoWait.heldAfter (h : NoWait s) {e : Event} (he : orderly idle s e = true) (m : Addr) :
    heldAfter m (fun _ => false) s e = fun _ => false := by
  cases e with
  | tick => rfl
  | run =>
      unfold Kernel.heldAfter
      dsimp only
      split
      · rename_i m' k hk
        cases h s.currentThread (.lockTake m') (hk ▸ List.mem_cons_self)
      · rfl
  | call c =>
      obtain ⟨_, hc⟩ := Bool.and_eq_true_iff.mp he
      cases c <;> first | rfl | cases hc

theorem NoWait.waitQueue (h : NoWait s) {e : Event} (he : orderly idle s e = true) :
    Kernel.waitQueue s e = .ready := by
  cases e with
  | tick => rfl
  | run =>
      unfold Kernel.waitQueue
      dsimp only
      split
      · rename_i m k hk
        cases h s.currentThread (.lockTest m) (hk ▸ List.mem_cons_self)
      · rename_i m k hk
        cases h s.currentThread (.waitTest m) (hk ▸ List.mem_cons_self)
      · rfl
  | call c =>
      obtain ⟨_, hc⟩ := Bool.and_eq_true_iff.mp he
      cases c <;> first | rfl | cases hc

/-- A thread that was neither running nor idle has been killed. -/
theorem LockFrames.killed (h : LockFrames idle m s) (hk : Killed s t s')
    (hc : s.stack s.currentThread = []) (ht : t ≠ idle) : LockFrames idle m s' := by
  refine ⟨?_, ?_, ?_, ?_, ?_, ?_⟩
  · rw [hk.tcbs]
    exact h.idleKnown
  · rw [hk.state, Function.update_of_ne (Ne.symm ht)]
    exact h.idleState
  · rw [hk.stack]
    exact h.idleStack
  · rw [hk.stack]
    exact h.good
  · rw [hk.stack, hk.currentThread]
    exact h.away
  · intro _ f k hf
    rw [hk.stack, hk.currentThread, hc] at hf
    cases hf

namespace Orderly

/-- Ticks come outside the functions of the scheduler only, and the idle thread can always run. -/
theorem fits (h : Orderly idle s xs) {e : Event} (he : orderly idle s e = true)
    (hen : Enabled s e) : Fits s e := by
  by_cases hk : ∃ t, e = .call (.killThread t)
  · obtain ⟨t, rfl⟩ := hk
    obtain ⟨ha, hc, _⟩ := orderly_kill he
    refine ⟨ha, hc, fun hw => ?_⟩
    obtain ⟨q, hq, h1, h2⟩ := h.sched.waits_iff.mp hw
    rw [h.waits q h1 h2] at hq
    cases hq
  · refine h.lock.frames.fits h.sched (orderly_uses he (fun t ht => hk ⟨t, ht⟩) idle) ?_ hen
    rintro -
    constructor <;> intro hm <;> cases h.noWait _ _ hm

theorem step (h : Orderly idle s xs) {e : Event} (he : orderly idle s e = true)
    (hs : Kernel.step n e s = some s') : ∃ xs', Orderly idle s' xs' := by
  have hen := enabled_of_step hs
  have hfit := h.fits he hen
  obtain ⟨u, xs', hset, hS, hw⟩ := h.sched.step hen hfit
  have hu : s' = u := hset.result hs
  subst hu
  rw [h.noWait.waitQueue he] at hw
  refine ⟨xs', hS, ?_, h.noWait.step he hs, fun q h1 h2 => (hw q h1 h2 h1).trans (h.waits q h1 h2)⟩
  by_cases hk : ∃ t, e = .call (.killThread t)
  · obtain ⟨t, rfl⟩ := hk
    obtain ⟨ha, hc, hti⟩ := orderly_kill he
    obtain ⟨v, hset', _, hkill⟩ := h.sched.toQueues.killThread hc
    have hv : s' = v := hset'.result ((if_pos hen).symm.trans hs)
    subst hv
    refine ⟨h.lock.frames.killed hkill hen hti, ?_⟩
    refine h.lock.owner.keep (congrFun hkill.mutex idle) (fun t ht => by cases ht) ?_
    rw [hkill.stack, hkill.currentThread]
    exact h.lock.owner.free
  · have hund : Undisturbed idle s e := by
      rintro -
      constructor <;> intro hm <;> cases h.noWait _ _ hm
    have hstep := h.lock.step h.sched (orderly_uses he (fun t ht => hk ⟨t, ht⟩) idle) hund hs
    rwa [h.noWait.heldAfter he] at hstep

end Orderly

theorem Orderly.creation (h : Orderly idle s xs) {e : Event} (he : orderly idle s e = true)
    (hc : e.creates = true) (hs : Kernel.step n e s = some s') : Creation s s' := by
  have hen := enabled_of_step hs
  have hfit := h.fits he hen
  have hpool := h.sched.pool
  rcases e with _ | c | _
  · cases hc
  · have hcall : Kernel.call n c s = some s' := (if_pos hen).symm.trans hs
    cases c with
    | createThread page stack size useVmm vmm =>
        cases hcall
        exact hpool.creation_createThread page stack size useVmm vmm hfit
    | createKernelThread page stack size =>
        cases hcall
        exact hpool.creation_createThread page stack _ false s.currentVmmDesc hfit
    | createUserThread page stack size vmm =>
        cases hcall
        exact creation_createUserThread page stack size vmm hfit
    | _ => cases hc
  · cases hc

/-- Behind `init_multitasking`. -/
theorem Booted.orderly (h : Booted idle s xs) : Orderly idle s xs where
  sched := h.sched
  lock := h.lockInv idle
  noWait t f hf := by
    rw [h.stack t] at hf
    cases hf
  waits := h.waits

/-- In an orderly run the invariant holds all the time. -/
theorem orderly_reaches {P : Kernel → Event → Prop} (hP : ∀ t e, P t e → orderly idle t e = true)
    (h0 : ∃ xs, Booted idle s xs) (h : Reaches P s s') : ∃ xs, Orderly idle s' xs := by
  refine h.invariant (I := fun t => ∃ xs, Orderly idle t xs) (h0.imp fun _ hB => hB.orderly) ?_
  rintro t u e n ⟨xs, ht⟩ he hs
  exact ht.step (hP t e he) hs

end Kernel

end Os003
