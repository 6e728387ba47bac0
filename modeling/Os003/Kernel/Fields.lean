import Os003.Kernel.Books

set_option autoImplicit false

/-! # Fields of the TCBs

A field of a TCB that neither the queues nor the states of the threads are kept in stays what it is until
the thread is killed or the TCB is handed out again (`fieldOf_step`); the wake-up time is also written when
the thread goes to sleep.
-/

namespace Os003

namespace Kernel

variable {β : Type} {g : Tcb → β} {s s' : Kernel} {t u : Addr} {n : Nat}

/-- Linking and unlinking a TCB and changes of its state leave the field alone. -/
def Steady (g : Tcb → β) : Prop := ∀ b x y, g { b with next := x, state := y } = g b

def fieldOf (g : Tcb → β) (s : Kernel) (t : Addr) : β := g (s.tcb t)

theorem fieldOf_setTcb (b : Tcb) :
    fieldOf g (s.setTcb u b) = Function.update (fieldOf g s) u (g b) := by
  funext v
  by_cases h : v = u
  · subst h
    simp [fieldOf, setTcb]
  · simp [fieldOf, setTcb, Function.update_of_ne h]

theorem fieldOf_setTcb_other (b : Tcb) (h : t ≠ u) :
    fieldOf g (s.setTcb u b) t = fieldOf g s t := by
  rw [fieldOf_setTcb, Function.update_of_ne h]

@[simp] theorem fieldOf_push (f : Frame) : fieldOf g (s.push f) = fieldOf g s := rfl

@[simp] theorem fieldOf_disableInterrupts : fieldOf g s.disableInterrupts = fieldOf g s := rfl

@[simp] theorem fieldOf_enableInterrupts : fieldOf g s.enableInterrupts = fieldOf g s := rfl

@[simp] theorem fieldOf_setMutex (m : Addr) (v : Mutex) :
    fieldOf g (s.setMutex m v) = fieldOf g s := rfl

@[simp] theorem fieldOf_setCount (m : Addr) (v : Int) :
    fieldOf g (s.setCount m v) = fieldOf g s := rfl

@[simp] theorem fieldOf_switchVirtualManager (v : Addr) :
    fieldOf g (switchVirtualManager v s).2 = fieldOf g s := by
  unfold switchVirtualManager
  split <;> rfl

theorem fieldOf_poolTcb : fieldOf g (poolTcb u s) = fieldOf g s := by
  unfold poolTcb
  dsimp only
  split <;> rfl

/-- `KillThread` writes only the TCB of the thread that it kills. -/
theorem fieldOf_releaseMemory (h : t ≠ u) : fieldOf g (releaseMemory u s) t = fieldOf g s t := by
  have hclear : ∀ v : Kernel,
      fieldOf g (v.setTcb u { v.tcb u with kernelStack := 0 }) t = fieldOf g v t :=
    fun v => fieldOf_setTcb_other _ h
  unfold releaseMemory
  dsimp only
  split
  · have hcalls : ∀ v : Kernel, fieldOf g v = fieldOf g s →
        fieldOf g (if (v.vmms (s.tcb u).vmm).isUser then
          v.mmCall (.pmmFree (s.tcb u).kernelStack (s.tcb u).stackSize)
        else if kernelVirtualMemoryStart ≤ (s.tcb u).kernelStack then
          v.mmCall (.vmmFree (s.tcb u).kernelStack (s.tcb u).stackSize)
        else v.mmCall (.pmmFree (s.tcb u).kernelStack ((s.tcb u).stackSize / pageSize))) =
          fieldOf g s := by
      intro v hv
      split
      · exact hv
      · split <;> exact hv
    rw [fieldOf_switchVirtualManager, hclear, hcalls]
    exact fieldOf_switchVirtualManager _
  · split
    · exact hclear _
    · rfl

/-! ## Creation -/

theorem fieldOf_registerThread (b : Tcb) (h : t ≠ u) :
    fieldOf g (registerThread u b s) t = fieldOf g s t := by
  -- the first frame is written in the address space of the thread
  have hframe : ∀ v : Kernel, fieldOf g (if b.useVmm then
      (switchVirtualManager (switchVirtualManager b.vmm v).1 (switchVirtualManager b.vmm v).2).2
      else v) = fieldOf g v := by
    intro v
    split
    · rw [fieldOf_switchVirtualManager, fieldOf_switchVirtualManager]
    · rfl
  unfold registerThread
  dsimp only
  rw [hframe]
  by_cases hroom : s.nextTortPosition < tortSize
  · refine (congrFun (congrArg (fieldOf g) (if_pos hroom)) t).trans ?_
    exact fieldOf_setTcb_other (s := s) _ h
  · refine (congrFun (congrArg (fieldOf g) (if_neg hroom)) t).trans ?_
    exact fieldOf_setTcb_other (s := s) _ h

theorem fieldOf_takeTcb {page : Option Addr} (h : (takeTcb page s).1 ≠ some t) :
    fieldOf g (takeTcb page s).2 t = fieldOf g s t := by
  unfold takeTcb at h ⊢
  cases hl : s.freeTcbList s.numOfFreeTcb with
  | some v =>
      rw [hl] at h
      have hne : t ≠ v := fun e => h (by rw [e])
      exact fieldOf_setTcb_other _ hne
  | none => cases page <;> rfl

/-! ## The queues -/

section Steady

variable (hg : Steady g)

include hg

theorem Relinked.fieldOf (h : Relinked s s') : fieldOf g s' = fieldOf g s := by
  funext v
  unfold Kernel.fieldOf
  rw [h.tcb v]
  exact hg _ _ _

theorem fieldOf_setState (x : ThreadState) : fieldOf g (s.setState u x) = fieldOf g s :=
  Relinked.fieldOf hg (Relinked.setState s u x)

theorem fieldOf_enqueue (q : QueueId) : fieldOf g (enqueue q u s) = fieldOf g s :=
  Relinked.fieldOf hg (Relinked.enqueue q u s)

theorem fieldOf_threadEnqueue : fieldOf g (threadEnqueue u s) = fieldOf g s :=
  Relinked.fieldOf hg (Relinked.threadEnqueue u s)

theorem fieldOf_dequeue (q : QueueId) : fieldOf g (dequeue q s).2 = fieldOf g s :=
  Relinked.fieldOf hg (Relinked.dequeue q s)

theorem fieldOf_wakeWaiter (p : Option Addr × Kernel) :
    fieldOf g (wakeWaiter p) = fieldOf g p.2 := by
  unfold wakeWaiter
  split
  · rfl
  · rw [fieldOf_threadEnqueue hg, fieldOf_setState hg]

theorem fieldOf_startThread (b : Tcb) (h : t ≠ u) :
    fieldOf g (startThread u b s) t = fieldOf g s t := by
  rw [startThread, fieldOf_enableInterrupts, fieldOf_threadEnqueue hg, fieldOf_registerThread b h]

theorem fieldOf_createThread {page : Option Addr} {stack size : Nat} {useVmm : Bool} {vmm : Addr}
    (h : (takeTcb page s.disableInterrupts).1 ≠ some t) :
    fieldOf g (createThread page stack size useVmm vmm s) t = fieldOf g s t := by
  have htake := fieldOf_takeTcb (g := g) h
  unfold createThread
  generalize takeTcb page s.disableInterrupts = taken at h htake
  obtain ⟨v | v, s1⟩ := taken
  · exact htake
  · have hne : t ≠ v := fun e => h (by rw [e])
    dsimp only
    split
    · exact htake
    · rw [fieldOf_startThread hg _ hne]
      exact htake

theorem fieldOf_createUserThread {page : Option Addr} {stack size : Nat} {vmm : Addr}
    (h : page ≠ some t) :
    fieldOf g (createUserThread page stack size vmm s) t = fieldOf g s t := by
  unfold createUserThread
  cases page with
  | none => rfl
  | some v =>
      have hne : t ≠ v := fun e => h (by rw [e])
      dsimp only
      split
      · rfl
      · rw [fieldOf_startThread hg _ hne]
        rfl

/-! ## Killing and sleeping -/

theorem fieldOf_killThread (h : t ≠ u) (hr : killThread n u s = some s') :
    fieldOf g s' t = fieldOf g s t := by
  unfold killThread at hr
  obtain ⟨s1, h1, hr⟩ := Option.bind_eq_some_iff.mp hr
  have hrel : fieldOf g s1 = fieldOf g s := by
    rw [Relinked.fieldOf hg (relinked_removeFromSleepQueue h1), fieldOf_setState hg,
      fieldOf_disableInterrupts]
  dsimp only at hr
  split at hr
  · cases hr
    rw [fieldOf_push, fieldOf_push, fieldOf_enableInterrupts, fieldOf_poolTcb,
      fieldOf_releaseMemory h, hrel]
  · obtain ⟨s2, h2, hr⟩ := Option.bind_eq_some_iff.mp hr
    cases hr
    rw [fieldOf_enableInterrupts, fieldOf_poolTcb,
      Relinked.fieldOf hg (relinked_removeFromReadyQueue h2), fieldOf_releaseMemory h, hrel]

theorem fieldOf_scheduleTail (h : s.reclaimed ≠ some t) (hr : scheduleTail n s = some s') :
    fieldOf g s' t = fieldOf g s t := by
  unfold scheduleTail at hr
  cases hp : s.schedulePrevThread with
  | none =>
      rw [hp] at hr
      cases hr
      rfl
  | some p =>
      rw [hp] at hr
      dsimp only at hr
      split at hr
      next hdead =>
        obtain ⟨s1, h1, hr⟩ := Option.bind_eq_some_iff.mp hr
        cases hr
        have hne : t ≠ p := by
          rintro rfl
          exact h (by simp [reclaimed, hp, hdead])
        rw [fieldOf_push]
        exact fieldOf_killThread hg hne h1
      next =>
        cases hr
        rfl

/-- A thread that goes to sleep writes its own wake-up time. -/
theorem fieldOf_sleepUntil (w : UInt64)
    (h : (∀ b v, g { b with wakeupTime := v } = g b) ∨ t ≠ s.currentThread) :
    fieldOf g (sleepUntil w s) t = fieldOf g s t := by
  unfold sleepUntil sleepEnqueue
  simp only [fieldOf_push, fieldOf_enqueue hg, fieldOf_setState hg]
  rcases h with h | h
  · rw [fieldOf_setTcb, h]
    exact congrFun (Function.update_eq_self s.currentThread (fieldOf g s)) t
  · exact fieldOf_setTcb_other _ h

end Steady

/-! ## Steps -/

/-- The event neither kills the thread `t` nor hands out its TCB. -/
def Keeps (t : Addr) (s : Kernel) : Event → Prop
  | .call (.createThread page _ _ _ _) => (takeTcb page s.disableInterrupts).1 ≠ some t
  | .call (.createKernelThread page _ _) => (takeTcb page s.disableInterrupts).1 ≠ some t
  | .call (.createUserThread page _ _ _) => page ≠ some t
  | .call (.killThread u) => u ≠ t
  | .run => (∃ c i k, s.stack s.currentThread = .switchTo c i :: k) → s.reclaimed ≠ some t
  | _ => True

/-- The event does not write the field: either nobody who goes to sleep does, or `t` does not call. -/
def Sleepless (g : Tcb → β) (t : Addr) (s : Kernel) (e : Event) : Prop :=
  (∀ b v, g { b with wakeupTime := v } = g b) ∨ ∀ c, e = .call c → t ≠ s.currentThread

theorem fieldOf_call (hg : Steady g) {c : Call} (hk : Keeps t s (.call c))
    (hw : Sleepless g t s (.call c)) (hr : call n c s = some s') :
    fieldOf g s' t = fieldOf g s t := by
  have hsleep := hw.imp_right fun h => h c rfl
  cases c with
  | createThread page stack size useVmm vmm =>
      cases hr
      exact fieldOf_createThread hg hk
  | createKernelThread page stack size =>
      cases hr
      exact fieldOf_createThread hg hk
  | createUserThread page stack size vmm =>
      cases hr
      exact fieldOf_createUserThread hg hk
  | threadSleepMs ms =>
      cases hr
      unfold threadSleepMs
      split
      · rfl
      · exact fieldOf_sleepUntil hg _ hsleep
  | threadSleepSecond sec =>
      cases hr
      unfold threadSleepSecond
      split
      · rfl
      · exact fieldOf_sleepUntil hg _ hsleep
  | mutexLock m =>
      cases hr
      unfold mutexLock
      dsimp only
      split <;> rfl
  | mutexUnlock m =>
      cases hr
      unfold mutexUnlock
      dsimp only
      split
      · rfl
      · rw [fieldOf_enableInterrupts, fieldOf_wakeWaiter hg, threadDequeueWait, fieldOf_dequeue hg,
          fieldOf_setMutex, fieldOf_disableInterrupts]
  | semWait m =>
      cases hr
      rfl
  | semPost m =>
      cases hr
      unfold semPost
      rw [fieldOf_enableInterrupts, fieldOf_wakeWaiter hg, semDequeueWait, fieldOf_dequeue hg,
        fieldOf_setCount, fieldOf_disableInterrupts]
  | threadExit =>
      obtain ⟨w, hrel, rfl⟩ := threadExit_cases hr
      exact congrFun (Relinked.fieldOf hg hrel) t
  | killThread u => exact fieldOf_killThread hg (Ne.symm hk) hr

theorem fieldOf_runFrame (hg : Steady g) {f : Frame} {k : List Frame}
    (hf : s.stack s.currentThread = f :: k) (hk : Keeps t s .run)
    (hr : runFrame n f (s.setStack s.currentThread k) = some s') :
    fieldOf g s' t = fieldOf g s t := by
  cases f with
  | schedule =>
      obtain ⟨w, next, hrel, -, -, ⟨-, rfl⟩ | ⟨-, rfl⟩⟩ := schedule_cases hr
      · show fieldOf g (Kernel.setState _ next .running) t = _
        rw [fieldOf_setState hg]
        exact congrFun (Relinked.fieldOf hg hrel) t
      · rw [fieldOf_setState hg]
        exact congrFun (Relinked.fieldOf hg hrel) t
  | switchTo c i =>
      have hreclaimed := hk ⟨c, i, k, hf⟩
      unfold runFrame resume at hr
      rw [fieldOf_scheduleTail hg ?_ hr]
      · split <;> rfl
      · split <;> exact hreclaimed
  | lockTest m =>
      cases hr
      unfold lockTest
      split
      · rw [fieldOf_push, fieldOf_push, threadEnqueueWait, fieldOf_enqueue hg, fieldOf_setState hg]
        rfl
      · rfl
  | waitTest m =>
      cases hr
      unfold waitTest
      split
      · rw [fieldOf_push, fieldOf_push, semEnqueueWait, fieldOf_enqueue hg, fieldOf_setState hg]
        rfl
      · rfl
  | _ =>
      cases hr
      rfl

theorem fieldOf_step (hg : Steady g) {e : Event} (hk : Keeps t s e) (hw : Sleepless g t s e)
    (hr : step n e s = some s') : fieldOf g s' t = fieldOf g s t := by
  unfold step at hr
  cases e with
  | tick =>
      dsimp only at hr
      split at hr
      · cases hr
        rfl
      · cases hr
  | call c =>
      dsimp only at hr
      split at hr
      · exact fieldOf_call hg hk hw hr
      · cases hr
  | run =>
      dsimp only at hr
      split at hr
      · cases hr
      next f k hf => exact fieldOf_runFrame hg hf hk hr

end Kernel

end Os003
