import Os003.Lib.Queue

set_option autoImplicit false

/-! # Threads

The thread control blocks, the queues they are linked into, and the functions of
`kernel/Thread.c` on them: the queue operations, `create_thread`, `schedule`, the mutexes and
semaphores, `KillThread` and the sleep functions.

One `next` pointer per TCB serves every queue: the ready queue, the sleep queue and the wait queue
of each mutex and semaphore. Several threads are inside these functions at the same time, each
on its own kernel stack, and `schedule()` is the place where one stack is left for another. The
kernel is therefore a machine: a thread that is inside a function has a list of frames that say
where it is (`Frame`), `run` carries out the next piece of work of the current thread up to the
next such place, and a timer tick may come in between whenever interrupts are on. A piece of
work runs with interrupts off, unless `KillThread` has turned them on inside `schedule()`.

Loops over a queue take fuel; `none` is a loop that has not ended.
-/

namespace Os003

open Linked

/-- The address of a TCB, a VMM descriptor, a mutex or a semaphore. -/
abbrev Addr := Nat

/-- `thread_t.state`. -/
inductive ThreadState
  | ready
  | running
  | blocked
  | terminated
  deriving DecidableEq, Repr

/-- The thread control block. -/
structure Tcb where
  id : Nat
  state : ThreadState
  kernelStack : Nat
  stackSize : Nat
  next : Option Addr
  positionInTable : Nat
  wakeupTime : UInt64
  useVmm : Bool
  vmm : Addr
  deriving DecidableEq, Repr

/-- A TCB after `memset(thread, 0, sizeof(thread_t))`. -/
def Tcb.zero : Tcb := ⟨0, .ready, 0, 0, none, 0, 0, false, 0⟩

/-- What the scheduler reads of a `VMM_T`. -/
structure Vmm where
  pml4 : Nat
  isUser : Bool
  deriving DecidableEq, Repr

/-- `mutex_t` without the pointers of its wait queue. -/
structure Mutex where
  locked : Bool
  owner : Option Addr
  deriving DecidableEq, Repr

/-- The queues: the ready queue, the sleep queue, and the wait queue of each mutex and semaphore. -/
inductive QueueId
  | ready
  | sleep
  | mutex (m : Addr)
  | sem (m : Addr)
  deriving DecidableEq, Repr

/-- A place inside a function of the kernel, from which the thread goes on when it runs. -/
inductive Frame
  /-- At the call of `schedule()`. -/
  | schedule
  /-- Inside `switch_to`, called with this `target_cr3` and this interrupt flag. -/
  | switchTo (targetCr3 : Nat) (interrupts : Bool)
  /-- In `schedule()`, behind the call of `KillThread`. -/
  | reclaimed
  /-- In `irq_0`, behind the call of `schedule()`. -/
  | irq0
  /-- In `mutex_lock`, at the test of `locked`. -/
  | lockTest (m : Addr)
  /-- In `mutex_lock`, behind the loop. -/
  | lockTake (m : Addr)
  /-- In `sem_wait`, at the test of `count`. -/
  | waitTest (m : Addr)
  /-- In `sem_wait`, behind the loop. -/
  | waitTake (m : Addr)
  /-- In `ThreadSleepMS` or `ThreadSleepSecond`, behind the call of `schedule()`. -/
  | slept
  /-- In `SYSTEM_STOP`. -/
  | stop
  deriving DecidableEq, Repr

/-- A call into the memory managers. -/
inductive MmCall
  /-- `Vmm_Free` on the allocation records of the VMM. -/
  | vmmFreeRecords (vmm : Addr)
  | vmmFree (address size : Nat)
  | pmmFree (address pages : Nat)
  deriving DecidableEq, Repr

structure Kernel where
  tcb : Addr → Tcb
  queue : QueueId → Queue Addr
  mutex : Addr → Mutex
  semCount : Addr → Int
  currentThread : Addr
  systemKernelThread : Addr
  schedulePrevThread : Option Addr
  timerTicks : UInt64
  /-- The interrupt flag. -/
  interrupts : Bool
  /-- Where each thread is inside the kernel, innermost function first; `[]` is its own code. -/
  stack : Addr → List Frame
  /-- The cell behind the array, which `KillThread` can reach, is a cell of its own. -/
  freeTcbList : Nat → Option Addr
  numOfFreeTcb : Nat
  tort : Nat → Option Addr
  nextTortPosition : Nat
  nextThreadId : Nat
  cr3 : Nat
  kernelPml4 : Nat
  vmms : Addr → Vmm
  currentVmmDesc : Addr
  /-- `TSS.RSP0`. -/
  rsp0 : Nat
  /-- `syscall_cpu.kernel_rsp`. -/
  kernelRsp : Nat
  /-- The calls into the memory managers, latest first. -/
  mmCalls : List MmCall
  /-- The pages that the page allocator has given out for TCBs. -/
  tcbs : List Addr

def freeTcbListSize : Nat := 4

def tortSize : Nat := 16

def pageSize : Nat := 4096

def pitClockFreq : UInt64 := 1000

def kernelVirtualMemoryStart : Nat := 0xFFFF800000000000

namespace Kernel

/-! ## Writes -/

def setTcb (s : Kernel) (t : Addr) (b : Tcb) : Kernel :=
  { s with tcb := Function.update s.tcb t b }

def setState (s : Kernel) (t : Addr) (x : ThreadState) : Kernel :=
  s.setTcb t { s.tcb t with state := x }

def setNext (s : Kernel) (t : Addr) (x : Option Addr) : Kernel :=
  s.setTcb t { s.tcb t with next := x }

/-- `p->next = x`; nothing is written through a null pointer. -/
def linkNext (s : Kernel) (p x : Option Addr) : Kernel :=
  match p with
  | none => s
  | some c => s.setNext c x

def setQueue (s : Kernel) (q : QueueId) (v : Queue Addr) : Kernel :=
  { s with queue := Function.update s.queue q v }

def setMutex (s : Kernel) (m : Addr) (v : Mutex) : Kernel :=
  { s with mutex := Function.update s.mutex m v }

def setCount (s : Kernel) (m : Addr) (v : Int) : Kernel :=
  { s with semCount := Function.update s.semCount m v }

def setStack (s : Kernel) (t : Addr) (k : List Frame) : Kernel :=
  { s with stack := Function.update s.stack t k }

/-- Enter a function: its frame goes on the stack of the current thread. -/
def push (s : Kernel) (f : Frame) : Kernel :=
  s.setStack s.currentThread (f :: s.stack s.currentThread)

/-- The `next` pointers. -/
def next (s : Kernel) (t : Addr) : Option Addr := (s.tcb t).next

def state (s : Kernel) (t : Addr) : ThreadState := (s.tcb t).state

def disableInterrupts (s : Kernel) : Kernel := { s with interrupts := false }

def enableInterrupts (s : Kernel) : Kernel := { s with interrupts := true }

/-! ## Queues -/

/-- The body of `thread_enqueue`, `sleep_enqueue`, `thread_enqueue_wait` and `sem_enqueue_wait`. -/
def enqueue (q : QueueId) (t : Addr) (s : Kernel) : Kernel :=
  let s := s.setNext t none
  match (s.queue q).head with
  | none => s.setQueue q ⟨some t, some t⟩
  | some h => (s.linkNext (s.queue q).tail (some t)).setQueue q ⟨some h, some t⟩

/-- The body of `thread_dequeue`, `sleep_dequeue`, `thread_dequeue_wait` and `sem_dequeue_wait`. -/
def dequeue (q : QueueId) (s : Kernel) : Option Addr × Kernel :=
  match (s.queue q).head with
  | none => (none, s)
  | some t =>
      let head := s.next t
      let s := s.setQueue q ⟨head, if head = none then none else (s.queue q).tail⟩
      (some t, s.setNext t none)

def threadEnqueue (t : Addr) (s : Kernel) : Kernel := (enqueue .ready t s).setState t .ready

def threadDequeue (s : Kernel) : Option Addr × Kernel := dequeue .ready s

def sleepEnqueue (t : Addr) (s : Kernel) : Kernel := enqueue .sleep t s

def sleepDequeue (s : Kernel) : Option Addr × Kernel := dequeue .sleep s

def threadEnqueueWait (m t : Addr) (s : Kernel) : Kernel := enqueue (.mutex m) t s

def threadDequeueWait (m : Addr) (s : Kernel) : Option Addr × Kernel := dequeue (.mutex m) s

def semEnqueueWait (m t : Addr) (s : Kernel) : Kernel := enqueue (.sem m) t s

def semDequeueWait (m : Addr) (s : Kernel) : Option Addr × Kernel := dequeue (.sem m) s

/-- `while (curr && curr->next != target) curr = curr->next;` and the value of `curr` behind it. -/
def findBefore (s : Kernel) (target : Addr) : Nat → Option Addr → Option (Option Addr)
  | 0, _ => none
  | _ + 1, none => some none
  | fuel + 1, some c =>
      if s.next c = some target then some (some c) else findBefore s target fuel (s.next c)

/-- `if (t == tail) tail = x;` -/
def moveTail (q : QueueId) (t : Addr) (x : Option Addr) (s : Kernel) : Kernel :=
  if (s.queue q).tail = some t then s.setQueue q ⟨(s.queue q).head, x⟩ else s

def removeFromSleepQueue (fuel : Nat) (target : Addr) (s : Kernel) : Option Kernel :=
  match (s.queue .sleep).head with
  | none => some s
  | some h =>
      if h = target then some (sleepDequeue s).2
      else
        match findBefore s target fuel (some h) with
        | none => none
        | some none => some s
        | some (some c) =>
            let s := moveTail .sleep target (some c) (s.setNext c (s.next target))
            some (s.setNext target none)

/-- The part of `KillThread` that takes the thread out of the ready queue. -/
def removeFromReadyQueue (fuel : Nat) (t : Addr) (s : Kernel) : Option Kernel :=
  if (s.queue .ready).head = some t then
    some (s.setQueue .ready
      ⟨s.next t, if s.next t = none then none else (s.queue .ready).tail⟩)
  else
    match findBefore s t fuel (s.queue .ready).head with
    | none => none
    | some none => some s
    | some (some c) => some (moveTail .ready t (some c) (s.setNext c (s.next t)))

/-- The loop of `wake_sleeping_threads`. -/
def wakeLoop : Nat → Option Addr → Option Addr → Kernel → Option Kernel
  | 0, _, _, _ => none
  | _ + 1, none, _, s => some s
  | fuel + 1, some c, prev, s =>
      if (s.tcb c).wakeupTime ≤ s.timerTicks then
        let s := match prev with
          | some p => s.setNext p (s.next c)
          | none => s.setQueue .sleep ⟨s.next c, (s.queue .sleep).tail⟩
        let s := moveTail .sleep c prev s
        let current := s.next c
        wakeLoop fuel current prev (threadEnqueue c ((s.setNext c none).setState c .ready))
      else wakeLoop fuel (s.next c) (some c) s

/-- The interrupt flag is saved, cleared and set again. -/
def wakeSleepingThreads (fuel : Nat) (s : Kernel) : Option Kernel :=
  wakeLoop fuel (s.queue .sleep).head none s

/-! ## Killing -/

/-- `mm/vmm.c`: the VMM becomes the current one; the result is the one before, or the page table
when there was none. -/
def switchVirtualManager (vmm : Addr) (s : Kernel) : Nat × Kernel :=
  if vmm = 0 then (0, s)
  else
    let old := if s.currentVmmDesc ≠ 0 then s.currentVmmDesc else s.cr3
    (old, { s with currentVmmDesc := vmm, cr3 := (s.vmms vmm).pml4 })

def mmCall (c : MmCall) (s : Kernel) : Kernel := { s with mmCalls := c :: s.mmCalls }

/-- The part of `KillThread` that gives back the memory of the thread. -/
def releaseMemory (t : Addr) (s : Kernel) : Kernel :=
  let b := s.tcb t
  if b.useVmm then
    let (old, s) := switchVirtualManager b.vmm s
    let s := s.mmCall (.vmmFreeRecords b.vmm)
    let s :=
      -- the number of bytes, where `Pmm_Free` takes a number of pages
      if (s.vmms b.vmm).isUser then s.mmCall (.pmmFree b.kernelStack b.stackSize)
      else if kernelVirtualMemoryStart ≤ b.kernelStack then
        s.mmCall (.vmmFree b.kernelStack b.stackSize)
      else s.mmCall (.pmmFree b.kernelStack (b.stackSize / pageSize))
    let s := s.setTcb t { s.tcb t with kernelStack := 0 }
    (switchVirtualManager old s).2
  else if b.kernelStack ≠ 0 then
    let s := s.mmCall (.pmmFree b.kernelStack (b.stackSize / pageSize))
    s.setTcb t { s.tcb t with kernelStack := 0 }
  else s

/-- The TCB goes into the pool when there is room; its entry in the table of threads is cleared. -/
def poolTcb (t : Addr) (s : Kernel) : Kernel :=
  let s :=
    if s.numOfFreeTcb < freeTcbListSize then
      { s with
        numOfFreeTcb := s.numOfFreeTcb + 1
        freeTcbList := Function.update s.freeTcbList (s.numOfFreeTcb + 1) (some t) }
    else s
  { s with tort := Function.update s.tort (s.tcb t).positionInTable none }

def killThread (fuel : Nat) (t : Addr) (s : Kernel) : Option Kernel := do
  let s := s.disableInterrupts.setState t .terminated
  let s ← removeFromSleepQueue fuel t s
  let s := releaseMemory t s
  if t = s.currentThread then
    some (((poolTcb t s).enableInterrupts.push .stop).push .schedule)
  else do
    let s ← removeFromReadyQueue fuel t s
    some (poolTcb t s).enableInterrupts

/-! ## schedule -/

/-- The end of `schedule()`: a thread that has ended is killed. -/
def scheduleTail (fuel : Nat) (s : Kernel) : Option Kernel :=
  match s.schedulePrevThread with
  | none => some s
  | some p =>
      if s.state p = .terminated then do
        let s ← killThread fuel p s
        some (s.push .reclaimed)
      else some { s with schedulePrevThread := none }

/-- A current thread that is still running goes to the end of the ready queue. -/
def putBack (s : Kernel) : Kernel :=
  if s.state s.currentThread = .running then
    threadEnqueue s.currentThread (s.setState s.currentThread .ready)
  else s

/-- The interrupt flag with which a thread goes on: the one saved by `switch_to`, or the one in the
first frame of a new thread. -/
def resumeFlag : List Frame → Bool
  | .switchTo _ f :: _ => f
  | _ => true

/-- The part of `schedule()` up to `switch_to`, when another thread has been chosen. -/
def switchTo (prev next : Addr) (s : Kernel) : Kernel :=
  let targetCr3 :=
    if (s.tcb next).useVmm then (s.vmms (s.tcb next).vmm).pml4
    else if (s.tcb prev).useVmm then s.kernelPml4
    else 0
  let top := ((s.tcb next).kernelStack + (s.tcb next).stackSize) % 2 ^ 64
  let s := s.setStack prev (.switchTo targetCr3 s.interrupts :: s.stack prev)
  { s with
    rsp0 := top
    kernelRsp := top
    cr3 := if targetCr3 = 0 then s.cr3 else targetCr3
    interrupts := resumeFlag (s.stack next) }

def schedule (fuel : Nat) (s : Kernel) : Option Kernel := do
  let s ← wakeSleepingThreads fuel (putBack s)
  let (next?, s) := threadDequeue s
  -- with nothing to run, the main thread is taken
  let next := next?.getD s.systemKernelThread
  let prev := s.currentThread
  let s := { s with schedulePrevThread := some prev, currentThread := next }.setState next .running
  if prev ≠ next then some (switchTo prev next s) else scheduleTail fuel s

/-- The rest of `schedule()` after `switch_to` has come back. -/
def resume (fuel : Nat) (targetCr3 : Nat) (s : Kernel) : Option Kernel :=
  scheduleTail fuel
    (if targetCr3 = 0 then s else { s with currentVmmDesc := (s.tcb s.currentThread).vmm })

/-! ## The calls of a thread -/

/-- `thread_exit`. -/
def threadExit (fuel : Nat) (s : Kernel) : Option Kernel := do
  let s := s.disableInterrupts.setState s.currentThread .terminated
  let s ← removeFromSleepQueue fuel s.currentThread s
  some ((s.push .stop).push .schedule)

/-- The part of `create_thread` and `create_user_thread` before `thread_enqueue`: the TCB gets its id and
an entry in the table of threads. -/
def registerThread (t : Addr) (b : Tcb) (s : Kernel) : Kernel :=
  let position := if s.nextTortPosition < tortSize then s.nextTortPosition else 0
  let s := s.setTcb t { b with id := s.nextThreadId, positionInTable := position }
  let s := { s with nextThreadId := s.nextThreadId + 1 }.setStack t []
  let s :=
    if s.nextTortPosition < tortSize then
      { s with
        tort := Function.update s.tort s.nextTortPosition (some t)
        nextTortPosition := s.nextTortPosition + 1 }
    else s
  -- the first frame of the thread is written in its own address space
  if b.useVmm then
    let (old, s) := switchVirtualManager b.vmm s
    (switchVirtualManager old s).2
  else s

def startThread (t : Addr) (b : Tcb) (s : Kernel) : Kernel :=
  (threadEnqueue t (registerThread t b s)).enableInterrupts

/-- The TCB on top of the pool is taken and cleared. -/
def popTcb (t : Addr) (s : Kernel) : Kernel :=
  { s.setTcb t Tcb.zero with
    freeTcbList := Function.update s.freeTcbList s.numOfFreeTcb none
    numOfFreeTcb := s.numOfFreeTcb - 1 }

/-- The page allocator has given out a page for a TCB. -/
def allocTcb (t : Addr) (s : Kernel) : Kernel := { s with tcbs := t :: s.tcbs }

/-- The page of a TCB goes back to the page allocator. -/
def freeTcb (t : Addr) (s : Kernel) : Kernel :=
  { s.mmCall (.pmmFree t 1) with tcbs := s.tcbs.filter (· ≠ t) }

/-- A TCB from the pool, or the page that the allocator gives out. -/
def takeTcb (page : Option Addr) (s : Kernel) : Option Addr × Kernel :=
  match s.freeTcbList s.numOfFreeTcb with
  | some t => (some t, popTcb t s)
  | none =>
      match page with
      | none => (none, s)
      | some t => (some t, allocTcb t s)

/-- `page` is what `Pmm_Malloc(1)` gives when the pool is empty. -/
def createThread (page : Option Addr) (stack stackSize : Nat) (useVmm : Bool) (vmm : Addr)
    (s : Kernel) : Kernel :=
  match takeTcb page s.disableInterrupts with
  | (none, s) => s
  | (some t, s) =>
      if stack = 0 then freeTcb t s
      else
        startThread t { Tcb.zero with
          kernelStack := stack, stackSize := stackSize, useVmm := useVmm, vmm := vmm } s

/-- `(stack_size + PAGE_SIZE - 1) & ~(PAGE_SIZE - 1)`. -/
def roundUp (stackSize : Nat) : Nat := (stackSize + pageSize - 1) % 2 ^ 64 / pageSize * pageSize

/-- `stack` is what `Pmm_Malloc` gives for the stack. -/
def createKernelThread (page : Option Addr) (stack stackSize : Nat) (s : Kernel) : Kernel :=
  createThread page stack (roundUp stackSize) false s.currentVmmDesc s

/-- `page` and `kernelStack` are what `Pmm_Malloc(1)` gives. -/
def createUserThread (page : Option Addr) (kernelStack stackSize : Nat) (vmm : Addr)
    (s : Kernel) : Kernel :=
  let s := s.disableInterrupts
  match page with
  | none => s
  | some t =>
      if kernelStack = 0 then freeTcb t (allocTcb t s)
      else
        startThread t { Tcb.zero with
          kernelStack := kernelStack, stackSize := stackSize, useVmm := true, vmm := vmm }
          (allocTcb t s)

/-- The current thread goes to sleep until the given tick. -/
def sleepUntil (wakeup : UInt64) (s : Kernel) : Kernel :=
  let s := s.disableInterrupts
  let s := s.setTcb s.currentThread { s.tcb s.currentThread with wakeupTime := wakeup }
  let s := sleepEnqueue s.currentThread (s.setState s.currentThread .blocked)
  (s.push .slept).push .schedule

def threadSleepMs (ms : UInt64) (s : Kernel) : Kernel :=
  if ms = 0 then s else sleepUntil (s.timerTicks + ms * pitClockFreq / 1000) s

def threadSleepSecond (sec : UInt64) (s : Kernel) : Kernel :=
  if sec = 0 then s else sleepUntil (s.timerTicks + sec * pitClockFreq) s

/-- `mutex_lock` up to its loop. -/
def mutexLock (m : Addr) (s : Kernel) : Kernel :=
  let s := s.disableInterrupts
  if (s.mutex m).owner = some s.currentThread then s.enableInterrupts else s.push (.lockTest m)

/-- The loop of `mutex_lock`: one test of `locked` and what it leads to. -/
def lockTest (m : Addr) (s : Kernel) : Kernel :=
  if (s.mutex m).locked then
    let s := threadEnqueueWait m s.currentThread (s.setState s.currentThread .blocked)
    (s.push (.lockTest m)).push .schedule
  else s.push (.lockTake m)

/-- The end of `mutex_lock`. -/
def lockTake (m : Addr) (s : Kernel) : Kernel :=
  (s.setMutex m ⟨true, some s.currentThread⟩).enableInterrupts

/-- A waiting thread, if there is one, goes to the ready queue. -/
def wakeWaiter (waiter : Option Addr × Kernel) : Kernel :=
  match waiter with
  | (none, s) => s
  | (some t, s) => threadEnqueue t (s.setState t .ready)

def mutexUnlock (m : Addr) (s : Kernel) : Kernel :=
  let s := s.disableInterrupts
  if (s.mutex m).owner ≠ some s.currentThread then s.enableInterrupts
  else (wakeWaiter (threadDequeueWait m (s.setMutex m ⟨false, none⟩))).enableInterrupts

/-- The loop of `sem_wait`: one test of `count` and what it leads to. -/
def waitTest (m : Addr) (s : Kernel) : Kernel :=
  if s.semCount m ≤ 0 then
    let s := semEnqueueWait m s.currentThread (s.setState s.currentThread .blocked)
    (s.push (.waitTest m)).push .schedule
  else s.push (.waitTake m)

/-- The end of `sem_wait`. -/
def waitTake (m : Addr) (s : Kernel) : Kernel :=
  (s.setCount m (s.semCount m - 1)).enableInterrupts

def semWait (m : Addr) (s : Kernel) : Kernel := s.disableInterrupts.push (.waitTest m)

def semPost (m : Addr) (s : Kernel) : Kernel :=
  let s := s.disableInterrupts
  (wakeWaiter (semDequeueWait m (s.setCount m (s.semCount m + 1)))).enableInterrupts

/-- The timer interrupt: `irq_handler_0` and `irq_0` up to the call of `schedule()`. -/
def tick (s : Kernel) : Kernel :=
  let ticks := if 0xFFFFFFFFFFFFFFFF ≤ s.timerTicks then 0 else s.timerTicks + 1
  ({ s with timerTicks := ticks, interrupts := false }.push .irq0).push .schedule

end Kernel

/-! ## Steps -/

/-- A call that a thread can make from its own code. -/
inductive Call
  | createThread (page : Option Addr) (stack stackSize : Nat) (useVmm : Bool) (vmm : Addr)
  | createKernelThread (page : Option Addr) (stack stackSize : Nat)
  | createUserThread (page : Option Addr) (kernelStack stackSize : Nat) (vmm : Addr)
  | threadSleepMs (ms : UInt64)
  | threadSleepSecond (sec : UInt64)
  | mutexLock (m : Addr)
  | mutexUnlock (m : Addr)
  | semWait (m : Addr)
  | semPost (m : Addr)
  | threadExit
  | killThread (t : Addr)
  deriving DecidableEq, Repr

/-- What can happen next: a timer tick, a call of the current thread, or the next piece of work of
the function that the current thread is in. -/
inductive Event
  | tick
  | call (c : Call)
  | run
  deriving DecidableEq, Repr

namespace Kernel

/-- A call from a thread's own code. -/
def call (fuel : Nat) (c : Call) (s : Kernel) : Option Kernel :=
  match c with
  | .createThread page stack size useVmm vmm => some (createThread page stack size useVmm vmm s)
  | .createKernelThread page stack size => some (createKernelThread page stack size s)
  | .createUserThread page stack size vmm => some (createUserThread page stack size vmm s)
  | .threadSleepMs ms => some (threadSleepMs ms s)
  | .threadSleepSecond sec => some (threadSleepSecond sec s)
  | .mutexLock m => some (mutexLock m s)
  | .mutexUnlock m => some (mutexUnlock m s)
  | .semWait m => some (semWait m s)
  | .semPost m => some (semPost m s)
  | .threadExit => threadExit fuel s
  | .killThread t => killThread fuel t s

/-- The current thread goes on from the innermost frame. -/
def runFrame (fuel : Nat) (f : Frame) (s : Kernel) : Option Kernel :=
  match f with
  | .schedule => schedule fuel s
  | .switchTo targetCr3 _ => resume fuel targetCr3 s
  | .reclaimed => some { s with schedulePrevThread := none }
  | .irq0 => some s.enableInterrupts
  | .lockTest m => some (lockTest m s)
  | .lockTake m => some (lockTake m s)
  | .waitTest m => some (waitTest m s)
  | .waitTake m => some (waitTake m s)
  | .slept => some s.enableInterrupts
  | .stop => some (s.push .stop)

def step (fuel : Nat) (e : Event) (s : Kernel) : Option Kernel :=
  match e with
  | .tick => if s.interrupts then some (tick s) else none
  | .call c => if s.stack s.currentThread = [] then call fuel c s else none
  | .run =>
      match s.stack s.currentThread with
      | [] => none
      | f :: k => runFrame fuel f (s.setStack s.currentThread k)

/-- The part of `init_multitasking` before the idle thread is created; the initialised semaphores have
the values `counts`. -/
def bootKernel (main bootStack kernelPml4 : Nat) (vmms : Addr → Vmm) (vmmDesc : Addr)
    (counts : Addr → Int) : Kernel where
  tcb := fun _ => { Tcb.zero with state := .running, kernelStack := bootStack, vmm := vmmDesc }
  queue := fun _ => Queue.empty
  mutex := fun _ => ⟨false, none⟩
  semCount := counts
  currentThread := main
  systemKernelThread := main
  schedulePrevThread := none
  timerTicks := 0
  interrupts := false
  stack := fun _ => []
  freeTcbList := fun _ => none
  numOfFreeTcb := 0
  tort := fun _ => none
  nextTortPosition := 0
  nextThreadId := 1
  cr3 := kernelPml4
  kernelPml4 := kernelPml4
  vmms := vmms
  currentVmmDesc := vmmDesc
  rsp0 := bootStack + 4096
  kernelRsp := 0
  mmCalls := []
  tcbs := [main]

/-- `init_multitasking`, with the pages that the allocator gives out for the two TCBs and the stack
of the idle thread. -/
def initMultitasking (main idle bootStack idleStack kernelPml4 : Nat) (vmms : Addr → Vmm)
    (vmmDesc : Addr) (counts : Addr → Int) : Kernel :=
  createKernelThread (some idle) idleStack 4096
    (bootKernel main bootStack kernelPml4 vmms vmmDesc counts)

end Kernel

end Os003
