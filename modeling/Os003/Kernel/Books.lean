import Os003.Kernel.Kill

set_option autoImplicit false

/-! # The bookkeeping of the threads

The pool of free TCBs, the table of threads, the ids, and the fields of a TCB that are written only
when it is handed out. `books` reads them off the kernel. The queue operations, `schedule()` and
the sleep functions leave them alone; `booksAfter` says what each step makes of them, so that an
invariant about them looks at the creation and at the killing of a thread only.
-/

namespace Os003

open Linked

/-- The fields of a TCB that are written when the thread is created and not later. -/
def Tcb.fixed (b : Tcb) : Tcb :=
  { b with state := .ready, kernelStack := 0, next := none, wakeupTime := 0 }

theorem fixed_fields {b b' : Tcb} (h : b'.fixed = b.fixed) :
    b'.id = b.id ∧ b'.stackSize = b.stackSize ∧ b'.positionInTable = b.positionInTable ∧
      b'.useVmm = b.useVmm ∧ b'.vmm = b.vmm := by
  obtain ⟨hid, _, _, hsize, _, hposition, _, huse, hvmm⟩ := Tcb.mk.inj h
  exact ⟨hid, hsize, hposition, huse, hvmm⟩

/-- What the kernel keeps about its threads. -/
structure Books where
  fixed : Addr → Tcb
  mutex : Addr → Mutex
  semCount : Addr → Int
  freeTcbList : Nat → Option Addr
  numOfFreeTcb : Nat
  tort : Nat → Option Addr
  nextTortPosition : Nat
  nextThreadId : Nat
  tcbs : List Addr
  systemKernelThread : Addr
  kernelPml4 : Nat
  vmms : Addr → Vmm

namespace Books

/-- The end of `KillThread`: the TCB goes into the pool, its entry in the table is cleared. -/
def pool (t : Addr) (b : Books) : Books :=
  let b :=
    if b.numOfFreeTcb < freeTcbListSize then
      { b with
        numOfFreeTcb := b.numOfFreeTcb + 1
        freeTcbList := Function.update b.freeTcbList (b.numOfFreeTcb + 1) (some t) }
    else b
  { b with tort := Function.update b.tort (b.fixed t).positionInTable none }

/-- A TCB from the pool, or the page. -/
def take (page : Option Addr) (b : Books) : Option Addr × Books :=
  match b.freeTcbList b.numOfFreeTcb with
  | some t =>
      (some t, { b with
        fixed := Function.update b.fixed t Tcb.zero
        freeTcbList := Function.update b.freeTcbList b.numOfFreeTcb none
        numOfFreeTcb := b.numOfFreeTcb - 1 })
  | none =>
      match page with
      | none => (none, b)
      | some t => (some t, { b with tcbs := t :: b.tcbs })

/-- The TCB gets an id and, when there is room, an entry in the table. -/
def register (t : Addr) (useVmm : Bool) (vmm : Addr) (stackSize : Nat) (b : Books) : Books :=
  let room := decide (b.nextTortPosition < tortSize)
  { b with
    fixed := Function.update b.fixed t { Tcb.zero with
      id := b.nextThreadId, stackSize := stackSize, useVmm := useVmm, vmm := vmm
      positionInTable := if room then b.nextTortPosition else 0 }
    nextThreadId := b.nextThreadId + 1
    tort := if room then Function.update b.tort b.nextTortPosition (some t) else b.tort
    nextTortPosition := if room then b.nextTortPosition + 1 else b.nextTortPosition }

/-- `create_thread`. -/
def create (page : Option Addr) (stack stackSize : Nat) (useVmm : Bool) (vmm : Addr)
    (b : Books) : Books :=
  match b.take page with
  | (none, b) => b
  | (some t, b) =>
      if stack = 0 then { b with tcbs := b.tcbs.filter (· ≠ t) }
      else b.register t useVmm vmm stackSize

/-- `create_user_thread`. -/
def createUser (page : Option Addr) (kernelStack stackSize : Nat) (vmm : Addr)
    (b : Books) : Books :=
  match page with
  | none => b
  | some t =>
      if kernelStack = 0 then { b with tcbs := (t :: b.tcbs).filter (· ≠ t) }
      else { b with tcbs := t :: b.tcbs }.register t true vmm stackSize

end Books

namespace Kernel

variable {s s' : Kernel} {q : QueueId} {t : Addr} {n : Nat}

/-- The bookkeeping part of the kernel. -/
def books (s : Kernel) : Books where
  fixed := fun t => (s.tcb t).fixed
  mutex := s.mutex
  semCount := s.semCount
  freeTcbList := s.freeTcbList
  numOfFreeTcb := s.numOfFreeTcb
  tort := s.tort
  nextTortPosition := s.nextTortPosition
  nextThreadId := s.nextThreadId
  tcbs := s.tcbs
  systemKernelThread := s.systemKernelThread
  kernelPml4 := s.kernelPml4
  vmms := s.vmms

/-! ## What leaves the books alone -/

theorem fixed_setTcb (b : Tcb) (u : Addr) :
    ((s.setTcb t b).tcb u).fixed = Function.update (fun u => (s.tcb u).fixed) t b.fixed u := by
  by_cases h : u = t
  · subst h
    simp [setTcb]
  · simp [setTcb, Function.update_of_ne h]

@[simp] theorem books_setTcb (b : Tcb) : (s.setTcb t b).books =
    { s.books with fixed := Function.update s.books.fixed t b.fixed } := by
  unfold books
  congr 1
  funext u
  exact fixed_setTcb b u

/-- A write of the fields that do not count. -/
theorem books_setTcb_same (b : Tcb) (h : b.fixed = (s.tcb t).fixed) :
    (s.setTcb t b).books = s.books := by
  rw [books_setTcb, h]
  show { s.books with fixed := Function.update s.books.fixed t (s.books.fixed t) } = s.books
  rw [Function.update_eq_self]

@[simp] theorem books_setStack (k : List Frame) : (s.setStack t k).books = s.books := rfl

@[simp] theorem books_push (f : Frame) : (s.push f).books = s.books := rfl

@[simp] theorem books_disableInterrupts : s.disableInterrupts.books = s.books := rfl

@[simp] theorem books_enableInterrupts : s.enableInterrupts.books = s.books := rfl

@[simp] theorem books_mmCall (c : MmCall) : (s.mmCall c).books = s.books := rfl

theorem Relinked.books (h : Relinked s s') : s'.books = s.books := by
  have hfixed : (fun t => (s'.tcb t).fixed) = fun t => (s.tcb t).fixed := by
    funext t
    rw [h.tcb t]
    rfl
  rw [h.rest]
  unfold Kernel.books
  rw [hfixed]

@[simp] theorem books_setState (x : ThreadState) : (s.setState t x).books = s.books :=
  (Relinked.setState s t x).books

@[simp] theorem books_threadEnqueue : (threadEnqueue t s).books = s.books :=
  (Relinked.threadEnqueue t s).books

@[simp] theorem books_enqueue : (enqueue q t s).books = s.books := (Relinked.enqueue q t s).books

@[simp] theorem books_dequeue : (dequeue q s).2.books = s.books := (Relinked.dequeue q s).books

@[simp] theorem books_switchVirtualManager (v : Addr) :
    (switchVirtualManager v s).2.books = s.books := by
  unfold switchVirtualManager
  split <;> rfl

theorem books_wakeWaiter (p : Option Addr × Kernel) : (wakeWaiter p).books = p.2.books := by
  unfold wakeWaiter
  split
  · rfl
  · rw [books_threadEnqueue, books_setState]

theorem books_releaseMemory : (releaseMemory t s).books = s.books := by
  -- the stack pointer is the only field of the TCB that is written
  have hclear : ∀ u : Kernel, (u.setTcb t { u.tcb t with kernelStack := 0 }).books = u.books :=
    fun u => books_setTcb_same _ rfl
  unfold releaseMemory
  dsimp only
  split
  · rw [books_switchVirtualManager, hclear]
    split
    · simp
    · split <;> simp
  · split
    · rw [hclear, books_mmCall]
    · rfl

theorem books_sleepUntil (w : UInt64) : (sleepUntil w s).books = s.books := by
  unfold sleepUntil sleepEnqueue
  simp only [books_push, books_enqueue, books_setState]
  exact books_setTcb_same _ rfl

/-! ## schedule and KillThread taken apart -/

theorem head_putBack : ((putBack s).queue .ready).head =
    if (s.queue .ready).head = none ∧ s.state s.currentThread = .running then some s.currentThread
    else (s.queue .ready).head := by
  unfold putBack
  split
  · rename_i hrun
    cases hh : (s.queue .ready).head with
    | none =>
        have hhead : ((s.setState s.currentThread .ready).queue .ready).head = none := hh
        rw [head_threadEnqueue_of_none _ hhead, if_pos ⟨rfl, hrun⟩]
    | some u =>
        have hhead : ((s.setState s.currentThread .ready).queue .ready).head = some u := hh
        rw [head_threadEnqueue_of_some _ hhead]
        simp
  · rename_i hrun
    simp [hrun]

/-- `schedule()` takes the first thread of the ready queue, or goes on with the current one, and then
leaves for it or goes on. -/
theorem schedule_cases (hr : schedule n s = some s') :
    ∃ w next, Relinked s w ∧ (∀ u, (s.queue .ready).head = some u → next = u) ∧
      ((s.queue .ready).head = none → s.state s.currentThread = .running →
        next = s.currentThread) ∧
      (s.currentThread ≠ next ∧ s' = switchTo s.currentThread next
          ({ w with schedulePrevThread := some s.currentThread, currentThread := next }.setState
            next .running) ∨
        s.currentThread = next ∧
          s' = { w with schedulePrevThread := none, currentThread := next }.setState next
            .running) := by
  unfold schedule at hr
  obtain ⟨s1, h1, hr⟩ := Option.bind_eq_some_iff.mp hr
  have hput : Relinked s (putBack s) := by
    unfold putBack
    split
    · exact (Relinked.setState _ _ _).trans (Relinked.threadEnqueue _ _)
    · exact Relinked.refl s
  have hrel : Relinked s (threadDequeue s1).2 :=
    (hput.trans (relinked_wakeLoop h1)).trans (Relinked.dequeue .ready s1)
  have hfirst : ∀ u, ((putBack s).queue .ready).head = some u → (threadDequeue s1).1 = some u := by
    intro u hu
    have hhead := head_wakeLoop hu h1
    unfold threadDequeue dequeue
    rw [hhead]
  have hcur : (threadDequeue s1).2.currentThread = s.currentThread := hrel.currentThread
  dsimp only at hr
  generalize hn : (threadDequeue s1).1.getD (threadDequeue s1).2.systemKernelThread = next at hr
  generalize (threadDequeue s1).2 = w at hr hrel hcur hn
  refine ⟨w, next, hrel, ?_, ?_, ?_⟩
  · intro u hu
    rw [← hn, hfirst u (by rw [head_putBack, hu]; simp)]
    rfl
  · intro hnone hrun
    rw [← hn, hfirst s.currentThread (by rw [head_putBack, if_pos ⟨hnone, hrun⟩])]
    rfl
  · rw [hcur] at hr
    split at hr
    · rename_i hne
      cases hr
      exact .inl ⟨hne, rfl⟩
    · rename_i hsame
      obtain rfl := not_not.mp hsame
      -- the current thread runs, so there is nothing to reclaim
      refine .inr ⟨rfl, ?_⟩
      unfold scheduleTail at hr
      have hprev : ({ w with schedulePrevThread := some s.currentThread, currentThread :=
          s.currentThread }.setState s.currentThread .running).schedulePrevThread =
            some s.currentThread := rfl
      have hstate : ({ w with schedulePrevThread := some s.currentThread, currentThread :=
          s.currentThread }.setState s.currentThread .running).state s.currentThread ≠
            .terminated := by
        rw [state_setState, Function.update_self]
        decide
      simp only [hprev, if_neg hstate] at hr
      exact (Option.some.inj hr).symm

/-- `KillThread` on another thread: the queues, the memory, the queues, the pool. -/
theorem killThread_cases (hr : killThread n t s = some s') (hc : t ≠ s.currentThread) :
    ∃ s1 s2, Relinked s.disableInterrupts s1 ∧ Relinked (releaseMemory t s1) s2 ∧
      s' = (poolTcb t s2).enableInterrupts := by
  unfold killThread at hr
  obtain ⟨s1, h1, hr⟩ := Option.bind_eq_some_iff.mp hr
  have hrel : Relinked s.disableInterrupts s1 :=
    (Relinked.setState _ _ _).trans (relinked_removeFromSleepQueue h1)
  dsimp only at hr
  rw [if_neg] at hr
  · obtain ⟨s2, h2, hr⟩ := Option.bind_eq_some_iff.mp hr
    exact ⟨s1, s2, hrel, relinked_removeFromReadyQueue h2, (Option.some.inj hr).symm⟩
  · rw [(agrees_releaseMemory t s1).currentThread, hrel.currentThread]
    exact hc

theorem threadExit_cases (hr : threadExit n s = some s') :
    ∃ w, Relinked s.disableInterrupts w ∧ s' = (w.push .stop).push .schedule := by
  unfold threadExit at hr
  obtain ⟨w, h1, hr⟩ := Option.bind_eq_some_iff.mp hr
  exact ⟨w, (Relinked.setState _ _ _).trans (relinked_removeFromSleepQueue h1),
    (Option.some.inj hr).symm⟩

/-! ## Killing -/

theorem books_poolTcb : (poolTcb t s).books = s.books.pool t := by
  unfold poolTcb Books.pool
  by_cases h : s.numOfFreeTcb < freeTcbListSize
  · have h' : s.books.numOfFreeTcb < freeTcbListSize := h
    simp only [if_pos h, if_pos h']
    rfl
  · have h' : ¬ s.books.numOfFreeTcb < freeTcbListSize := h
    simp only [if_neg h, if_neg h']
    rfl

theorem books_killThread (hr : killThread n t s = some s') : s'.books = s.books.pool t := by
  unfold killThread at hr
  obtain ⟨s1, h1, hr⟩ := Option.bind_eq_some_iff.mp hr
  have hrel : s1.books = s.books := by
    rw [(relinked_removeFromSleepQueue h1).books, books_setState, books_disableInterrupts]
  dsimp only at hr
  split at hr
  · cases hr
    rw [books_push, books_push, books_enableInterrupts, books_poolTcb, books_releaseMemory, hrel]
  · obtain ⟨s2, h2, hr⟩ := Option.bind_eq_some_iff.mp hr
    cases hr
    rw [books_enableInterrupts, books_poolTcb, (relinked_removeFromReadyQueue h2).books,
      books_releaseMemory, hrel]

/-- The thread that the end of `schedule()` kills. -/
def reclaimed (s : Kernel) : Option Addr :=
  s.schedulePrevThread.filter fun p => s.state p = .terminated

theorem books_scheduleTail (hr : scheduleTail n s = some s') : s'.books =
    match s.reclaimed with
    | some p => s.books.pool p
    | none => s.books := by
  unfold scheduleTail at hr
  unfold reclaimed
  cases hp : s.schedulePrevThread with
  | none =>
      rw [hp] at hr
      cases hr
      rfl
  | some p =>
      rw [hp] at hr
      dsimp only at hr
      split at hr
      · rename_i hdead
        obtain ⟨s1, h1, hr⟩ := Option.bind_eq_some_iff.mp hr
        cases hr
        rw [books_push, books_killThread h1]
        simp [Option.filter, hdead]
      · rename_i hdead
        cases hr
        simp only [Option.filter, hdead, decide_false]
        rfl

/-! ## Creation -/

theorem books_registerThread (stack size : Nat) (useVmm : Bool) (vmm : Addr) :
    (registerThread t { Tcb.zero with
      kernelStack := stack, stackSize := size, useVmm := useVmm, vmm := vmm } s).books =
      s.books.register t useVmm vmm size := by
  -- the first frame is written last
  have hframe : ∀ u : Kernel, u.books = s.books.register t useVmm vmm size →
      (if useVmm then
        (switchVirtualManager (switchVirtualManager vmm u).1 (switchVirtualManager vmm u).2).2
      else u).books = s.books.register t useVmm vmm size := by
    intro u hu
    split
    · rw [books_switchVirtualManager, books_switchVirtualManager, hu]
    · exact hu
  unfold registerThread
  dsimp only
  apply hframe
  unfold Books.register
  by_cases h : s.nextTortPosition < tortSize
  · have h' : s.books.nextTortPosition < tortSize := h
    simp only [if_pos h, h', decide_true, if_true]
    refine (congrArg books (if_pos h)).trans ?_
    unfold books
    congr 1
    funext u
    exact fixed_setTcb _ u
  · have h' : ¬ s.books.nextTortPosition < tortSize := h
    simp only [if_neg h, h', decide_false]
    refine (congrArg books (if_neg h)).trans ?_
    unfold books
    congr 1
    funext u
    exact fixed_setTcb _ u

theorem books_startThread (stack size : Nat) (useVmm : Bool) (vmm : Addr) :
    (startThread t { Tcb.zero with
      kernelStack := stack, stackSize := size, useVmm := useVmm, vmm := vmm } s).books =
      s.books.register t useVmm vmm size := by
  unfold startThread
  rw [books_enableInterrupts, books_threadEnqueue, books_registerThread]

theorem books_takeTcb (page : Option Addr) :
    ((takeTcb page s).1, (takeTcb page s).2.books) = s.books.take page := by
  unfold takeTcb Books.take
  have hlist : s.books.freeTcbList s.books.numOfFreeTcb = s.freeTcbList s.numOfFreeTcb := rfl
  rw [hlist]
  cases s.freeTcbList s.numOfFreeTcb with
  | some t =>
      refine Prod.ext rfl ?_
      show (popTcb t s).books = _
      unfold popTcb books
      congr 1
      funext u
      exact fixed_setTcb _ u
  | none =>
      cases page with
      | none => rfl
      | some t => rfl

theorem books_createThread (page : Option Addr) (stack size : Nat) (useVmm : Bool) (vmm : Addr) :
    (createThread page stack size useVmm vmm s).books =
      s.books.create page stack size useVmm vmm := by
  have htake := books_takeTcb (s := s.disableInterrupts) page
  rw [books_disableInterrupts] at htake
  unfold createThread Books.create
  rw [← htake]
  cases takeTcb page s.disableInterrupts with
  | mk t? s1 =>
      cases t? with
      | none => rfl
      | some t =>
          dsimp only
          split
          · rfl
          · exact books_startThread ..

theorem books_createUserThread (page : Option Addr) (kernelStack size : Nat) (vmm : Addr) :
    (createUserThread page kernelStack size vmm s).books =
      s.books.createUser page kernelStack size vmm := by
  unfold createUserThread Books.createUser
  cases page with
  | none => rfl
  | some t =>
      dsimp only
      split
      · rfl
      · exact books_startThread ..

/-! ## Steps -/

/-- The books behind an event. -/
def booksAfter (s : Kernel) : Event → Books
  | .tick => s.books
  | .call (.createThread page stack size useVmm vmm) => s.books.create page stack size useVmm vmm
  | .call (.createKernelThread page stack size) =>
      s.books.create page stack (roundUp size) false s.currentVmmDesc
  | .call (.createUserThread page stack size vmm) => s.books.createUser page stack size vmm
  | .call (.killThread t) => s.books.pool t
  | .call (.mutexUnlock m) =>
      if (s.mutex m).owner = some s.currentThread then
        { s.books with mutex := Function.update s.mutex m ⟨false, none⟩ }
      else s.books
  | .call (.semPost m) =>
      { s.books with semCount := Function.update s.semCount m (s.semCount m + 1) }
  | .call _ => s.books
  | .run =>
      match s.stack s.currentThread with
      | .switchTo _ _ :: _ =>
          match s.reclaimed with
          | some p => s.books.pool p
          | none => s.books
      | .lockTake m :: _ =>
          { s.books with mutex := Function.update s.mutex m ⟨true, some s.currentThread⟩ }
      | .waitTake m :: _ =>
          { s.books with semCount := Function.update s.semCount m (s.semCount m - 1) }
      | _ => s.books

theorem fixed_pool (b : Books) : (b.pool t).fixed = b.fixed := by
  unfold Books.pool
  split <;> rfl

/-- The page tables are never written. -/
theorem tables_create {page : Option Addr} {stack size : Nat} {useVmm : Bool} {vmm : Addr}
    (b : Books) : ((b.create page stack size useVmm vmm).vmms,
      (b.create page stack size useVmm vmm).kernelPml4) = (b.vmms, b.kernelPml4) := by
  have htake : ((b.take page).2.vmms, (b.take page).2.kernelPml4) = (b.vmms, b.kernelPml4) := by
    unfold Books.take
    split
    · rfl
    · split <;> rfl
  unfold Books.create
  split
  · rename_i h
    rwa [h] at htake
  · rename_i h
    rw [h] at htake
    split <;> exact htake

theorem tables_booksAfter (e : Event) :
    ((booksAfter s e).vmms, (booksAfter s e).kernelPml4) = (s.vmms, s.kernelPml4) := by
  have hpool : ∀ t, ((s.books.pool t).vmms, (s.books.pool t).kernelPml4) =
      (s.vmms, s.kernelPml4) := by
    intro t
    unfold Books.pool
    split <;> rfl
  rcases e with _ | c | _
  · rfl
  · cases c with
    | createThread | createKernelThread => exact tables_create s.books
    | createUserThread =>
        unfold booksAfter Books.createUser
        dsimp only
        split
        · rfl
        · split <;> rfl
    | killThread t => exact hpool t
    | mutexUnlock m =>
        unfold booksAfter
        dsimp only
        split <;> rfl
    | _ => rfl
  · unfold booksAfter
    dsimp only
    split
    · split
      · exact hpool _
      · rfl
    · rfl
    · rfl
    · rfl

/-- Only a creation writes the fixed fields. -/
theorem fixed_booksAfter {e : Event} (he : e.creates = false) :
    (booksAfter s e).fixed = s.books.fixed := by
  rcases e with _ | c | _
  · rfl
  · cases c with
    | createThread | createKernelThread | createUserThread => cases he
    | killThread t => exact fixed_pool s.books
    | mutexUnlock m =>
        unfold booksAfter
        dsimp only
        split <;> rfl
    | _ => rfl
  · unfold booksAfter
    dsimp only
    split
    · split
      · exact fixed_pool s.books
      · rfl
    · rfl
    · rfl
    · rfl

theorem books_choose (t : Addr) (p : Option Addr) :
    ({ s with schedulePrevThread := p, currentThread := t }.setState t .running).books = s.books :=
  books_setState (s := { s with schedulePrevThread := p, currentThread := t }) .running

/-- `schedule()` kills nothing before it switches. -/
theorem books_schedule (hr : schedule n s = some s') : s'.books = s.books := by
  obtain ⟨w, next, hrel, _, _, ⟨_, rfl⟩ | ⟨_, rfl⟩⟩ := schedule_cases hr
  · exact (books_choose next (some s.currentThread)).trans hrel.books
  · exact (books_choose next none).trans hrel.books

theorem books_resume {c : Nat} (hr : resume n c s = some s') : s'.books =
    match s.reclaimed with
    | some p => s.books.pool p
    | none => s.books := by
  unfold resume at hr
  rw [books_scheduleTail hr]
  by_cases h : c = 0
  · rw [if_pos h]
  · rw [if_neg h]
    rfl

theorem books_call {c : Call} (hr : call n c s = some s') : s'.books = booksAfter s (.call c) := by
  -- queues and the states of threads are no part of the books, so most calls leave them alone
  cases c with
  | createThread page stack size useVmm vmm =>
      cases hr
      exact books_createThread ..
  | createKernelThread page stack size =>
      cases hr
      exact books_createThread ..
  | createUserThread page stack size vmm =>
      cases hr
      exact books_createUserThread ..
  | threadSleepMs ms =>
      cases hr
      unfold threadSleepMs
      split
      · rfl
      · exact books_sleepUntil _
  | threadSleepSecond sec =>
      cases hr
      unfold threadSleepSecond
      split
      · rfl
      · exact books_sleepUntil _
  | mutexLock m =>
      cases hr
      unfold mutexLock
      dsimp only
      split <;> rfl
  | mutexUnlock m =>
      cases hr
      show (mutexUnlock m s).books = if _ then _ else _
      unfold mutexUnlock
      dsimp only
      by_cases h : (s.mutex m).owner = some s.currentThread
      · have h' : ¬ (s.disableInterrupts.mutex m).owner ≠ some s.disableInterrupts.currentThread :=
          not_not.mpr h
        rw [if_neg h', if_pos h, books_enableInterrupts, books_wakeWaiter, threadDequeueWait,
          books_dequeue]
        rfl
      · have h' : (s.disableInterrupts.mutex m).owner ≠ some s.disableInterrupts.currentThread := h
        rw [if_pos h', if_neg h]
        rfl
  | semWait m =>
      cases hr
      rfl
  | semPost m =>
      cases hr
      show (semPost m s).books = _
      unfold semPost
      rw [books_enableInterrupts, books_wakeWaiter, semDequeueWait, books_dequeue]
      rfl
  | threadExit =>
      obtain ⟨s1, h1, hr⟩ := Option.bind_eq_some_iff.mp hr
      cases hr
      rw [books_push, books_push, (relinked_removeFromSleepQueue h1).books, books_setState]
      rfl
  | killThread t => exact books_killThread hr

theorem books_runFrame {f : Frame} {k : List Frame} (hk : s.stack s.currentThread = f :: k)
    (hr : runFrame n f (s.setStack s.currentThread k) = some s') :
    s'.books = booksAfter s .run := by
  unfold booksAfter
  rw [hk]
  cases f with
  | schedule => exact books_schedule (s := s.setStack s.currentThread k) hr
  | switchTo c b => exact books_resume (s := s.setStack s.currentThread k) hr
  | reclaimed =>
      cases hr
      rfl
  | irq0 =>
      cases hr
      rfl
  | lockTest m =>
      cases hr
      unfold lockTest
      split
      · simp [threadEnqueueWait]
      · rfl
  | lockTake m =>
      cases hr
      rfl
  | waitTest m =>
      cases hr
      unfold waitTest
      split
      · simp [semEnqueueWait]
      · rfl
  | waitTake m =>
      cases hr
      rfl
  | slept =>
      cases hr
      rfl
  | stop =>
      cases hr
      rfl

/-- What a step makes of the books. -/
theorem books_step {e : Event} (hr : step n e s = some s') : s'.books = booksAfter s e := by
  unfold step at hr
  cases e with
  | tick =>
      dsimp only at hr
      split at hr
      · cases hr
        rfl
      · cases hr
  | call c =>
      dsimp only at hr
      split at hr
      · exact books_call hr
      · cases hr
  | run =>
      dsimp only at hr
      split at hr
      · cases hr
      · rename_i f k hk
        exact books_runFrame hk hr

/-! ## What a creation does -/

/-- The TCB `t`, of no live thread, has been cleared and given back. -/
structure Freed (s : Kernel) (t : Addr) (s' : Kernel) : Prop where
  dead : ¬ Alive s t
  state : ∀ u, u ≠ t → s'.state u = s.state u
  fixed : ∀ u, u ≠ t → (s'.tcb u).fixed = (s.tcb u).fixed
  tcbs : ∀ u, u ∈ s'.tcbs ↔ u ∈ s.tcbs ∧ u ≠ t
  tort : s'.tort = s.tort
  position : s'.nextTortPosition = s.nextTortPosition
  nextId : s'.nextThreadId = s.nextThreadId

/-- A thread has been started with the TCB `t`, which was no live thread's. -/
structure Started (s : Kernel) (t : Addr) (s' : Kernel) : Prop where
  dead : ¬ Alive s t
  state : ∀ u, u ≠ t → s'.state u = s.state u
  ready : s'.state t = .ready
  fixed : ∀ u, u ≠ t → (s'.tcb u).fixed = (s.tcb u).fixed
  tcbs : ∀ u, u ∈ s'.tcbs ↔ u ∈ s.tcbs ∨ u = t
  id : (s'.tcb t).id = s.nextThreadId
  nextId : s'.nextThreadId = s.nextThreadId + 1
  entry : s.nextTortPosition < tortSize →
    (s'.tcb t).positionInTable = s.nextTortPosition ∧
      s'.tort = Function.update s.tort s.nextTortPosition (some t) ∧
      s'.nextTortPosition = s.nextTortPosition + 1

/-- What an event that creates a thread does. -/
inductive Creation (s s' : Kernel) : Prop
  | none (hstate : s'.state = s.state) (hbooks : s'.books = s.books)
  | freed {t : Addr} (h : Freed s t s')
  | started {t : Addr} (h : Started s t s')

theorem state_registerThread (b : Tcb) :
    (registerThread t b s).state = Function.update s.state t b.state := by
  have hframe : ∀ v : Kernel, (if b.useVmm then
      (switchVirtualManager (switchVirtualManager b.vmm v).1 (switchVirtualManager b.vmm v).2).2
      else v).state = v.state := by
    intro v
    split
    · exact (agrees_switchVirtualManager _ _).state.trans (agrees_switchVirtualManager _ _).state
    · rfl
  unfold registerThread
  dsimp only
  rw [hframe, apply_ite Kernel.state]
  refine (ite_congr rfl (fun _ => ?_) fun _ => ?_).trans (ite_self _)
  · exact state_setTcb { b with
      id := s.nextThreadId
      positionInTable := if s.nextTortPosition < tortSize then s.nextTortPosition else 0 }
  · exact state_setTcb { b with
      id := s.nextThreadId
      positionInTable := if s.nextTortPosition < tortSize then s.nextTortPosition else 0 }

theorem state_startThread (b : Tcb) :
    (startThread t b s).state = Function.update s.state t .ready := by
  show ((enqueue .ready t (registerThread t b s)).setState t .ready).state = _
  rw [state_setState, state_enqueue, state_registerThread, Function.update_idem]

/-- A TCB `t` of no live thread has been taken; what is kept of the others is as before. -/
structure Taken (s : Kernel) (t : Addr) (s1 : Kernel) : Prop where
  dead : ¬ Alive s t
  state : ∀ u, u ≠ t → s1.state u = s.state u
  fixed : ∀ u, u ≠ t → (s1.tcb u).fixed = (s.tcb u).fixed
  tcbs : ∀ u, u ∈ s1.tcbs ↔ u ∈ s.tcbs ∨ u = t
  tort : s1.tort = s.tort
  position : s1.nextTortPosition = s.nextTortPosition
  id : s1.nextThreadId = s.nextThreadId

theorem Taken.freed {s1 : Kernel} (h : Taken s t s1) : Freed s t (freeTcb t s1) := by
  refine ⟨h.dead, h.state, h.fixed, fun u => ?_, h.tort, h.position, h.id⟩
  show u ∈ s1.tcbs.filter (· ≠ t) ↔ _
  rw [List.mem_filter, h.tcbs u, decide_eq_true_iff]
  tauto

theorem Taken.started {s1 : Kernel} (h : Taken s t s1) (stack size : Nat) (useVmm : Bool)
    (vmm : Addr) : Started s t (startThread t { Tcb.zero with
      kernelStack := stack, stackSize := size, useVmm := useVmm, vmm := vmm } s1) := by
  generalize hs' : startThread t { Tcb.zero with
    kernelStack := stack, stackSize := size, useVmm := useVmm, vmm := vmm } s1 = s'
  have hstate : s'.state = Function.update s1.state t .ready := hs' ▸ state_startThread _
  have hbooks : s'.books = s1.books.register t useVmm vmm size := hs' ▸ books_startThread ..
  have hfixed : ∀ u, (s'.tcb u).fixed = (s1.books.register t useVmm vmm size).fixed u :=
    fun u => congrFun (congrArg Books.fixed hbooks) u
  have hself : (s'.tcb t).fixed = { Tcb.zero with
      id := s1.nextThreadId, stackSize := size, useVmm := useVmm, vmm := vmm
      positionInTable :=
        if decide (s1.nextTortPosition < tortSize) then s1.nextTortPosition else 0 } :=
    (hfixed t).trans (Function.update_self _ _ _)
  refine ⟨h.dead, ?_, ?_, ?_, ?_, ?_, ?_, ?_⟩
  · intro u hu
    rw [hstate, Function.update_of_ne hu]
    exact h.state u hu
  · rw [hstate, Function.update_self]
  · intro u hu
    rw [hfixed u]
    exact (Function.update_of_ne hu _ _).trans (h.fixed u hu)
  · intro u
    have htcbs : s'.tcbs = s1.tcbs := congrArg Books.tcbs hbooks
    rw [htcbs]
    exact h.tcbs u
  · have hid : (s'.tcb t).id = s1.nextThreadId := congrArg Tcb.id hself
    rw [hid, h.id]
  · have hnext : s'.nextThreadId = s1.nextThreadId + 1 := congrArg Books.nextThreadId hbooks
    rw [hnext, h.id]
  · intro hroom
    have hroom1 : s1.nextTortPosition < tortSize := h.position ▸ hroom
    have hpos : (s'.tcb t).positionInTable =
        if decide (s1.nextTortPosition < tortSize) then s1.nextTortPosition else 0 :=
      congrArg Tcb.positionInTable hself
    have htort : s'.tort = if decide (s1.nextTortPosition < tortSize) then
        Function.update s1.tort s1.nextTortPosition (some t) else s1.tort :=
      congrArg Books.tort hbooks
    have hnext : s'.nextTortPosition = if decide (s1.nextTortPosition < tortSize) then
        s1.nextTortPosition + 1 else s1.nextTortPosition :=
      congrArg Books.nextTortPosition hbooks
    rw [hpos, htort, hnext, decide_eq_true hroom1, h.position, h.tort]
    exact ⟨rfl, rfl, rfl⟩

theorem taken_allocTcb (ht : t ∉ s.tcbs) : Taken s t (allocTcb t s.disableInterrupts) where
  dead h := ht h.1
  state _ _ := rfl
  fixed _ _ := rfl
  tcbs u := by
    show u ∈ t :: s.tcbs ↔ _
    rw [List.mem_cons]
    tauto
  tort := rfl
  position := rfl
  id := rfl

theorem Pool.taken_popTcb (h : Pool s) (ht : s.freeTcbList s.numOfFreeTcb = some t) :
    Taken s t (popTcb t s.disableInterrupts) := by
  have hpos : 1 ≤ s.numOfFreeTcb := by
    by_contra h0
    rw [Nat.eq_zero_of_not_pos h0, h.base] at ht
    cases ht
  obtain ⟨hmem, hdead, _⟩ := h.dead t ⟨_, hpos, le_rfl, ht⟩
  refine ⟨fun ha => ha.2 hdead, ?_, ?_, ?_, rfl, rfl, rfl⟩
  · intro u hu
    exact (congrFun (state_setTcb (s := s.disableInterrupts) Tcb.zero) u).trans
      (Function.update_of_ne hu _ _)
  · intro u hu
    exact (fixed_setTcb (s := s.disableInterrupts) Tcb.zero u).trans (Function.update_of_ne hu _ _)
  · intro u
    show u ∈ s.tcbs ↔ _
    refine ⟨Or.inl, ?_⟩
    rintro (hu | rfl)
    · exact hu
    · exact hmem

theorem Pool.creation_createThread (h : Pool s) (page : Option Addr) (stack size : Nat)
    (useVmm : Bool) (vmm : Addr) (hpage : ∀ t, page = some t → t ∉ s.tcbs) :
    Creation s (createThread page stack size useVmm vmm s) := by
  have hfrom : ∀ t s1, Taken s t s1 → Creation s (if stack = 0 then freeTcb t s1
      else startThread t { Tcb.zero with
        kernelStack := stack, stackSize := size, useVmm := useVmm, vmm := vmm } s1) := by
    intro t s1 ht
    split
    · exact .freed ht.freed
    · exact .started (ht.started ..)
  unfold createThread takeTcb
  cases hl : s.disableInterrupts.freeTcbList s.disableInterrupts.numOfFreeTcb with
  | some t => exact hfrom t _ (h.taken_popTcb hl)
  | none =>
      cases page with
      | none => exact .none rfl rfl
      | some t => exact hfrom t _ (taken_allocTcb (hpage t rfl))

theorem creation_createUserThread (page : Option Addr) (kernelStack size : Nat) (vmm : Addr)
    (hpage : ∀ t, page = some t → t ∉ s.tcbs) :
    Creation s (createUserThread page kernelStack size vmm s) := by
  unfold createUserThread
  cases page with
  | none => exact .none rfl rfl
  | some t =>
      have ht : Taken s t (allocTcb t s.disableInterrupts) := taken_allocTcb (hpage t rfl)
      dsimp only
      split
      · exact .freed ht.freed
      · exact .started (ht.started ..)

end Kernel

end Os003
