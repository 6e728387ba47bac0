import Os003.Kernel.Waking

set_option autoImplicit false

/-! # The scheduler

`Sched s xs` is the invariant of the kernel between two pieces of work: the queues are the lists
`xs`, only the current thread is RUNNING, and a current thread that is BLOCKED or TERMINATED is
about to leave through `schedule()`. `Running s xs` is the form it takes while the current
thread is at work. For each function of the kernel there is a lemma that it returns and keeps
the invariant; `Killed`, `Switched` and `Resumed` say what else the three longest of them do.
-/

namespace Os003

open Linked

/-- The frame of a thread that has left through `switch_to`. -/
def Frame.isSwitch : Frame → Bool
  | .switchTo _ _ => true
  | _ => false

namespace Kernel

variable {s s' : Kernel} {xs xs' : QueueId → List Addr} {q : QueueId} {t : Addr} {f : Frame}
  {k : List Frame}

@[simp] theorem stack_push : (s.push f).stack =
    Function.update s.stack s.currentThread (f :: s.stack s.currentThread) := rfl

@[simp] theorem currentThread_push : (s.push f).currentThread = s.currentThread := rfl

/-- The TCB is in the pool of free TCBs. -/
def Pooled (s : Kernel) (t : Addr) : Prop :=
  ∃ i, 1 ≤ i ∧ i ≤ s.numOfFreeTcb ∧ s.freeTcbList i = some t

/-- The pool holds different TCBs of threads that have ended. -/
structure Pool (s : Kernel) : Prop where
  base : s.freeTcbList 0 = none
  filled : ∀ i, 1 ≤ i → i ≤ s.numOfFreeTcb → ∃ t, s.freeTcbList i = some t
  distinct : ∀ i j t, 1 ≤ i → i ≤ s.numOfFreeTcb → 1 ≤ j → j ≤ s.numOfFreeTcb →
    s.freeTcbList i = some t → s.freeTcbList j = some t → i = j
  dead : ∀ t, Pooled s t → t ∈ s.tcbs ∧ s.state t = .terminated ∧ t ≠ s.currentThread

structure Core (s : Kernel) (xs : QueueId → List Addr) : Prop extends Placed s xs where
  onlyRunning : ∀ t, t ∈ s.tcbs → s.state t = .running → t = s.currentThread
  current : s.currentThread ∈ s.tcbs
  frames : ∀ t, ∀ f ∈ (s.stack t).tail, f.isSwitch = false
  pool : Pool s

/-- The current thread is at work. -/
structure Running (s : Kernel) (xs : QueueId → List Addr) : Prop extends Core s xs where
  running : s.state s.currentThread = .running
  working : ∀ f ∈ s.stack s.currentThread, f.isSwitch = false

/-- The invariant between two pieces of work. -/
structure Sched (s : Kernel) (xs : QueueId → List Addr) : Prop extends Core s xs where
  currentState : s.state s.currentThread = .running ∨
    s.state s.currentThread ≠ .ready ∧ ∃ k, s.stack s.currentThread = .schedule :: k
  pending : ∀ c f k, s.stack s.currentThread = .switchTo c f :: k →
    ∃ p, s.schedulePrevThread = some p ∧ p ∈ s.tcbs ∧ p ≠ s.currentThread ∧
      (s.state p = .terminated → ¬ Pooled s p)

/-- A call of `schedule()` finds a thread: the current one can go on, or another one is ready or is
due to wake up. -/
def FindsReady (s : Kernel) : Prop :=
  s.state s.currentThread = .running ∨ (s.queue .ready).head ≠ none ∨
    ∃ t, Meets s.next t (s.queue .sleep).head ∧ s.due t = true

/-! ## The forms of the invariant -/

theorem Running.sched (h : Running s xs) : Sched s xs := by
  refine ⟨h.toCore, Or.inl h.running, ?_⟩
  intro c f k hk
  have := h.working (.switchTo c f) (by rw [hk]; exact List.mem_cons_self)
  cases this

/-- A thread that has blocked or ended leaves through `schedule()`. -/
theorem Core.leave (h : Core s xs) (hs : s.state s.currentThread ≠ .ready)
    (hk : s.stack s.currentThread = .schedule :: k) : Sched s xs := by
  refine ⟨h, Or.inr ⟨hs, k, hk⟩, ?_⟩
  intro c f k' hk'
  rw [hk] at hk'
  cases hk'

theorem Pool.congr (h : Pool s) (hlist : s'.freeTcbList = s.freeTcbList)
    (hnum : s'.numOfFreeTcb = s.numOfFreeTcb) (htcbs : ∀ t, Pooled s t → t ∈ s'.tcbs)
    (hstate : ∀ t, Pooled s t → s'.state t = s.state t)
    (hcur : ∀ t, Pooled s t → t ≠ s'.currentThread) : Pool s' := by
  have hpooled : ∀ t, Pooled s' t → Pooled s t := by
    intro t ht
    unfold Pooled at ht ⊢
    rwa [hlist, hnum] at ht
  refine ⟨?_, ?_, ?_, ?_⟩
  · rw [hlist]; exact h.base
  · rw [hlist, hnum]; exact h.filled
  · rw [hlist, hnum]; exact h.distinct
  · intro t ht
    have ht' := hpooled t ht
    obtain ⟨_, hdead, _⟩ := h.dead t ht'
    exact ⟨htcbs t ht', (hstate t ht').trans hdead, hcur t ht'⟩

/-- Nothing that the invariant speaks about changes but the stack of the current thread. -/
theorem Core.congr (h : Core s xs) (hnext : s'.next = s.next) (hstate : s'.state = s.state)
    (hqueue : s'.queue = s.queue) (htcbs : s'.tcbs = s.tcbs)
    (hcur : s'.currentThread = s.currentThread) (hlist : s'.freeTcbList = s.freeTcbList)
    (hnum : s'.numOfFreeTcb = s.numOfFreeTcb)
    (hstack : ∀ t, t ≠ s.currentThread → s'.stack t = s.stack t)
    (hframes : ∀ f ∈ (s'.stack s.currentThread).tail, f.isSwitch = false) : Core s' xs := by
  refine ⟨h.toPlaced.congr hnext hstate hqueue htcbs, ?_, ?_, ?_, ?_⟩
  · intro t ht hrun
    rw [htcbs] at ht
    rw [hstate] at hrun
    rw [hcur]
    exact h.onlyRunning t ht hrun
  · rw [hcur, htcbs]; exact h.current
  · intro t
    by_cases ht : t = s.currentThread
    · subst ht; exact hframes
    · rw [hstack t ht]; exact h.frames t
  · refine h.pool.congr hlist hnum ?_ ?_ ?_
    · intro t ht
      rw [htcbs]
      exact (h.pool.dead t ht).1
    · intro t _
      rw [hstate]
    · intro t ht
      rw [hcur]
      exact (h.pool.dead t ht).2.2

theorem Running.congr (h : Running s xs) (hnext : s'.next = s.next) (hstate : s'.state = s.state)
    (hqueue : s'.queue = s.queue) (htcbs : s'.tcbs = s.tcbs)
    (hcur : s'.currentThread = s.currentThread) (hlist : s'.freeTcbList = s.freeTcbList)
    (hnum : s'.numOfFreeTcb = s.numOfFreeTcb)
    (hstack : ∀ t, t ≠ s.currentThread → s'.stack t = s.stack t)
    (hworking : ∀ f ∈ s'.stack s.currentThread, f.isSwitch = false) : Running s' xs := by
  refine ⟨h.toCore.congr hnext hstate hqueue htcbs hcur hlist hnum hstack ?_, ?_, ?_⟩
  · intro f hf
    exact hworking f (List.mem_of_mem_tail hf)
  · rw [hcur, hstate]; exact h.running
  · rw [hcur]; exact hworking

/-- Writes to fields outside the invariant. -/
theorem Running.other (h : Running s xs) (htcb : s'.tcb = s.tcb) (hqueue : s'.queue = s.queue)
    (htcbs : s'.tcbs = s.tcbs) (hcur : s'.currentThread = s.currentThread)
    (hlist : s'.freeTcbList = s.freeTcbList) (hnum : s'.numOfFreeTcb = s.numOfFreeTcb)
    (hstack : s'.stack = s.stack) : Running s' xs := by
  refine h.congr ?_ ?_ hqueue htcbs hcur hlist hnum ?_ ?_
  · funext t; simp [next, htcb]
  · funext t; simp [state, htcb]
  · intro t _; rw [hstack]
  · rw [hstack]; exact h.working

theorem Running.push (h : Running s xs) (hf : f.isSwitch = false) : Running (s.push f) xs := by
  refine h.congr rfl rfl rfl rfl rfl rfl rfl ?_ ?_
  · intro t ht
    simp [Function.update_of_ne ht]
  · intro g hg
    simp only [stack_push, Function.update_self, List.mem_cons] at hg
    rcases hg with rfl | hg
    · exact hf
    · exact h.working g hg

theorem Running.interrupts (h : Running s xs) (b : Bool) :
    Running { s with interrupts := b } xs :=
  h.other rfl rfl rfl rfl rfl rfl rfl

/-- The current thread goes on from its innermost frame. -/
theorem Core.pop (h : Core s xs) (hrun : s.state s.currentThread = .running)
    (hk : s.stack s.currentThread = f :: k) : Running (s.setStack s.currentThread k) xs := by
  have hframes := h.frames s.currentThread
  rw [hk, List.tail_cons] at hframes
  have hk' : (s.setStack s.currentThread k).stack s.currentThread = k := Function.update_self _ _ _
  refine ⟨h.congr rfl rfl rfl rfl rfl rfl rfl ?_ ?_, hrun, ?_⟩
  · intro t ht
    exact Function.update_of_ne ht _ _
  · rw [hk']
    intro g hg
    exact hframes g (List.mem_of_mem_tail hg)
  · intro g hg
    change g ∈ (s.setStack s.currentThread k).stack s.currentThread at hg
    rw [hk'] at hg
    exact hframes g hg

/-- A running thread is in no queue. -/
theorem Running.not_queued (h : Running s xs) (q : QueueId) : s.currentThread ∉ xs q :=
  h.toPlaced.not_mem (by rw [h.running]; decide) (by rw [h.running]; decide) q

/-- A change of queues and states that starts no thread and revives none. -/
theorem Core.relink (h : Core s xs) (hrel : Relinked s s') (hp : Placed s' xs')
    (hrun : ∀ u, s'.state u = .running → s.state u = .running)
    (hdead : ∀ u, s.state u = .terminated → s'.state u = .terminated) : Core s' xs' := by
  refine ⟨hp, ?_, ?_, ?_, ?_⟩
  · intro t ht hr
    rw [hrel.tcbs] at ht
    rw [hrel.currentThread]
    exact h.onlyRunning t ht (hrun t hr)
  · rw [hrel.currentThread, hrel.tcbs]; exact h.current
  · rw [hrel.stack]; exact h.frames
  · refine h.pool.congr hrel.freeTcbList hrel.numOfFreeTcb ?_ ?_ ?_
    · intro t ht
      rw [hrel.tcbs]
      exact (h.pool.dead t ht).1
    · intro t ht
      have hd := (h.pool.dead t ht).2.1
      rw [hd, hdead t hd]
    · intro t ht
      rw [hrel.currentThread]
      exact (h.pool.dead t ht).2.2

theorem Running.relink (h : Running s xs) (hrel : Relinked s s') (hp : Placed s' xs')
    (hcur : s'.state s.currentThread = .running)
    (hrun : ∀ u, s'.state u = .running → s.state u = .running)
    (hdead : ∀ u, s.state u = .terminated → s'.state u = .terminated) : Running s' xs' := by
  refine ⟨h.toCore.relink hrel hp hrun hdead, ?_, ?_⟩
  · rw [hrel.currentThread]; exact hcur
  · rw [hrel.currentThread, hrel.stack]; exact h.working

/-! ## Blocking and waking -/

/-- The current thread has got the state `x` and stands at the call of `schedule()` in `f`. -/
structure Leaves (s : Kernel) (f : Frame) (x : ThreadState) (s' : Kernel) : Prop where
  mutex : s'.mutex = s.mutex
  tcbs : s'.tcbs = s.tcbs
  currentThread : s'.currentThread = s.currentThread
  interrupts : s'.interrupts = s.interrupts
  state : s'.state = Function.update s.state s.currentThread x
  stack : s'.stack = Function.update s.stack s.currentThread
    (.schedule :: f :: s.stack s.currentThread)

/-- The current thread stays at work and has the stack `k`; at most a thread has been woken. -/
structure Stays (s : Kernel) (k : List Frame) (s' : Kernel) : Prop where
  tcbs : s'.tcbs = s.tcbs
  currentThread : s'.currentThread = s.currentThread
  state : ∀ u, s'.state u = s.state u ∨ s.state u = .blocked ∧ s'.state u = .ready
  stack : s'.stack = Function.update s.stack s.currentThread k

theorem leaves_block (s : Kernel) (q : QueueId) (f : Frame) :
    Leaves s f .blocked (((enqueue q s.currentThread
      (s.setState s.currentThread .blocked)).push f).push .schedule) := by
  have hrel := (Relinked.setState s s.currentThread .blocked).trans
    (Relinked.enqueue q s.currentThread _)
  refine ⟨hrel.mutex, hrel.tcbs, hrel.currentThread, ?_, ?_, ?_⟩
  · show (enqueue q s.currentThread (s.setState s.currentThread .blocked)).interrupts = _
    rw [hrel.rest]
  · show (enqueue q s.currentThread (s.setState s.currentThread .blocked)).state = _
    rw [state_enqueue, state_setState]
  · simp [hrel.currentThread, hrel.stack]

theorem stays_push (s : Kernel) (f : Frame) :
    Stays s (f :: s.stack s.currentThread) (s.push f) :=
  ⟨rfl, rfl, fun _ => Or.inl rfl, rfl⟩

/-- Writes to fields that do not matter here. -/
theorem Stays.of_eq (htcb : s'.tcb = s.tcb) (htcbs : s'.tcbs = s.tcbs)
    (hcur : s'.currentThread = s.currentThread) (hstack : s'.stack = s.stack) :
    Stays s (s.stack s.currentThread) s' := by
  refine ⟨htcbs, hcur, ?_, ?_⟩
  · intro u
    left
    rw [Kernel.state, Kernel.state, htcb]
  · rw [hstack, Function.update_eq_self]

theorem Stays.other {u : Kernel} (h : Stays s k s') (htcb : u.tcb = s'.tcb)
    (htcbs : u.tcbs = s'.tcbs) (hcur : u.currentThread = s'.currentThread)
    (hstack : u.stack = s'.stack) : Stays s k u := by
  have hstate : u.state = s'.state := by
    funext v
    rw [Kernel.state, Kernel.state, htcb]
  exact ⟨htcbs.trans h.tcbs, hcur.trans h.currentThread, by rw [hstate]; exact h.state,
    hstack.trans h.stack⟩

theorem Stays.trans {u : Kernel} {k k' : List Frame} (h : Stays s k s') (h' : Stays s' k' u) :
    Stays s k' u := by
  refine ⟨h'.tcbs.trans h.tcbs, h'.currentThread.trans h.currentThread, ?_, ?_⟩
  · intro v
    rcases h'.state v with he' | ⟨hb', he'⟩ <;> rcases h.state v with he | ⟨hb, he⟩
    · exact Or.inl (he'.trans he)
    · exact Or.inr ⟨hb, he'.trans he⟩
    · exact Or.inr ⟨he.symm.trans hb', he'⟩
    · cases he.symm.trans hb'
  · rw [h'.stack, h.stack, h.currentThread, Function.update_idem]

theorem Running.stays_wakeWaiter (h : Running s xs) (hq : q ≠ .ready) :
    Stays s (s.stack s.currentThread) (Kernel.wakeWaiter (dequeue q s)) := by
  cases hl : xs q with
  | nil =>
      rw [h.toQueues.dequeue_nil hl]
      exact Stays.of_eq rfl rfl rfl rfl
  | cons t r =>
      obtain ⟨hfst, _, hstate⟩ := h.toQueues.dequeue_cons hl
      have hwake : Kernel.wakeWaiter (dequeue q s) =
          threadEnqueue t ((dequeue q s).2.setState t .ready) := by
        have hpair : dequeue q s = (some t, (dequeue q s).2) := by rw [← hfst]
        rw [hpair]
        rfl
      have hrel : Relinked s (threadEnqueue t ((dequeue q s).2.setState t .ready)) :=
        ((Relinked.dequeue q s).trans (Relinked.setState _ _ _)).trans (Relinked.threadEnqueue _ _)
      have htb : s.state t = .blocked := ((h.blocked_iff t).mp ⟨q, hq, by simp [hl]⟩).2
      rw [hwake]
      refine ⟨hrel.tcbs, hrel.currentThread, ?_, by rw [hrel.stack, Function.update_eq_self]⟩
      intro u
      by_cases hut : u = t
      · subst hut
        exact Or.inr ⟨htb, by simp [threadEnqueue]⟩
      · left
        simp [threadEnqueue, hstate, Function.update_of_ne hut]

theorem mutex_wakeWaiter (q : QueueId) (s : Kernel) :
    (Kernel.wakeWaiter (dequeue q s)).mutex = s.mutex := by
  have hrel := Relinked.dequeue q s
  cases hd : dequeue q s with
  | mk w s1 =>
      rw [hd] at hrel
      cases w with
      | none => exact hrel.mutex
      | some t =>
          exact ((hrel.trans (Relinked.setState _ _ _)).trans (Relinked.threadEnqueue _ _)).mutex

/-- The current thread goes into a queue and leaves. -/
theorem Running.blockOn (h : Running s xs) (hq : q ≠ .ready) (hf : f.isSwitch = false) :
    Sched (((enqueue q s.currentThread (s.setState s.currentThread .blocked)).push f).push .schedule)
      (Function.update xs q (xs q ++ [s.currentThread])) := by
  let s1 := enqueue q s.currentThread (s.setState s.currentThread .blocked)
  have hrel : Relinked s s1 := (Relinked.setState s _ _).trans (Relinked.enqueue q _ _)
  have hstate : s1.state = Function.update s.state s.currentThread .blocked := by
    simp [s1]
  have hplaced := h.toPlaced.block h.not_queued h.current hq
  have hcore : Core s1 (Function.update xs q (xs q ++ [s.currentThread])) := by
    refine h.toCore.relink hrel hplaced ?_ ?_
    · intro u hu
      rw [hstate] at hu
      by_cases hc : u = s.currentThread
      · subst hc; exact h.running
      · rwa [Function.update_of_ne hc] at hu
    · intro u hu
      have hc : u ≠ s.currentThread := by
        rintro rfl
        rw [h.running] at hu
        cases hu
      rw [hstate, Function.update_of_ne hc]
      exact hu
  have hcur : s1.currentThread = s.currentThread := hrel.currentThread
  show Sched ((s1.push f).push .schedule) _
  refine Core.leave (k := f :: s.stack s.currentThread) ?_ ?_ ?_
  · refine hcore.congr rfl rfl rfl rfl rfl rfl rfl ?_ ?_
    · intro t ht
      simp [Function.update_of_ne ht]
    · intro g hg
      simp only [stack_push, currentThread_push, Function.update_self, List.tail_cons,
        List.mem_cons] at hg
      rcases hg with rfl | hg
      · exact hf
      · rw [hrel.stack, hcur] at hg
        exact h.working g hg
  · show s1.state s1.currentThread ≠ .ready
    rw [hstate, hcur, Function.update_self]
    decide
  · simp [hrel.stack, hcur]

/-- The wait queues other than `q` are the same lists. -/
def SameWaits (q : QueueId) (xs xs' : QueueId → List Addr) : Prop :=
  ∀ q', q' ≠ .ready → q' ≠ .sleep → q' ≠ q → xs' q' = xs q'

theorem SameWaits.refl (q : QueueId) (xs : QueueId → List Addr) : SameWaits q xs xs :=
  fun _ _ _ _ => rfl

theorem SameWaits.trans {ys : QueueId → List Addr} (h : SameWaits q xs xs')
    (h' : SameWaits q xs' ys) : SameWaits q xs ys :=
  fun q' h1 h2 h3 => (h' q' h1 h2 h3).trans (h q' h1 h2 h3)

theorem SameWaits.update (xs : QueueId → List Addr) (q : QueueId) (l : List Addr) :
    SameWaits q xs (Function.update xs q l) := fun _ _ _ h3 => Function.update_of_ne h3 _ _

/-- Changes of the ready queue and the sleep queue do not count. -/
theorem SameWaits.ready (xs : QueueId → List Addr) (l : List Addr) :
    SameWaits q xs (Function.update xs .ready l) := fun _ h1 _ _ => Function.update_of_ne h1 _ _

theorem SameWaits.sleep (xs : QueueId → List Addr) (l : List Addr) :
    SameWaits q xs (Function.update xs .sleep l) := fun _ _ h2 _ => Function.update_of_ne h2 _ _

/-- The first waiting thread of a queue goes to the ready queue. -/
theorem Running.wakeWaiter (h : Running s xs) (hq : q ≠ .ready) :
    ∃ xs', Running (Kernel.wakeWaiter (dequeue q s)) xs' ∧ xs' q = (xs q).tail ∧
      SameWaits q xs xs' := by
  cases hl : xs q with
  | nil =>
      rw [h.toQueues.dequeue_nil hl]
      exact ⟨xs, h, hl, SameWaits.refl q xs⟩
  | cons t r =>
      obtain ⟨hfst, hqueues, hstate⟩ := h.toQueues.dequeue_cons hl
      have hrel := Relinked.dequeue q s
      have hwake : Kernel.wakeWaiter (dequeue q s) =
          threadEnqueue t ((dequeue q s).2.setState t .ready) := by
        have hpair : dequeue q s = (some t, (dequeue q s).2) := by rw [← hfst]
        rw [hpair]
        rfl
      have hplaced := h.toPlaced.wake (p := []) hl hq hqueues hstate hrel.tcbs
      have hst : (threadEnqueue t ((dequeue q s).2.setState t .ready)).state =
          Function.update s.state t .ready := by
        simp [threadEnqueue, hstate]
      -- the head of the wait queue is blocked, so it is not the current thread
      have htc : t ≠ s.currentThread := by
        rintro rfl
        exact h.not_queued q (by simp [hl])
      have htb : s.state t = .blocked := ((h.blocked_iff t).mp ⟨q, hq, by simp [hl]⟩).2
      rw [hwake]
      refine ⟨_, h.relink ((hrel.trans (Relinked.setState _ _ _)).trans
        (Relinked.threadEnqueue _ _)) hplaced ?_ ?_ ?_, ?_,
        (SameWaits.update xs q _).trans (SameWaits.ready _ _)⟩
      · rw [hst, Function.update_of_ne (Ne.symm htc)]
        exact h.running
      · intro u hu
        rw [hst] at hu
        by_cases hut : u = t
        · subst hut
          rw [Function.update_self] at hu
          cases hu
        · rwa [Function.update_of_ne hut] at hu
      · intro u hu
        have hut : u ≠ t := by
          rintro rfl
          rw [htb] at hu
          cases hu
        rw [hst, Function.update_of_ne hut]
        exact hu
      · rw [Function.update_of_ne hq, Function.update_self]
        rfl

/-! ## Sleeping, mutexes and semaphores -/

/-- The call of `mutex_lock` comes back at once to the owner; others go to the test of `locked`. -/
theorem mutexLock_spec (m : Addr) (s : Kernel) :
    (Kernel.mutexLock m s).mutex = s.mutex ∧
      ((s.mutex m).owner = some s.currentThread ∧ (Kernel.mutexLock m s).interrupts = true ∧
          Stays s (s.stack s.currentThread) (Kernel.mutexLock m s) ∨
        (s.mutex m).owner ≠ some s.currentThread ∧ (Kernel.mutexLock m s).interrupts = false ∧
          Stays s (.lockTest m :: s.stack s.currentThread) (Kernel.mutexLock m s)) := by
  unfold Kernel.mutexLock
  dsimp only
  split
  · rename_i ho
    exact ⟨rfl, Or.inl ⟨ho, rfl, Stays.of_eq rfl rfl rfl rfl⟩⟩
  · rename_i ho
    have hoff : Stays s (s.stack s.currentThread) s.disableInterrupts := Stays.of_eq rfl rfl rfl rfl
    exact ⟨rfl, Or.inr ⟨ho, rfl, hoff.trans (stays_push s.disableInterrupts (.lockTest m))⟩⟩

theorem lockTest_spec (m : Addr) (s : Kernel) :
    (s.mutex m).locked = true ∧ Leaves s (.lockTest m) .blocked (Kernel.lockTest m s) ∨
      (s.mutex m).locked = false ∧ (Kernel.lockTest m s).mutex = s.mutex ∧
        (Kernel.lockTest m s).interrupts = s.interrupts ∧
        Stays s (.lockTake m :: s.stack s.currentThread) (Kernel.lockTest m s) := by
  unfold Kernel.lockTest
  split
  · rename_i hl
    exact Or.inl ⟨hl, leaves_block s (.mutex m) (.lockTest m)⟩
  · rename_i hl
    exact Or.inr ⟨Bool.eq_false_iff.mpr hl, rfl, rfl, stays_push s _⟩

theorem Running.mutexUnlock_spec (h : Running s xs) (m : Addr) :
    (Kernel.mutexUnlock m s).interrupts = true ∧
      Stays s (s.stack s.currentThread) (Kernel.mutexUnlock m s) ∧
      (Kernel.mutexUnlock m s).mutex = if (s.mutex m).owner = some s.currentThread
        then Function.update s.mutex m ⟨false, none⟩ else s.mutex := by
  by_cases ho : (s.mutex m).owner = some s.currentThread
  · have hdef : Kernel.mutexUnlock m s = (Kernel.wakeWaiter (threadDequeueWait m
        (s.disableInterrupts.setMutex m ⟨false, none⟩))).enableInterrupts :=
      if_neg (not_not.mpr ho)
    rw [hdef, if_pos ho]
    have h1 : Running (s.disableInterrupts.setMutex m ⟨false, none⟩) xs :=
      (h.interrupts false).other rfl rfl rfl rfl rfl rfl rfl
    have hstays : Stays s (s.stack s.currentThread)
        (s.disableInterrupts.setMutex m ⟨false, none⟩) := Stays.of_eq rfl rfl rfl rfl
    have hwake := h1.stays_wakeWaiter (q := .mutex m) (by simp)
    refine ⟨rfl, (hstays.trans hwake).other rfl rfl rfl rfl, ?_⟩
    exact mutex_wakeWaiter (.mutex m) _
  · have hdef : Kernel.mutexUnlock m s = s.disableInterrupts.enableInterrupts := if_pos ho
    rw [hdef, if_neg ho]
    exact ⟨rfl, Stays.of_eq rfl rfl rfl rfl, rfl⟩

theorem waitTest_spec (m : Addr) (s : Kernel) :
    s.semCount m ≤ 0 ∧ Leaves s (.waitTest m) .blocked (Kernel.waitTest m s) ∨
      0 < s.semCount m ∧ (Kernel.waitTest m s).mutex = s.mutex ∧
        (Kernel.waitTest m s).interrupts = s.interrupts ∧
        Stays s (.waitTake m :: s.stack s.currentThread) (Kernel.waitTest m s) := by
  unfold Kernel.waitTest
  split
  · rename_i hl
    exact Or.inl ⟨hl, leaves_block s (.sem m) (.waitTest m)⟩
  · rename_i hl
    exact Or.inr ⟨not_le.mp hl, rfl, rfl, stays_push s _⟩

theorem Running.semPost_spec (h : Running s xs) (m : Addr) :
    (Kernel.semPost m s).interrupts = true ∧
      Stays s (s.stack s.currentThread) (Kernel.semPost m s) ∧
      (Kernel.semPost m s).mutex = s.mutex := by
  have h1 : Running (s.disableInterrupts.setCount m (s.semCount m + 1)) xs :=
    (h.interrupts false).other rfl rfl rfl rfl rfl rfl rfl
  have hstays : Stays s (s.stack s.currentThread)
      (s.disableInterrupts.setCount m (s.semCount m + 1)) := Stays.of_eq rfl rfl rfl rfl
  have hwake := h1.stays_wakeWaiter (q := .sem m) (by simp)
  exact ⟨rfl, (hstays.trans hwake).other rfl rfl rfl rfl, mutex_wakeWaiter (.sem m) _⟩

/-- The current thread goes to sleep and leaves. -/
theorem sleepUntil_spec (w : UInt64) (s : Kernel) :
    (Kernel.sleepUntil w s).interrupts = false ∧
      Leaves s.disableInterrupts .slept .blocked (Kernel.sleepUntil w s) := by
  let s1 := s.disableInterrupts.setTcb s.currentThread
    { s.tcb s.currentThread with wakeupTime := w }
  have hstate : s1.state = s.state :=
    (state_setTcb _).trans (Function.update_eq_self s.currentThread s.state)
  have hl : Leaves s1 .slept .blocked (Kernel.sleepUntil w s) := leaves_block s1 .sleep .slept
  exact ⟨hl.interrupts, hl.mutex, hl.tcbs, hl.currentThread, hl.interrupts,
    hl.state.trans (by rw [hstate]; rfl), hl.stack⟩

theorem Running.sleepUntil (h : Running s xs) (w : UInt64) :
    ∃ xs', Sched (Kernel.sleepUntil w s) xs' ∧ SameWaits .ready xs xs' := by
  let s1 := s.disableInterrupts.setTcb s.currentThread
    { s.tcb s.currentThread with wakeupTime := w }
  have hnext : s1.next = s.next :=
    (next_setTcb _).trans (Function.update_eq_self s.currentThread s.next)
  have hstate : s1.state = s.state :=
    (state_setTcb _).trans (Function.update_eq_self s.currentThread s.state)
  have h1 : Running s1 xs :=
    h.congr hnext hstate rfl rfl rfl rfl rfl (fun _ _ => rfl) h.working
  exact ⟨_, h1.blockOn (q := .sleep) (by decide) (f := .slept) rfl, SameWaits.sleep xs _⟩

theorem Running.mutexLock (h : Running s xs) (m : Addr) : Running (Kernel.mutexLock m s) xs := by
  unfold Kernel.mutexLock
  dsimp only
  split
  · exact (h.interrupts false).interrupts true
  · exact (h.interrupts false).push rfl

theorem Running.lockTest (h : Running s xs) (m : Addr) :
    ∃ xs', Sched (Kernel.lockTest m s) xs' ∧ SameWaits (.mutex m) xs xs' := by
  unfold Kernel.lockTest
  split
  · exact ⟨_, h.blockOn (q := .mutex m) (by simp) (f := .lockTest m) rfl, SameWaits.update xs _ _⟩
  · exact ⟨xs, (h.push rfl).sched, SameWaits.refl _ xs⟩

theorem Running.lockTake (h : Running s xs) (m : Addr) : Running (Kernel.lockTake m s) xs := by
  have h1 : Running (s.setMutex m ⟨true, some s.currentThread⟩) xs :=
    h.other rfl rfl rfl rfl rfl rfl rfl
  exact h1.interrupts true

theorem Running.mutexUnlock (h : Running s xs) (m : Addr) :
    ∃ xs', Running (Kernel.mutexUnlock m s) xs' ∧ SameWaits (.mutex m) xs xs' := by
  unfold Kernel.mutexUnlock
  dsimp only
  split
  · exact ⟨xs, (h.interrupts false).interrupts true, SameWaits.refl _ xs⟩
  · have h1 : Running (s.disableInterrupts.setMutex m ⟨false, none⟩) xs :=
      (h.interrupts false).other rfl rfl rfl rfl rfl rfl rfl
    obtain ⟨xs', h', _, hw⟩ := h1.wakeWaiter (q := .mutex m) (by simp)
    exact ⟨xs', h'.interrupts true, hw⟩

theorem Running.semWait (h : Running s xs) (m : Addr) : Running (Kernel.semWait m s) xs :=
  (h.interrupts false).push rfl

theorem Running.waitTest (h : Running s xs) (m : Addr) :
    ∃ xs', Sched (Kernel.waitTest m s) xs' ∧ SameWaits (.sem m) xs xs' ∧ xs' (.sem m) =
      if s.semCount m ≤ 0 then xs (.sem m) ++ [s.currentThread] else xs (.sem m) := by
  unfold Kernel.waitTest
  split
  · exact ⟨_, h.blockOn (q := .sem m) (by simp) (f := .waitTest m) rfl, SameWaits.update xs _ _,
      Function.update_self _ _ _⟩
  · exact ⟨xs, (h.push rfl).sched, SameWaits.refl _ xs, rfl⟩

theorem Running.waitTake (h : Running s xs) (m : Addr) : Running (Kernel.waitTake m s) xs := by
  have h1 : Running (s.setCount m (s.semCount m - 1)) xs := h.other rfl rfl rfl rfl rfl rfl rfl
  exact h1.interrupts true

theorem Running.semPost (h : Running s xs) (m : Addr) :
    ∃ xs', Running (Kernel.semPost m s) xs' ∧ SameWaits (.sem m) xs xs' ∧
      xs' (.sem m) = (xs (.sem m)).tail := by
  have h1 : Running (s.disableInterrupts.setCount m (s.semCount m + 1)) xs :=
    (h.interrupts false).other rfl rfl rfl rfl rfl rfl rfl
  obtain ⟨xs', h', htail, hw⟩ := h1.wakeWaiter (q := .sem m) (by simp)
  exact ⟨xs', h'.interrupts true, hw, htail⟩

/-! ## Killing -/

/-- The fields that the scheduler works on are the same. -/
structure Agrees (s s' : Kernel) : Prop where
  next : s'.next = s.next
  state : s'.state = s.state
  queue : s'.queue = s.queue
  mutex : s'.mutex = s.mutex
  currentThread : s'.currentThread = s.currentThread
  schedulePrevThread : s'.schedulePrevThread = s.schedulePrevThread
  stack : s'.stack = s.stack
  freeTcbList : s'.freeTcbList = s.freeTcbList
  numOfFreeTcb : s'.numOfFreeTcb = s.numOfFreeTcb
  tcbs : s'.tcbs = s.tcbs

theorem Agrees.refl (s : Kernel) : Agrees s s := ⟨rfl, rfl, rfl, rfl, rfl, rfl, rfl, rfl, rfl, rfl⟩

theorem Agrees.trans {u : Kernel} (h : Agrees s s') (h' : Agrees s' u) : Agrees s u :=
  ⟨h'.next.trans h.next, h'.state.trans h.state, h'.queue.trans h.queue, h'.mutex.trans h.mutex,
    h'.currentThread.trans h.currentThread, h'.schedulePrevThread.trans h.schedulePrevThread,
    h'.stack.trans h.stack, h'.freeTcbList.trans h.freeTcbList,
    h'.numOfFreeTcb.trans h.numOfFreeTcb, h'.tcbs.trans h.tcbs⟩

theorem agrees_switchVirtualManager (v : Addr) (s : Kernel) :
    Agrees s (switchVirtualManager v s).2 := by
  unfold switchVirtualManager
  split
  · exact Agrees.refl s
  · exact ⟨rfl, rfl, rfl, rfl, rfl, rfl, rfl, rfl, rfl, rfl⟩

theorem agrees_mmCall (c : MmCall) (s : Kernel) : Agrees s (s.mmCall c) :=
  ⟨rfl, rfl, rfl, rfl, rfl, rfl, rfl, rfl, rfl, rfl⟩

theorem agrees_clearStack (t : Addr) (s : Kernel) :
    Agrees s (s.setTcb t { s.tcb t with kernelStack := 0 }) :=
  ⟨(next_setTcb _).trans (Function.update_eq_self t s.next),
    (state_setTcb _).trans (Function.update_eq_self t s.state),
    rfl, rfl, rfl, rfl, rfl, rfl, rfl, rfl⟩

theorem agrees_releaseMemory (t : Addr) (s : Kernel) : Agrees s (releaseMemory t s) := by
  unfold releaseMemory
  dsimp only
  split
  · refine Agrees.trans ?_ (agrees_switchVirtualManager _ _)
    refine Agrees.trans ?_ (agrees_clearStack t _)
    have h := (agrees_switchVirtualManager (s.tcb t).vmm s).trans
      (agrees_mmCall (.vmmFreeRecords (s.tcb t).vmm) _)
    split
    · exact h.trans (agrees_mmCall _ _)
    · split
      · exact h.trans (agrees_mmCall _ _)
      · exact h.trans (agrees_mmCall _ _)
  · split
    · exact (agrees_mmCall _ _).trans (agrees_clearStack t _)
    · exact Agrees.refl s

/-- A TCB that was not in the pool goes there. -/
theorem Pool.add (h : Pool s) (hnew : ¬ Pooled s t)
    (hlist : s'.freeTcbList = Function.update s.freeTcbList (s.numOfFreeTcb + 1) (some t))
    (hnum : s'.numOfFreeTcb = s.numOfFreeTcb + 1)
    (hdead : ∀ u, u = t ∨ Pooled s u →
      u ∈ s'.tcbs ∧ s'.state u = .terminated ∧ u ≠ s'.currentThread) : Pool s' := by
  have hold : ∀ i, i ≤ s.numOfFreeTcb → s'.freeTcbList i = s.freeTcbList i := by
    intro i hi
    rw [hlist, Function.update_of_ne (by omega)]
  have htop : s'.freeTcbList (s.numOfFreeTcb + 1) = some t := by
    rw [hlist, Function.update_self]
  refine ⟨?_, ?_, ?_, ?_⟩
  · rw [hold 0 (by omega)]; exact h.base
  · intro i h1 hi
    rw [hnum] at hi
    rcases Nat.lt_or_ge s.numOfFreeTcb i with hlt | hle
    · have : i = s.numOfFreeTcb + 1 := by omega
      exact ⟨t, this ▸ htop⟩
    · rw [hold i hle]; exact h.filled i h1 hle
  · -- two places with one TCB: the top holds the new one, which was not in the pool
    intro i j u hi1 hi hj1 hj hiu hju
    rw [hnum] at hi hj
    rcases Nat.lt_or_ge s.numOfFreeTcb i with hli | hle <;>
      rcases Nat.lt_or_ge s.numOfFreeTcb j with hlj | hlj'
    · omega
    · have hi' : i = s.numOfFreeTcb + 1 := by omega
      rw [hi', htop] at hiu
      rw [hold j hlj'] at hju
      cases hiu
      exact absurd ⟨j, hj1, hlj', hju⟩ hnew
    · have hj' : j = s.numOfFreeTcb + 1 := by omega
      rw [hj', htop] at hju
      rw [hold i hle] at hiu
      cases hju
      exact absurd ⟨i, hi1, hle, hiu⟩ hnew
    · rw [hold i hle] at hiu
      rw [hold j hlj'] at hju
      exact h.distinct i j u hi1 hle hj1 hlj' hiu hju
  · rintro u ⟨i, h1, hi, hiu⟩
    rw [hnum] at hi
    refine hdead u ?_
    rcases Nat.lt_or_ge s.numOfFreeTcb i with hlt | hle
    · have hi' : i = s.numOfFreeTcb + 1 := by omega
      rw [hi', htop] at hiu
      cases hiu
      exact Or.inl rfl
    · rw [hold i hle] at hiu
      exact Or.inr ⟨i, h1, hle, hiu⟩

/-- The lists without a TCB in the sleep queue and the ready queue. -/
def erased (xs : QueueId → List Addr) (t : Addr) : QueueId → List Addr :=
  Function.update (Function.update xs .sleep ((xs .sleep).erase t)) .ready ((xs .ready).erase t)

theorem mem_erased_of_ne {u : Addr} (hu : u ≠ t) (q : QueueId) :
    u ∈ erased xs t q ↔ u ∈ xs q := by
  unfold erased
  by_cases hr : q = .ready
  · subst hr
    rw [Function.update_self]
    exact List.mem_erase_of_ne hu
  · rw [Function.update_of_ne hr]
    by_cases hs : q = .sleep
    · subst hs
      rw [Function.update_self]
      exact List.mem_erase_of_ne hu
    · rw [Function.update_of_ne hs]

/-- The TCB stays in the wait queues. -/
theorem Queues.mem_erased (h : Queues s xs) (q : QueueId) :
    t ∈ erased xs t q ↔ t ∈ xs q ∧ q ≠ .ready ∧ q ≠ .sleep := by
  unfold erased
  by_cases hr : q = .ready
  · subst hr
    rw [Function.update_self]
    simp [(h.listed .ready).nodup.not_mem_erase]
  · rw [Function.update_of_ne hr]
    by_cases hs : q = .sleep
    · subst hs
      rw [Function.update_self]
      simp [(h.listed .sleep).nodup.not_mem_erase]
    · rw [Function.update_of_ne hs]
      simp [hr, hs]

/-- What a call of `KillThread` on a thread other than the current one has done. -/
structure Killed (s : Kernel) (t : Addr) (s' : Kernel) : Prop where
  state : s'.state = Function.update s.state t .terminated
  stack : s'.stack = s.stack
  currentThread : s'.currentThread = s.currentThread
  schedulePrevThread : s'.schedulePrevThread = s.schedulePrevThread
  mutex : s'.mutex = s.mutex
  tcbs : s'.tcbs = s.tcbs
  interrupts : s'.interrupts = true
  pooled : s'.freeTcbList = Function.update s.freeTcbList (s.numOfFreeTcb + 1) (some t) ∧
      s'.numOfFreeTcb = s.numOfFreeTcb + 1 ∨
    s'.freeTcbList = s.freeTcbList ∧ s'.numOfFreeTcb = s.numOfFreeTcb

/-- `KillThread` takes the TCB out of the sleep queue and the ready queue. -/
theorem Queues.killThread (h : Queues s xs) (hc : t ≠ s.currentThread) :
    ∃ s', Settles (fun n => Kernel.killThread n t s) s' ∧ Queues s' (erased xs t) ∧
      Killed s t s' := by
  let s1 := s.disableInterrupts.setState t .terminated
  have hstate1 : s1.state = Function.update s.state t .terminated := state_setState _
  have hq1 : Queues s1 xs := h.congr (next_setState _) rfl
  obtain ⟨s2, hrun2, hrel2, hstate2, hq2⟩ := removeFromSleepQueue_spec hq1 t
  have hag := agrees_releaseMemory t s2
  let s3 := releaseMemory t s2
  have hq3 := hq2.congr hag.next hag.queue
  obtain ⟨s4, hrun4, hrel4, hstate4, hq4⟩ := removeFromReadyQueue_spec hq3 t
  rw [Function.update_of_ne (by decide)] at hq4
  let s5 := (poolTcb t s4).enableInterrupts
  -- what putting the TCB into the pool leaves alone
  have hrest : s5.next = s4.next ∧ s5.state = s4.state ∧ s5.queue = s4.queue ∧
      s5.tcbs = s4.tcbs ∧ s5.currentThread = s4.currentThread ∧ s5.stack = s4.stack ∧
      s5.mutex = s4.mutex ∧ s5.schedulePrevThread = s4.schedulePrevThread := by
    show (poolTcb t s4).next = _ ∧ (poolTcb t s4).state = _ ∧ _
    simp only [s5, poolTcb]
    split <;> exact ⟨rfl, rfl, rfl, rfl, rfl, rfl, rfl, rfl⟩
  obtain ⟨hnext5, hst5, hqueue5, htcbs5, hcur5, hstack5, hmutex5, hprev5⟩ := hrest
  have hlist4 : s4.freeTcbList = s.freeTcbList :=
    hrel4.freeTcbList.trans (hag.freeTcbList.trans hrel2.freeTcbList)
  have hnum4 : s4.numOfFreeTcb = s.numOfFreeTcb :=
    hrel4.numOfFreeTcb.trans (hag.numOfFreeTcb.trans hrel2.numOfFreeTcb)
  have hprev4 : s4.schedulePrevThread = s.schedulePrevThread := by
    rw [show s4.schedulePrevThread = s3.schedulePrevThread by rw [hrel4.rest],
      hag.schedulePrevThread, show s2.schedulePrevThread = s1.schedulePrevThread by rw [hrel2.rest]]
    rfl
  refine ⟨s5, ?_, hq4.congr hnext5 hqueue5, ?_, ?_, ?_, hprev5.trans hprev4, ?_, ?_, rfl, ?_⟩
  · have hcur3 : t ≠ s3.currentThread := by
      rw [show s3.currentThread = s.currentThread from
        hag.currentThread.trans hrel2.currentThread]
      exact hc
    refine Settles.bind hrun2 ?_
    refine Settles.congr (g := fun n => (removeFromReadyQueue n t s3).bind
      fun s => some (poolTcb t s).enableInterrupts) ?_ (Settles.bind hrun4 (Settles.const _))
    intro n
    exact if_neg hcur3
  · rw [hst5, hstate4, hag.state, hstate2, hstate1]
  · exact hstack5.trans (hrel4.stack.trans (hag.stack.trans hrel2.stack))
  · exact hcur5.trans (hrel4.currentThread.trans (hag.currentThread.trans hrel2.currentThread))
  · exact hmutex5.trans (hrel4.mutex.trans (hag.mutex.trans hrel2.mutex))
  · exact htcbs5.trans (hrel4.tcbs.trans (hag.tcbs.trans hrel2.tcbs))
  · rw [← hlist4, ← hnum4]
    show (poolTcb t s4).freeTcbList = _ ∧ (poolTcb t s4).numOfFreeTcb = _ ∨
      (poolTcb t s4).freeTcbList = _ ∧ (poolTcb t s4).numOfFreeTcb = _
    unfold poolTcb
    split
    · exact Or.inl ⟨rfl, rfl⟩
    · exact Or.inr ⟨rfl, rfl⟩

/-- The pool gets the TCB of a thread that has ended and was not in it. -/
theorem Killed.pool (hk : Killed s t s') (h : Pool s) (ht : t ∈ s.tcbs) (hc : t ≠ s.currentThread)
    (hp : ¬ Pooled s t) : Pool s' := by
  have hdead : ∀ u, u = t ∨ Pooled s u →
      u ∈ s'.tcbs ∧ s'.state u = .terminated ∧ u ≠ s'.currentThread := by
    intro u hu
    rw [hk.tcbs, hk.state, hk.currentThread]
    by_cases hut : u = t
    · subst hut
      exact ⟨ht, Function.update_self _ _ _, hc⟩
    · have := h.dead u (hu.resolve_left hut)
      rwa [Function.update_of_ne hut]
  rcases hk.pooled with ⟨hlist, hnum⟩ | ⟨hlist, hnum⟩
  · exact h.add hp hlist hnum hdead
  · refine h.congr hlist hnum ?_ ?_ ?_
    · intro u hu
      exact (hdead u (Or.inr hu)).1
    · intro u hu
      rw [(hdead u (Or.inr hu)).2.1, (h.dead u hu).2.1]
    · intro u hu
      exact (hdead u (Or.inr hu)).2.2

theorem Core.killThread (h : Core s xs) (ht : t ∈ s.tcbs) (hc : t ≠ s.currentThread)
    (hw : ∀ q, t ∈ xs q → q = .ready ∨ q = .sleep) (hp : ¬ Pooled s t) :
    ∃ s', Settles (fun n => Kernel.killThread n t s) s' ∧ Core s' (erased xs t) ∧
      Killed s t s' := by
  obtain ⟨s', hrun, hq, hk⟩ := h.toQueues.killThread hc
  have hout : ∀ q, t ∉ erased xs t q := by
    intro q hm
    obtain ⟨hm, hr, hs⟩ := (h.toQueues.mem_erased q).mp hm
    rcases hw q hm with e | e
    · exact hr e
    · exact hs e
  have hplaced : Placed s' (erased xs t) := by
    refine h.toPlaced.move hq t ?_ ?_ (fun u hu => mem_erased_of_ne hu) ?_ ?_
    · intro u hu
      rw [hk.state, Function.update_of_ne hu]
    · intro u _
      rw [hk.tcbs]
    · rw [hk.state]
      simp [hout .ready]
    · rw [hk.state]
      simp only [Function.update_self, reduceCtorEq, and_false, iff_false]
      rintro ⟨q, _, hm⟩
      exact hout q hm
  refine ⟨s', hrun, ⟨hplaced, ?_, ?_, ?_, hk.pool h.pool ht hc hp⟩, hk⟩
  · intro u hu hrun
    rw [hk.tcbs] at hu
    rw [hk.state] at hrun
    have hut : u ≠ t := by
      rintro rfl
      rw [Function.update_self] at hrun
      cases hrun
    rw [Function.update_of_ne hut] at hrun
    rw [hk.currentThread]
    exact h.onlyRunning u hu hrun
  · rw [hk.currentThread, hk.tcbs]
    exact h.current
  · rw [hk.stack]
    exact h.frames

/-! ## schedule -/

/-- The current thread is back in the ready queue if it was running. -/
theorem Core.putBack (h : Core s xs) :
    ∃ xs', Placed (Kernel.putBack s) xs' ∧ Relinked s (Kernel.putBack s) ∧
      (∀ u ∈ s.tcbs, (Kernel.putBack s).state u ≠ .running) ∧
      (∀ u, (Kernel.putBack s).state u = s.state u ∨
        s.state u = .running ∧ (Kernel.putBack s).state u = .ready) ∧
      (FindsReady s → xs' .ready ≠ [] ∨ ∃ t ∈ xs' .sleep, (Kernel.putBack s).due t = true) ∧
      SameWaits .ready xs xs' := by
  -- only a thread that still runs goes to the end of the ready queue
  by_cases hrun : s.state s.currentThread = .running
  · let s1 := s.setState s.currentThread .ready
    have hput : Kernel.putBack s = threadEnqueue s.currentThread s1 := if_pos hrun
    have hrel : Relinked s (threadEnqueue s.currentThread s1) :=
      (Relinked.setState s _ _).trans (Relinked.threadEnqueue _ _)
    have hstate : (threadEnqueue s.currentThread s1).state =
        Function.update s.state s.currentThread .ready := by
      simp [threadEnqueue, s1]
    have hout : ∀ q, s.currentThread ∉ xs q := fun q =>
      h.toPlaced.not_mem (by rw [hrun]; decide) (by rw [hrun]; decide) q
    have hq : Queues s1 xs := h.toQueues.congr (next_setState _) rfl
    rw [hput]
    refine ⟨Function.update xs .ready (xs .ready ++ [s.currentThread]), ?_, hrel, ?_, ?_, ?_,
      SameWaits.ready xs _⟩
    · refine h.toPlaced.move (hq.threadEnqueue hout) s.currentThread ?_ ?_ ?_ ?_ ?_
      · intro u hu
        rw [hstate, Function.update_of_ne hu]
      · intro u _
        rw [hrel.tcbs]
      · intro u hu q
        exact mem_update_concat hu q
      · rw [hstate, hrel.tcbs]
        simp [h.current]
      · rw [hstate]
        simp only [Function.update_self, reduceCtorEq, and_false, iff_false]
        rintro ⟨q, hne, hm⟩
        rw [Function.update_of_ne hne] at hm
        exact hout q hm
    · intro u hu
      rw [hstate]
      by_cases hc : u = s.currentThread
      · subst hc
        rw [Function.update_self]
        decide
      · rw [Function.update_of_ne hc]
        exact fun hr => hc (h.onlyRunning u hu hr)
    · intro u
      rw [hstate]
      by_cases hc : u = s.currentThread
      · subst hc
        exact Or.inr ⟨hrun, Function.update_self _ _ _⟩
      · exact Or.inl (Function.update_of_ne hc _ _)
    · intro _
      left
      simp
  · -- the current thread sleeps, waits or has ended: nothing happens
    have hput : Kernel.putBack s = s := if_neg hrun
    rw [hput]
    refine ⟨xs, h.toPlaced, Relinked.refl s, ?_, fun _ => Or.inl rfl, ?_, SameWaits.refl _ xs⟩
    · intro u hu hr
      have := h.onlyRunning u hu hr
      subst this
      exact hrun hr
    · rintro (hr | hr | ⟨t, ht, hd⟩)
      · exact absurd hr hrun
      · left
        intro hnil
        rw [(h.listed .ready).head, hnil] at hr
        exact hr rfl
      · right
        exact ⟨t, (h.listed .sleep).meets_iff.mp ht, hd⟩

/-- The kernel inside `schedule()`, when the sleepers have been woken: no thread runs. -/
structure Woken (s s' : Kernel) (xs' : QueueId → List Addr) : Prop extends Placed s' xs' where
  relinked : Relinked s s'
  noneRunning : ∀ u ∈ s'.tcbs, s'.state u ≠ .running
  dead : ∀ u, s'.state u = .terminated ↔ s.state u = .terminated
  blocked : ∀ u, s'.state u = .blocked → s.state u = .blocked
  asleep : ∀ u, s.state u = .blocked → s.due u = false → s'.state u = .blocked

/-- Before `schedule()` takes a thread the ready queue is not empty. -/
theorem Core.wake (h : Core s xs) (hf : FindsReady s) :
    ∃ s' xs' t r, Settles (fun n => wakeSleepingThreads n (Kernel.putBack s)) s' ∧
      Woken s s' xs' ∧ xs' .ready = t :: r ∧ SameWaits .ready xs xs' := by
  obtain ⟨xs1, hplaced1, hrel1, hrun1, hstate1, hfind, hwaits1⟩ := h.putBack
  have hwake := wakeLoop_spec (p := []) hplaced1 (List.nil_append _).symm
  obtain ⟨s2, hwake, hrel2, hplaced2, hstate2⟩ := hwake
  rw [← (hplaced1.listed .sleep).head] at hwake
  -- somebody is ready by now: the current thread, one from before, or a sleeper that was due
  have hne : xs1 .ready ++ (xs1 .sleep).filter (Kernel.putBack s).due ≠ [] := by
    rcases hfind hf with hne | ⟨u, hu, hd⟩
    · simp [hne]
    · have : u ∈ (xs1 .sleep).filter (Kernel.putBack s).due := List.mem_filter.mpr ⟨hu, hd⟩
      intro hnil
      rw [(List.append_eq_nil_iff.mp hnil).2] at this
      cases this
  obtain ⟨t, r, htr⟩ := List.exists_cons_of_ne_nil hne
  refine ⟨s2, _, t, r, hwake, ⟨hplaced2, hrel1.trans hrel2, ?_, ?_, ?_, ?_⟩,
    (Function.update_self _ _ _).trans htr,
    (hwaits1.trans (SameWaits.sleep xs1 _)).trans (SameWaits.ready _ _)⟩
  · intro u hu hr
    rw [(hrel1.trans hrel2).tcbs] at hu
    rcases hstate2 u with he | ⟨_, _, he⟩
    · exact hrun1 u hu (he.symm.trans hr)
    · cases he.symm.trans hr
  · -- only a thread that runs or sleeps has changed its state, so none has ended or come back
    intro u
    rcases hstate2 u with he | ⟨hb, _, he⟩ <;> rcases hstate1 u with he1 | ⟨hr1, he1⟩
    · rw [he, he1]
    · rw [he, he1, hr1]
      simp
    · rw [he, ← he1, hb]
      simp
    · cases hb.symm.trans he1
  · intro u hu
    rcases hstate2 u with he | ⟨_, _, he⟩
    · rcases hstate1 u with he1 | ⟨_, he1⟩
      · rw [← he1, ← he]
        exact hu
      · cases he1.symm.trans (he.symm.trans hu)
    · cases he.symm.trans hu
  · -- a sleeper whose time has not come is not woken
    intro u hu hlate
    rcases hstate2 u with he | ⟨_, hdue, _⟩
    · rcases hstate1 u with he1 | ⟨hr1, _⟩
      · rw [he, he1]
        exact hu
      · cases hu.symm.trans hr1
    · rw [hrel1.due_eq, hlate] at hdue
      cases hdue

/-- The kernel inside `schedule()`, when the thread `t` has been taken from the ready queue. -/
def choose (t : Addr) (prev : Addr) (s : Kernel) : Kernel :=
  { (dequeue .ready s).2 with schedulePrevThread := some prev, currentThread := t }.setState t
    .running

theorem Core.choose (h : Core s xs) {t : Addr} {r : List Addr} (hw : Woken s s' xs')
    (htr : xs' .ready = t :: r) :
    Core (Kernel.choose t s.currentThread s') (Function.update xs' .ready r) ∧
      (Kernel.choose t s.currentThread s').state = Function.update s'.state t .running ∧
      s'.state t = .ready := by
  obtain ⟨_, hq, hstate⟩ := hw.toQueues.dequeue_cons htr
  let s4 := Kernel.choose t s.currentThread s'
  have hrel : Relinked s (dequeue .ready s').2 := hw.relinked.trans (Relinked.dequeue .ready s')
  have hstate4 : s4.state = Function.update s'.state t .running := by
    simp only [s4, Kernel.choose, state_setState]
    exact congrArg (fun f => Function.update f t ThreadState.running) hstate
  have ht : t ∈ s'.tcbs ∧ s'.state t = .ready := (hw.ready_iff t).mp (by simp [htr])
  have htcbs4 : s4.tcbs = s.tcbs := hrel.tcbs
  -- `t` leaves the ready queue and runs, so it is in no queue
  have hplaced4 : Placed s4 (Function.update xs' .ready r) := by
    have hout := hw.toQueues.not_mem_erase (p := []) htr
    refine hw.toPlaced.move (hq.congr (next_setState _) rfl) t ?_ ?_ ?_ ?_ ?_
    · intro u hu
      rw [hstate4, Function.update_of_ne hu]
    · intro u _
      rw [htcbs4, hw.relinked.tcbs]
    · intro u hu q
      exact mem_update_erase (p := []) htr hu q
    · rw [hstate4]
      simp only [Function.update_self, reduceCtorEq, and_false, iff_false]
      exact hout .ready
    · rw [hstate4]
      simp only [Function.update_self, reduceCtorEq, and_false, iff_false]
      rintro ⟨q, _, hm⟩
      exact hout q hm
  refine ⟨⟨hplaced4, ?_, ?_, ?_, ?_⟩, hstate4, ht.2⟩
  · intro u hu hr
    show u = t
    by_contra hut
    rw [hstate4, Function.update_of_ne hut] at hr
    rw [htcbs4, ← hw.relinked.tcbs] at hu
    exact hw.noneRunning u hu hr
  · show t ∈ s4.tcbs
    rw [htcbs4, ← hw.relinked.tcbs]
    exact ht.1
  · show ∀ u, ∀ f ∈ ((dequeue .ready s').2.stack u).tail, _
    rw [hrel.stack]
    exact h.frames
  · -- the pool holds ended threads, and `t` has not ended
    refine h.pool.congr hrel.freeTcbList hrel.numOfFreeTcb ?_ ?_ ?_
    · intro u hu
      rw [htcbs4]
      exact (h.pool.dead u hu).1
    · intro u hu
      have hd := (hw.dead u).mpr (h.pool.dead u hu).2.1
      have hut : u ≠ t := by
        rintro rfl
        cases ht.2.symm.trans hd
      rw [hstate4, Function.update_of_ne hut, hd, (h.pool.dead u hu).2.1]
    · intro u hu
      show u ≠ t
      rintro rfl
      cases ht.2.symm.trans ((hw.dead u).mpr (h.pool.dead u hu).2.1)

theorem stack_switchTo (p t : Addr) (s : Kernel) : ∃ c, (Kernel.switchTo p t s).stack =
    Function.update s.stack p (.switchTo c s.interrupts :: s.stack p) := ⟨_, rfl⟩

/-- What a call of `schedule()` has done: either the current thread goes on, or another thread
continues where its stack says. -/
structure Switched (s s' : Kernel) : Prop where
  mutex : s'.mutex = s.mutex
  tcbs : s'.tcbs = s.tcbs
  dead : ∀ u, s'.state u = .terminated ↔ s.state u = .terminated
  blocked : ∀ u, s'.state u = .blocked → s.state u = .blocked
  asleep : ∀ u, s.state u = .blocked → s.due u = false → s'.state u = .blocked
  switch : s'.currentThread = s.currentThread ∧ s'.stack = s.stack ∧
      s'.interrupts = s.interrupts ∨
    s'.currentThread ≠ s.currentThread ∧ s'.interrupts = resumeFlag (s.stack s'.currentThread) ∧
      ∃ c, s'.stack = Function.update s.stack s.currentThread
        (.switchTo c s.interrupts :: s.stack s.currentThread)
  prev : s'.currentThread ≠ s.currentThread → s'.schedulePrevThread = some s.currentThread

/-- `schedule()` with the thread that it takes. -/
theorem schedule_eq {t : Addr} {r : List Addr}
    (hwake : Settles (fun n => wakeSleepingThreads n (Kernel.putBack s)) s')
    (hw : Woken s s' xs') (htr : xs' .ready = t :: r) {u : Kernel}
    (hu : ∀ n, (if s.currentThread ≠ t
      then some (Kernel.switchTo s.currentThread t (Kernel.choose t s.currentThread s'))
      else scheduleTail n (Kernel.choose t s.currentThread s')) = some u) :
    Settles (fun n => Kernel.schedule n s) u := by
  refine Settles.bind hwake ?_
  refine (Settles.const u).congr ?_
  intro n
  have hpair : threadDequeue s' = (some t, (dequeue .ready s').2) := by
    show dequeue .ready s' = _
    rw [← (hw.toQueues.dequeue_cons htr).1]
  have hcur : (dequeue .ready s').2.currentThread = s.currentThread :=
    (hw.relinked.trans (Relinked.dequeue .ready s')).currentThread
  simp only [hpair, hcur, Option.getD_some]
  exact hu n

theorem Core.schedule (h : Core s xs) (hk : ∀ f ∈ s.stack s.currentThread, f.isSwitch = false)
    (hf : FindsReady s) :
    ∃ s' xs', Settles (fun n => Kernel.schedule n s) s' ∧ Sched s' xs' ∧ Switched s s' ∧
      SameWaits .ready xs xs' := by
  -- the sleepers that are due go to the ready queue, the current thread goes to its end if it
  -- runs, and `t` is the head of what results
  obtain ⟨s2, xs2, t, r, hwake, hw, htr, hwaits⟩ := h.wake hf
  have hwaits' : SameWaits .ready xs (Function.update xs2 .ready r) :=
    hwaits.trans (SameWaits.ready xs2 r)
  obtain ⟨hcore, hstate, hready⟩ := h.choose hw htr
  let s4 := Kernel.choose t s.currentThread s2
  have hrel : Relinked s (dequeue .ready s2).2 := hw.relinked.trans (Relinked.dequeue .ready s2)
  have hstack4 : s4.stack = s.stack := hrel.stack
  have hint4 : s4.interrupts = s.interrupts := by
    show (dequeue .ready s2).2.interrupts = _
    rw [hrel.rest]
  have hrunning : s4.state t = .running := by rw [hstate, Function.update_self]
  have hdead : ∀ u, s4.state u = .terminated ↔ s.state u = .terminated := by
    intro u
    rw [hstate, ← hw.dead u]
    by_cases hut : u = t
    · subst hut
      rw [Function.update_self, hready]
      simp
    · rw [Function.update_of_ne hut]
  have hblocked : ∀ u, s4.state u = .blocked → s.state u = .blocked := by
    intro u hu
    rw [hstate] at hu
    by_cases hut : u = t
    · subst hut
      cases (Function.update_self u _ _).symm.trans hu
    · rw [Function.update_of_ne hut] at hu
      exact hw.blocked u hu
  have hasleep : ∀ u, s.state u = .blocked → s.due u = false → s4.state u = .blocked := by
    intro u hu hlate
    have hstill := hw.asleep u hu hlate
    have hut : u ≠ t := by
      rintro rfl
      cases hready.symm.trans hstill
    rw [hstate, Function.update_of_ne hut]
    exact hstill
  by_cases hct : s.currentThread = t
  · -- the same thread goes on
    let s5 := { s4 with schedulePrevThread := none }
    refine ⟨s5, Function.update xs2 .ready r, schedule_eq hwake hw htr (u := s5) ?_, ?_, ?_,
      hwaits'⟩
    · intro n
      rw [if_neg (not_not.mpr hct)]
      show (if s4.state s.currentThread = .terminated then _ else _) = _
      rw [if_neg (by rw [hct, hrunning]; decide)]
    · refine Running.sched ⟨?_, hrunning, ?_⟩
      · exact hcore.congr rfl rfl rfl rfl rfl rfl rfl (fun _ _ => rfl)
          (hcore.frames s4.currentThread)
      · show ∀ f ∈ s4.stack t, _
        rw [hstack4, ← hct]
        exact hk
    · exact ⟨hrel.mutex, hrel.tcbs, hdead, hblocked, hasleep, Or.inl ⟨hct.symm, hstack4, hint4⟩,
        fun hne => absurd hct.symm hne⟩
  · -- another thread: `switch_to` leaves a frame behind on the stack of the one that goes
    let s5 := Kernel.switchTo s.currentThread t s4
    obtain ⟨c, hstack5⟩ : ∃ c, s5.stack = Function.update s.stack s.currentThread
        (.switchTo c s.interrupts :: s.stack s.currentThread) := by
      obtain ⟨c, hc⟩ := stack_switchTo s.currentThread t s4
      exact ⟨c, by rw [hc, hstack4, hint4]⟩
    refine ⟨s5, Function.update xs2 .ready r, schedule_eq hwake hw htr fun n => if_pos hct,
      ⟨?_, Or.inl hrunning, ?_⟩, ?_, hwaits'⟩
    · refine ⟨?_, hcore.onlyRunning, hcore.current, ?_, ?_⟩
      · exact hcore.toPlaced.congr rfl rfl rfl rfl
      · intro u
        rw [hstack5]
        by_cases huc : u = s.currentThread
        · subst huc
          rw [Function.update_self]
          exact hk
        · rw [Function.update_of_ne huc]
          exact h.frames u
      · exact hcore.pool.congr rfl rfl (fun u hu => (hcore.pool.dead u hu).1) (fun _ _ => rfl)
          (fun u hu => (hcore.pool.dead u hu).2.2)
    · -- `schedule` records the thread it has left: it is in the list and not the current one
      intro _ _ _ _
      refine ⟨s.currentThread, rfl, ?_, hct, ?_⟩
      · show s.currentThread ∈ s4.tcbs
        rw [show s4.tcbs = s.tcbs from hrel.tcbs]
        exact h.current
      · -- the thread that has left was the current one, so it is not in the pool
        rintro _ ⟨i, h1, hi, hl⟩
        change i ≤ s4.numOfFreeTcb at hi
        change s4.freeTcbList i = _ at hl
        rw [show s4.numOfFreeTcb = s.numOfFreeTcb from hrel.numOfFreeTcb] at hi
        rw [show s4.freeTcbList = s.freeTcbList from hrel.freeTcbList] at hl
        exact (h.pool.dead _ ⟨i, h1, hi, hl⟩).2.2 rfl
    · refine ⟨hrel.mutex, hrel.tcbs, hdead, hblocked, hasleep, Or.inr ⟨Ne.symm hct, ?_, c, hstack5⟩,
        fun _ => rfl⟩
      show resumeFlag ((s4.setStack s.currentThread _).stack t) = resumeFlag (s.stack t)
      rw [show ∀ l, (s4.setStack s.currentThread l).stack t = s.stack t from fun l => by
        simp [setStack, Function.update_of_ne (Ne.symm hct), hstack4]]

/-- What the rest of `schedule()` has done in the thread that has come back from `switch_to`. -/
structure Resumed (s s' : Kernel) : Prop where
  mutex : s'.mutex = s.mutex
  tcbs : s'.tcbs = s.tcbs
  state : s'.state = s.state
  currentThread : s'.currentThread = s.currentThread
  reclaims : s'.stack = s.stack ∧ s'.interrupts = s.interrupts ∨
    (∃ p ∈ s.tcbs, s.state p = .terminated) ∧ s'.interrupts = true ∧
      s'.stack = Function.update s.stack s.currentThread
        (.reclaimed :: s.stack s.currentThread)

theorem Running.resume (h : Running s xs) (c : Nat) {p : Addr}
    (hprev : s.schedulePrevThread = some p) (hp : p ∈ s.tcbs) (hpc : p ≠ s.currentThread)
    (hpool : s.state p = .terminated → ¬ Pooled s p) :
    ∃ s' xs', Settles (fun n => Kernel.resume n c s) s' ∧ Running s' xs' ∧ Resumed s s' ∧
      SameWaits .ready xs xs' := by
  let s1 := if c = 0 then s else { s with currentVmmDesc := (s.tcb s.currentThread).vmm }
  have hag : Agrees s s1 ∧ s1.interrupts = s.interrupts := by
    simp only [s1]
    split
    · exact ⟨Agrees.refl s, rfl⟩
    · exact ⟨⟨rfl, rfl, rfl, rfl, rfl, rfl, rfl, rfl, rfl, rfl⟩, rfl⟩
  obtain ⟨hag, hint⟩ := hag
  have h1 : Running s1 xs :=
    h.congr hag.next hag.state hag.queue hag.tcbs hag.currentThread hag.freeTcbList
      hag.numOfFreeTcb (fun _ _ => by rw [hag.stack]) (by rw [hag.stack]; exact h.working)
  have hprev1 : s1.schedulePrevThread = some p := hag.schedulePrevThread.trans hprev
  -- `schedule_prev_thread` is the thread left; if it has ended it is killed now
  by_cases hdead : s1.state p = .terminated
  · have hdead0 : s.state p = .terminated := by rw [← hag.state]; exact hdead
    obtain ⟨s2, hrun2, hcore2, hkill⟩ := h1.toCore.killThread (t := p)
      (by rw [hag.tcbs]; exact hp) (by rw [hag.currentThread]; exact hpc)
      (fun q hq => absurd hq (h1.toPlaced.not_mem (by rw [hdead]; decide) (by rw [hdead]; decide) q))
      (by
        intro hpooled
        refine hpool hdead0 ?_
        unfold Pooled at hpooled ⊢
        rwa [hag.freeTcbList, hag.numOfFreeTcb] at hpooled)
    have hstate2 : s2.state = s.state := by
      rw [hkill.state, hag.state]
      exact Function.update_eq_self_iff.mpr hdead0.symm
    have hrunning2 : s2.state s2.currentThread = .running := by
      rw [hstate2, hkill.currentThread, hag.currentThread]
      exact h.running
    have hworking2 : ∀ f ∈ s2.stack s2.currentThread, f.isSwitch = false := by
      rw [hkill.stack, hkill.currentThread, hag.stack, hag.currentThread]
      exact h.working
    have h2 : Running s2 (erased xs p) := ⟨hcore2, hrunning2, hworking2⟩
    refine ⟨s2.push .reclaimed, erased xs p, ?_, h2.push rfl, ?_,
      (SameWaits.sleep xs _).trans (SameWaits.ready _ _)⟩
    · refine Settles.congr (g := fun n => (Kernel.killThread n p s1).bind
        fun s => some (s.push .reclaimed)) ?_ (Settles.bind hrun2 (Settles.const _))
      intro n
      show scheduleTail n s1 = _
      rw [scheduleTail, hprev1]
      exact if_pos hdead
    · refine ⟨hkill.mutex.trans hag.mutex, hkill.tcbs.trans hag.tcbs, hstate2,
        hkill.currentThread.trans hag.currentThread,
        Or.inr ⟨⟨p, hp, hdead0⟩, hkill.interrupts, ?_⟩⟩
      rw [stack_push, hkill.currentThread, hkill.stack, hag.stack, hag.currentThread]
  · -- the thread that was left goes on later
    let s2 := { s1 with schedulePrevThread := none }
    refine ⟨s2, xs, (Settles.const s2).congr ?_, h1.other rfl rfl rfl rfl rfl rfl rfl, ?_,
      SameWaits.refl _ xs⟩
    · intro n
      show scheduleTail n s1 = _
      rw [scheduleTail, hprev1]
      exact if_neg hdead
    · exact ⟨hag.mutex, hag.tcbs, hag.state, hag.currentThread, Or.inl ⟨hag.stack, hint⟩⟩

/-- The current thread ends and leaves. -/
theorem Running.threadExit (h : Running s xs) :
    ∃ s', Settles (fun n => Kernel.threadExit n s) s' ∧ Sched s' xs ∧
      Leaves s.disableInterrupts .stop .terminated s' := by
  let s1 := s.disableInterrupts.setState s.currentThread .terminated
  have hstate1 : s1.state = Function.update s.state s.currentThread .terminated := state_setState _
  have hq1 : Queues s1 xs := h.toQueues.congr (next_setState _) rfl
  obtain ⟨s2, hrun2, hrel2, hstate2, hq2⟩ := removeFromSleepQueue_spec hq1 s.currentThread
  rw [List.erase_of_not_mem (h.not_queued .sleep), Function.update_eq_self] at hq2
  have hst2 : s2.state = Function.update s.state s.currentThread .terminated :=
    hstate2.trans hstate1
  have hrel : Relinked s.disableInterrupts s2 := (Relinked.setState _ _ _).trans hrel2
  have hcur2 : s2.currentThread = s.currentThread := hrel.currentThread
  have hstack2 : s2.stack = s.stack := hrel.stack
  -- the current thread is in no queue, so it leaves none
  have hplaced2 : Placed s2 xs := by
    refine h.toPlaced.move hq2 s.currentThread ?_ ?_ (fun _ _ _ => Iff.rfl) ?_ ?_
    · intro u hu
      rw [hst2, Function.update_of_ne hu]
    · intro u _
      rw [show s2.tcbs = s.tcbs from hrel.tcbs]
    · rw [hst2]
      simp [h.not_queued .ready]
    · rw [hst2]
      simp only [Function.update_self, reduceCtorEq, and_false, iff_false]
      rintro ⟨q, _, hm⟩
      exact h.not_queued q hm
  have hcore2 : Core s2 xs := by
    have hoff : Core s.disableInterrupts xs :=
      h.toCore.congr rfl rfl rfl rfl rfl rfl rfl (fun _ _ => rfl) (h.frames _)
    refine hoff.relink hrel hplaced2 ?_ ?_
    · intro u hu
      rw [hst2] at hu
      by_cases hc : u = s.currentThread
      · subst hc; exact h.running
      · rwa [Function.update_of_ne hc] at hu
    · intro u hu
      rw [hst2]
      by_cases hc : u = s.currentThread
      · subst hc; exact Function.update_self _ _ _
      · rw [Function.update_of_ne hc]; exact hu
  -- the second frame is that of the endless loop behind `schedule()`
  have hstack3 : ((s2.push .stop).push .schedule).stack = Function.update s.stack s.currentThread
      (.schedule :: .stop :: s.stack s.currentThread) := by
    simp [hstack2, hcur2]
  have hint2 : s2.interrupts = false := by
    rw [hrel.rest]
    rfl
  refine ⟨(s2.push .stop).push .schedule, Settles.bind hrun2 (Settles.const _), ?_,
    ⟨hrel.mutex, hrel.tcbs, hcur2, hint2, hst2, hstack3⟩⟩
  refine Core.leave (k := .stop :: s.stack s.currentThread) ?_ ?_ ?_
  · refine hcore2.congr rfl rfl rfl rfl rfl rfl rfl ?_ ?_
    · intro t ht
      rw [hstack3, hstack2, Function.update_of_ne (by rw [← hcur2]; exact ht)]
    · rw [hstack3, hcur2, Function.update_self]
      intro f hf
      simp only [List.tail_cons, List.mem_cons] at hf
      rcases hf with rfl | hf
      · rfl
      · exact h.working f hf
  · show s2.state s2.currentThread ≠ _
    rw [hst2, hcur2, Function.update_self]
    decide
  · show ((s2.push .stop).push .schedule).stack s2.currentThread = _
    rw [hstack3, hcur2, Function.update_self]

end Kernel

end Os003
