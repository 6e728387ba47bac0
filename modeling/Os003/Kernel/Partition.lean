import Os003.Kernel.Run

set_option autoImplicit false

/-! # The queues partition the threads

In a run in which no thread ends, every thread that is not running is in one queue: READY threads
in the ready queue, BLOCKED ones in the sleep queue or in one wait queue. `schedule()` never finds
the ready queue empty, because the idle thread only loops (`idle_thread` makes no call) and so is
always RUNNING or READY.

Since nothing calls `KillThread`, interrupts are off inside all functions of the kernel (`Calm`), so
a tick comes only when the current thread runs its own code.
-/

namespace Os003

open Linked

/-- The places of a function from which a thread comes back to its own code. -/
def Frame.isBase : Frame → Bool
  | .schedule | .switchTo _ _ | .reclaimed | .stop => false
  | _ => true

namespace Kernel

variable {s s' : Kernel} {xs : QueueId → List Addr} {t idle : Addr} {f : Frame} {k : List Frame}

/-- The events of a run in which no thread ends and the idle thread makes no call. -/
def Plain (idle : Addr) (s : Kernel) : Event → Prop
  | .call c => s.currentThread ≠ idle ∧ c ≠ .threadExit ∧ (∀ t, c ≠ .killThread t) ∧
      Fits s (.call c)
  | _ => True

/-- The threads are divided among the queues: the current one is the only one that runs, a READY thread is
in the ready queue alone, a BLOCKED one in exactly one of the others, and each queue is a list
without a cycle whose tail is its last element. -/
def Partitioned (s : Kernel) : Prop :=
  ∃ xs : QueueId → List Addr,
    (∀ q, IsQueue s.next (s.queue q) (xs q) ∧ ∀ t ∈ xs q, t ∈ s.tcbs) ∧
    s.currentThread ∈ s.tcbs ∧ (∀ t ∈ s.tcbs, s.state t = .running ↔ t = s.currentThread) ∧
    (∀ t ∈ s.tcbs, s.state t = .ready → ∀ q, t ∈ xs q ↔ q = .ready) ∧
    ∀ t ∈ s.tcbs, s.state t = .blocked → t ∉ xs .ready ∧ ∃! q, t ∈ xs q

/-- `schedule()`, called here, finds a thread in the ready queue when it has woken the sleepers, and
returns. -/
def FindsThread (s : Kernel) : Prop :=
  (∃ s', Settles (fun n => wakeSleepingThreads n (putBack s)) s' ∧ (s'.queue .ready).head ≠ none) ∧
    ∃ s', Settles (fun n => schedule n s) s'

/-- The stacks of threads when no thread ends: at most one function, and `schedule()` called from it with
interrupts off. -/
inductive Shape : List Frame → Prop
  | own : Shape []
  | inside {f : Frame} (h : f.isBase = true) : Shape [f]
  | leaving {f : Frame} (h : f.isBase = true) : Shape [.schedule, f]
  | left {f : Frame} (c : Nat) (h : f.isBase = true) : Shape [.switchTo c false, f]

/-- What interrupts, stacks and states are like when no thread ends. -/
structure Calm (idle : Addr) (s : Kernel) : Prop where
  alive : ∀ t ∈ s.tcbs, s.state t ≠ .terminated
  off : s.interrupts = true → s.stack s.currentThread = []
  shape : ∀ t, Shape (s.stack t)
  away : ∀ t, t ≠ s.currentThread → s.stack t = [] ∨ ∃ c f, s.stack t = [.switchTo c false, f]
  idleKnown : idle ∈ s.tcbs
  idleState : s.state idle ≠ .blocked
  idleStack : ∀ f ∈ s.stack idle, f.isSwitch = true ∨ f = .schedule ∨ f = .irq0

/-! ## One step -/

/-- The current thread is left at work. -/
theorem Calm.stays (h : Calm idle s) (hs : Stays s k s') (hk : Shape k)
    (hoff : s'.interrupts = true → k = [])
    (hidle : s.currentThread = idle → ∀ f ∈ k, f.isSwitch = true ∨ f = .schedule ∨ f = .irq0) :
    Calm idle s' := by
  have hstack : ∀ u, u ≠ s.currentThread → s'.stack u = s.stack u := by
    intro u hu
    rw [hs.stack, Function.update_of_ne hu]
  have hcur : s'.stack s.currentThread = k := by rw [hs.stack, Function.update_self]
  refine ⟨?_, ?_, ?_, ?_, ?_, ?_, ?_⟩
  · intro u hu hd
    rw [hs.tcbs] at hu
    rcases hs.state u with he | ⟨_, he⟩
    · exact h.alive u hu (he.symm.trans hd)
    · cases he.symm.trans hd
  · intro hi
    rw [hs.currentThread, hcur]
    exact hoff hi
  · intro u
    by_cases hu : u = s.currentThread
    · subst hu; rw [hcur]; exact hk
    · rw [hstack u hu]; exact h.shape u
  · intro u hu
    rw [hs.currentThread] at hu
    rw [hstack u hu]
    exact h.away u hu
  · rw [hs.tcbs]; exact h.idleKnown
  · intro hb
    rcases hs.state idle with he | ⟨_, he⟩
    · exact h.idleState (he.symm.trans hb)
    · cases he.symm.trans hb
  · intro g hg
    by_cases hu : idle = s.currentThread
    · rw [hu, hcur] at hg
      exact hidle hu.symm g hg
    · rw [hstack idle hu] at hg
      exact h.idleStack g hg

/-- The current thread, which is not the idle thread, blocks. -/
theorem Calm.leaves (h : Calm idle s) (hl : Leaves s f .blocked s')
    (hk : s.stack s.currentThread = []) (hf : f.isBase = true) (hi : s.interrupts = false)
    (hne : s.currentThread ≠ idle) : Calm idle s' := by
  have hstack : ∀ u, u ≠ s.currentThread → s'.stack u = s.stack u := by
    intro u hu
    rw [hl.stack, Function.update_of_ne hu]
  refine ⟨?_, ?_, ?_, ?_, ?_, ?_, ?_⟩
  · intro u hu hd
    rw [hl.tcbs] at hu
    rw [hl.state] at hd
    by_cases hc : u = s.currentThread
    · subst hc
      cases (Function.update_self _ _ _).symm.trans hd
    · rw [Function.update_of_ne hc] at hd
      exact h.alive u hu hd
  · intro hon
    rw [hl.interrupts, hi] at hon
    cases hon
  · intro u
    by_cases hu : u = s.currentThread
    · subst hu
      rw [hl.stack, Function.update_self, hk]
      exact Shape.leaving hf
    · rw [hstack u hu]; exact h.shape u
  · intro u hu
    rw [hl.currentThread] at hu
    rw [hstack u hu]
    exact h.away u hu
  · rw [hl.tcbs]; exact h.idleKnown
  · rw [hl.state, Function.update_of_ne (Ne.symm hne)]
    exact h.idleState
  · rw [hstack idle (Ne.symm hne)]
    exact h.idleStack

/-- A thread has been created. -/
theorem Calm.created (h : Calm idle s) (hk : s.stack s.currentThread = []) (hc : Created s s') :
    Calm idle s' := by
  rcases hc with rfl | ⟨t, hdead, htc, hh, hstack, hready⟩
  · exact ⟨h.alive, fun _ => hk, h.shape, h.away, h.idleKnown, h.idleState, h.idleStack⟩
  · have hti : idle ≠ t := by
      rintro rfl
      exact hdead ⟨h.idleKnown, h.alive _ h.idleKnown⟩
    refine ⟨?_, ?_, ?_, ?_, ?_, ?_, ?_⟩
    · intro u hu hd
      by_cases hut : u = t
      · subst hut
        cases (hready hu).symm.trans hd
      · exact h.alive u ((hh.tcbs u hut).mp hu) ((hh.state u hut).symm.trans hd)
    · intro _
      rw [hh.currentThread, hh.stack _ (Ne.symm htc)]
      exact hk
    · intro u
      by_cases hut : u = t
      · subst hut
        rcases hstack with he | he
        · rw [he]; exact Shape.own
        · rw [he]; exact h.shape u
      · rw [hh.stack u hut]; exact h.shape u
    · intro u hu
      rw [hh.currentThread] at hu
      by_cases hut : u = t
      · subst hut
        rcases hstack with he | he
        · exact Or.inl he
        · rw [he]; exact h.away u hu
      · rw [hh.stack u hut]; exact h.away u hu
    · exact (hh.tcbs idle hti).mpr h.idleKnown
    · rw [hh.state idle hti]; exact h.idleState
    · rw [hh.stack idle hti]; exact h.idleStack

/-- The innermost frame of the current thread is taken off. -/
theorem Calm.pop (h : Calm idle s) (hk : s.stack s.currentThread = f :: k) (hs : Shape k) :
    Calm idle (s.setStack s.currentThread k) ∧
      (s.setStack s.currentThread k).interrupts = false := by
  have hoff : s.interrupts = false := by
    cases hi : s.interrupts with
    | false => rfl
    | true => cases hk.symm.trans (h.off hi)
  have hstays : Stays s k (s.setStack s.currentThread k) :=
    ⟨rfl, rfl, fun _ => Or.inl rfl, rfl⟩
  refine ⟨h.stays hstays hs ?_ ?_, hoff⟩
  · intro hon
    cases hoff.symm.trans hon
  · rintro rfl g hg
    exact h.idleStack g (by rw [hk]; exact List.mem_cons_of_mem f hg)

/-- The idle thread is never blocked, so there is always a thread to run. -/
theorem Calm.findsReady (h : Calm idle s) (hS : Sched s xs) : FindsReady s :=
  hS.findsReady h.idleKnown h.idleState (h.alive idle h.idleKnown)

theorem Calm.fits (h : Calm idle s) (hS : Sched s xs) {e : Event} (hP : Plain idle s e)
    (he : Enabled s e) : Fits s e := by
  cases e with
  | tick =>
      intro g hg
      rw [h.off he] at hg
      cases hg
  | call c => exact hP.2.2.2
  | run => exact fun _ => h.findsReady hS

/-- `schedule()` leaves its caller in the shape of a thread that is away. -/
theorem Calm.switched (h : Calm idle s) (hk : s.stack s.currentThread = [f])
    (hf : f.isBase = true) (hoff : s.interrupts = false) (hs : Switched s s') : Calm idle s' := by
  have halive : ∀ u ∈ s'.tcbs, s'.state u ≠ .terminated := by
    intro u hu hd
    rw [hs.tcbs] at hu
    exact h.alive u hu ((hs.dead u).mp hd)
  have hknown : idle ∈ s'.tcbs := by rw [hs.tcbs]; exact h.idleKnown
  have hstate : s'.state idle ≠ .blocked := fun hb => h.idleState (hs.blocked idle hb)
  rcases hs.switch with ⟨hcur, hstack, hint⟩ | ⟨hcur, hint, c, hstack⟩
  · refine ⟨halive, ?_, ?_, ?_, hknown, hstate, ?_⟩
    · intro hon
      rw [hint, hoff] at hon
      cases hon
    · rw [hstack]; exact h.shape
    · rw [hstack, hcur]; exact h.away
    · rw [hstack]; exact h.idleStack
  · have hother : ∀ u, u ≠ s.currentThread → s'.stack u = s.stack u := by
      intro u hu
      rw [hstack, Function.update_of_ne hu]
    have hself : s'.stack s.currentThread = [.switchTo c false, f] := by
      rw [hstack, Function.update_self, hk, hoff]
    refine ⟨halive, ?_, ?_, ?_, hknown, hstate, ?_⟩
    · -- the thread that comes was away: it resumes with interrupts off, or has an empty stack
      intro hon
      rw [hother _ hcur]
      rcases h.away _ hcur with hnil | ⟨c', g, hsw⟩
      · exact hnil
      · rw [hint, hsw] at hon
        cases hon
    · intro u
      by_cases hu : u = s.currentThread
      · subst hu; rw [hself]; exact Shape.left c hf
      · rw [hother u hu]; exact h.shape u
    · intro u _
      by_cases hu : u = s.currentThread
      · subst hu; exact Or.inr ⟨c, f, hself⟩
      · rw [hother u hu]; exact h.away u hu
    · intro g hg
      by_cases hu : idle = s.currentThread
      · rw [hu, hself] at hg
        rcases List.mem_cons.mp hg with rfl | hg
        · exact Or.inl rfl
        · exact h.idleStack g (by rw [hu, hk]; exact hg)
      · rw [hother idle hu] at hg
        exact h.idleStack g hg

theorem Calm.disableInterrupts (h : Calm idle s) : Calm idle s.disableInterrupts := by
  refine ⟨h.alive, ?_, h.shape, h.away, h.idleKnown, h.idleState, h.idleStack⟩
  intro hi
  cases hi

theorem Calm.call (h : Calm idle s) (hS : Running s xs) (hk : s.stack s.currentThread = [])
    {c : Call} (hP : Plain idle s (.call c)) {n : Nat} (hs : Kernel.call n c s = some s') :
    Calm idle s' := by
  obtain ⟨hne, hexit, hkill, hfit⟩ := hP
  -- the call returns to the thread's own code
  have hback : ∀ {u}, Stays s (s.stack s.currentThread) u → Calm idle u := by
    intro u hu
    rw [hk] at hu
    exact h.stays hu Shape.own (fun _ => rfl) (fun _ f hf => by cases hf)
  -- the call goes on at a place inside a function
  have hin : ∀ {u f}, Stays s (f :: s.stack s.currentThread) u → f.isBase = true →
      u.interrupts = false → Calm idle u := by
    intro u f hu hf hi
    rw [hk] at hu
    refine h.stays hu (Shape.inside hf) ?_ (fun e => absurd e hne)
    intro hon
    cases hi.symm.trans hon
  have hsleep : ∀ w, Calm idle (sleepUntil w s) := fun w =>
    h.disableInterrupts.leaves (sleepUntil_spec w s).2 hk rfl rfl hne
  cases c with
  | createThread page stack size useVmm vmm =>
      obtain ⟨_, _, hc, _⟩ := hS.createThread page stack size useVmm vmm hfit
      cases hs
      exact h.created hk hc
  | createKernelThread page stack size =>
      obtain ⟨_, _, hc, _⟩ := hS.createThread page stack
        (roundUp size) false s.currentVmmDesc hfit
      cases hs
      exact h.created hk hc
  | createUserThread page stack size vmm =>
      obtain ⟨_, _, hc, _⟩ := hS.createUserThread page stack size vmm hfit
      cases hs
      exact h.created hk hc
  | threadSleepMs ms =>
      cases hs
      unfold threadSleepMs
      split
      · exact h
      · exact hsleep _
  | threadSleepSecond sec =>
      cases hs
      unfold threadSleepSecond
      split
      · exact h
      · exact hsleep _
  | mutexLock m =>
      cases hs
      rcases (mutexLock_spec m s).2 with ⟨_, _, hstay⟩ | ⟨_, hi, hstay⟩
      · exact hback hstay
      · exact hin hstay rfl hi
  | mutexUnlock m =>
      cases hs
      exact hback (hS.mutexUnlock_spec m).2.1
  | semWait m =>
      cases hs
      have hoff : Stays s (s.stack s.currentThread) s.disableInterrupts :=
        Stays.of_eq rfl rfl rfl rfl
      exact hin (hoff.trans (stays_push s.disableInterrupts (.waitTest m))) rfl rfl
  | semPost m =>
      cases hs
      exact hback (hS.semPost_spec m).2.1
  | threadExit => exact absurd rfl hexit
  | killThread t => exact absurd rfl (hkill t)

/-- The current thread goes on behind a call of `schedule()`. -/
theorem Calm.inside (h : Calm idle s) (hk : s.stack s.currentThread = [])
    (hi : s.interrupts = false) (hf : f.isBase = true)
    (hidle : s.currentThread = idle → f.isSwitch = true ∨ f = .schedule ∨ f = .irq0) {n : Nat}
    (hs : Kernel.runFrame n f s = some s') : Calm idle s' := by
  -- the idle thread makes no calls, so of these frames only that of the tick is its own
  have hnot : f ≠ .irq0 → s.currentThread ≠ idle := by
    intro hirq e
    rcases hidle e with h1 | rfl | h1
    · cases f <;> simp_all [Frame.isBase, Frame.isSwitch]
    · cases hf
    · exact hirq h1
  have hback : ∀ {u}, Stays s (s.stack s.currentThread) u → Calm idle u := by
    intro u hu
    rw [hk] at hu
    exact h.stays hu Shape.own (fun _ => rfl) (fun _ f hf => by cases hf)
  have hin : ∀ {u g}, Stays s (g :: s.stack s.currentThread) u → g.isBase = true →
      u.interrupts = s.interrupts → s.currentThread ≠ idle → Calm idle u := by
    intro u g hu hg hui hne
    rw [hk] at hu
    refine h.stays hu (Shape.inside hg) ?_ (fun e => absurd e hne)
    intro hon
    cases hi.symm.trans (hui.symm.trans hon)
  cases f with
  | schedule => cases hf
  | switchTo c b => cases hf
  | reclaimed => cases hf
  | stop => cases hf
  | irq0 =>
      cases hs
      exact hback (Stays.of_eq rfl rfl rfl rfl)
  | slept =>
      cases hs
      exact hback (Stays.of_eq rfl rfl rfl rfl)
  | lockTake m =>
      cases hs
      exact hback (Stays.of_eq rfl rfl rfl rfl)
  | waitTake m =>
      cases hs
      exact hback (Stays.of_eq rfl rfl rfl rfl)
  | lockTest m =>
      cases hs
      have hne := hnot (by simp)
      rcases lockTest_spec m s with ⟨_, hl⟩ | ⟨_, _, hui, hst⟩
      · exact h.leaves hl hk rfl hi hne
      · exact hin hst rfl hui hne
  | waitTest m =>
      cases hs
      have hne := hnot (by simp)
      rcases waitTest_spec m s with ⟨_, hl⟩ | ⟨_, _, hui, hst⟩
      · exact h.leaves hl hk rfl hi hne
      · exact hin hst rfl hui hne

/-- One step keeps interrupts off inside the kernel and the idle thread out of all calls. -/
theorem Calm.step (h : Calm idle s) (hS : Sched s xs) {e : Event} (hP : Plain idle s e) {n : Nat}
    (hs : Kernel.step n e s = some s') : Calm idle s' := by
  have he := enabled_of_step hs
  have hfit := h.fits hS hP he
  cases e with
  | tick =>
      -- the tick pushes its two frames, on a stack that is empty or holds the endless loop
      have hk := h.off he
      cases (if_pos he).symm.trans hs
      have hstay : Stays s [.schedule, .irq0] (Kernel.tick s) := by
        refine ⟨rfl, rfl, fun _ => Or.inl rfl, ?_⟩
        simp [Kernel.tick, hk]
      refine h.stays hstay (Shape.leaving rfl) ?_ ?_
      · intro hon
        cases hon
      · intro _ f hf
        simp only [List.mem_cons, List.not_mem_nil, or_false] at hf
        exact Or.inr hf
  | call c =>
      exact h.call (hS.runningOfCall he) he hP ((if_pos he).symm.trans hs)
  | run =>
      obtain ⟨f, k, hk, hrun⟩ := runFrame_of_step hs
      have hstack : (s.setStack s.currentThread k).stack s.currentThread = k :=
        Function.update_self _ _ _
      have hshape := h.shape s.currentThread
      rw [hk] at hshape
      cases hshape with
      | inside hf =>
          obtain ⟨h0, hi⟩ := h.pop hk Shape.own
          refine h0.inside hstack hi hf ?_ hrun
          intro e
          refine h.idleStack f ?_
          rw [← show s.currentThread = idle from e, hk]
          exact List.mem_cons_self
      | leaving hf =>
          -- `schedule()` finds a thread to run, for the idle thread never waits
          obtain ⟨h0, hi⟩ := h.pop hk (Shape.inside hf)
          obtain ⟨hcore, hwork⟩ := hS.atSchedule hk
          obtain ⟨u, _, hset, _, hsw, _⟩ := hcore.schedule hwork (h.findsReady hS)
          rw [← hset.result hrun] at hsw
          exact h0.switched hstack hf hi hsw
      | left c hf =>
          obtain ⟨h0, hi⟩ := h.pop hk (Shape.inside hf)
          obtain ⟨u, _, hset, _, hres, _⟩ := hS.resume hk
          rw [← hset.result hrun] at hres
          -- in these runs no thread ends, so the one that was left is never killed here
          rcases hres.reclaims with ⟨hst, hint⟩ | ⟨⟨d, hd, hdead⟩, _⟩
          · have hstay : Stays (s.setStack s.currentThread [_]) [_] s' :=
              ⟨hres.tcbs, hres.currentThread, fun v => Or.inl (congrFun hres.state v), by
                rw [hst]
                exact (Function.update_eq_self_iff.mpr hstack.symm).symm⟩
            refine h0.stays hstay (Shape.inside hf) ?_ ?_
            · intro hon
              cases hi.symm.trans (hint.symm.trans hon)
            · intro e g hg
              refine h.idleStack g ?_
              rw [← show s.currentThread = idle from e, hk]
              exact List.mem_cons_of_mem _ hg
          · exact absurd hdead (h.alive d hd)

/-! ## Runs -/

section Boot

variable {main idle bootStack idleStack kernelPml4 : Nat} {vmms : Addr → Vmm} {vmmDesc : Addr}
  {counts : Addr → Int}

/-- The kernel behind `init_multitasking`: the main thread runs, the idle thread is ready. -/
structure Booted (idle : Addr) (s : Kernel) (xs : QueueId → List Addr) : Prop where
  sched : Sched s xs
  calm : Calm idle s
  stack : ∀ t, s.stack t = []
  mutex : ∀ m, s.mutex m = ⟨false, none⟩
  waits : ∀ q, q ≠ .ready → q ≠ .sleep → xs q = []

theorem booted_initMultitasking (hne : main ≠ idle) (hstack : idleStack ≠ 0) :
    ∃ xs, Booted idle
      (initMultitasking main idle bootStack idleStack kernelPml4 vmms vmmDesc counts) xs := by
  let b : Kernel := bootKernel main bootStack kernelPml4 vmms vmmDesc counts
  have hlist : ∀ q, IsQueue b.next (b.queue q) [] := fun q => IsQueue.empty
  -- at first all queues are empty, and the main thread runs
  have hplaced : Placed b (fun _ => []) := by
    refine ⟨⟨hlist, ?_⟩, ?_, ?_⟩
    · intro t q q' ht
      cases ht
    · intro t
      simp [b, bootKernel, state]
    · intro t
      simp [b, bootKernel, state]
  have hrunning : Running b (fun _ => []) := by
    refine ⟨⟨hplaced, ?_, ?_, ?_, ?_⟩, rfl, ?_⟩
    · intro t ht _
      exact List.mem_singleton.mp ht
    · exact List.mem_singleton.mpr rfl
    · intro t f hf
      cases hf
    · refine ⟨rfl, ?_, ?_, ?_⟩
      · intro i h1 hi
        change i ≤ 0 at hi
        omega
      · intro i j t h1 hi
        change i ≤ 0 at hi
        omega
      · rintro t ⟨i, h1, hi, _⟩
        change i ≤ 0 at hi
        omega
    · intro f hf
      cases hf
  -- the idle thread is created like every other one
  have hfresh : idle ∉ b.disableInterrupts.tcbs := by
    intro hm
    exact hne (List.mem_singleton.mp hm).symm
  have hoff : Running b.disableInterrupts (fun _ => []) := hrunning.interrupts false
  obtain ⟨hh, hq, hs⟩ := hoff.allocTcb hfresh
  let size := roundUp 4096
  let tcb : Tcb := { Tcb.zero with kernelStack := idleStack, stackSize := size, vmm := vmmDesc }
  have hinit : initMultitasking main idle bootStack idleStack kernelPml4 vmms vmmDesc counts =
      startThread idle tcb (allocTcb idle b.disableInterrupts) := if_neg hstack
  obtain ⟨xs, hR, hh', hempty, hready, hw⟩ := hoff.startThread hh hq hs List.mem_cons_self tcb
  rw [hinit]
  have hstack' : ∀ t, (startThread idle tcb (allocTcb idle b.disableInterrupts)).stack t = [] := by
    intro t
    by_cases ht : t = idle
    · subst ht; exact hempty
    · exact hh'.stack t ht
  have hknown : idle ∈ (startThread idle tcb (allocTcb idle b.disableInterrupts)).tcbs := by
    have hrel := Relinked.threadEnqueue idle
      (registerThread idle tcb (allocTcb idle b.disableInterrupts))
    show idle ∈ (threadEnqueue idle _).tcbs
    rw [hrel.tcbs, (registerThread_spec hh hq tcb).2.2.1]
    exact List.mem_cons_self
  refine ⟨xs, hR.sched, ⟨?_, fun _ => hstack' _, ?_, fun t _ => Or.inl (hstack' t), hknown, ?_, ?_⟩,
    hstack', fun m => congrFun hh'.mutex m, fun q h1 h2 => hw q h1 h2 h1⟩
  · intro t ht hd
    by_cases hti : t = idle
    · subst hti
      cases hready.symm.trans hd
    · cases (hh'.state t hti).symm.trans hd
  · intro t
    rw [hstack' t]
    exact Shape.own
  · rw [hready]
    decide
  · rw [hstack' idle]
    intro f hf
    cases hf

theorem queues_partition (hne : main ≠ idle) (hstack : idleStack ≠ 0) {s : Kernel}
    (h : Reaches (Plain idle)
      (initMultitasking main idle bootStack idleStack kernelPml4 vmms vmmDesc counts) s) :
    (s.stack s.currentThread = [] → Partitioned s) ∧
      ∀ k, s.stack s.currentThread = .schedule :: k →
        FindsThread (s.setStack s.currentThread k) := by
  have hinv : ∃ xs, Sched s xs ∧ Calm idle s := by
    refine h.invariant (I := fun t => ∃ xs, Sched t xs ∧ Calm idle t)
      ((booted_initMultitasking hne hstack).imp fun _ h0 => ⟨h0.sched, h0.calm⟩) ?_
    rintro t u e n ⟨xs, hS, hC⟩ hP hs
    have he := enabled_of_step hs
    obtain ⟨u', xs', hset, hS', _⟩ := hS.step he (hC.fits hS hP he)
    rw [← hset.result hs] at hS'
    exact ⟨xs', hS', hC.step hS hP hs⟩
  obtain ⟨xs, hS, hC⟩ := hinv
  refine ⟨?_, ?_⟩
  · intro hk
    have hR := hS.runningOfCall hk
    refine ⟨xs, fun q => ⟨hS.listed q, fun t ht => hS.toPlaced.known ht⟩, hS.current, ?_, ?_, ?_⟩
    · intro t ht
      constructor
      · exact hS.onlyRunning t ht
      · rintro rfl
        exact hR.running
    · intro t ht hr q
      have hm := (hS.ready_iff t).mpr ⟨ht, hr⟩
      constructor
      · exact fun hq => hS.apart t q .ready hq hm
      · rintro rfl
        exact hm
    · intro t ht hb
      obtain ⟨q, hq, hm⟩ := (hS.blocked_iff t).mpr ⟨ht, hb⟩
      refine ⟨fun hr => hq (hS.apart t q .ready hm hr), q, hm, ?_⟩
      intro q' hm'
      exact hS.apart t q' q hm' hm
  · intro k hk
    obtain ⟨hcore, hwork⟩ := hS.atSchedule hk
    have hfind : FindsReady (s.setStack s.currentThread k) := hC.findsReady hS
    obtain ⟨s1, xs1, t, r, hwake, hw, htr, _⟩ := hcore.wake hfind
    obtain ⟨s2, _, hrun, _, _⟩ := hcore.schedule hwork hfind
    refine ⟨⟨s1, hwake, ?_⟩, s2, hrun⟩
    rw [(hw.listed .ready).head, htr]
    simp

end Boot

/-- The main thread goes to sleep and the idle thread runs. -/
theorem queues_partition_sleep :
    ∃ s, steps 5 [.call (.threadSleepMs 5), .run]
        (initMultitasking 1 2 4096 8192 0 (fun _ => ⟨0, false⟩) 7 fun _ => 0) = some s ∧
      s.currentThread = 2 ∧ Partitioned s := by
  have hP : Meet (Plain 2) 5 [.call (.threadSleepMs 5), .run]
      (initMultitasking 1 2 4096 8192 0 (fun _ => ⟨0, false⟩) 7 fun _ => 0) :=
    ⟨⟨by decide, by simp, by simp, trivial⟩, fun _ _ => ⟨trivial, fun _ _ => trivial⟩⟩
  refine ⟨_, rfl, rfl, ?_⟩
  exact (queues_partition (by decide) (by decide) (reaches_steps .start hP rfl)).1 rfl

end Kernel

end Os003
