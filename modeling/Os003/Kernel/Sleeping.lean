import Os003.Kernel.Fields

set_option autoImplicit false

/-! # Sleeping threads

`ThreadSleepMS` computes the tick at which a thread wakes up in 64 bits. When the product and the
sum do not overflow the thread stays in the sleep queue until that tick (`Sleeping.step`): only
`wake_sleeping_threads` takes it out, and not before. `SYS_sleep` passes on what it gets in a
register, and with an argument of 2^64 / 1000 and more the thread wakes up at once
(`overflow_wakes`).
-/

namespace Os003

open Linked

namespace Kernel

variable {s s' : Kernel} {xs xs' : QueueId → List Addr} {t : Addr} {w : UInt64} {e : Event} {n : Nat}

/-! ## What leaves the sleep queue alone -/

/-- A waiting thread that is woken comes from its wait queue. -/
theorem Running.sleepers_wakeWaiter {q : QueueId} (h : Running s xs) (hq : q ≠ .ready)
    (hs : q ≠ .sleep) (h' : Queues (Kernel.wakeWaiter (dequeue q s)) xs') :
    xs' .sleep = xs .sleep := by
  cases hl : xs q with
  | nil =>
      rw [h.toQueues.dequeue_nil hl] at h'
      exact congrFun (h'.unique h.toQueues) .sleep
  | cons u r =>
      obtain ⟨hfst, hqueues, hstate⟩ := h.toQueues.dequeue_cons hl
      have hwake : Kernel.wakeWaiter (dequeue q s) =
          threadEnqueue u ((dequeue q s).2.setState u .ready) := by
        have hpair : dequeue q s = (some u, (dequeue q s).2) := by rw [← hfst]
        rw [hpair]
        rfl
      have hplaced := h.toPlaced.wake (p := []) hl hq hqueues hstate (Relinked.dequeue q s).tcbs
      rw [hwake] at h'
      rw [h'.unique hplaced.toQueues, Function.update_of_ne (by decide),
        Function.update_of_ne (Ne.symm hs)]

theorem Running.sleepers_mutexUnlock {m : Addr} (h : Running s xs)
    (h' : Queues (Kernel.mutexUnlock m s) xs') : xs' .sleep = xs .sleep := by
  unfold Kernel.mutexUnlock at h'
  dsimp only at h'
  split at h'
  · exact congrFun (h'.unique ((h.interrupts false).interrupts true).toQueues) .sleep
  · have h1 : Running (s.disableInterrupts.setMutex m ⟨false, none⟩) xs :=
      (h.interrupts false).other rfl rfl rfl rfl rfl rfl rfl
    exact h1.sleepers_wakeWaiter (q := .mutex m) (by simp) (by simp) (h'.congr rfl rfl)

theorem Running.sleepers_semPost {m : Addr} (h : Running s xs)
    (h' : Queues (Kernel.semPost m s) xs') : xs' .sleep = xs .sleep := by
  have h1 : Running (s.disableInterrupts.setCount m (s.semCount m + 1)) xs :=
    (h.interrupts false).other rfl rfl rfl rfl rfl rfl rfl
  exact h1.sleepers_wakeWaiter (q := .sem m) (by simp) (by simp) (h'.congr rfl rfl)

theorem Running.sleepers_lockTest {m : Addr} (h : Running s xs)
    (h' : Queues (Kernel.lockTest m s) xs') : xs' .sleep = xs .sleep := by
  unfold Kernel.lockTest at h'
  split at h'
  · have hb := h.blockOn (q := .mutex m) (by simp) (f := .lockTest m) rfl
    rw [h'.unique hb.toQueues, Function.update_of_ne (by simp)]
  · exact congrFun (h'.unique (h.push (f := .lockTake m) rfl).toQueues) .sleep

theorem Running.sleepers_waitTest {m : Addr} (h : Running s xs)
    (h' : Queues (Kernel.waitTest m s) xs') : xs' .sleep = xs .sleep := by
  unfold Kernel.waitTest at h'
  split at h'
  · have hb := h.blockOn (q := .sem m) (by simp) (f := .waitTest m) rfl
    rw [h'.unique hb.toQueues, Function.update_of_ne (by simp)]
  · exact congrFun (h'.unique (h.push (f := .waitTake m) rfl).toQueues) .sleep

/-! ## A thread stays blocked -/

/-- The current thread is at work when it calls. -/
theorem Sched.not_current (h : Sched s xs) (hb : s.state t = .blocked)
    (hk : s.stack s.currentThread = []) : t ≠ s.currentThread := by
  rintro rfl
  cases (h.runningOfCall hk).running.symm.trans hb

theorem Running.blocked_call (h : Running s xs) {c : Call} (hf : Fits s (.call c))
    (hq : waitQueue s (.call c) = .ready) (hk : c ≠ .killThread t) (ht : t ∈ s.tcbs)
    (hb : s.state t = .blocked) (hc : t ≠ s.currentThread) (hs : Kernel.call n c s = some s') :
    s'.state t = .blocked := by
  -- a new thread takes a TCB that is free, a thread that leaves is the current one
  have hcreated : Created s s' → s'.state t = .blocked := by
    rintro (rfl | ⟨u, hdead, _, hh, _⟩)
    · exact hb
    · have hut : t ≠ u := by
        rintro rfl
        exact hdead ⟨ht, by rw [hb]; decide⟩
      rw [hh.state t hut]
      exact hb
  have hleaves : ∀ {f x}, Leaves s.disableInterrupts f x s' → s'.state t = .blocked := by
    intro f x hl
    rw [hl.state]
    exact (Function.update_of_ne hc _ _).trans hb
  cases c with
  | createThread page stack size useVmm vmm =>
      cases hs
      obtain ⟨_, _, hc, _⟩ := h.createThread page stack size useVmm vmm hf
      exact hcreated hc
  | createKernelThread page stack size =>
      cases hs
      obtain ⟨_, _, hc, _⟩ := h.createThread page stack (roundUp size) false s.currentVmmDesc hf
      exact hcreated hc
  | createUserThread page stack size vmm =>
      cases hs
      obtain ⟨_, _, hc, _⟩ := h.createUserThread page stack size vmm hf
      exact hcreated hc
  | threadSleepMs ms =>
      cases hs
      unfold threadSleepMs at hleaves ⊢
      split
      · exact hb
      · rename_i h0
        rw [if_neg h0] at hleaves
        exact hleaves (sleepUntil_spec _ s).2
  | threadSleepSecond sec =>
      cases hs
      unfold threadSleepSecond at hleaves ⊢
      split
      · exact hb
      · rename_i h0
        rw [if_neg h0] at hleaves
        exact hleaves (sleepUntil_spec _ s).2
  | mutexLock m =>
      cases hs
      unfold Kernel.mutexLock
      dsimp only
      split <;> exact hb
  | mutexUnlock m => cases hq
  | semWait m =>
      cases hs
      exact hb
  | semPost m => cases hq
  | threadExit =>
      obtain ⟨u, hset, _, hl⟩ := h.threadExit
      rw [hset.result hs] at hleaves ⊢
      exact hleaves hl
  | killThread u =>
      obtain ⟨v, hset, _, hkill⟩ := h.toQueues.killThread hf.2.1
      have hut : t ≠ u := fun heq => hk (by rw [heq])
      rw [hset.result hs, hkill.state, Function.update_of_ne hut]
      exact hb

theorem Sched.blocked_run (h : Sched s xs) (hf : Fits s .run) (hq : waitQueue s .run = .ready)
    (hb : s.state t = .blocked) (hlate : s.due t = false) (hs : Kernel.step n .run s = some s') :
    s'.state t = .blocked := by
  obtain ⟨f, k, hfk, hrun⟩ := runFrame_of_step hs
  rw [waitQueue_run hfk] at hq
  cases f with
  | schedule =>
      obtain ⟨hcore, hworking⟩ := h.atSchedule hfk
      obtain ⟨u, _, hset, _, hsw, _⟩ := hcore.schedule hworking (hf ⟨k, hfk⟩)
      rw [hset.result hrun]
      exact hsw.asleep t hb hlate
  | switchTo c b =>
      obtain ⟨u, _, hset, _, hr, _⟩ := h.resume hfk
      rw [hset.result hrun, hr.state]
      exact hb
  | lockTest m => cases hq
  | waitTest m => cases hq
  | _ =>
      cases hrun
      exact hb

/-- An event at no wait queue leaves a blocked thread blocked, unless it wakes it up or kills it. -/
theorem Sched.still_blocked (h : Sched s xs) (hf : Fits s e) (hq : waitQueue s e = .ready)
    (hk : e ≠ .call (.killThread t)) (ht : t ∈ s.tcbs) (hb : s.state t = .blocked)
    (hlate : s.due t = false) (hs : Kernel.step n e s = some s') : s'.state t = .blocked := by
  have he := enabled_of_step hs
  cases e with
  | tick =>
      rw [Option.some.inj (hs.symm.trans (if_pos he))]
      exact hb
  | call c =>
      exact (h.runningOfCall he).blocked_call hf hq (fun heq => hk (by rw [heq])) ht hb
        (h.not_current hb he) ((if_pos he).symm.trans hs)
  | run => exact h.blocked_run hf hq hb hlate hs

/-- The events at a wait queue leave the sleep queue alone. -/
theorem Sched.sleepers_step (h : Sched s xs) (hq : waitQueue s e ≠ .ready)
    (hs : Kernel.step n e s = some s') (h' : Sched s' xs') : xs' .sleep = xs .sleep := by
  have he := enabled_of_step hs
  cases e with
  | tick => exact absurd rfl hq
  | call c =>
      have hcall : Kernel.call n c s = some s' := (if_pos he).symm.trans hs
      have hR := h.runningOfCall he
      cases c with
      | mutexUnlock m =>
          cases hcall
          exact hR.sleepers_mutexUnlock h'.toQueues
      | semPost m =>
          cases hcall
          exact hR.sleepers_semPost h'.toQueues
      | _ => exact absurd rfl hq
  | run =>
      obtain ⟨f, k, hfk, hrun⟩ := runFrame_of_step hs
      rw [waitQueue_run hfk] at hq
      cases f with
      | lockTest m =>
          cases hrun
          exact (h.pop hfk (by simp)).sleepers_lockTest h'.toQueues
      | waitTest m =>
          cases hrun
          exact (h.pop hfk (by simp)).sleepers_waitTest h'.toQueues
      | _ => exact absurd rfl hq

/-! ## Sleeping until a tick -/

/-- The thread is in the sleep queue until the tick `w`. -/
structure Sleeping (t : Addr) (w : UInt64) (s : Kernel) (xs : QueueId → List Addr) : Prop
    extends Sched s xs where
  asleep : t ∈ xs .sleep
  wakeup : (s.tcb t).wakeupTime = w

theorem steady_wakeupTime : Steady Tcb.wakeupTime := fun _ _ _ => rfl

theorem Sleeping.known (h : Sleeping t w s xs) : t ∈ s.tcbs ∧ s.state t = .blocked :=
  (h.blocked_iff t).mp ⟨.sleep, by decide, h.asleep⟩

/-- The TCB of a thread that is alive is not given back. -/
theorem Moves.known (h : Moves s e s') (ha : Alive s t) : t ∈ s'.tcbs := by
  cases h with
  | stays h _ => exact h.tcbs ▸ ha.1
  | leaves _ htcbs _ _ _ => exact htcbs ▸ ha.1
  | created _ _ h =>
      rcases h with rfl | ⟨u, hdead, _, hh, _⟩
      · exact ha.1
      · have hut : t ≠ u := fun heq => hdead (heq ▸ ha)
        exact (hh.tcbs t hut).mpr ha.1
  | killed _ _ h => exact h.tcbs ▸ ha.1
  | switched _ _ _ h =>
      rw [h.tcbs]
      exact ha.1
  | resumed _ _ _ h =>
      rw [h.tcbs]
      exact ha.1

/-- A blocked thread that waits for no mutex and no semaphore sleeps. -/
theorem Sched.asleep (h' : Sched s' xs') (hw : SameWaits .ready xs xs')
    (hout : ∀ q, q ≠ .ready → q ≠ .sleep → t ∉ xs q) (ht : t ∈ s'.tcbs)
    (hb : s'.state t = .blocked) : t ∈ xs' .sleep := by
  obtain ⟨q, hready, hq⟩ := (h'.blocked_iff t).mpr ⟨ht, hb⟩
  by_cases hs : q = .sleep
  · exact hs ▸ hq
  · rw [hw q hready hs hready] at hq
    exact absurd hq (hout q hready hs)

/-- The event writes the wake-up time of other threads only. -/
theorem Sleeping.keeps (h : Sleeping t w s xs) (hf : Fits s e)
    (hk : e ≠ .call (.killThread t)) : Keeps t s e := by
  obtain ⟨ht, hb⟩ := h.known
  have hpool : ∀ u, s.freeTcbList s.numOfFreeTcb = some u → u ≠ t := by
    rintro u hu rfl
    have hpos : 1 ≤ s.numOfFreeTcb := by
      by_contra h0
      rw [Nat.eq_zero_of_not_pos h0, h.pool.base] at hu
      cases hu
    cases (h.pool.dead _ ⟨_, hpos, le_rfl, hu⟩).2.1.symm.trans hb
  have htake : ∀ page, (∀ u, page = some u → u ∉ s.tcbs) →
      (takeTcb page s.disableInterrupts).1 ≠ some t := by
    intro page hpage
    unfold takeTcb
    cases hl : s.disableInterrupts.freeTcbList s.disableInterrupts.numOfFreeTcb with
    | some u => exact fun heq => hpool u hl (Option.some.inj heq)
    | none =>
        cases page with
        | none => exact fun heq => by cases heq
        | some u => exact fun heq => hpage u rfl (Option.some.inj heq ▸ ht)
  cases e with
  | tick => trivial
  | call c =>
      cases c with
      | createThread page stack size useVmm vmm => exact htake page hf
      | createKernelThread page stack size => exact htake page hf
      | createUserThread page stack size vmm => exact fun heq => hf t heq ht
      | killThread u => exact fun heq => hk (by rw [heq])
      | _ => trivial
  | run =>
      intro _ hr
      -- what is reclaimed has ended
      have hdead := of_decide_eq_true (Option.filter_eq_some_iff.mp hr).2
      cases hdead.symm.trans hb

/-- Before its tick a sleeping thread goes on sleeping. -/
theorem Sleeping.step (h : Sleeping t w s xs) (hfits : Fits s e)
    (hk : e ≠ .call (.killThread t)) (hlate : s.timerTicks < w)
    (hs : Kernel.step n e s = some s') : ∃ xs', Sleeping t w s' xs' := by
  obtain ⟨ht, hb⟩ := h.known
  have he := enabled_of_step hs
  have hdue : s.due t = false := by
    unfold due
    rw [h.wakeup]
    exact decide_eq_false (UInt64.not_le.mpr hlate)
  obtain ⟨u, xs', hset, hu, hw⟩ := h.toSched.step he hfits
  rw [← hset.result hs] at hu
  refine ⟨xs', hu, ?_, ?_⟩
  · by_cases hq : waitQueue s e = .ready
    · rw [hq] at hw
      have hstill := h.toSched.still_blocked hfits hq hk ht hb hdue hs
      have hknown : t ∈ s'.tcbs :=
        (h.toSched.moves hfits hs).known ⟨ht, by rw [hb]; decide⟩
      exact hu.asleep hw (fun q _ hsleep hq => hsleep (h.apart t q .sleep hq h.asleep)) hknown hstill
    · rw [h.toSched.sleepers_step hq hs hu]
      exact h.asleep
  · have hwrite : Sleepless Tcb.wakeupTime t s e := by
      right
      rintro c rfl
      exact h.toSched.not_current hb he
    exact (fieldOf_step steady_wakeupTime (h.keeps hfits hk) hwrite hs).trans h.wakeup

/-! ## Runs -/

/-- The thread runs. -/
def Runs (s : Kernel) (t : Addr) : Prop := s.currentThread = t ∧ s.state t = .running

/-- The wake-up time that `ThreadSleepMS(ms)` computes does not overflow. -/
def InTime (s : Kernel) (ms : UInt64) : Prop :=
  ms.toNat * 1000 < 2 ^ 64 ∧ s.timerTicks.toNat + ms.toNat < 2 ^ 64

/-- When the current thread calls `ThreadSleepMS(ms)`, and is not killed, it does not run again in a
run whose steps meet `P` before the ticks have reached `ms` more than at the call. -/
def SleepsFor (P : Kernel → Event → Prop) (s : Kernel) (ms : UInt64) : Prop :=
  ∀ n u v, Kernel.step n (.call (.threadSleepMs ms)) s = some u →
    Reaches (fun x e => P x e ∧ e ≠ .call (.killThread s.currentThread) ∧
      x.timerTicks.toNat < s.timerTicks.toNat + ms.toNat) u v →
    v.timerTicks.toNat < s.timerTicks.toNat + ms.toNat → ¬ Runs v s.currentThread

theorem toNat_wakeup {ms : UInt64} (h : InTime s ms) :
    (s.timerTicks + ms * pitClockFreq / 1000).toNat = s.timerTicks.toNat + ms.toNat := by
  obtain ⟨hmul, hadd⟩ := h
  have hfreq : pitClockFreq.toNat = 1000 := rfl
  have hthousand : (1000 : UInt64).toNat = 1000 := rfl
  rw [UInt64.toNat_add, UInt64.toNat_div, UInt64.toNat_mul, hfreq, hthousand,
    Nat.mod_eq_of_lt hmul, Nat.mul_div_cancel _ (by decide), Nat.mod_eq_of_lt hadd]

/-- The current thread goes to sleep. -/
theorem Running.sleeping (h : Running s xs) (w : UInt64) :
    ∃ xs', Sleeping s.currentThread w (Kernel.sleepUntil w s) xs' := by
  obtain ⟨xs', h', hw⟩ := h.sleepUntil w
  obtain ⟨-, hl⟩ := sleepUntil_spec w s
  refine ⟨xs', h', h'.asleep hw (fun q _ _ => h.not_queued q) ?_ ?_, ?_⟩
  · rw [hl.tcbs]
    exact h.current
  · rw [hl.state]
    exact Function.update_self _ _ _
  · show fieldOf Tcb.wakeupTime (Kernel.sleepUntil w s) s.currentThread = w
    unfold Kernel.sleepUntil sleepEnqueue
    simp only [fieldOf_push, fieldOf_enqueue steady_wakeupTime, fieldOf_setState steady_wakeupTime]
    rw [fieldOf_setTcb]
    exact Function.update_self _ _ _

section Boot

variable {main idle bootStack idleStack kernelPml4 : Nat} {vmms : Addr → Vmm} {vmmDesc : Addr}
  {counts : Addr → Int}

/-- A thread whose wake-up time does not overflow does not wake up early. -/
theorem no_early_wake (hne : main ≠ idle) (hstack : idleStack ≠ 0) {ms : UInt64} (hms : ms ≠ 0)
    (h : Reaches Fits
      (initMultitasking main idle bootStack idleStack kernelPml4 vmms vmmDesc counts) s)
    (hin : InTime s ms) : SleepsFor Fits s ms := by
  intro n u v hcall hrun hearly
  have hsched : ∃ xs, Sched s xs := by
    refine h.invariant (I := fun x => ∃ xs, Sched x xs)
      ((booted_initMultitasking hne hstack).imp fun _ hb => hb.sched) ?_
    rintro x y e m ⟨xs, hx⟩ hf hs
    obtain ⟨z, xs', hset, hz, -⟩ := hx.step (enabled_of_step hs) hf
    exact ⟨xs', hset.result hs ▸ hz⟩
  obtain ⟨xs, hS⟩ := hsched
  have hk := enabled_of_step hcall
  have hw := toNat_wakeup hin
  generalize hwake : s.timerTicks + ms * pitClockFreq / 1000 = w at hw
  have hu : u = sleepUntil w s := by
    have hstep : Kernel.call n (.threadSleepMs ms) s = some u := (if_pos hk).symm.trans hcall
    rw [← Option.some.inj hstep, ← hwake]
    exact if_neg hms
  have hsleeping : ∃ ys, Sleeping s.currentThread w v ys := by
    refine hrun.invariant (I := fun x => ∃ ys, Sleeping s.currentThread w x ys)
      (hu ▸ (hS.runningOfCall hk).sleeping w) ?_
    rintro x y e m ⟨ys, hx⟩ ⟨hf, hkill, hlate⟩ hs
    exact hx.step hf hkill (UInt64.lt_iff_toNat_lt.mpr (hw ▸ hlate)) hs
  obtain ⟨ys, hv⟩ := hsleeping
  rintro ⟨-, hrunning⟩
  cases hrunning.symm.trans hv.known.2

end Boot

/-- The kernel behind `init_multitasking`: thread 1 runs, thread 2 is the idle thread. -/
def bootedKernel : Kernel :=
  initMultitasking 1 2 4096 8192 0 (fun _ => ⟨0, false⟩) 7 fun _ => 0

/-- Thread 1 sleeps, the idle thread runs for a tick, and `schedule()` is called again. -/
def tickLater : List Event := [.run, .tick, .run]

theorem no_early_wake_main : ∃ u v, Kernel.step 5 (.call (.threadSleepMs 5)) bootedKernel = some u ∧
    steps 5 tickLater u = some v ∧ v.timerTicks = 1 ∧ ¬ Runs v 1 := by
  have hsleeps : SleepsFor Fits bootedKernel 5 :=
    no_early_wake (by decide) (by decide) (by decide) .start (by unfold InTime; decide)
  have hsteps : steps 5 tickLater (threadSleepMs 5 bootedKernel) = some _ := rfl
  refine ⟨_, _, rfl, hsteps, rfl, hsleeps 5 _ _ rfl (reaches_steps .start ?_ hsteps) (by decide)⟩
  refine ⟨⟨fun _ => .inr (.inl (by decide)), by simp, by decide⟩, fun x hx => ?_⟩
  cases hx
  refine ⟨⟨fun _ hf => absurd hf List.not_mem_nil, by simp, by decide⟩, fun y hy => ?_⟩
  cases hy
  exact ⟨⟨fun _ => .inl rfl, by simp, by decide⟩, fun _ _ => trivial⟩

/-- Ticks outside the critical places, and `schedule()` with a thread that is ready or goes on
running. -/
def changesOver (s : Kernel) : Event → Bool
  | .tick => (s.stack s.currentThread).all fun f => !f.isCritical
  | .run => s.state s.currentThread = .running || (s.queue .ready).head ≠ none
  | .call _ => false

theorem Fits.of_changesOver (h : changesOver s e = true) : Fits s e := by
  cases e with
  | tick =>
      intro f hf
      simpa using List.all_eq_true.mp h f hf
  | call c => cases h
  | run =>
      intro _
      rcases (Bool.or_eq_true _ _).mp h with hr | hr
      · exact .inl (of_decide_eq_true hr)
      · exact .inr (.inl (of_decide_eq_true hr))

/-- A thread of `bootedKernel` whose wake-up time overflows to 0 runs again after one tick. -/
theorem wakes_at_once {ms : UInt64} (hwake : bootedKernel.timerTicks + ms * pitClockFreq / 1000 = 0)
    (hms : 1 < ms.toNat) : ¬ SleepsFor Fits bootedKernel ms := by
  intro h
  have hne : ms ≠ 0 := by
    rintro rfl
    exact absurd hms (by decide)
  have hcall : Kernel.step 5 (.call (.threadSleepMs ms)) bootedKernel =
      some (sleepUntil 0 bootedKernel) := by
    have hwork : bootedKernel.stack bootedKernel.currentThread = [] := rfl
    have hstep : Kernel.step 5 (.call (.threadSleepMs ms)) bootedKernel =
        some (threadSleepMs ms bootedKernel) := if_pos (e := none) hwork
    rw [hstep, threadSleepMs, if_neg hne, hwake]
  have hrun : (stepsMeeting 5 (fun x e => changesOver x e && decide (x.timerTicks.toNat ≤ 1)) tickLater
      (sleepUntil 0 bootedKernel)).any (fun v => v.timerTicks.toNat ≤ 1 && v.currentThread = 1 &&
        v.state 1 = .running) = true := by
    decide +kernel
  obtain ⟨v, hsteps, hv⟩ := (Option.any_eq_true _ _).mp hrun
  simp only [Bool.and_eq_true, decide_eq_true_eq] at hv
  obtain ⟨⟨hticks, hcur⟩, hstate⟩ := hv
  have hlate : ∀ x ≤ 1, x < bootedKernel.timerTicks.toNat + ms.toNat := by
    intro x hx
    exact Nat.lt_add_left _ (Nat.lt_of_le_of_lt hx hms)
  refine h 5 _ v hcall ?_ (hlate _ hticks) ⟨hcur, hstate⟩
  refine (reaches_stepsMeeting .start hsteps).mono fun x e hP => ?_
  obtain ⟨hchanges, hx⟩ := (Bool.and_eq_true _ _).mp hP
  refine ⟨.of_changesOver hchanges, ?_, hlate _ (of_decide_eq_true hx)⟩
  rintro rfl
  cases hchanges

/-- The product with the frequency overflows to 384: thread 1 runs again after one tick. -/
theorem overflow_wakes : Reaches Fits bootedKernel bootedKernel ∧
    ¬ SleepsFor Fits bootedKernel 18446744073709552 :=
  ⟨.start, wakes_at_once (by decide) (by decide)⟩

end Kernel

end Os003
