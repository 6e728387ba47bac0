import Os003.Kernel.Partition

set_option autoImplicit false

/-! # Turns

How long a thread that is ready waits for its turn. The ready queue gets its newcomers at the end and
`schedule()` takes its first thread, so the threads before a waiting one become fewer with every
call of `schedule()`, whatever is created, woken, put to sleep or killed in between
(`Lengthens`, `Advances`). Every tick ends in such a call: a thread with `p` threads before it has had
its turn, or is dead, when `schedule()` has been called once more than there are threads in `p`.
-/

namespace Os003

open Linked

namespace Kernel

variable {s s' : Kernel} {xs xs' : QueueId → List Addr} {t : Addr} {l p r : List Addr} {f : Frame}
  {k : List Frame} {e : Event} {n : Nat}

/-- The ready queue begins with the threads `l`. -/
def Lengthens (l : List Addr) (s' : Kernel) : Prop :=
  ∃ ns, IsQueue s'.next (s'.queue .ready) (l ++ ns)

/-- A thread of the ready queue `l` has been taken, the first one of those that were there or have come. -/
def Advances (l : List Addr) (s' : Kernel) : Prop :=
  ∃ ns r, l ++ ns = s'.currentThread :: r ∧ IsQueue s'.next (s'.queue .ready) r

theorem Queues.lengthens (h : Queues s' xs') (hl : ∃ ns, xs' .ready = l ++ ns) :
    Lengthens l s' := by
  obtain ⟨ns, hns⟩ := hl
  exact ⟨ns, hns ▸ h.listed .ready⟩

/-- The ready queue has not been touched. -/
theorem Queues.lengthens_self (h : Queues s' xs) : Lengthens (xs .ready) s' :=
  h.lengthens ⟨[], (List.append_nil _).symm⟩

theorem Queues.lengthens_concat (h : Queues s' (Function.update xs' .ready (l ++ [t]))) :
    Lengthens l s' :=
  h.lengthens ⟨[t], Function.update_self _ _ _⟩

/-! ## What the functions do to the ready queue -/

/-- A thread that waits for something else goes into another queue. -/
theorem Running.lengthens_blockOn (h : Running s xs) {q : QueueId} (hq : q ≠ .ready)
    (hf : f.isSwitch = false) : Lengthens (xs .ready)
      (((enqueue q s.currentThread (s.setState s.currentThread .blocked)).push f).push
        .schedule) := by
  refine (h.blockOn hq hf).toQueues.lengthens ⟨[], ?_⟩
  rw [Function.update_of_ne (Ne.symm hq), List.append_nil]

/-- The thread that is woken goes behind those that are ready. -/
theorem Running.lengthens_wakeWaiter (h : Running s xs) {q : QueueId} (hq : q ≠ .ready) :
    Lengthens (xs .ready) (Kernel.wakeWaiter (dequeue q s)) := by
  cases hl : xs q with
  | nil =>
      rw [h.toQueues.dequeue_nil hl]
      exact h.toQueues.lengthens_self
  | cons t r =>
      obtain ⟨hfst, hqueues, hstate⟩ := h.toQueues.dequeue_cons hl
      have hpair : dequeue q s = (some t, (dequeue q s).2) := by rw [← hfst]
      have hplaced := h.toPlaced.wake (p := []) hl hq hqueues hstate (Relinked.dequeue q s).tcbs
      rw [hpair]
      exact hplaced.toQueues.lengthens_concat

/-- The new thread goes behind those that are ready. -/
theorem Running.lengthens_startThread (h : Running s xs) {s1 : Kernel} (hh : Handed s t s1)
    (hq : SameQueues s t s1) (hs : Spare s xs t) (b : Tcb) :
    Lengthens (xs .ready) (Kernel.startThread t b s1) := by
  obtain ⟨-, hq2, -⟩ := registerThread_spec hh hq b
  have hqueues := (h.toQueues.outside hq2 hs.out).threadEnqueue hs.out
  have hstart : Queues (Kernel.startThread t b s1)
      (Function.update xs .ready (xs .ready ++ [t])) := hqueues.congr rfl rfl
  exact hstart.lengthens_concat

theorem Running.lengthens_create (h : Running s xs) {s1 : Kernel} (hh : Handed s t s1)
    (hq : SameQueues s t s1) (hs : Spare s xs t) (b : Tcb) (free : Prop) [Decidable free] :
    Lengthens (xs .ready) (if free then Kernel.freeTcb t s1 else Kernel.startThread t b s1) := by
  split
  · exact Queues.lengthens_self (h.toQueues.outside hq hs.out)
  · exact h.lengthens_startThread hh hq hs b

theorem Running.lengthens_createThread (h : Running s xs) (page : Option Addr)
    (stack size : Nat) (useVmm : Bool) (vmm : Addr) (hpage : ∀ t, page = some t → t ∉ s.tcbs) :
    Lengthens (xs .ready) (Kernel.createThread page stack size useVmm vmm s) := by
  have hoff : Running s.disableInterrupts xs := h.interrupts false
  unfold Kernel.createThread takeTcb
  cases hl : s.disableInterrupts.freeTcbList s.disableInterrupts.numOfFreeTcb with
  | some t =>
      obtain ⟨hh, hq, hs, -⟩ := hoff.popTcb hl
      exact hoff.lengthens_create hh hq hs _ _
  | none =>
      cases page with
      | none => exact hoff.toQueues.lengthens_self
      | some t =>
          obtain ⟨hh, hq, hs⟩ := hoff.allocTcb (hpage t rfl)
          exact hoff.lengthens_create hh hq hs _ _

theorem Running.lengthens_createUserThread (h : Running s xs) (page : Option Addr)
    (kernelStack size : Nat) (vmm : Addr) (hpage : ∀ t, page = some t → t ∉ s.tcbs) :
    Lengthens (xs .ready) (Kernel.createUserThread page kernelStack size vmm s) := by
  have hoff : Running s.disableInterrupts xs := h.interrupts false
  unfold Kernel.createUserThread
  cases page with
  | none => exact hoff.toQueues.lengthens_self
  | some t =>
      obtain ⟨hh, hq, hs⟩ := hoff.allocTcb (hpage t rfl)
      exact hoff.lengthens_create hh hq hs _ _

theorem Running.lengthens_sleepUntil (h : Running s xs) (w : UInt64) :
    Lengthens (xs .ready) (Kernel.sleepUntil w s) := by
  let s1 := s.disableInterrupts.setTcb s.currentThread
    { s.tcb s.currentThread with wakeupTime := w }
  have hnext : s1.next = s.next :=
    (next_setTcb _).trans (Function.update_eq_self s.currentThread s.next)
  have hstate : s1.state = s.state :=
    (state_setTcb _).trans (Function.update_eq_self s.currentThread s.state)
  have h1 : Running s1 xs :=
    h.congr hnext hstate rfl rfl rfl rfl rfl (fun _ _ => rfl) h.working
  exact h1.lengthens_blockOn (q := .sleep) (f := .slept) (by decide) rfl

theorem Running.lengthens_mutexUnlock (h : Running s xs) (m : Addr) :
    Lengthens (xs .ready) (Kernel.mutexUnlock m s) := by
  unfold Kernel.mutexUnlock
  dsimp only
  split
  · exact h.toQueues.lengthens_self
  · have h1 : Running (s.disableInterrupts.setMutex m ⟨false, none⟩) xs :=
      (h.interrupts false).other rfl rfl rfl rfl rfl rfl rfl
    exact h1.lengthens_wakeWaiter (q := .mutex m) (by simp)

theorem Running.lengthens_semPost (h : Running s xs) (m : Addr) :
    Lengthens (xs .ready) (Kernel.semPost m s) := by
  have h1 : Running (s.disableInterrupts.setCount m (s.semCount m + 1)) xs :=
    (h.interrupts false).other rfl rfl rfl rfl rfl rfl rfl
  exact h1.lengthens_wakeWaiter (q := .sem m) (by simp)

/-- What stays of the ready queue `l` when `e` happens: a thread that another one kills leaves it. -/
def staying (l : List Addr) : Event → List Addr
  | .call (.killThread t) => l.erase t
  | _ => l

theorem Running.lengthens_call (h : Running s xs) (c : Call) (hf : Fits s (.call c))
    (hs : Kernel.call n c s = some s') : Lengthens (staying (xs .ready) (.call c)) s' := by
  cases c with
  | createThread page stack size useVmm vmm =>
      cases hs
      exact h.lengthens_createThread page stack size useVmm vmm hf
  | createKernelThread page stack size =>
      cases hs
      exact h.lengthens_createThread page stack (roundUp size) false s.currentVmmDesc hf
  | createUserThread page stack size vmm =>
      cases hs
      exact h.lengthens_createUserThread page stack size vmm hf
  | threadSleepMs ms =>
      cases hs
      unfold threadSleepMs
      split
      · exact h.toQueues.lengthens_self
      · exact h.lengthens_sleepUntil _
  | threadSleepSecond sec =>
      cases hs
      unfold threadSleepSecond
      split
      · exact h.toQueues.lengthens_self
      · exact h.lengthens_sleepUntil _
  | mutexLock m =>
      cases hs
      exact (h.mutexLock m).toQueues.lengthens_self
  | mutexUnlock m =>
      cases hs
      exact h.lengthens_mutexUnlock m
  | semWait m =>
      cases hs
      exact (h.semWait m).toQueues.lengthens_self
  | semPost m =>
      cases hs
      exact h.lengthens_semPost m
  | threadExit =>
      obtain ⟨u, hset, hu, -⟩ := h.threadExit
      rw [hset.result hs]
      exact hu.toQueues.lengthens_self
  | killThread t =>
      obtain ⟨u, hset, hu, -⟩ := h.toQueues.killThread hf.2.1
      rw [hset.result hs]
      exact hu.lengthens ⟨[], by rw [List.append_nil]; exact Function.update_self _ _ _⟩

/-! ## Coming back to `schedule()` -/

/-- The thread that has left is dead when it is killed, so it is in no queue. -/
theorem Running.lengthens_resume (h : Running s xs) (c : Nat) {b : Addr}
    (hprev : s.schedulePrevThread = some b) (hb : b ≠ s.currentThread)
    (hs : Kernel.resume n c s = some s') : Lengthens (xs .ready) s' := by
  let s1 := if c = 0 then s else { s with currentVmmDesc := (s.tcb s.currentThread).vmm }
  have hag : Agrees s s1 := by
    simp only [s1]
    split
    · exact Agrees.refl s
    · exact ⟨rfl, rfl, rfl, rfl, rfl, rfl, rfl, rfl, rfl, rfl⟩
  have hq1 : Queues s1 xs := h.toQueues.congr hag.next hag.queue
  have hprev1 : s1.schedulePrevThread = some b := hag.schedulePrevThread.trans hprev
  have htail : scheduleTail n s1 = some s' := hs
  rw [scheduleTail, hprev1] at htail
  by_cases hdead : s1.state b = .terminated
  · have hdead0 : s.state b = .terminated := by rw [← hag.state]; exact hdead
    have hout : b ∉ xs .ready :=
      h.toPlaced.not_mem (by rw [hdead0]; decide) (by rw [hdead0]; decide) .ready
    obtain ⟨u, hset, hu, -⟩ := hq1.killThread (t := b) (by rw [hag.currentThread]; exact hb)
    obtain ⟨v, hv, hsv⟩ := Option.bind_eq_some_iff.mp ((if_pos hdead).symm.trans htail)
    cases hsv
    rw [hset.result hv]
    have hpush : Queues (u.push .reclaimed) (erased xs b) := hu.congr rfl rfl
    refine hpush.lengthens ⟨[], ?_⟩
    rw [List.append_nil]
    exact (Function.update_self _ _ _).trans (List.erase_of_not_mem hout)
  · cases (if_neg hdead).symm.trans htail
    exact Queues.lengthens_self (hq1.congr rfl rfl)

/-- What a thread does inside a function before it comes to `schedule()` again. -/
theorem Sched.lengthens_runFrame (h : Sched s xs) (hk : s.stack s.currentThread = f :: k)
    (hf : f ≠ .schedule) (hs : Kernel.runFrame n f (s.setStack s.currentThread k) = some s') :
    Lengthens (xs .ready) s' := by
  have h0 := h.pop hk hf
  cases f with
  | schedule => exact absurd rfl hf
  | switchTo c b =>
      obtain ⟨a, hprev, -, hac, -⟩ := h.pending c b k hk
      exact h0.lengthens_resume c hprev hac hs
  | reclaimed =>
      cases hs
      exact Queues.lengthens_self (h0.toQueues.congr rfl rfl)
  | irq0 =>
      cases hs
      exact (h0.interrupts true).toQueues.lengthens_self
  | lockTest m =>
      cases hs
      unfold Kernel.lockTest
      split
      · exact h0.lengthens_blockOn (q := .mutex m) (f := .lockTest m) (by simp) rfl
      · exact (h0.push rfl).toQueues.lengthens_self
  | lockTake m =>
      cases hs
      exact (h0.lockTake m).toQueues.lengthens_self
  | waitTest m =>
      cases hs
      unfold Kernel.waitTest
      split
      · exact h0.lengthens_blockOn (q := .sem m) (f := .waitTest m) (by simp) rfl
      · exact (h0.push rfl).toQueues.lengthens_self
  | waitTake m =>
      cases hs
      exact (h0.waitTake m).toQueues.lengthens_self
  | slept =>
      cases hs
      exact (h0.interrupts true).toQueues.lengthens_self
  | stop =>
      cases hs
      exact (h0.push rfl).toQueues.lengthens_self

/-! ## schedule -/

/-- A current thread that goes on running goes behind those that are ready. -/
theorem Core.lengthens_putBack (h : Core s xs) :
    ∃ ns, Placed (Kernel.putBack s) (Function.update xs .ready (xs .ready ++ ns)) ∧
      Relinked s (Kernel.putBack s) := by
  obtain ⟨ys, hplaced, hrel, -⟩ := h.putBack
  by_cases hrun : s.state s.currentThread = .running
  · have hput : Kernel.putBack s =
        threadEnqueue s.currentThread (s.setState s.currentThread .ready) := if_pos hrun
    have hout : ∀ q, s.currentThread ∉ xs q := fun q =>
      h.toPlaced.not_mem (by rw [hrun]; decide) (by rw [hrun]; decide) q
    have hq : Queues (Kernel.putBack s)
        (Function.update xs .ready (xs .ready ++ [s.currentThread])) := by
      rw [hput]
      exact (h.toQueues.congr (next_setState _) rfl).threadEnqueue hout
    exact ⟨[s.currentThread], hq.unique hplaced.toQueues ▸ hplaced, hrel⟩
  · have hput : Kernel.putBack s = s := if_neg hrun
    rw [hput]
    refine ⟨[], ?_, Relinked.refl s⟩
    rw [List.append_nil, Function.update_eq_self]
    exact h.toPlaced

/-- `schedule()` takes the first thread of the ready queue, behind which the current thread and the
sleepers that are due have been put. -/
theorem Core.advances (h : Core s xs) (hf : FindsReady s)
    (hs : Kernel.schedule n s = some s') : Advances (xs .ready) s' := by
  obtain ⟨ns, hplaced1, hrel1⟩ := h.lengthens_putBack
  obtain ⟨s2, ys, t, r, hwake, hwoken, htr, -⟩ := h.wake hf
  -- the ready queue when the sleepers have been woken
  obtain ⟨s3, hrun3, -, hplaced3, -⟩ := wakeLoop_spec (p := []) hplaced1 (List.nil_append _).symm
  rw [← (hplaced1.listed .sleep).head] at hrun3
  obtain ⟨m, hm⟩ := hwake.ends
  obtain rfl : s2 = s3 := hrun3.result hm
  have hlists := hwoken.toQueues.unique hplaced3.toQueues
  have hready : ∃ ws, t :: r = xs .ready ++ ws := by
    rw [← htr, hlists, Function.update_self, Function.update_self, List.append_assoc]
    exact ⟨_, rfl⟩
  obtain ⟨ws, hws⟩ := hready
  obtain ⟨hcore, hstate, -⟩ := h.choose hwoken htr
  have hq4 := (hcore.listed .ready)
  rw [Function.update_self] at hq4
  -- whichever way `schedule()` goes on, the ready queue stays as it is
  by_cases hct : s.currentThread = t
  · have hset := schedule_eq hwake hwoken htr
      (u := { Kernel.choose t s.currentThread s2 with schedulePrevThread := none }) fun i => by
        rw [if_neg (not_not.mpr hct)]
        show (if (Kernel.choose t s.currentThread s2).state s.currentThread = .terminated
          then _ else _) = _
        rw [if_neg (by rw [hstate, hct, Function.update_self]; decide)]
    rw [hset.result hs]
    exact ⟨ws, r, hws.symm, hq4⟩
  · have hset := schedule_eq hwake hwoken htr fun i => if_pos hct
    rw [hset.result hs]
    exact ⟨ws, r, hws.symm, hq4⟩

/-! ## Steps -/

/-- The current thread stands at a call of `schedule()`. -/
def atSchedule (s : Kernel) : Bool := (s.stack s.currentThread).head? = some .schedule

/-- The event carries out a call of `schedule()`. -/
def callsSchedule (s : Kernel) (e : Event) : Bool := e = .run && s.atSchedule

theorem atSchedule_iff : s.atSchedule = true ↔ ∃ k, s.stack s.currentThread = .schedule :: k := by
  rw [atSchedule, decide_eq_true_eq, List.head?_eq_some_iff]

theorem step_tick (h : s.interrupts = true) : Kernel.step n .tick s = some (tick s) := if_pos h

/-- At a call of `schedule()` nothing else can happen than this call. -/
theorem calls_of_atSchedule (hat : s.atSchedule = true) (hf : Fits s e)
    (hs : Kernel.step n e s = some s') : s.callsSchedule e = true := by
  obtain ⟨k, hk⟩ := atSchedule_iff.mp hat
  cases e with
  | tick => cases hf .schedule (by rw [hk]; exact List.mem_cons_self)
  | call c =>
      have hnil : s.stack s.currentThread = [] := enabled_of_step hs
      cases hk.symm.trans hnil
  | run => simp [callsSchedule, hat]

theorem Sched.step_advances (h : Sched s xs) (hf : Fits s e) (hs : Kernel.step n e s = some s')
    (hc : s.callsSchedule e = true) : Advances (xs .ready) s' := by
  obtain ⟨he, hat⟩ := Bool.and_eq_true_iff.mp hc
  obtain rfl : e = .run := of_decide_eq_true he
  obtain ⟨k, hk⟩ := atSchedule_iff.mp hat
  obtain ⟨f, k', hk', hrun⟩ := runFrame_of_step hs
  obtain ⟨rfl, rfl⟩ := List.cons.inj (hk.symm.trans hk')
  exact (h.atSchedule hk).1.advances (hf ⟨k, hk⟩) hrun

theorem Sched.step_lengthens (h : Sched s xs) (hf : Fits s e) (hs : Kernel.step n e s = some s')
    (hc : s.callsSchedule e = false) : Lengthens (staying (xs .ready) e) s' := by
  have he := enabled_of_step hs
  cases e with
  | tick =>
      rw [Option.some.inj (hs.symm.trans (step_tick he))]
      exact (h.runningOfTick hf).tick.toQueues.lengthens_self
  | call c => exact (h.runningOfCall he).lengthens_call c hf ((if_pos he).symm.trans hs)
  | run =>
      obtain ⟨f, k, hk, hrun⟩ := runFrame_of_step hs
      refine h.lengthens_runFrame hk ?_ hrun
      rintro rfl
      have hcalls : s.callsSchedule .run = true := by
        simp [callsSchedule, atSchedule_iff.mpr ⟨k, hk⟩]
      rw [hcalls] at hc
      cases hc

/-- A thread that has been killed is not ready. -/
theorem Sched.state_killed (h : Sched s xs) (hf : Fits s (.call (.killThread t)))
    (hs : Kernel.step n (.call (.killThread t)) s = some s') : s'.state t = .terminated := by
  have he := enabled_of_step hs
  obtain ⟨u, hset, -, hkill⟩ := (h.runningOfCall he).toQueues.killThread hf.2.1
  rw [hset.result ((if_pos he).symm.trans hs), hkill.state, Function.update_self]

/-! ## Turns -/

/-- When another thread leaves, at most one thread less is before `t`. -/
theorem erase_middle {v : Addr} (hv : v ≠ t) :
    ∃ p' r', (p ++ t :: r).erase v = p' ++ t :: r' ∧ p'.length ≤ p.length := by
  by_cases hp : v ∈ p
  · refine ⟨p.erase v, r, List.erase_append_left _ hp, ?_⟩
    exact List.length_erase_le
  · refine ⟨p, r.erase v, ?_, le_rfl⟩
    rw [List.erase_append_right _ hp, List.erase_cons_tail (by simpa using Ne.symm hv)]

/-- When the first thread is taken and `t` stays, one thread less is before `t`. -/
theorem Advances.middle (h : Advances (p ++ t :: r) s') (ht : t ≠ s'.currentThread) :
    ∃ p' r', IsQueue s'.next (s'.queue .ready) (p' ++ t :: r') ∧ p'.length + 1 = p.length := by
  obtain ⟨ns, l, heq, hq⟩ := h
  cases p with
  | nil => exact absurd (List.cons.inj heq).1 ht
  | cons a p =>
      obtain ⟨-, hl⟩ := List.cons.inj heq
      refine ⟨p, r ++ ns, ?_, rfl⟩
      rw [← hl] at hq
      simpa using hq

theorem Lengthens.middle (h : Lengthens (staying (p ++ t :: r) e) s')
    (he : e ≠ .call (.killThread t)) :
    ∃ p' r', IsQueue s'.next (s'.queue .ready) (p' ++ t :: r') ∧ p'.length ≤ p.length := by
  obtain ⟨ns, hq⟩ := h
  have hstay : ∃ p' r', staying (p ++ t :: r) e = p' ++ t :: r' ∧ p'.length ≤ p.length := by
    unfold staying
    split
    · rename_i v
      exact erase_middle fun hv => he (by rw [hv])
    · exact ⟨p, r, rfl, le_rfl⟩
  obtain ⟨p', r', heq, hlen⟩ := hstay
  rw [heq, List.append_assoc] at hq
  exact ⟨p', r' ++ ns, hq, hlen⟩

/-- How often `schedule()` has been called, and the number of ticks. -/
structure Turns where
  calls : Nat
  ticks : Nat
  deriving DecidableEq, Repr

def Turns.none : Turns := ⟨0, 0⟩

def Turns.after (c : Turns) (s : Kernel) (e : Event) : Turns where
  calls := if s.callsSchedule e then c.calls + 1 else c.calls
  ticks := if e = .tick then c.ticks + 1 else c.ticks

/-- The step fits, and the thread is ready before it. -/
def Awaits (t : Addr) (s : Kernel) (e : Event) : Prop := Fits s e ∧ s.state t = .ready

/-- The thread `t` of the ready queue has used up as many of its `bound` places as there have been calls
of `schedule()`; each tick but the last one has led to a call. -/
structure Ahead (bound : Nat) (t : Addr) (s : Kernel) (c : Turns) : Prop where
  place : ∃ p r, IsQueue s.next (s.queue .ready) (p ++ t :: r) ∧ c.calls + p.length ≤ bound
  ticks : c.ticks ≤ c.calls + if s.atSchedule then 1 else 0

theorem Ahead.step {bound : Nat} {c : Turns} (h : Sched s xs) (ha : Ahead bound t s c)
    (hf : Fits s e) (hs : Kernel.step n e s = some s') (hcur : t ≠ s'.currentThread)
    (ht : s'.state t = .ready) : Ahead bound t s' (c.after s e) := by
  obtain ⟨⟨p, r, hq, hlen⟩, hticks⟩ := ha
  have hready := (h.listed .ready).unique hq
  cases hc : s.callsSchedule e with
  | true =>
      have hadv := h.step_advances hf hs hc
      rw [hready] at hadv
      obtain ⟨p', r', hq', hlen'⟩ := hadv.middle hcur
      have hnot : e ≠ .tick := by
        rintro rfl
        simp [callsSchedule] at hc
      refine ⟨⟨p', r', hq', ?_⟩, ?_⟩
      · simp only [Turns.after, hc, if_true]
        omega
      · simp only [Turns.after, hc, if_true, if_neg hnot]
        split at hticks <;> omega
  | false =>
      have hlong := h.step_lengthens hf hs hc
      rw [hready] at hlong
      have hkill : e ≠ .call (.killThread t) := by
        rintro rfl
        cases (h.state_killed hf hs).symm.trans ht
      obtain ⟨p', r', hq', hlen'⟩ := hlong.middle hkill
      have hat : s.atSchedule = false := by
        by_contra hat
        rw [calls_of_atSchedule (Bool.not_eq_false _ ▸ hat) hf hs] at hc
        cases hc
      rw [hat, if_neg Bool.false_ne_true] at hticks
      refine ⟨⟨p', r', hq', ?_⟩, ?_⟩
      · simp only [Turns.after, hc, Bool.false_eq_true, if_false]
        omega
      · simp only [Turns.after, hc, Bool.false_eq_true, if_false]
        by_cases he : e = .tick
        · subst he
          -- the tick stands at a call of `schedule()`
          have hat' : s'.atSchedule = true := by
            rw [Option.some.inj (hs.symm.trans (step_tick (enabled_of_step hs)))]
            exact atSchedule_iff.mpr ⟨_, Function.update_self _ _ _⟩
          rw [hat', if_pos rfl, if_pos rfl]
          omega
        · rw [if_neg he]
          split <;> omega

/-- The current thread is not READY. -/
theorem Sched.current_not_ready (h : Sched s xs) : s.state s.currentThread ≠ .ready := by
  rcases h.currentState with hr | ⟨hne, -⟩
  · rw [hr]
    decide
  · exact hne

/-- As long as a thread with `p.length` threads before it stays ready, `schedule()` is called at most
that often: the thread gets its turn at the next call, before the tick after the next one, whatever the
threads do in the meantime. -/
theorem turn_within (h0 : ∃ xs, Sched s xs) (hq : IsQueue s.next (s.queue .ready) (p ++ t :: r))
    {c : Turns} (h : Traces (Awaits t) Turns.after s Turns.none s' c)
    (ht : s'.state t = .ready) : c.calls ≤ p.length ∧ c.ticks ≤ p.length + 1 := by
  have hinv : (∃ ys, Sched s' ys) ∧ (s'.state t = .ready → Ahead p.length t s' c) := by
    refine h.invariant (I := fun u c => (∃ ys, Sched u ys) ∧
      (u.state t = .ready → Ahead p.length t u c)) ⟨h0, fun _ => ⟨⟨p, r, hq, ?_⟩, ?_⟩⟩ ?_
    · simp [Turns.none]
    · simp [Turns.none]
    · rintro u v d e n ⟨⟨ys, hu⟩, hahead⟩ ⟨hf, hready⟩ hs
      obtain ⟨v', zs, hset, hv, -⟩ := hu.step (enabled_of_step hs) hf
      obtain rfl := hset.result hs
      refine ⟨⟨zs, hv⟩, fun hnext => (hahead hready).step hu hf hs ?_ hnext⟩
      rintro rfl
      exact hv.current_not_ready hnext
  obtain ⟨⟨p', r', -, hlen⟩, hticks⟩ := hinv.2 ht
  refine ⟨by omega, ?_⟩
  split at hticks <;> omega

/-- The kernel after the start and the creation of the thread 3: the idle thread 2 is before it. -/
def waitingKernel : Kernel :=
  createThread (some 3) 12288 4096 false 7
    (initMultitasking 1 2 4096 8192 0 (fun _ => ⟨0, false⟩) 7 fun _ => 0)

/-- One call of `schedule()` and two ticks, and the thread 3 is still waiting. -/
theorem turn_within_waiting : ∃ s' c, Traces (Awaits 3) Turns.after waitingKernel Turns.none s' c ∧
    c = ⟨1, 2⟩ ∧ c.calls ≤ [2].length ∧ c.ticks ≤ [2].length + 1 := by
  have hstarted : ∃ xs, Booted 2
      (initMultitasking 1 2 4096 8192 0 (fun _ => ⟨0, false⟩) 7 fun _ => 0) xs :=
    booted_initMultitasking (by decide) (by decide)
  obtain ⟨xs, hboot⟩ := hstarted
  obtain ⟨ys, hcreated, -⟩ := (hboot.sched.runningOfCall (hboot.stack _)).createThread (some 3)
    12288 4096 false 7 (by rintro t ⟨⟩; decide)
  -- the idle thread has its turn between the two ticks
  have hval : (Kernel.step 3 .run (tick waitingKernel)).map
      (fun u => (u.interrupts, u.stack u.currentThread, u.state 3)) =
        some (true, [], .ready) := by decide +kernel
  obtain ⟨u, hu, hvals⟩ := Option.map_eq_some_iff.mp hval
  obtain ⟨hint, hrest⟩ := Prod.mk.inj hvals
  obtain ⟨hstack, hready⟩ := Prod.mk.inj hrest
  have hon : waitingKernel.interrupts = true := by decide
  have hfirst : Kernel.step 3 .tick waitingKernel = some (tick waitingKernel) := step_tick hon
  have hlast : Kernel.step 3 .tick u = some (tick u) := step_tick hint
  have hfits1 : Fits waitingKernel .tick := by
    have hnil : waitingKernel.stack waitingKernel.currentThread = [] := by decide
    simp [Fits, hnil]
  have hfits2 : Fits (tick waitingKernel) .run := fun _ => .inr (.inl (by decide))
  have hfits3 : Fits u .tick := by simp [Fits, hstack]
  have htrace : Traces (Awaits 3) Turns.after waitingKernel Turns.none (tick u) ⟨1, 2⟩ := by
    have h1 : Traces (Awaits 3) Turns.after waitingKernel Turns.none (tick waitingKernel)
        (Turns.none.after waitingKernel .tick) := .step .start ⟨hfits1, by decide⟩ hfirst
    exact (h1.step ⟨hfits2, by decide⟩ hu).step ⟨hfits3, hready⟩ hlast
  refine ⟨tick u, ⟨1, 2⟩, htrace, rfl, turn_within (p := [2]) (r := []) ⟨ys, hcreated.sched⟩ ?_ htrace
    hready⟩
  exact ⟨⟨rfl, rfl, rfl⟩, rfl⟩

end Kernel

end Os003
