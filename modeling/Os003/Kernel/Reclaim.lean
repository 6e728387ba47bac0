import Os003.Kernel.Pool

set_option autoImplicit false

/-! # Reclaiming a thread that has ended

`thread_exit` leaves the memory of the thread to the end of `schedule()` in the thread that it leaves
for. A thread that runs for the first time does not get there: it starts at its entry, and its own
call of `schedule()` overwrites `schedule_prev_thread`, so the thread before it is never passed to
`KillThread` (`exited_forgotten`). When each ending thread leaves for one that has already started,
the first thing that happens there is the call of `KillThread` (`exited_reclaimed`).
-/

namespace Os003

open Linked

namespace Kernel

variable {s s' u : Kernel} {xs : QueueId → List Addr} {t main idle : Addr} {n : Nat}
  {P : Kernel → Event → Prop}

/-- The call that gives the kernel stack of the thread back. -/
def stackCall (s : Kernel) (t : Addr) : MmCall :=
  let b := s.tcb t
  if b.useVmm then
    if (s.vmms b.vmm).isUser then .pmmFree b.kernelStack b.stackSize
    else if kernelVirtualMemoryStart ≤ b.kernelStack then .vmmFree b.kernelStack b.stackSize
    else .pmmFree b.kernelStack (b.stackSize / pageSize)
  else .pmmFree b.kernelStack (b.stackSize / pageSize)

/-- In the event, which leads to `u`, `KillThread` is called on the thread; then the call for its stack
has been made, and its entry in the table is cleared. -/
def Reclaims (s : Kernel) (e : Event) (u : Kernel) (t : Addr) : Prop :=
  victim s e = some t ∧ u.tort (s.tcb t).positionInTable = none ∧
    ((s.tcb t).kernelStack ≠ 0 → stackCall s t ∈ u.mmCalls)

instance (s : Kernel) (e : Event) (u : Kernel) (t : Addr) : Decidable (Reclaims s e u t) :=
  inferInstanceAs (Decidable (_ ∧ _))

/-- The thread that the event reclaims, with the call for its stack. -/
def reclaimedBy (s : Kernel) (e : Event) (u : Kernel) : List (Addr × MmCall) :=
  match victim s e with
  | some t => if Reclaims s e u t then [(t, stackCall s t)] else []
  | none => []

/-- The runs from `s` whose steps meet `P`, with the threads that are reclaimed in them. -/
inductive KillRun (P : Kernel → Event → Prop) (s : Kernel) :
    Kernel → List (Addr × MmCall) → Prop
  | start : KillRun P s s []
  | step {t u : Kernel} {r : List (Addr × MmCall)} {e : Event} {n : Nat} (h : KillRun P s t r)
      (hP : P t e) (hs : Kernel.step n e t = some u) : KillRun P s u (reclaimedBy t e u ++ r)

/-- The current thread of `s` calls `thread_exit` and is left for the current thread of `s1`; in `s3` that
thread has gone through a later call of `schedule()`, and the threads `r` have been reclaimed. -/
inductive Exits (P : Kernel → Event → Prop) (s s1 s3 : Kernel) (r : List (Addr × MmCall)) : Prop
  | mk {u s2 : Kernel} {q : List (Addr × MmCall)} {l m n : Nat}
      (hcall : P s (.call .threadExit)) (hexit : Kernel.step l (.call .threadExit) s = some u)
      (hP : P u .run)
      (hleave : Kernel.step m .run u = some s1) (hrun : KillRun P s1 s2 q)
      (hcur : s2.currentThread = s1.currentThread)
      (hagain : (s2.stack s2.currentThread).head? = some .schedule)
      (hstep : Kernel.step n .run s2 = some s3) (hr : r = reclaimedBy s2 .run s3 ++ q)

/-- A thread that has ended leaves for one that has already started. -/
def LeavesForStarted (s : Kernel) (e : Event) : Prop :=
  e = .run → (s.stack s.currentThread).head? = some .schedule →
    s.state s.currentThread = .terminated → ∃ u ∈ (s.queue .ready).head, s.stack u ≠ []

instance (s : Kernel) (e : Event) : Decidable (LeavesForStarted s e) :=
  inferInstanceAs (Decidable (_ → _ → _ → _))

/-! ## KillThread -/

theorem stackCall_eq (htcb : ((s'.tcb t).kernelStack, (s'.tcb t).fixed) =
      ((s.tcb t).kernelStack, (s.tcb t).fixed)) (hvmms : s'.vmms = s.vmms) :
    stackCall s' t = stackCall s t := by
  obtain ⟨hstack, hfixed⟩ := Prod.mk.inj htcb
  obtain ⟨_, hsize, _, huse, hvmm⟩ := fixed_fields hfixed
  simp only [stackCall, hstack, hsize, huse, hvmm, hvmms]

theorem Relinked.stackCall (h : Relinked s s') (t : Addr) :
    Kernel.stackCall s' t = Kernel.stackCall s t := by
  refine stackCall_eq ?_ ?_
  · rw [h.tcb t]
    rfl
  · rw [h.rest]

theorem mmCalls_switchVirtualManager (v : Addr) :
    (switchVirtualManager v s).2.mmCalls = s.mmCalls := by
  unfold switchVirtualManager
  split <;> rfl

/-- The call for the stack is made unless there is none. -/
theorem mmCalls_releaseMemory (h : (s.tcb t).kernelStack ≠ 0) :
    stackCall s t ∈ (releaseMemory t s).mmCalls := by
  unfold releaseMemory stackCall
  dsimp only
  split
  · rw [mmCalls_switchVirtualManager]
    have hvmms : ((switchVirtualManager (s.tcb t).vmm s).2.mmCall
        (.vmmFreeRecords (s.tcb t).vmm)).vmms = s.vmms :=
      congrArg Books.vmms (books_switchVirtualManager (s := s) (s.tcb t).vmm)
    rw [hvmms]
    split
    · exact List.mem_cons_self
    · split <;> exact List.mem_cons_self
  · exact List.mem_cons_self

theorem reclaims_killThread (hr : killThread n t s = some s') (hc : t ≠ s.currentThread) :
    s'.tort (s.tcb t).positionInTable = none ∧
      ((s.tcb t).kernelStack ≠ 0 → stackCall s t ∈ s'.mmCalls) := by
  obtain ⟨s1, s2, h1, h2, rfl⟩ := killThread_cases hr hc
  have hpool : (poolTcb t s2).mmCalls = s2.mmCalls ∧
      (poolTcb t s2).tort = Function.update s2.tort (s2.tcb t).positionInTable none := by
    unfold poolTcb
    dsimp only
    split <;> exact ⟨rfl, rfl⟩
  refine ⟨?_, fun hstack => ?_⟩
  · have hbooks : s2.books = s.books := by
      rw [h2.books, books_releaseMemory, h1.books, books_disableInterrupts]
    have hfixed : (s2.tcb t).fixed = (s.tcb t).fixed :=
      congrFun (congrArg Books.fixed hbooks) t
    show (poolTcb t s2).tort _ = none
    rw [hpool.2, (fixed_fields hfixed).2.2.1, Function.update_self]
  · have hstack1 : (s1.tcb t).kernelStack ≠ 0 := by
      rw [h1.tcb t]
      exact hstack
    have hmade := mmCalls_releaseMemory hstack1
    rw [h1.stackCall t] at hmade
    show stackCall s t ∈ (poolTcb t s2).mmCalls
    rw [hpool.1, h2.rest]
    exact hmade

/-- A thread that comes back from `switch_to` reclaims the one before it, if that has ended. -/
theorem reclaims_resume {c : Nat} {b : Bool} {k : List Frame} {p : Addr}
    (hk : s.stack s.currentThread = .switchTo c b :: k) (hprev : s.schedulePrevThread = some p)
    (hdead : s.state p = .terminated) (hc : p ≠ s.currentThread)
    (hs : Kernel.step n .run s = some s') : Reclaims s .run s' p := by
  have hr : resume n c (s.setStack s.currentThread k) = some s' := by
    simpa only [Kernel.step, hk, runFrame] using hs
  unfold resume at hr
  generalize hs1 : (if c = 0 then s.setStack s.currentThread k else
    { s.setStack s.currentThread k with
      currentVmmDesc := ((s.setStack s.currentThread k).tcb
        (s.setStack s.currentThread k).currentThread).vmm }) = s1 at hr
  have hsame : s1.tcb = s.tcb ∧ s1.schedulePrevThread = s.schedulePrevThread ∧
      s1.currentThread = s.currentThread ∧ s1.vmms = s.vmms := by
    rw [← hs1]
    split <;> exact ⟨rfl, rfl, rfl, rfl⟩
  obtain ⟨htcb, hprev1, hcur1, hvmms⟩ := hsame
  have hdead1 : s1.state p = .terminated := by
    unfold state
    rw [htcb]
    exact hdead
  unfold scheduleTail at hr
  simp only [hprev1, hprev, hdead1, if_true] at hr
  obtain ⟨s2, h2, hr⟩ := Option.bind_eq_some_iff.mp hr
  cases hr
  obtain ⟨hentry, hcall⟩ := reclaims_killThread h2 (by rw [hcur1]; exact hc)
  have hstackCall : stackCall s1 p = stackCall s p := stackCall_eq (by rw [htcb]) hvmms
  refine ⟨?_, ?_, fun hstack => ?_⟩
  · simp [victim, hk, reclaimed, hprev, hdead, Option.filter]
  · rw [← htcb]
    exact hentry
  · rw [← hstackCall]
    exact hcall (htcb ▸ hstack)

/-! ## Leaving -/

/-- The thread `p` has ended, and the current thread has been left for by it and stands in `switch_to`. -/
structure Left (p : Addr) (s : Kernel) : Prop where
  away : ∃ c b k, s.stack s.currentThread = .switchTo c b :: k
  prev : s.schedulePrevThread = some p
  dead : s.state p = .terminated
  other : p ≠ s.currentThread

/-- A thread that ends and leaves for one that has started. -/
theorem Sched.left {s1 : Kernel} {l m : Nat} (h : Sched s xs) (haway : Away s)
    (hexit : Kernel.step l (.call .threadExit) s = some u) (hfit : Fits u .run)
    (hstarted : LeavesForStarted u .run) (hleave : Kernel.step m .run u = some s1) :
    Left s.currentThread s1 ∧ stackCall s1 s.currentThread = stackCall s s.currentThread := by
  have hnil := enabled_of_step hexit
  have hR := h.runningOfCall hnil
  have hcall : Kernel.threadExit l s = some u := (if_pos hnil).symm.trans hexit
  obtain ⟨w, hw, rfl⟩ := threadExit_cases hcall
  obtain ⟨u, hset, hSu, hl⟩ := hR.threadExit
  rw [← hset.result hcall] at hSu hl
  generalize hu : (w.push .stop).push .schedule = u at *
  have hcur : u.currentThread = s.currentThread := hl.currentThread
  have hdead : u.state u.currentThread = .terminated := by
    rw [hl.state, hcur]
    exact Function.update_self _ _ _
  have hk : u.stack u.currentThread = .schedule :: .stop :: s.stack s.currentThread := by
    rw [hl.stack, hcur]
    exact Function.update_self _ _ _
  have hstackU : ∀ t, t ≠ s.currentThread → u.stack t = s.stack t := by
    intro t ht
    rw [hl.stack]
    exact Function.update_of_ne ht _ _
  let popped := u.setStack u.currentThread (.stop :: s.stack s.currentThread)
  have hrun : Kernel.schedule m popped = some s1 := by
    simpa only [Kernel.step, hk, Kernel.runFrame] using hleave
  obtain ⟨hcore, hworking⟩ := hSu.atSchedule hk
  obtain ⟨_, _, hset1, _, hsw, _⟩ := hcore.schedule hworking (hfit ⟨_, hk⟩)
  rw [← hset1.result hrun] at hsw
  obtain ⟨v, hhead, hstack⟩ := hstarted rfl (by rw [hk]; rfl) hdead
  -- a thread in the ready queue is not the one that has ended
  have hready : u.state v = .ready :=
    ((hSu.ready_iff v).mp (List.mem_of_head? ((hSu.listed .ready).head.symm.trans hhead))).2
  have hv : s.currentThread ≠ v := by
    intro hv
    rw [hcur, hv, hready] at hdead
    cases hdead
  obtain ⟨x, next, hx, hfirst, _, hcases⟩ := schedule_cases hrun
  obtain rfl := hfirst v hhead
  have hpopped : popped.currentThread = s.currentThread := hcur
  rw [hpopped] at hcases
  obtain ⟨_, rfl⟩ := hcases.resolve_right fun h => hv h.1
  refine ⟨⟨?_, rfl, ?_, hv⟩, ?_⟩
  · have hstackNext : u.stack next = s.stack next := by
      rw [hl.stack]
      exact Function.update_of_ne hv.symm _ _
    rcases haway next hv.symm with hnext | ⟨c, b, k, hnext⟩
    · exact absurd (hstackNext.trans hnext) hstack
    · refine ⟨c, b, k, ?_⟩
      show Function.update x.stack s.currentThread _ next = _
      rw [Function.update_of_ne hv.symm, hx.stack, ← hnext, ← hstackNext]
      exact Function.update_of_ne (hcur ▸ hv.symm) _ _
  · exact (hsw.dead s.currentThread).mpr (hcur ▸ hdead)
  · have hpoppedTcb : popped.tcb = w.tcb := by
      show u.tcb = w.tcb
      rw [← hu]
      rfl
    have hpoppedVmms : popped.vmms = w.vmms := by
      show u.vmms = w.vmms
      rw [← hu]
      rfl
    have htcb : ∀ t, ((x.tcb t).kernelStack, (x.tcb t).fixed) =
        ((s.tcb t).kernelStack, (s.tcb t).fixed) := by
      intro t
      rw [hx.tcb t, hpoppedTcb, hw.tcb t]
      rfl
    have hvmms : x.vmms = s.vmms := by
      rw [hx.rest, hpoppedVmms, hw.rest]
      rfl
    refine stackCall_eq ((Prod.ext ?_ ?_).trans (htcb s.currentThread)) hvmms
    · show (Function.update x.tcb next _ s.currentThread).kernelStack = _
      rw [Function.update_of_ne hv]
    · show (Function.update x.tcb next _ s.currentThread).fixed = _
      rw [Function.update_of_ne hv]

/-- A thread that has been left for by a thread that has ended reclaims that thread first of all. -/
theorem Left.reclaims {p : Addr} {e : Event} (h : Left p s) (hfit : Fits s e)
    (hs : Kernel.step n e s = some s') : (p, stackCall s p) ∈ reclaimedBy s e s' := by
  obtain ⟨c, b, k, hk⟩ := h.away
  have hen := enabled_of_step hs
  cases e with
  | tick => cases hfit _ (hk ▸ List.mem_cons_self)
  | call c => cases hk.symm.trans hen
  | run =>
      have hr := reclaims_resume hk h.prev h.dead h.other hs
      unfold reclaimedBy
      rw [hr.1]
      dsimp only
      rw [if_pos hr]
      exact List.mem_cons_self

/-- In a run from such a state either nothing has happened yet or the thread has been reclaimed. -/
theorem Left.killRun {p : Addr} {r : List (Addr × MmCall)} (h : Left p s)
    (hP : ∀ t e, P t e → Fits t e) (hrun : KillRun P s s' r) :
    s' = s ∨ (p, stackCall s p) ∈ r := by
  induction hrun with
  | start => exact .inl rfl
  | step _ he hs ih =>
      refine .inr (List.mem_append.mpr ?_)
      rcases ih with rfl | ih
      · exact .inl (h.reclaims (hP _ _ he) hs)
      · exact .inr ih

/-! ## Runs -/

theorem KillRun.reaches {r : List (Addr × MmCall)} (h : KillRun P s s' r) : Reaches P s s' := by
  induction h with
  | start => exact .start
  | step _ he hs ih => exact ih.step he hs

/-- The steps of an orderly run fit. -/
theorem Orderly.killRun {Q : Kernel → Event → Prop} {r : List (Addr × MmCall)}
    (h : Orderly idle s xs) (hQ : ∀ t e, Q t e → orderly idle t e = true ∧ P t e)
    (hrun : KillRun Q s s' r) :
    KillRun (fun s e => Fits s e ∧ P s e) s s' r ∧ ∃ xs', Orderly idle s' xs' := by
  induction hrun with
  | start => exact ⟨.start, xs, h⟩
  | step _ he hs ih =>
      obtain ⟨hrun, xs', hO⟩ := ih
      obtain ⟨horderly, hP⟩ := hQ _ _ he
      exact ⟨hrun.step ⟨hO.fits horderly (enabled_of_step hs), hP⟩ hs, hO.step horderly hs⟩

theorem Orderly.exits {Q : Kernel → Event → Prop} {r : List (Addr × MmCall)} {s1 s3 : Kernel}
    (h : Orderly idle s xs) (hQ : ∀ t e, Q t e → orderly idle t e = true ∧ P t e)
    (he : Exits Q s s1 s3 r) : Exits (fun s e => Fits s e ∧ P s e) s s1 s3 r := by
  obtain ⟨hcall, hexit, hP, hleave, hrun, hcur, hagain, hstep, hr⟩ := he
  obtain ⟨_, hO⟩ := h.step (hQ _ _ hcall).1 hexit
  obtain ⟨_, hO1⟩ := hO.step (hQ _ _ hP).1 hleave
  exact ⟨⟨h.fits (hQ _ _ hcall).1 (enabled_of_step hexit), (hQ _ _ hcall).2⟩, hexit,
    ⟨hO.fits (hQ _ _ hP).1 (enabled_of_step hleave), (hQ _ _ hP).2⟩, hleave,
    (hO1.killRun hQ hrun).1, hcur, hagain, hstep, hr⟩

/-- The events one after the other with the threads that are reclaimed, as long as each meets `p` where
it happens. -/
def killSteps (fuel : Nat) (p : Kernel → Event → Bool) :
    List Event → Kernel × List (Addr × MmCall) → Option (Kernel × List (Addr × MmCall))
  | [], x => some x
  | e :: es, (s, r) =>
      if p s e then
        (Kernel.step fuel e s).bind fun u => killSteps fuel p es (u, reclaimedBy s e u ++ r)
      else none

theorem killRun_killSteps {fuel : Nat} {p : Kernel → Event → Bool} {es : List Event}
    {r : List (Addr × MmCall)} {x : Kernel × List (Addr × MmCall)}
    (h : KillRun (fun s e => p s e = true) s u r) (hs : killSteps fuel p es (u, r) = some x) :
    KillRun (fun s e => p s e = true) s x.1 x.2 := by
  induction es generalizing u r with
  | nil =>
      cases hs
      exact h
  | cons e es ih =>
      unfold killSteps at hs
      split at hs
      · rename_i hp
        obtain ⟨v, hv, hs⟩ := Option.bind_eq_some_iff.mp hs
        exact ih (h.step hp hv) hs
      · cases hs

/-- The current thread ends and leaves, and after the events `es` the thread that it was left for calls
`schedule()`. -/
def exitSteps (fuel : Nat) (p : Kernel → Event → Bool) (es : List Event) (s : Kernel) :
    Option (Kernel × Kernel × List (Addr × MmCall)) :=
  (Kernel.step fuel (.call .threadExit) s).bind fun u =>
    if p s (.call .threadExit) ∧ p u .run then
      (Kernel.step fuel .run u).bind fun s1 =>
        (killSteps fuel p es (s1, [])).bind fun x =>
          if x.1.currentThread = s1.currentThread ∧
              (x.1.stack x.1.currentThread).head? = some .schedule then
            (Kernel.step fuel .run x.1).map fun s3 => (s1, s3, reclaimedBy x.1 .run s3 ++ x.2)
          else none
    else none

theorem exits_exitSteps {fuel : Nat} {p : Kernel → Event → Bool} {es : List Event}
    {x : Kernel × Kernel × List (Addr × MmCall)} (h : exitSteps fuel p es s = some x) :
    Exits (fun s e => p s e = true) s x.1 x.2.1 x.2.2 := by
  obtain ⟨u, hexit, h⟩ := Option.bind_eq_some_iff.mp h
  split at h
  · rename_i hp
    obtain ⟨s1, hleave, h⟩ := Option.bind_eq_some_iff.mp h
    obtain ⟨y, hy, h⟩ := Option.bind_eq_some_iff.mp h
    split at h
    · rename_i hagain
      obtain ⟨s3, hstep, rfl⟩ := Option.map_eq_some_iff.mp h
      exact ⟨hp.1, hexit, hp.2, hleave, killRun_killSteps .start hy, hagain.1, hagain.2, hstep, rfl⟩
    · cases h
  · cases h

section Boot

variable {bootStack idleStack kernelPml4 : Nat} {vmms : Addr → Vmm} {vmmDesc : Addr}
  {counts : Addr → Int}

theorem exited_reclaimed (hne : main ≠ idle) (hstack : idleStack ≠ 0) {s s1 s3 : Kernel}
    {r : List (Addr × MmCall)}
    (h : Reaches (fun s e => Fits s e ∧ LeavesForStarted s e)
      (initMultitasking main idle bootStack idleStack kernelPml4 vmms vmmDesc counts) s)
    (he : Exits (fun s e => Fits s e ∧ LeavesForStarted s e) s s1 s3 r) :
    (s.currentThread, stackCall s s.currentThread) ∈ r := by
  have hboot : ∃ xs, Booted idle
      (initMultitasking main idle bootStack idleStack kernelPml4 vmms vmmDesc counts) xs :=
    booted_initMultitasking hne hstack
  obtain ⟨xs0, hb⟩ := hboot
  have hinv : ∃ xs, Sched s xs ∧ Away s := by
    refine h.invariant (I := fun s => ∃ xs, Sched s xs ∧ Away s)
      ⟨xs0, hb.sched, fun t _ => .inl (hb.stack t)⟩ ?_
    rintro t u e n ⟨xs, hS, ha⟩ ⟨hfit, _⟩ hs
    obtain ⟨v, xs', hset, hS', _⟩ := hS.step (enabled_of_step hs) hfit
    exact ⟨xs', hset.result hs ▸ hS', ha.step (hS.moves hfit hs)⟩
  obtain ⟨xs, hS, ha⟩ := hinv
  obtain ⟨_, hexit, ⟨hfit, hstarted⟩, hleave, hrun, hcur, hagain, hstep, rfl⟩ := he
  obtain ⟨hleft, hcall⟩ := hS.left ha hexit hfit hstarted hleave
  rw [← hcall]
  rcases hleft.killRun (fun _ _ h => h.1) hrun with rfl | hmem
  · obtain ⟨c, b, k', hsw⟩ := hleft.away
    rw [hsw] at hagain
    cases hagain
  · exact List.mem_append.mpr (.inr hmem)

end Boot

/-- The thread 3 ends and leaves for the main thread, which has started. -/
theorem exited_reclaimed_main :
    ∃ s s1 s3 r, Reaches (fun s e => Fits s e ∧ LeavesForStarted s e)
        (initMultitasking 1 2 4096 8192 0 (fun _ => ⟨0, false⟩) 7 fun _ => 0) s ∧
      Exits (fun s e => Fits s e ∧ LeavesForStarted s e) s s1 s3 r ∧
      s.currentThread = 3 ∧ (s.currentThread, stackCall s s.currentThread) ∈ r := by
  let p : Kernel → Event → Bool := fun s e => orderly 2 s e && decide (LeavesForStarted s e)
  have hp : ∀ t e, p t e = true → orderly 2 t e = true ∧ LeavesForStarted t e := by
    intro t e h
    rwa [Bool.and_eq_true, decide_eq_true_eq] at h
  have hrun : ((killSteps 5 p
      [.call (.createThread (some 3) 8192 4096 false 0), .tick, .run, .tick, .run]
      (initMultitasking 1 2 4096 8192 0 (fun _ => ⟨0, false⟩) 7 (fun _ => 0), [])).any fun x =>
        x.1.currentThread = 3 && (exitSteps 5 p [.run, .run, .run, .tick] x.1).isSome) = true := by
    decide +kernel
  obtain ⟨x, hx, hy⟩ := (Option.any_eq_true _ _).mp hrun
  rw [Bool.and_eq_true, decide_eq_true_eq] at hy
  obtain ⟨y, hy'⟩ := Option.isSome_iff_exists.mp hy.2
  have hboot : ∃ xs, Booted 2
      (initMultitasking 1 2 4096 8192 0 (fun _ => ⟨0, false⟩) 7 fun _ => 0) xs :=
    booted_initMultitasking (by decide) (by decide)
  obtain ⟨_, hb⟩ := hboot
  obtain ⟨hkill, _, hO⟩ := hb.orderly.killRun hp (killRun_killSteps .start hx)
  have hexits := hO.exits hp (exits_exitSteps hy')
  exact ⟨x.1, y.1, y.2.1, y.2.2, hkill.reaches, hexits, hy.1,
    exited_reclaimed (by decide) (by decide) hkill.reaches hexits⟩

/-- The thread 3 ends and leaves for the thread 4, which has not run yet and is then preempted. -/
theorem exited_forgotten :
    ∃ s s1 s3 r, Reaches (fun s e => orderly 2 s e = true)
        (initMultitasking 1 2 4096 8192 0 (fun _ => ⟨0, false⟩) 7 fun _ => 0) s ∧
      Exits (fun s e => orderly 2 s e = true) s s1 s3 r ∧
      (s.currentThread, stackCall s s.currentThread) ∉ r := by
  have hrun : ((killSteps 5 (orderly 2)
      [.call (.createThread (some 3) 8192 4096 false 0),
        .call (.createThread (some 4) 8192 4096 false 0), .tick, .run, .tick, .run]
      (initMultitasking 1 2 4096 8192 0 (fun _ => ⟨0, false⟩) 7 (fun _ => 0), [])).any fun x =>
        (exitSteps 5 (orderly 2) [.tick] x.1).any fun y => y.2.2.isEmpty) = true := by
    decide +kernel
  obtain ⟨x, hx, hy⟩ := (Option.any_eq_true _ _).mp hrun
  obtain ⟨y, hy, hempty⟩ := (Option.any_eq_true _ _).mp hy
  refine ⟨x.1, y.1, y.2.1, y.2.2, (killRun_killSteps .start hx).reaches, exits_exitSteps hy, ?_⟩
  rw [List.isEmpty_iff.mp hempty]
  exact List.not_mem_nil

end Kernel

end Os003
