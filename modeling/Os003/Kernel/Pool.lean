import Os003.Kernel.Orderly

set_option autoImplicit false

/-! # The pool of free TCBs

`KillThread` puts the TCB on top of `free_tcb_list`, `create_thread` takes the one on top. Cell 0 is
never filled: it says that the pool is empty. `KillThread` looks for room with the number of TCBs in
the pool but writes to the cell with the next number, so the fourth TCB goes into a cell behind
the array (`pool_out_of_bounds`); with at most two TCBs in the pool at every call of `KillThread`
all accesses are in bounds (`pool_in_bounds`).

The pool does not know which TCBs it holds: a thread that is killed twice is in it twice
(`pool_holds_twice`). When each thread is killed once, by another thread, the TCBs in the pool are
different and dead (`pool_distinct`).
-/

namespace Os003

open Linked

namespace Kernel

variable {s s' : Kernel} {xs : QueueId → List Addr} {t idle : Addr} {n : Nat}

/-! ## The cells of the pool -/

/-- The thread that `KillThread` is called on by the event. -/
def victim (s : Kernel) : Event → Option Addr
  | .call (.killThread t) => some t
  | .run =>
      match s.stack s.currentThread with
      | .switchTo _ _ :: _ => s.reclaimed
      | _ => none
  | _ => none

/-- The event is a call of `create_thread`. -/
def callsCreateThread : Event → Bool
  | .call (.createThread _ _ _ _ _) => true
  | .call (.createKernelThread _ _ _) => true
  | _ => false

/-- The indices at which the event reads or writes `free_tcb_list`. -/
def poolCells (s : Kernel) (e : Event) : List Nat :=
  if callsCreateThread e then [s.numOfFreeTcb]
  else if (victim s e).isSome ∧ s.numOfFreeTcb < freeTcbListSize then [s.numOfFreeTcb + 1]
  else []

/-- The TCBs that have been put into the pool and not been taken out, latest first, behind the event. -/
def pooledAfter (pooled : List Addr) (s : Kernel) (e : Event) : List Addr :=
  if callsCreateThread e then
    match s.freeTcbList s.numOfFreeTcb with
    | some t => pooled.erase t
    | none => pooled
  else
    match victim s e with
    | some t => if s.numOfFreeTcb < freeTcbListSize then t :: pooled else pooled
    | none => pooled

/-- The runs from `s` whose steps meet `P`, with the TCBs in the pool. -/
abbrev PoolRun (P : Kernel → Event → Prop) (s : Kernel) : Kernel → List Addr → Prop :=
  Traces P pooledAfter s []

/-- The event stays inside the array, and a page is allocated for a TCB only when the pool is empty. -/
def PoolBounded (s : Kernel) (pooled : List Addr) (e : Event) : Prop :=
  (∀ i ∈ poolCells s e, i < freeTcbListSize) ∧
    (callsCreateThread e = true → s.freeTcbList s.numOfFreeTcb = none → pooled = [])

/-- `KillThread` is called only while at most two TCBs are in the pool. -/
def Roomy (s : Kernel) (e : Event) : Prop :=
  (victim s e).isSome = true → s.numOfFreeTcb + 1 < freeTcbListSize

/-- The cells from 1 to `n` hold the TCBs, the latest in cell `n`. -/
def Holds (cells : Nat → Option Addr) : Nat → List Addr → Prop
  | 0, l => l = []
  | _ + 1, [] => False
  | n + 1, t :: l => cells (n + 1) = some t ∧ Holds cells n l

namespace Holds

variable {cells : Nat → Option Addr} {l : List Addr}

/-- A cell further up does not count. -/
theorem update {i : Nat} {v : Option Addr} (h : Holds cells n l) (hi : n < i) :
    Holds (Function.update cells i v) n l := by
  induction n generalizing l with
  | zero => exact h
  | succ n ih =>
      cases l with
      | nil => exact h
      | cons u l =>
          refine ⟨?_, ih h.2 (by omega)⟩
          rw [Function.update_of_ne (by omega)]
          exact h.1

/-- A TCB goes on top. -/
theorem push (h : Holds cells n l) :
    Holds (Function.update cells (n + 1) (some t)) (n + 1) (t :: l) :=
  ⟨Function.update_self _ _ _, h.update (Nat.lt_succ_self n)⟩

/-- The TCB on top is taken. -/
theorem pop (h : Holds cells n l) (h0 : cells 0 = none) (ht : cells n = some t) :
    Holds (Function.update cells n none) (n - 1) (l.erase t) := by
  cases n with
  | zero => cases h0.symm.trans ht
  | succ n =>
      cases l with
      | nil => exact h.elim
      | cons u l =>
          have hu : u = t := Option.some.inj (h.1.symm.trans ht)
          rw [hu, List.erase_cons_head, Nat.add_sub_cancel]
          exact h.2.update (Nat.lt_succ_self n)

/-- An empty cell on top means that there is none. -/
theorem empty (h : Holds cells n l) (ht : cells n = none) : l = [] := by
  cases n with
  | zero => exact h
  | succ n =>
      cases l with
      | nil => exact h.elim
      | cons u l => cases ht.symm.trans h.1

end Holds

/-! ## Bounds -/

/-- A creation takes the TCB on top of the pool when there is one. -/
theorem create_pool (page : Option Addr) (stack size : Nat) (useVmm : Bool) (vmm : Addr) :
    ((s.books.create page stack size useVmm vmm).freeTcbList,
        (s.books.create page stack size useVmm vmm).numOfFreeTcb) =
      if s.freeTcbList s.numOfFreeTcb = none then (s.freeTcbList, s.numOfFreeTcb)
      else (Function.update s.freeTcbList s.numOfFreeTcb none, s.numOfFreeTcb - 1) := by
  unfold Books.create Books.take
  have hcell : s.books.freeTcbList s.books.numOfFreeTcb = s.freeTcbList s.numOfFreeTcb := rfl
  rw [hcell]
  cases hl : s.freeTcbList s.numOfFreeTcb with
  | some t =>
      dsimp only
      split <;> rfl
  | none =>
      cases page with
      | none => rfl
      | some t =>
          dsimp only
          split <;> rfl

/-- A user thread gets a page of its own. -/
theorem createUser_pool (page : Option Addr) (stack size : Nat) (vmm : Addr) :
    ((s.books.createUser page stack size vmm).freeTcbList,
        (s.books.createUser page stack size vmm).numOfFreeTcb) = (s.freeTcbList, s.numOfFreeTcb) := by
  unfold Books.createUser
  cases page with
  | none => rfl
  | some t =>
      dsimp only
      split <;> rfl

theorem unlock_pool (m : Addr) : ((booksAfter s (.call (.mutexUnlock m))).freeTcbList,
    (booksAfter s (.call (.mutexUnlock m))).numOfFreeTcb) = (s.freeTcbList, s.numOfFreeTcb) := by
  unfold booksAfter
  dsimp only
  split <;> rfl

/-- A TCB goes into the pool while there is room. -/
theorem kill_pool (t : Addr) : ((s.books.pool t).freeTcbList, (s.books.pool t).numOfFreeTcb) =
    if s.numOfFreeTcb < freeTcbListSize then
      (Function.update s.freeTcbList (s.numOfFreeTcb + 1) (some t), s.numOfFreeTcb + 1)
    else (s.freeTcbList, s.numOfFreeTcb) := by
  unfold Books.pool
  by_cases h : s.numOfFreeTcb < freeTcbListSize
  · have h' : s.books.numOfFreeTcb < freeTcbListSize := h
    simp only [if_pos h, if_pos h']
    rfl
  · have h' : ¬ s.books.numOfFreeTcb < freeTcbListSize := h
    simp only [if_neg h, if_neg h']
    rfl

/-- What an event makes of the cells and their number. -/
theorem pool_step {e : Event} (hs : Kernel.step n e s = some s') :
    (s'.freeTcbList, s'.numOfFreeTcb) =
      if callsCreateThread e then
        if s.freeTcbList s.numOfFreeTcb = none then (s.freeTcbList, s.numOfFreeTcb)
        else (Function.update s.freeTcbList s.numOfFreeTcb none, s.numOfFreeTcb - 1)
      else if (victim s e).isSome ∧ s.numOfFreeTcb < freeTcbListSize then
        (Function.update s.freeTcbList (s.numOfFreeTcb + 1) (victim s e), s.numOfFreeTcb + 1)
      else (s.freeTcbList, s.numOfFreeTcb) := by
  have hbooks : (s'.freeTcbList, s'.numOfFreeTcb) =
      ((booksAfter s e).freeTcbList, (booksAfter s e).numOfFreeTcb) := by
    rw [← books_step hs]
    rfl
  rw [hbooks]
  -- a TCB leaves the pool in a creation and enters it in a kill, also in that of `schedule()`
  cases e with
  | tick => rfl
  | call c =>
      cases c with
      | createThread page stack size useVmm vmm => exact create_pool ..
      | createKernelThread page stack size => exact create_pool ..
      | createUserThread page stack size vmm => exact createUser_pool ..
      | killThread t =>
          refine (kill_pool t).trans ?_
          simp [callsCreateThread, victim]
      | mutexUnlock m => exact unlock_pool m
      | threadSleepMs ms => rfl
      | threadSleepSecond sec => rfl
      | mutexLock m => rfl
      | semWait m => rfl
      | semPost m => rfl
      | threadExit => rfl
  | run =>
      unfold booksAfter victim
      dsimp only
      cases hk : s.stack s.currentThread with
      | nil => rfl
      | cons f k =>
          cases f with
          | switchTo c b =>
              dsimp only
              cases hp : s.reclaimed with
              | none => rfl
              | some p =>
                  refine (kill_pool p).trans ?_
                  simp [callsCreateThread]
          | schedule => rfl
          | reclaimed => rfl
          | irq0 => rfl
          | lockTest m => rfl
          | lockTake m => rfl
          | waitTest m => rfl
          | waitTake m => rfl
          | slept => rfl
          | stop => rfl

/-- The pool is within the array and holds the TCBs. -/
structure Within (s : Kernel) (pooled : List Addr) : Prop where
  base : s.freeTcbList 0 = none
  bound : s.numOfFreeTcb < freeTcbListSize
  holds : Holds s.freeTcbList s.numOfFreeTcb pooled

theorem Within.bounded {pooled : List Addr} (h : Within s pooled) {e : Event} (he : Roomy s e) :
    PoolBounded s pooled e := by
  refine ⟨fun i hi => ?_, fun _ hnone => h.holds.empty hnone⟩
  unfold poolCells at hi
  split at hi
  · rw [List.mem_singleton.mp hi]
    exact h.bound
  · split at hi
    · rename_i hv
      rw [List.mem_singleton.mp hi]
      exact he hv.1
    · cases hi

theorem Within.step {pooled : List Addr} (h : Within s pooled) {e : Event} (he : Roomy s e)
    (hs : Kernel.step n e s = some s') : Within s' (pooledAfter pooled s e) := by
  have hfields := pool_step hs
  unfold pooledAfter
  split at hfields
  · -- a creation: from an empty pool it takes nothing, else the TCB on top
    rename_i hc
    rw [if_pos hc]
    split at hfields
    · rename_i hnone
      obtain ⟨hlist, hnum⟩ := Prod.ext_iff.mp hfields
      dsimp only at hlist hnum
      rw [hnone]
      exact ⟨by rw [hlist]; exact h.base, by rw [hnum]; exact h.bound,
        by rw [hlist, hnum]; exact h.holds⟩
    · rename_i hsome
      obtain ⟨t, ht⟩ := Option.ne_none_iff_exists'.mp hsome
      obtain ⟨hlist, hnum⟩ := Prod.ext_iff.mp hfields
      dsimp only at hlist hnum
      rw [ht]
      have hbound := h.bound
      refine ⟨?_, by omega, ?_⟩
      · rw [hlist]
        by_cases h0 : s.numOfFreeTcb = 0
        · rw [h0, Function.update_self]
        · rw [Function.update_of_ne (Ne.symm h0)]
          exact h.base
      · rw [hlist, hnum]
        exact h.holds.pop h.base ht
  · -- no creation; a kill, if there is one, puts its TCB on top
    rename_i hc
    rw [if_neg hc]
    cases hv : victim s e with
    | none =>
        rw [hv, if_neg (by simp)] at hfields
        obtain ⟨hlist, hnum⟩ := Prod.ext_iff.mp hfields
        dsimp only at hlist hnum
        exact ⟨by rw [hlist]; exact h.base, by rw [hnum]; exact h.bound,
          by rw [hlist, hnum]; exact h.holds⟩
    | some t =>
        have hroom := he (by rw [hv]; rfl)
        rw [hv, if_pos ⟨rfl, h.bound⟩] at hfields
        obtain ⟨hlist, hnum⟩ := Prod.ext_iff.mp hfields
        dsimp only at hlist hnum ⊢
        rw [if_pos h.bound]
        refine ⟨?_, by omega, ?_⟩
        · rw [hlist, Function.update_of_ne (by omega)]
          exact h.base
        · rw [hlist, hnum]
          exact h.holds.push

instance (s : Kernel) (e : Event) : Decidable (Roomy s e) := inferInstanceAs (Decidable (_ → _))

section Boot

variable {main bootStack idleStack kernelPml4 : Nat} {vmms : Addr → Vmm} {vmmDesc : Addr}
  {counts : Addr → Int}

/-- `init_multitasking` leaves the pool empty. -/
theorem within_initMultitasking : Within
    (initMultitasking main idle bootStack idleStack kernelPml4 vmms vmmDesc counts) [] := by
  have hstep : Kernel.step 0 (.call (.createKernelThread (some idle) idleStack 4096))
      (bootKernel main bootStack kernelPml4 vmms vmmDesc counts) =
        some (initMultitasking main idle bootStack idleStack kernelPml4 vmms vmmDesc counts) := by
    unfold Kernel.step
    exact if_pos rfl
  have hfields : ((initMultitasking main idle bootStack idleStack kernelPml4 vmms vmmDesc
      counts).freeTcbList, (initMultitasking main idle bootStack idleStack kernelPml4 vmms vmmDesc
      counts).numOfFreeTcb) = ((fun _ => none), 0) := (pool_step hstep).trans rfl
  obtain ⟨hlist, hnum⟩ := Prod.ext_iff.mp hfields
  dsimp only at hlist hnum
  exact ⟨congrFun hlist 0, by rw [hnum]; decide, by rw [hlist, hnum]; rfl⟩

theorem pool_in_bounds {s : Kernel} {pooled : List Addr} {e : Event}
    (h : PoolRun Roomy
      (initMultitasking main idle bootStack idleStack kernelPml4 vmms vmmDesc counts) s pooled)
    (he : Roomy s e) : PoolBounded s pooled e :=
  (h.invariant within_initMultitasking fun _ _ _ _ _ hI hP hs => hI.step hP hs).bounded he

end Boot

/-- A thread is killed and the next one gets its TCB. -/
theorem pool_in_bounds_reused :
    ∃ s pooled, PoolRun Roomy
        (initMultitasking 1 2 4096 8192 0 (fun _ => ⟨0, false⟩) 7 fun _ => 0) s pooled ∧
      pooled = [3] ∧
      PoolBounded s pooled (.call (.createThread (some 4) 8192 4096 false 0)) := by
  have hrun : (traceSteps 5 Roomy pooledAfter
      [.call (.createThread (some 3) 8192 4096 false 0), .call (.killThread 3)]
      (initMultitasking 1 2 4096 8192 0 (fun _ => ⟨0, false⟩) 7 (fun _ => 0), [])).any
        (fun r => r.2 = [3]) = true := by decide +kernel
  obtain ⟨r, hr, hr1⟩ := (Option.any_eq_true _ _).mp hrun
  have h := traces_traceSteps .start hr
  exact ⟨r.1, r.2, h, of_decide_eq_true hr1, pool_in_bounds h fun hv => by cases hv⟩

/-- Four threads are created and killed. -/
theorem pool_out_of_bounds :
    ∃ s pooled, PoolRun (fun _ _ => True)
        (initMultitasking 1 2 4096 8192 0 (fun _ => ⟨0, false⟩) 7 fun _ => 0) s pooled ∧
      Alive s 6 ∧ 6 ≠ s.currentThread ∧ ¬ PoolBounded s pooled (.call (.killThread 6)) := by
  have hrun : (traceSteps 5 (fun _ _ => True) pooledAfter
      [.call (.createThread (some 3) 8192 4096 false 0),
        .call (.createThread (some 4) 8192 4096 false 0),
        .call (.createThread (some 5) 8192 4096 false 0),
        .call (.createThread (some 6) 8192 4096 false 0),
        .call (.killThread 3), .call (.killThread 4), .call (.killThread 5)]
      (initMultitasking 1 2 4096 8192 0 (fun _ => ⟨0, false⟩) 7 (fun _ => 0), [])).any
        (fun r => r.1.numOfFreeTcb = 3 && decide (6 ∈ r.1.tcbs) &&
          decide (r.1.state 6 ≠ .terminated) && decide (6 ≠ r.1.currentThread)) = true := by
    decide +kernel
  obtain ⟨r, hr, hr1⟩ := (Option.any_eq_true _ _).mp hrun
  simp only [Bool.and_eq_true, decide_eq_true_eq] at hr1
  obtain ⟨⟨⟨hnum, hmem⟩, hstate⟩, hcur⟩ := hr1
  refine ⟨r.1, r.2, traces_traceSteps .start hr, ⟨hmem, hstate⟩, hcur, fun hb => ?_⟩
  have hcells : 4 ∈ poolCells r.1 (.call (.killThread 6)) := by
    simp [poolCells, callsCreateThread, victim, hnum, freeTcbListSize]
  exact absurd (hb.1 4 hcells) (by decide)

/-! ## Different TCBs -/

/-- The TCBs in the pool are different, none of them is a live thread's, and so none is the TCB that
`create_thread` takes. -/
def PoolDistinct (s : Kernel) : Prop :=
  (∀ i j t, 1 ≤ i → i ≤ s.numOfFreeTcb → 1 ≤ j → j ≤ s.numOfFreeTcb →
    s.freeTcbList i = some t → s.freeTcbList j = some t → i = j) ∧
  (∀ i t, 1 ≤ i → i ≤ s.numOfFreeTcb → s.freeTcbList i = some t → ¬ Alive s t) ∧
  ∀ page t, (∀ p, page = some p → p ∉ s.tcbs) → (takeTcb page s).1 = some t → ¬ Alive s t

theorem Pool.poolDistinct (h : Pool s) : PoolDistinct s := by
  refine ⟨h.distinct, fun i t h1 hi ht ha => ha.2 (h.dead t ⟨i, h1, hi, ht⟩).2.1, ?_⟩
  intro page t hpage ht ha
  unfold takeTcb at ht
  split at ht
  · rename_i u hu
    cases ht
    have hpos : 1 ≤ s.numOfFreeTcb := by
      by_contra h0
      rw [Nat.eq_zero_of_not_pos h0, h.base] at hu
      cases hu
    exact ha.2 (h.dead t ⟨_, hpos, le_rfl, hu⟩).2.1
  · split at ht
    · cases ht
    · cases ht
      exact hpage t rfl ha.1

section Boot

variable {main bootStack idleStack kernelPml4 : Nat} {vmms : Addr → Vmm} {vmmDesc : Addr}
  {counts : Addr → Int}

theorem pool_distinct (hne : main ≠ idle) (hstack : idleStack ≠ 0) {s : Kernel}
    (h : Reaches (fun s e => orderly idle s e = true)
      (initMultitasking main idle bootStack idleStack kernelPml4 vmms vmmDesc counts) s) :
    PoolDistinct s := by
  obtain ⟨xs, hO⟩ := orderly_reaches (fun _ _ h => h) (booted_initMultitasking hne hstack) h
  exact hO.sched.pool.poolDistinct

end Boot

/-- Two threads are created, killed, and one of them is created anew. -/
theorem pool_distinct_two :
    ∃ s, Reaches (fun s e => orderly 2 s e = true)
        (initMultitasking 1 2 4096 8192 0 (fun _ => ⟨0, false⟩) 7 fun _ => 0) s ∧
      s.numOfFreeTcb = 1 ∧ PoolDistinct s := by
  have hrun : (stepsMeeting 5 (orderly 2)
      [.call (.createThread (some 3) 8192 4096 false 0),
        .call (.createThread (some 4) 8192 4096 false 0), .call (.killThread 3),
        .call (.killThread 4), .call (.createThread none 8192 4096 false 0)]
      (initMultitasking 1 2 4096 8192 0 (fun _ => ⟨0, false⟩) 7 (fun _ => 0))).any
        (fun s => s.numOfFreeTcb = 1) = true := by decide +kernel
  obtain ⟨s, hs, hs1⟩ := (Option.any_eq_true _ _).mp hrun
  have h := reaches_stepsMeeting .start hs
  exact ⟨s, h, of_decide_eq_true hs1, pool_distinct (by decide) (by decide) h⟩

/-- The same thread is killed twice. -/
theorem pool_holds_twice :
    ∃ s, Reaches (fun _ _ => True)
        (initMultitasking 1 2 4096 8192 0 (fun _ => ⟨0, false⟩) 7 fun _ => 0) s ∧
      s.numOfFreeTcb < freeTcbListSize ∧ ¬ PoolDistinct s := by
  have hrun : (steps 5 [.call (.createThread (some 3) 8192 4096 false 0), .call (.killThread 3),
      .call (.killThread 3)]
      (initMultitasking 1 2 4096 8192 0 (fun _ => ⟨0, false⟩) 7 (fun _ => 0))).any
        (fun s => s.numOfFreeTcb = 2 && s.freeTcbList 1 = some 3 && s.freeTcbList 2 = some 3) =
          true := by decide +kernel
  obtain ⟨s, hs, hs1⟩ := (Option.any_eq_true _ _).mp hrun
  simp only [Bool.and_eq_true, decide_eq_true_eq] at hs1
  obtain ⟨⟨hnum, h1⟩, h2⟩ := hs1
  refine ⟨s, reaches_steps .start (meet_true ..) hs, by rw [hnum]; decide, fun hd => ?_⟩
  have := hd.1 1 2 3 le_rfl (by omega) (by omega) (by omega) h1 h2
  omega

end Kernel

end Os003
