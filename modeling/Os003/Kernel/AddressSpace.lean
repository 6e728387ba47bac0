import Os003.Kernel.Pool

set_option autoImplicit false

/-! # Address spaces

`schedule()` loads the page table of the thread that it leaves for, but it writes
`Current_VMM_Desc` only behind `switch_to`, in the thread that has come back, and only if the local
variable `target_cr3` of that thread's own call, made when it was left, is not zero. A thread that
runs for the first time keeps the descriptor of the thread before it (`space_lags`). When each
thread that is left for has the VMM that is current, or has come back with a `target_cr3`, CR3 and
`Current_VMM_Desc` follow the running thread (`space_follows`).
-/

namespace Os003

open Linked

/-- The thread writes `Current_VMM_Desc` when it comes back from `switch_to`. -/
def Frame.writesDesc : List Frame → Bool
  | .switchTo c _ :: _ => c ≠ 0
  | _ => false

namespace Kernel

variable {s s' u : Kernel} {xs : QueueId → List Addr} {t main idle v : Addr} {n : Nat}

/-- The page table of the thread. -/
def pageTable (s : Kernel) (t : Addr) : Nat :=
  if (s.tcb t).useVmm then (s.vmms (s.tcb t).vmm).pml4 else s.kernelPml4

/-- CR3 and `Current_VMM_Desc` are the current thread's. -/
def SpaceFollows (s : Kernel) : Prop :=
  s.cr3 = s.pageTable s.currentThread ∧ s.currentVmmDesc = (s.tcb s.currentThread).vmm

/-- The event switches to the VMM of another thread and back. -/
def visitsVmm (s : Kernel) : Event → Bool
  | .call (.createThread _ _ _ useVmm _) => useVmm
  | .call (.createUserThread _ _ _ _) => true
  | e => (victim s e).any fun t => (s.tcb t).useVmm

/-- The thread that `schedule()` takes has the VMM of the current one or writes the descriptor itself; a
thread that switches to another VMM and back has one with its own page table. -/
def KeepsSpace (s : Kernel) (e : Event) : Prop :=
  (e = .run → (s.stack s.currentThread).head? = some .schedule →
    ∀ u ∈ (s.queue .ready).head,
      (s.tcb u).vmm = (s.tcb s.currentThread).vmm ∨ Frame.writesDesc (s.stack u) = true) ∧
  (visitsVmm s e = true → (s.tcb s.currentThread).vmm ≠ 0 ∧
    (s.vmms (s.tcb s.currentThread).vmm).pml4 = s.pageTable s.currentThread)

/-! ## CR3 and the descriptor -/

/-- What the memory management unit works with. -/
def mmu (s : Kernel) : Nat × Addr := (s.cr3, s.currentVmmDesc)

/-- The current descriptor is there and has the page table that is loaded. -/
structure Loaded (s : Kernel) : Prop where
  desc : s.currentVmmDesc ≠ 0
  pml4 : (s.vmms s.currentVmmDesc).pml4 = s.cr3

theorem Relinked.mmu (h : Relinked s s') : s'.mmu = s.mmu := by
  unfold Kernel.mmu
  rw [h.rest]

theorem Relinked.loaded (h : Relinked s s') (hl : Loaded s) : Loaded s' := by
  rw [h.rest]
  exact ⟨hl.desc, hl.pml4⟩

/-- The switch to another VMM is undone by the switch back. -/
theorem Loaded.switchBack (h : Loaded s) (hvmms : u.vmms = s.vmms)
    (hu : u.mmu = (switchVirtualManager v s).2.mmu) :
    (switchVirtualManager (switchVirtualManager v s).1 u).2.mmu = s.mmu := by
  by_cases hv : v = 0
  · have hs : switchVirtualManager v s = (0, s) := if_pos hv
    rw [hs] at hu ⊢
    exact hu
  · have hs : switchVirtualManager v s =
        (s.currentVmmDesc, { s with currentVmmDesc := v, cr3 := (s.vmms v).pml4 }) := by
      unfold switchVirtualManager
      rw [if_neg hv, if_pos h.desc]
    rw [hs]
    unfold switchVirtualManager
    rw [if_neg h.desc]
    exact Prod.ext ((congrArg (fun f => (f s.currentVmmDesc).pml4) hvmms).trans h.pml4) rfl

theorem mmu_releaseMemory (h : (s.tcb t).useVmm = true → Loaded s) :
    (releaseMemory t s).mmu = s.mmu := by
  unfold releaseMemory
  dsimp only
  by_cases huse : (s.tcb t).useVmm = true
  · rw [if_pos huse]
    refine (h huse).switchBack ?_ ?_
    · have hvmms := congrArg Books.vmms (books_switchVirtualManager (s := s) (s.tcb t).vmm)
      split
      · exact hvmms
      · split <;> exact hvmms
    · split
      · rfl
      · split <;> rfl
  · rw [if_neg huse]
    split <;> rfl

theorem mmu_poolTcb : (poolTcb t s).mmu = s.mmu := by
  unfold poolTcb
  dsimp only
  split <;> rfl

theorem mmu_killThread (h : (s.tcb t).useVmm = true → Loaded s)
    (hr : killThread n t s = some s') (hc : t ≠ s.currentThread) : s'.mmu = s.mmu := by
  obtain ⟨s1, s2, h1, h2, rfl⟩ := killThread_cases hr hc
  have hloaded : (s1.tcb t).useVmm = true → Loaded s1 := by
    intro huse
    rw [h1.tcb t] at huse
    exact h1.loaded ⟨(h huse).desc, (h huse).pml4⟩
  show (poolTcb t s2).mmu = s.mmu
  rw [mmu_poolTcb, h2.mmu, mmu_releaseMemory hloaded, h1.mmu]
  rfl

theorem Loaded.congr (h : Loaded s) (hmmu : s'.mmu = s.mmu) (hvmms : s'.vmms = s.vmms) :
    Loaded s' := by
  obtain ⟨hcr3, hdesc⟩ := Prod.mk.inj hmmu
  exact ⟨hdesc ▸ h.desc, by rw [hvmms, hdesc, hcr3]; exact h.pml4⟩

theorem mmu_startThread {b : Tcb} (h : b.useVmm = true → Loaded s) :
    (startThread t b s).mmu = s.mmu := by
  -- the first frame is written last, in the new thread's space
  have hframe : ∀ w : Kernel, w.mmu = s.mmu → w.vmms = s.vmms → (if b.useVmm then
      (switchVirtualManager (switchVirtualManager b.vmm w).1 (switchVirtualManager b.vmm w).2).2
      else w).mmu = s.mmu := by
    intro w hmmu hvmms
    split
    · rename_i huse
      have hswitch := books_switchVirtualManager (s := w) b.vmm
      exact (((h huse).congr hmmu hvmms).switchBack (congrArg Books.vmms hswitch) rfl).trans hmmu
    · exact hmmu
  have hregister : (registerThread t b s).mmu = s.mmu := by
    unfold registerThread
    dsimp only
    by_cases hroom : s.nextTortPosition < tortSize
    · exact hframe _ ((congrArg mmu (if_pos hroom)).trans rfl)
        ((congrArg Kernel.vmms (if_pos hroom)).trans rfl)
    · exact hframe _ ((congrArg mmu (if_neg hroom)).trans rfl)
        ((congrArg Kernel.vmms (if_neg hroom)).trans rfl)
  show (threadEnqueue t (registerThread t b s)).mmu = s.mmu
  rw [(Relinked.threadEnqueue t _).mmu, hregister]

theorem mmu_createThread {page : Option Addr} {stack size : Nat} {useVmm : Bool} {vmm : Addr}
    (h : useVmm = true → Loaded s) :
    (createThread page stack size useVmm vmm s).mmu = s.mmu := by
  have htake : (takeTcb page s.disableInterrupts).2.mmu = s.mmu ∧
      (takeTcb page s.disableInterrupts).2.vmms = s.vmms := by
    unfold takeTcb
    split
    · exact ⟨rfl, rfl⟩
    · split <;> exact ⟨rfl, rfl⟩
  unfold createThread
  generalize takeTcb page s.disableInterrupts = p at htake
  obtain ⟨_ | t, s1⟩ := p
  · exact htake.1
  · dsimp only
    split
    · exact htake.1
    · rw [mmu_startThread fun huse => (h huse).congr htake.1 htake.2]
      exact htake.1

theorem mmu_createUserThread {page : Option Addr} {stack size : Nat} {vmm : Addr}
    (h : Loaded s) : (createUserThread page stack size vmm s).mmu = s.mmu := by
  unfold createUserThread
  dsimp only
  split
  · rfl
  · split
    · rfl
    · exact mmu_startThread fun _ => ⟨h.desc, h.pml4⟩

theorem mmu_sleepUntil (w : UInt64) : (sleepUntil w s).mmu = s.mmu := by
  show (enqueue .sleep _ (setState _ _ .blocked)).mmu = s.mmu
  rw [(Relinked.enqueue .sleep _ _).mmu, (Relinked.setState _ _ _).mmu]
  rfl

theorem mmu_scheduleTail (h : ∀ p, s.reclaimed = some p → (s.tcb p).useVmm = true → Loaded s)
    (hc : ∀ p, s.reclaimed = some p → p ≠ s.currentThread) (hr : scheduleTail n s = some s') :
    s'.mmu = s.mmu := by
  unfold scheduleTail at hr
  split at hr
  · cases hr
    rfl
  · rename_i p hp
    split at hr
    · rename_i hdead
      have hrec : s.reclaimed = some p := by simp [Kernel.reclaimed, hp, hdead, Option.filter]
      obtain ⟨s1, h1, hr⟩ := Option.bind_eq_some_iff.mp hr
      cases hr
      show s1.mmu = s.mmu
      exact mmu_killThread (h p hrec) h1 (hc p hrec)
    · cases hr
      rfl

/-- A call leaves CR3 and the descriptor as they are. -/
theorem mmu_call {c : Call} (hc : orderly idle s (.call c) = true)
    (h : visitsVmm s (.call c) = true → Loaded s) (hr : call n c s = some s') :
    s'.mmu = s.mmu := by
  cases c with
  | createThread page stack size useVmm vmm =>
      cases hr
      exact mmu_createThread h
  | createKernelThread page stack size =>
      cases hr
      exact mmu_createThread fun huse => by cases huse
  | createUserThread page stack size vmm =>
      cases hr
      exact mmu_createUserThread (h rfl)
  | threadSleepMs ms =>
      cases hr
      unfold threadSleepMs
      split
      · rfl
      · exact mmu_sleepUntil _
  | threadSleepSecond sec =>
      cases hr
      unfold threadSleepSecond
      split
      · rfl
      · exact mmu_sleepUntil _
  | threadExit =>
      obtain ⟨w, hw, rfl⟩ := threadExit_cases hr
      exact hw.mmu
  | killThread t => exact mmu_killThread (fun huse => h huse) hr (orderly_kill hc).2.1
  | mutexLock | mutexUnlock | semWait | semPost => simp [orderly] at hc

/-! ## The invariant -/

/-- CR3 is the current thread's, and so is the descriptor unless the thread is about to write it. -/
structure InSpace (s : Kernel) : Prop where
  cr3 : s.cr3 = s.pageTable s.currentThread
  desc : Frame.writesDesc (s.stack s.currentThread) = false →
    s.currentVmmDesc = (s.tcb s.currentThread).vmm

theorem AtWork.writesDesc (h : AtWork s) : Frame.writesDesc (s.stack s.currentThread) = false := by
  unfold Frame.writesDesc
  split
  · rename_i c b k hk
    cases h _ _ hk
  · rfl

theorem InSpace.follows (h : InSpace s) (hw : AtWork s) : SpaceFollows s :=
  ⟨h.cr3, h.desc hw.writesDesc⟩

theorem pageTable_congr (hfixed : (s'.tcb t).fixed = (s.tcb t).fixed) (hvmms : s'.vmms = s.vmms)
    (hkernel : s'.kernelPml4 = s.kernelPml4) : s'.pageTable t = s.pageTable t := by
  obtain ⟨_, _, _, huse, hvmm⟩ := fixed_fields hfixed
  unfold pageTable
  rw [huse, hvmm, hvmms, hkernel]

/-- The same thread goes on with the same space. -/
theorem InSpace.keep (h : InSpace s) (hw : AtWork s) (hmmu : s'.mmu = s.mmu)
    (hcur : s'.currentThread = s.currentThread)
    (hfixed : (s'.tcb s.currentThread).fixed = (s.tcb s.currentThread).fixed)
    (hvmms : s'.vmms = s.vmms) (hkernel : s'.kernelPml4 = s.kernelPml4) : InSpace s' := by
  obtain ⟨hcr3, hdesc⟩ := Prod.mk.inj hmmu
  obtain ⟨hf1, hf2⟩ := h.follows hw
  refine ⟨?_, fun _ => ?_⟩
  · rw [hcr3, hcur, pageTable_congr hfixed hvmms hkernel]
    exact hf1
  · rw [hdesc, hcur, (fixed_fields hfixed).2.2.2.2]
    exact hf2

/-- `schedule()` has been called: the thread that is left for gets its page table, and its descriptor is
the current one or will be written. -/
theorem InSpace.schedule (h : InSpace s) {k : List Frame}
    (hk : s.stack s.currentThread = .schedule :: k) (hpml4 : ∀ v, (s.vmms v).pml4 ≠ 0)
    (hkernel : s.kernelPml4 ≠ 0)
    (hkeeps : ∀ u ∈ (s.queue .ready).head,
      (s.tcb u).vmm = (s.tcb s.currentThread).vmm ∨ Frame.writesDesc (s.stack u) = true)
    (hnone : (s.queue .ready).head = none → s.state s.currentThread = .running)
    (hr : Kernel.schedule n (s.setStack s.currentThread k) = some s') : InSpace s' := by
  have hw : AtWork s := by
    intro f r hf
    rw [hk] at hf
    cases hf
    rfl
  obtain ⟨hcr3, hdesc⟩ := h.follows hw
  obtain ⟨w, next, hrel, hfirst, hsame, hcases⟩ := schedule_cases hr
  have hbooks : w.books = s.books := hrel.books
  have hfixed : ∀ t, (w.tcb t).fixed = (s.tcb t).fixed :=
    fun t => congrFun (congrArg Books.fixed hbooks) t
  have hvmms : w.vmms = s.vmms := congrArg Books.vmms hbooks
  have hkernelW : w.kernelPml4 = s.kernelPml4 := congrArg Books.kernelPml4 hbooks
  have hmmu : w.mmu = s.mmu := hrel.mmu
  rcases hcases with ⟨hne, rfl⟩ | ⟨heq, rfl⟩
  · let W : Kernel := { w with schedulePrevThread := some s.currentThread,
                               currentThread := next }.setState next .running
    have hW : ∀ t, (W.tcb t).fixed = (s.tcb t).fixed := fun t =>
      (congrFun (congrArg Books.fixed (books_choose (s := w) next (some s.currentThread))) t).trans
        (hfixed t)
    have hne' : next ≠ s.currentThread := fun h => hne h.symm
    obtain ⟨_, _, _, huseN, hvmmN⟩ := fixed_fields (hW next)
    obtain ⟨_, _, _, huseP, _⟩ := fixed_fields (hW s.currentThread)
    refine ⟨?_, fun hwrites => ?_⟩
    · -- the tables that `switch_to` loads, or those that stay when it loads none
      have htarget : (if (W.tcb next).useVmm then (W.vmms (W.tcb next).vmm).pml4
          else if (W.tcb s.currentThread).useVmm then W.kernelPml4 else 0) =
          if (s.tcb next).useVmm then (s.vmms (s.tcb next).vmm).pml4
          else if (s.tcb s.currentThread).useVmm then s.kernelPml4 else 0 := by
        rw [huseN, hvmmN, huseP, show W.vmms = s.vmms from hvmms,
          show W.kernelPml4 = s.kernelPml4 from hkernelW]
      show (if (if (W.tcb next).useVmm then (W.vmms (W.tcb next).vmm).pml4
          else if (W.tcb s.currentThread).useVmm then W.kernelPml4 else 0) = 0 then w.cr3
        else (if (W.tcb next).useVmm then (W.vmms (W.tcb next).vmm).pml4
          else if (W.tcb s.currentThread).useVmm then W.kernelPml4 else 0)) = W.pageTable next
      rw [htarget, pageTable_congr (hW next) hvmms hkernelW, show w.cr3 = s.cr3 from
        congrArg Prod.fst hmmu, hcr3]
      unfold pageTable
      cases (s.tcb next).useVmm with
      | true => simp [hpml4]
      | false => cases (s.tcb s.currentThread).useVmm <;> simp [hkernel]
    · -- the descriptor follows only when the thread that comes leaves `schedule()`
      show w.currentVmmDesc = (W.tcb next).vmm
      rw [show w.currentVmmDesc = s.currentVmmDesc from congrArg Prod.snd hmmu, hdesc, hvmmN]
      have hstack : (Kernel.switchTo s.currentThread next W).stack next = s.stack next := by
        show Function.update w.stack s.currentThread _ next = _
        rw [Function.update_of_ne hne', hrel.stack]
        exact Function.update_of_ne hne' _ _
      cases hhead : (s.queue .ready).head with
      | none => exact absurd (hsame hhead (hnone hhead)) hne'
      | some u =>
          obtain rfl := hfirst u hhead
          rcases hkeeps next hhead with hvmm | hwrites'
          · exact hvmm.symm
          · have hfalse : Frame.writesDesc (s.stack next) = false := hstack ▸ hwrites
            cases hfalse.symm.trans hwrites'
  · refine h.keep hw hmmu heq.symm ?_ hvmms hkernelW
    refine (congrFun (congrArg Books.fixed (books_choose (s := w) next none)) _).trans ?_
    exact hfixed _

/-- The current thread has come back from `switch_to`: it writes the descriptor, and reclaims the thread
before it. -/
theorem InSpace.resume (h : InSpace s) {c : Nat} {b : Bool} {k : List Frame}
    (hk : s.stack s.currentThread = .switchTo c b :: k)
    (hprev : ∀ p, s.reclaimed = some p → p ≠ s.currentThread)
    (hloaded : ∀ p, s.reclaimed = some p → (s.tcb p).useVmm = true →
      (s.tcb s.currentThread).vmm ≠ 0 ∧
        (s.vmms (s.tcb s.currentThread).vmm).pml4 = s.pageTable s.currentThread)
    (hr : Kernel.resume n c (s.setStack s.currentThread k) = some s') :
    s'.mmu = (s.pageTable s.currentThread, (s.tcb s.currentThread).vmm) := by
  unfold Kernel.resume at hr
  generalize hs1 : (if c = 0 then s.setStack s.currentThread k else
    { s.setStack s.currentThread k with
      currentVmmDesc := ((s.setStack s.currentThread k).tcb
        (s.setStack s.currentThread k).currentThread).vmm }) = s1 at hr
  have hmmu : s1.mmu = (s.pageTable s.currentThread, (s.tcb s.currentThread).vmm) := by
    rw [← hs1, ← h.cr3]
    by_cases hc : c = 0
    · rw [if_pos hc, ← h.desc (by rw [hk]; simp [Frame.writesDesc, hc])]
      rfl
    · rw [if_neg hc]
      rfl
  have hsame : s1.tcb = s.tcb ∧ s1.reclaimed = s.reclaimed ∧
      s1.currentThread = s.currentThread ∧ s1.vmms = s.vmms := by
    rw [← hs1]
    split <;> exact ⟨rfl, rfl, rfl, rfl⟩
  obtain ⟨htcb, hrec, hcur, hvmms⟩ := hsame
  obtain ⟨hcr3, hdesc⟩ := Prod.mk.inj hmmu
  rw [← hmmu]
  refine mmu_scheduleTail (fun p hp huse => ?_) (fun p hp => ?_) hr
  · obtain ⟨hvmm, hpml4⟩ := hloaded p (hrec ▸ hp) (htcb ▸ huse)
    exact ⟨by rw [hdesc]; exact hvmm, by rw [hdesc, hvmms, hcr3]; exact hpml4⟩
  · rw [hcur]
    exact hprev p (hrec ▸ hp)

/-- The idle thread can always run, so the ready queue is empty only while it does. -/
theorem Orderly.running_of_empty (h : Orderly idle s xs) (hnone : (s.queue .ready).head = none) :
    s.state s.currentThread = .running := by
  have hempty : xs .ready = [] :=
    List.head?_eq_none_iff.mp ((h.sched.listed .ready).head.symm.trans hnone)
  obtain ⟨hblocked, hdead⟩ := h.lock.frames.idleState
  have hidle : s.state idle = .running := by
    cases hst : s.state idle with
    | ready =>
        have hmem := (h.sched.ready_iff idle).mpr ⟨h.lock.frames.idleKnown, hst⟩
        rw [hempty] at hmem
        cases hmem
    | running => rfl
    | blocked => exact absurd hst hblocked
    | terminated => exact absurd hst hdead
  rw [← h.sched.onlyRunning idle h.lock.frames.idleKnown hidle]
  exact hidle

/-- The fixed fields of the current thread are not written while it runs. -/
theorem Orderly.fixed_current (h : Orderly idle s xs) {e : Event} (he : orderly idle s e = true)
    (hs : Kernel.step n e s = some s') :
    (s'.tcb s.currentThread).fixed = (s.tcb s.currentThread).fixed := by
  cases hc : e.creates with
  | true =>
      rcases e with _ | c | _
      · cases hc
      · have hR := h.sched.runningOfCall (enabled_of_step hs)
        have hlive : Alive s s.currentThread := ⟨hR.current, by rw [hR.running]; decide⟩
        cases h.creation he hc hs with
        | none _ hbooks => exact congrFun (congrArg Books.fixed hbooks) s.currentThread
        | freed hf => exact hf.fixed _ fun ht => hf.dead (ht ▸ hlive)
        | started hst => exact hst.fixed _ fun ht => hst.dead (ht ▸ hlive)
      · cases hc
  | false =>
      have hbooks := (congrArg Books.fixed (books_step hs)).trans (fixed_booksAfter hc)
      exact congrFun hbooks s.currentThread

theorem InSpace.step (h : InSpace s) (hO : Orderly idle s xs) {e : Event}
    (he : orderly idle s e = true) (hkeeps : KeepsSpace s e) (hpml4 : ∀ v, (s.vmms v).pml4 ≠ 0)
    (hkernel : s.kernelPml4 ≠ 0) (hs : Kernel.step n e s = some s') : InSpace s' := by
  have hen := enabled_of_step hs
  have hfit := hO.fits he hen
  have hcurrent := (hO.sched.moves hfit hs).current
  have hfixed := hO.fixed_current he hs
  obtain ⟨hvmms, hkernel'⟩ := Prod.mk.inj (tables_booksAfter (s := s) e)
  rw [← books_step hs] at hvmms hkernel'
  -- a step that visits a VMM does so with the current thread at work, so its own tables are loaded
  have hloaded : visitsVmm s e = true → AtWork s → Loaded s := by
    intro hv hw
    obtain ⟨hcr3, hdesc⟩ := h.follows hw
    obtain ⟨hvmm, hpage⟩ := hkeeps.2 hv
    exact ⟨by rw [hdesc]; exact hvmm, by rw [hdesc, hcr3]; exact hpage⟩
  cases e with
  -- a tick comes only outside the places where the tables change
  | tick =>
      have hw : AtWork s := by
        intro f k hk
        have hf := hfit f (hk ▸ List.mem_cons_self)
        cases f <;> first | rfl | cases hf
      rw [Option.some.inj (hs.symm.trans (if_pos hen))]
      exact h.keep hw rfl rfl rfl rfl rfl
  | call c =>
      have hw : AtWork s := by
        intro f k hk
        cases hk.symm.trans hen
      have hcall : Kernel.call n c s = some s' := (if_pos hen).symm.trans hs
      have hcur : s'.currentThread = s.currentThread := hcurrent.resolve_right fun hr => by
        cases hr.1
      exact h.keep hw (mmu_call he (fun hv => hloaded hv hw) hcall) hcur hfixed hvmms hkernel'
  | run =>
      obtain ⟨f, k, hk, hrun⟩ := runFrame_of_step hs
      have hkeep : (f.isSwitch = false) → s'.mmu = s.mmu → s'.currentThread = s.currentThread →
          InSpace s' := by
        intro hf hmmu hcur
        refine h.keep (fun g r hg => ?_) hmmu hcur hfixed hvmms hkernel'
        obtain ⟨rfl, rfl⟩ := List.cons.inj (hk.symm.trans hg)
        exact hf
      have hwait := hO.noWait s.currentThread f (hk ▸ List.mem_cons_self)
      cases f with
      | schedule =>
          exact h.schedule hk hpml4 hkernel (hkeeps.1 rfl (by rw [hk]; rfl)) hO.running_of_empty hrun
      -- the second half of `switch_to`: the thread that has ended is another one
      | switchTo c b =>
          obtain ⟨p, hprev, _, hpc, _⟩ := hO.sched.pending c b k hk
          have hrec : ∀ q, s.reclaimed = some q → q ≠ s.currentThread := by
            intro q hq
            unfold Kernel.reclaimed at hq
            rw [hprev] at hq
            obtain rfl := Option.some.inj (Option.filter_eq_some_iff.mp hq).1
            exact hpc
          have hmmu := h.resume hk hrec (fun q hq huse => hkeeps.2 (by
            simp [visitsVmm, victim, hk, hq, huse])) hrun
          have hcur : s'.currentThread = s.currentThread := by
            refine hcurrent.resolve_right fun hr => ?_
            obtain ⟨_, ⟨r, hr⟩, _⟩ := hr
            cases hk.symm.trans hr
          obtain ⟨hcr3, hdesc⟩ := Prod.mk.inj hmmu
          refine ⟨?_, fun _ => ?_⟩
          · rw [hcr3, hcur, pageTable_congr hfixed hvmms hkernel']
          · rw [hdesc, hcur, (fixed_fields hfixed).2.2.2.2]
      | reclaimed | irq0 | slept | stop =>
          cases hrun
          exact hkeep rfl rfl rfl
      -- in these runs nobody waits for a mutex or a semaphore
      | lockTest | lockTake | waitTest | waitTake => cases hwait

/-! ## Runs -/

section Boot

variable {bootStack idleStack kernelPml4 : Nat} {vmms : Addr → Vmm} {vmmDesc : Addr}
  {counts : Addr → Int}

/-- Behind `init_multitasking` the main thread runs in the kernel's space. -/
theorem inSpace_initMultitasking (hstack : idleStack ≠ 0) (hne : main ≠ idle) : InSpace
    (initMultitasking main idle bootStack idleStack kernelPml4 vmms vmmDesc counts) := by
  let b : Kernel := bootKernel main bootStack kernelPml4 vmms vmmDesc counts
  have hfresh : idle ∉ b.tcbs := fun hm => hne (List.mem_singleton.mp hm).symm
  have hinit : initMultitasking main idle bootStack idleStack kernelPml4 vmms vmmDesc counts =
      startThread idle { Tcb.zero with
        kernelStack := idleStack, stackSize := roundUp 4096
        useVmm := false, vmm := vmmDesc } (allocTcb idle b.disableInterrupts) := if_neg hstack
  have hs := (taken_allocTcb hfresh).started idleStack
    (roundUp 4096) false vmmDesc
  rw [← hinit] at hs
  have hcur : (initMultitasking main idle bootStack idleStack kernelPml4 vmms vmmDesc
      counts).currentThread = main := by
    rw [hinit]
    rfl
  have hkernel : (initMultitasking main idle bootStack idleStack kernelPml4 vmms vmmDesc
      counts).kernelPml4 = kernelPml4 := by
    rw [hinit]
    rfl
  have hmmu : (initMultitasking main idle bootStack idleStack kernelPml4 vmms vmmDesc
      counts).mmu = (kernelPml4, vmmDesc) := mmu_createThread fun h => by cases h
  generalize initMultitasking main idle bootStack idleStack kernelPml4 vmms vmmDesc counts = s
    at hs hcur hkernel hmmu
  obtain ⟨hcr3, hdesc⟩ := Prod.mk.inj hmmu
  obtain ⟨_, _, _, huse, hvmm⟩ := fixed_fields (hs.fixed main hne)
  refine ⟨?_, fun _ => ?_⟩
  · unfold pageTable
    rw [hcr3, hcur, huse, hkernel]
    rfl
  · rw [hdesc, hcur, hvmm]
    rfl

theorem space_follows (hne : main ≠ idle) (hstack : idleStack ≠ 0)
    (hpml4 : ∀ v, (vmms v).pml4 ≠ 0) (hkernel : kernelPml4 ≠ 0) {s : Kernel}
    (h : Reaches (fun s e => orderly idle s e = true ∧ KeepsSpace s e)
      (initMultitasking main idle bootStack idleStack kernelPml4 vmms vmmDesc counts) s)
    (hw : AtWork s) : SpaceFollows s := by
  have hboot : ∃ xs, Booted idle
      (initMultitasking main idle bootStack idleStack kernelPml4 vmms vmmDesc counts) xs :=
    booted_initMultitasking hne hstack
  obtain ⟨xs0, hb⟩ := hboot
  have htables : (initMultitasking main idle bootStack idleStack kernelPml4 vmms vmmDesc
        counts).vmms = vmms ∧
      (initMultitasking main idle bootStack idleStack kernelPml4 vmms vmmDesc
        counts).kernelPml4 = kernelPml4 := by
    rw [show initMultitasking main idle bootStack idleStack kernelPml4 vmms vmmDesc counts =
      startThread idle _ _ from if_neg hstack]
    exact ⟨rfl, rfl⟩
  have hinv : (∃ xs, Orderly idle s xs) ∧ InSpace s ∧ s.vmms = vmms ∧
      s.kernelPml4 = kernelPml4 := by
    refine h.invariant (I := fun s => (∃ xs, Orderly idle s xs) ∧ InSpace s ∧ s.vmms = vmms ∧
      s.kernelPml4 = kernelPml4)
      ⟨⟨xs0, hb.orderly⟩, inSpace_initMultitasking hstack hne, htables⟩ ?_
    rintro t u e n ⟨⟨xs, hO⟩, hI, hv, hk⟩ ⟨he, hkeeps⟩ hs
    obtain ⟨hvmms, hkernel'⟩ := Prod.mk.inj (tables_booksAfter (s := t) e)
    rw [← books_step hs] at hvmms hkernel'
    refine ⟨hO.step he hs, ?_, hvmms.trans hv, hkernel'.trans hk⟩
    exact hI.step hO he hkeeps (fun v => by rw [hv]; exact hpml4 v) (by rw [hk]; exact hkernel) hs
  exact hinv.2.1.follows hw

end Boot

instance (s : Kernel) (e : Event) : Decidable (KeepsSpace s e) :=
  inferInstanceAs (Decidable ((_ → _ → ∀ u ∈ (s.queue .ready).head, _ ∨ _) ∧ (_ → _ ∧ _)))

/-- A thread with the kernel's VMM ends, and the next one, which has started, reclaims it. -/
theorem space_follows_kernel :
    ∃ s, Reaches (fun s e => orderly 2 s e = true ∧ KeepsSpace s e)
        (initMultitasking 1 2 4096 8192 5 (fun _ => ⟨5, false⟩) 7 fun _ => 0) s ∧
      s.numOfFreeTcb = 1 ∧ AtWork s ∧ SpaceFollows s := by
  have hrun : (stepsMeeting 5 (fun s e => orderly 2 s e && decide (KeepsSpace s e))
      [.call (.createThread (some 3) 8192 4096 true 7), .tick, .run, .tick, .run,
        .call .threadExit, .run, .run]
      (initMultitasking 1 2 4096 8192 5 (fun _ => ⟨5, false⟩) 7 (fun _ => 0))).any
        (fun s => s.numOfFreeTcb = 1 && s.stack s.currentThread = [.reclaimed, .irq0]) = true := by
    decide +kernel
  obtain ⟨s, hs, hs1⟩ := (Option.any_eq_true _ _).mp hrun
  simp only [Bool.and_eq_true, decide_eq_true_eq] at hs1
  have h := (reaches_stepsMeeting .start hs).mono fun t e hP => by
    rwa [Bool.and_eq_true, decide_eq_true_eq] at hP
  have hw : AtWork s := by
    intro f k hk
    rw [hs1.2] at hk
    cases hk
    rfl
  exact ⟨s, h, hs1.1, hw, space_follows (by decide) (by decide) (fun _ => by decide) (by decide) h hw⟩

/-- A user thread runs for the first time. -/
theorem space_lags :
    ∃ s, Reaches (fun s e => orderly 2 s e = true)
        (initMultitasking 1 2 4096 8192 5 (fun v => ⟨v, v = 8⟩) 5 fun _ => 0) s ∧
      AtWork s ∧ ¬ SpaceFollows s := by
  have hrun : (stepsMeeting 5 (orderly 2)
      [.call (.createUserThread (some 3) 8192 4096 8), .tick, .run, .tick, .run]
      (initMultitasking 1 2 4096 8192 5 (fun v => ⟨v, v = 8⟩) 5 (fun _ => 0))).any
        (fun s => s.stack s.currentThread = [] && s.currentVmmDesc = 5 &&
          (s.tcb s.currentThread).vmm = 8) = true := by decide +kernel
  obtain ⟨s, hs, hs1⟩ := (Option.any_eq_true _ _).mp hrun
  simp only [Bool.and_eq_true, decide_eq_true_eq] at hs1
  obtain ⟨⟨hnil, hdesc⟩, hvmm⟩ := hs1
  refine ⟨s, reaches_stepsMeeting .start hs, fun f k hk => ?_, fun hf => ?_⟩
  · cases hnil.symm.trans hk
  · have h := hf.2
    rw [hdesc, hvmm] at h
    cases h

end Kernel

end Os003
