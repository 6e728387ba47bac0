import Os003.Mm.Vmm
import Os003.Kernel.Reclaim

set_option autoImplicit false

/-! # The virtual memory of a killed thread

`KillThread` walks the allocation records of the thread's VMM up to `AllocRecordNum`, which each
`Vmm_Free` decrements, so half of the records are left; then it gives the kernel stack back, through
`Vmm_Free` once more when the stack is virtual. The memory is released when one record at most is
left and it is the one of the stack (`kill_releases`).
-/

namespace Os003

/-- What a call that `KillThread` makes does to the VMM of the thread. -/
def MmCall.run : MmCall → VirtualMemory → VirtualMemory
  | .vmmFreeRecords _, v => freeRecords v
  | .vmmFree address size, v => Os003.vmmFree address size v
  | .pmmFree address pages, v => v.pmmFree address pages

/-- The calls, latest first. -/
def runCalls (cs : List MmCall) (v : VirtualMemory) : VirtualMemory := cs.foldr MmCall.run v

theorem runCalls_killThread (c : MmCall) (a : Addr) (v : VirtualMemory) :
    runCalls [c, .vmmFreeRecords a] v = c.run (freeRecords v) := rfl

/-- The pages of the allocations are unmapped, each physical page behind one of them has been given
back once, and nothing is left in the books of the VMM. -/
structure Released (v : VirtualMemory) (rs : List AllocRecord) (w : VirtualMemory) : Prop where
  unmapped : ∀ r ∈ rs, ∀ p, r.HasPage p → w.entry p = none
  once : ∀ r ∈ rs, ∀ p f, r.HasPage p → v.entry p = some f → w.returned f = v.returned f + 1
  books : w.bytes = 0 ∧ w.pages = 0 ∧ w.allocRecordNum = 0

/-- A stack that goes to `Pmm_Free` leaves one allocation at most to be freed, and no page of it lies
in the pages that are given back for the stack. A stack that goes to `Vmm_Free` is the last of two or
three allocations, unless the call does nothing. -/
def Releasable (stack size : Nat) (v : VirtualMemory) (rs : List AllocRecord) : Prop :=
  if v.isUser = true ∨ stack < kernelVirtualMemoryStart then
    rs.length ≤ 1 ∧ ∀ r ∈ rs, ∀ p f, r.HasPage p → v.entry p = some f →
      ¬ (⟨stack, (if v.isUser then size else size / pageSize) % 2 ^ 32⟩ : Block).HoldsPage f
  else if size = 0 ∨ stack < v.start + pageSize ∨ v.address < stack then rs.length ≤ 1
  else (rs.length = 2 ∨ rs.length = 3) ∧ ∃ r, rs[rs.length - 1]? = some r ∧
    stack / pageSize = r.address / pageSize ∧ pagesFor size = r.size / pageSize

section Memory

variable {v w : VirtualMemory} {rs : List AllocRecord} {stack size k n : Nat}

theorem FreedTo.released (h : FreedTo v rs k w) (hk : rs.length ≤ k) : Released v rs w := by
  have hindex : ∀ r ∈ rs, ∃ j < k, rs[j]? = some r := by
    intro r hr
    obtain ⟨j, hj, rfl⟩ := List.getElem_of_mem hr
    exact ⟨j, by omega, List.getElem?_eq_getElem hj⟩
  have hdrop : rs.drop k = [] := List.drop_eq_nil_of_le hk
  refine ⟨?_, ?_, ?_, ?_, ?_⟩
  · intro r hr p hp
    obtain ⟨j, hj, hget⟩ := hindex r hr
    exact h.unmapped j r p hj hget hp
  · intro r hr p f hp hf
    obtain ⟨j, hj, hget⟩ := hindex r hr
    exact h.back j r p f hj hget hp hf
  · rw [h.bytes, hdrop]
    rfl
  · rw [h.pages, hdrop]
    rfl
  · apply BitVec.eq_of_toNat_eq
    rw [h.num]
    show rs.length - k = 0
    omega

/-- Records that are left are counted. -/
theorem FreedTo.not_released (h : FreedTo v rs k w) (hk : k < rs.length) : ¬ Released v rs w := by
  intro hr
  have hnum := h.num
  rw [hr.books.2.2] at hnum
  have : (0 : BitVec 32).toNat = 0 := rfl
  omega

theorem FreedTo.released_iff (h : FreedTo v rs ((rs.length + 1) / 2) w) :
    Released v rs w ↔ rs.length ≤ 1 := by
  constructor
  · intro hr
    by_contra hlen
    exact h.not_released (by omega) hr
  · intro hlen
    exact h.released (by omega)

theorem returned_pmmFree (addr pages f : Nat) (w : VirtualMemory) :
    (w.pmmFree addr pages).returned f =
      w.returned f + if (⟨addr, pages % 2 ^ 32⟩ : Block).HoldsPage f then 1 else 0 := by
  show List.countP _ (_ :: w.frees) = _
  rw [List.countP_cons]
  simp only [decide_eq_true_eq]
  rfl

/-- Pages given back to the page allocator for the stack are given back once more. -/
theorem released_pmmFree_iff (h : FreedTo v rs ((rs.length + 1) / 2) w) (addr pages : Nat) :
    Released v rs (w.pmmFree addr pages) ↔ rs.length ≤ 1 ∧ ∀ r ∈ rs, ∀ p f, r.HasPage p →
      v.entry p = some f → ¬ (⟨addr, pages % 2 ^ 32⟩ : Block).HoldsPage f := by
  constructor
  · intro hr
    have hlen : rs.length ≤ 1 := by
      by_contra hlen
      have hnum : w.allocRecordNum = 0 := hr.books.2.2
      have := h.num
      rw [hnum] at this
      have hzero : (0 : BitVec 32).toNat = 0 := rfl
      omega
    refine ⟨hlen, fun r hmem p f hp hf hin => ?_⟩
    have hall := h.released (by omega)
    have honce := hr.once r hmem p f hp hf
    rw [returned_pmmFree, hall.once r hmem p f hp hf, if_pos hin] at honce
    omega
  · rintro ⟨hlen, hout⟩
    have hall := h.released (by omega)
    refine ⟨hall.unmapped, fun r hmem p f hp hf => ?_, hall.books⟩
    rw [returned_pmmFree, hall.once r hmem p f hp hf, if_neg (hout r hmem p f hp hf)]

/-- The call that does nothing. -/
theorem vmmFree_nothing (h : size = 0 ∨ stack < w.start + pageSize ∨ w.address < stack) :
    vmmFree stack size w = w := by
  unfold vmmFree
  by_cases hzero : stack = 0 ∨ size = 0
  · rw [if_pos hzero]
  · rw [if_neg hzero, if_pos (by omega)]

/-- What the books of the VMM say after a call for a stack in the range of the VMM. -/
theorem vmmFree_books (hsize : size ≠ 0) (hlow : w.start + pageSize ≤ stack)
    (hhigh : stack ≤ w.address) :
    (vmmFree stack size w).entry = (freePages stack (pagesFor size) w).entry ∧
      (vmmFree stack size w).bytes = w.bytes - BitVec.ofNat 64 (pagesFor size * pageSize) ∧
      (vmmFree stack size w).allocRecordNum = w.allocRecordNum - 1 := by
  unfold vmmFree
  rw [if_neg (by simp only [pageSize] at hlow; omega), if_neg (by omega)]
  dsimp only
  have hrest := freePages_rest stack (pagesFor size) w
  generalize freePages stack (pagesFor size) w = x at hrest ⊢
  refine ⟨rfl, ?_, ?_⟩
  · show x.bytes - _ = _
    rw [hrest]
  · show x.allocRecordNum - 1 = _
    rw [hrest]

/-- Pages that wrap around or start elsewhere are not the pages of the allocation. -/
theorem start_of_covered {a s m : Nat} (hm : 1 ≤ m) (ha : m < a) (hwrap : a + m ≤ 2 ^ 52)
    (hs : s < 2 ^ 52)
    (hcover : ∀ p, a ≤ p → p < a + m → ∃ i < m, (s + i) % 2 ^ 52 = p) : s = a := by
  obtain ⟨i, hi, hfirst⟩ := hcover a le_rfl (by omega)
  obtain ⟨j, hj, hlast⟩ := hcover (a + m - 1) (by omega) (by omega)
  omega

/-- A stack that goes to `Vmm_Free`. -/
theorem released_vmmFree_iff (hL : Live v rs) (h : FreedTo v rs ((rs.length + 1) / 2) w)
    (hkernel : v.isUser = false)
    (hsize : size ≠ 0) (hlow : v.start + pageSize ≤ stack) (hhigh : stack ≤ v.address) :
    Released v rs (vmmFree stack size w) ↔ (rs.length = 2 ∨ rs.length = 3) ∧
      ∃ r, rs[rs.length - 1]? = some r ∧ stack / pageSize = r.address / pageSize ∧
        pagesFor size = r.size / pageSize := by
  have hstart : w.start = v.start := by
    unfold VirtualMemory.start
    rw [h.isUser]
  have hlowW : w.start + pageSize ≤ stack := by
    rw [hstart]
    exact hlow
  have hhighW : stack ≤ w.address := by
    rw [h.address]
    exact hhigh
  obtain ⟨hentry, hbytes, hnum⟩ := vmmFree_books hsize hlowW hhighW
  constructor
  · intro hr
    -- the number of records has come to 0, so one was left
    have hleft : rs.length - (rs.length + 1) / 2 = 1 := by
      have hzero := hr.books.2.2
      rw [hnum] at hzero
      have hone : w.allocRecordNum = 1 := by
        have := congrArg (· + 1) hzero
        simpa using this
      rw [← h.num, hone]
      rfl
    have hlen : rs.length = 2 ∨ rs.length = 3 := by omega
    have hk : (rs.length + 1) / 2 = rs.length - 1 := by omega
    have hlt : rs.length - 1 < rs.length := by omega
    refine ⟨hlen, rs[rs.length - 1], List.getElem?_eq_getElem hlt, ?_⟩
    have hget : rs[rs.length - 1]? = some rs[rs.length - 1] := List.getElem?_eq_getElem hlt
    have hdrop : rs.drop (rs.length - 1) = [rs[rs.length - 1]] := by
      rw [List.drop_eq_getElem_cons hlt, List.drop_eq_nil_of_le (by omega)]
    have hmem : rs[rs.length - 1] ∈ rs := List.getElem_mem hlt
    generalize rs[rs.length - 1] = r at hget hdrop hmem ⊢
    obtain ⟨_, hwhole, hwrap, hone, hbound⟩ := hL.pagesFor hmem
    have hpages : pagesFor size = r.size / pageSize := by
      have hzero := hr.books.1
      rw [hbytes, h.bytes, hk, hdrop] at hzero
      have hsum : ([r].map fun r => r.size).sum = r.size := by simp
      rw [hsum] at hzero
      have heq : BitVec.ofNat 64 r.size = BitVec.ofNat 64 (pagesFor size * pageSize) := by
        have := congrArg (· + BitVec.ofNat 64 (pagesFor size * pageSize)) hzero
        simpa using this
      have hnat := congrArg BitVec.toNat heq
      rw [BitVec.toNat_ofNat, BitVec.toNat_ofNat, Nat.mod_eq_of_lt hbound] at hnat
      unfold pagesFor at hnat ⊢
      simp only [pageSize] at hnat ⊢
      omega
    refine ⟨?_, hpages⟩
    have hinside := hL.inside r hmem
    have hbase : v.start = kernelVirtualMemoryStart := by
      unfold VirtualMemory.start
      rw [hkernel]
      rfl
    have haddr := hL.bound.1
    refine start_of_covered hone ?_ hwrap ?_ ?_
    · simp only [hbase, kernelVirtualMemoryStart, pageSize] at hinside hwhole ⊢
      omega
    · simp only [pageSize]
      omega
    · intro p h1 h2
      have hp : r.HasPage p := ⟨h1, h2⟩
      obtain ⟨f, _, hf⟩ := hL.mapped r hmem p hp
      have hw : w.entry p = some f := by
        rw [h.entry_next hL (hk ▸ hget) hp]
        exact hf
      have hnone := hr.unmapped r hmem p hp
      rw [hentry] at hnone
      rcases freePages_entry stack (pagesFor size) p w with hsame | ⟨_, i, hi, hpage⟩
      · rw [hsame, hw] at hnone
        cases hnone
      · refine ⟨i, hpages ▸ hi, ?_⟩
        rw [← hpage]
        simp only [pageSize]
        omega
  · rintro ⟨hlen, r, hget, hpage, hpages⟩
    have hk : (rs.length + 1) / 2 = rs.length - 1 := by omega
    rw [hk] at h
    have hfreed := h.step hL hget hpage hpages hsize ⟨hlow, hhigh⟩
    exact hfreed.released (by omega)

end Memory

/-! ## KillThread -/

namespace Kernel

variable {s : Kernel} {xs : QueueId → List Addr} {t : Addr} {n : Nat}

/-- The calls for a thread that uses its VMM. -/
theorem mmCalls_releaseMemory_of_useVmm (huse : (s.tcb t).useVmm = true) :
    (releaseMemory t s).mmCalls =
      stackCall s t :: .vmmFreeRecords (s.tcb t).vmm :: s.mmCalls := by
  have hvmms : ((switchVirtualManager (s.tcb t).vmm s).2.mmCall
      (.vmmFreeRecords (s.tcb t).vmm)).vmms = s.vmms :=
    congrArg Books.vmms (books_switchVirtualManager (s := s) (s.tcb t).vmm)
  have hcalls : ((switchVirtualManager (s.tcb t).vmm s).2.mmCall
      (.vmmFreeRecords (s.tcb t).vmm)).mmCalls = .vmmFreeRecords (s.tcb t).vmm :: s.mmCalls :=
    congrArg (List.cons _) (mmCalls_switchVirtualManager _)
  unfold releaseMemory stackCall
  dsimp only
  rw [if_pos huse, if_pos huse, mmCalls_switchVirtualManager, hvmms]
  split
  · exact congrArg (List.cons _) hcalls
  · split <;> exact congrArg (List.cons _) hcalls

/-- `KillThread` returns, and its calls for the memory are those of the thread. -/
theorem killThread_mmCalls (h : Queues s xs) (t : Addr) (huse : (s.tcb t).useVmm = true) :
    ∃ s', Settles (fun n => killThread n t s) s' ∧
      s'.mmCalls = stackCall s t :: .vmmFreeRecords (s.tcb t).vmm :: s.mmCalls := by
  let s1 := s.disableInterrupts.setState t .terminated
  have hrel1 : Relinked s.disableInterrupts s1 := Relinked.setState _ _ _
  have hq1 : Queues s1 xs := h.congr (next_setState _) rfl
  obtain ⟨s2, hrun2, hrel2, _, hq2⟩ := removeFromSleepQueue_spec hq1 t
  have hrel : Relinked s.disableInterrupts s2 := hrel1.trans hrel2
  have htcb : (s2.tcb t).useVmm = true ∧ (s2.tcb t).vmm = (s.tcb t).vmm := by
    rw [hrel.tcb t]
    exact ⟨huse, rfl⟩
  let s3 := releaseMemory t s2
  have hcalls : s3.mmCalls = stackCall s t :: .vmmFreeRecords (s.tcb t).vmm :: s.mmCalls := by
    rw [mmCalls_releaseMemory_of_useVmm htcb.1, hrel.stackCall t, htcb.2, hrel.rest]
    rfl
  have hpool : ∀ u : Kernel, (poolTcb t u).mmCalls = u.mmCalls := by
    intro u
    unfold poolTcb
    dsimp only
    split <;> rfl
  by_cases hc : t = s3.currentThread
  · refine ⟨((poolTcb t s3).enableInterrupts.push .stop).push .schedule, ?_, ?_⟩
    · refine Settles.bind hrun2 (Settles.congr (fun n => ?_) (Settles.const _))
      exact if_pos hc
    · exact (hpool s3).trans hcalls
  · have hag := agrees_releaseMemory t s2
    have hq3 := hq2.congr hag.next hag.queue
    obtain ⟨s4, hrun4, hrel4, _⟩ := removeFromReadyQueue_spec hq3 t
    refine ⟨(poolTcb t s4).enableInterrupts, ?_, ?_⟩
    · refine Settles.bind hrun2 ?_
      refine Settles.congr (g := fun n => (removeFromReadyQueue n t s3).bind
        fun s => some (poolTcb t s).enableInterrupts) ?_ (Settles.bind hrun4 (Settles.const _))
      intro n
      exact if_neg hc
    · refine (hpool s4).trans ?_
      rw [hrel4.rest]
      exact hcalls

/-- `KillThread` on a thread with a VMM that holds the allocations `rs`. -/
theorem kill_releases (h : Queues s xs) (huse : (s.tcb t).useVmm = true) {v : VirtualMemory}
    {rs : List AllocRecord} (hL : Live v rs) (huser : v.isUser = (s.vmms (s.tcb t).vmm).isUser) :
    ∃ s' calls, Settles (fun n => killThread n t s) s' ∧ s'.mmCalls = calls ++ s.mmCalls ∧
      (Released v rs (runCalls calls v) ↔
        Releasable (s.tcb t).kernelStack (s.tcb t).stackSize v rs) := by
  obtain ⟨s', hrun, hcalls⟩ := killThread_mmCalls h t huse
  refine ⟨s', [stackCall s t, .vmmFreeRecords (s.tcb t).vmm], hrun, hcalls, ?_⟩
  have hfreed := freeRecords_spec hL
  rw [runCalls_killThread]
  generalize freeRecords v = w at hfreed
  unfold stackCall Releasable
  dsimp only
  rw [if_pos huse, ← huser]
  by_cases hu : v.isUser = true
  · rw [if_pos hu, if_pos (.inl hu), if_pos hu]
    exact released_pmmFree_iff hfreed _ _
  · rw [if_neg hu, if_neg hu]
    by_cases hstack : kernelVirtualMemoryStart ≤ (s.tcb t).kernelStack
    · rw [if_pos hstack, if_neg (by rintro (hu' | hlt); exacts [hu hu', by omega])]
      have hstart : w.start = v.start := by
        unfold VirtualMemory.start
        rw [hfreed.isUser]
      by_cases hout : (s.tcb t).stackSize = 0 ∨ (s.tcb t).kernelStack < v.start + pageSize ∨
          v.address < (s.tcb t).kernelStack
      · rw [if_pos hout]
        show Released v rs (vmmFree _ _ w) ↔ _
        rw [vmmFree_nothing (by rw [hstart, hfreed.address]; exact hout)]
        exact hfreed.released_iff
      · rw [if_neg hout]
        exact released_vmmFree_iff hL hfreed (Bool.eq_false_iff.mpr hu) (by omega) (by omega)
          (by omega)
    · rw [if_neg hstack, if_pos (.inr (by omega))]
      exact released_pmmFree_iff hfreed _ _

/-- An allocation of a page. -/
theorem live_malloc_one : Live (vmmMalloc 4096 (fun _ => 40) (VirtualMemory.init false 30)).2
    [⟨kernelVirtualMemoryStart + 4096, 4096⟩] := by
  have hv : vmmMalloc 4096 (fun _ => 40) (VirtualMemory.init false 30) =
      (some (kernelVirtualMemoryStart + 4096),
        (vmmMalloc 4096 (fun _ => 40) (VirtualMemory.init false 30)).2) :=
    Prod.ext (by decide +kernel) rfl
  refine (live_init false 30).malloc hv (by decide) (by decide) (by decide) ?_ ?_
  · intro i _ r hr
    cases hr
  · have hone : pagesFor 4096 = 1 := by decide
    intro i hi j hj _
    omega

/-- And one of another page behind it. -/
theorem live_malloc_two : Live (vmmMalloc 4096 (fun _ => 41)
      (vmmMalloc 4096 (fun _ => 40) (VirtualMemory.init false 30)).2).2
    [⟨kernelVirtualMemoryStart + 4096, 4096⟩, ⟨kernelVirtualMemoryStart + 8192, 4096⟩] := by
  have hw : vmmMalloc 4096 (fun _ => 41) (vmmMalloc 4096 (fun _ => 40)
        (VirtualMemory.init false 30)).2 = (some (kernelVirtualMemoryStart + 8192),
      (vmmMalloc 4096 (fun _ => 41) (vmmMalloc 4096 (fun _ => 40)
        (VirtualMemory.init false 30)).2).2) :=
    Prod.ext (by decide +kernel) rfl
  refine live_malloc_one.malloc hw (by decide) (by decide +kernel) (by decide) ?_ ?_
  · intro i _ r hr p hp
    obtain rfl := List.mem_singleton.mp hr
    obtain rfl : p = kernelVirtualMemoryStart / pageSize + 1 := by
      simp only [AllocRecord.HasPage, kernelVirtualMemoryStart, pageSize] at hp ⊢
      omega
    decide +kernel
  · have hone : pagesFor 4096 = 1 := by decide
    intro i hi j hj _
    omega

/-- A thread with a virtual stack has been created. -/
theorem created_virtual_stack (stack : Nat)
    (hstack : stack = kernelVirtualMemoryStart + 4096 ∨ stack = kernelVirtualMemoryStart + 8192) :
    ∃ s xs, Reaches (fun s e => orderly 2 s e = true)
        (initMultitasking 1 2 4096 8192 0 (fun _ => ⟨0, false⟩) 7 fun _ => 0) s ∧ Queues s xs ∧
      (s.tcb 3).useVmm = true ∧ (s.vmms (s.tcb 3).vmm).isUser = false ∧
      (s.tcb 3).kernelStack = stack ∧ (s.tcb 3).stackSize = 4096 := by
  have hrun : ((killSteps 5 (orderly 2) [.call (.createThread (some 3) stack 4096 true 9)]
      (initMultitasking 1 2 4096 8192 0 (fun _ => ⟨0, false⟩) 7 (fun _ => 0), [])).any fun x =>
        (x.1.tcb 3).useVmm && !(x.1.vmms (x.1.tcb 3).vmm).isUser &&
          decide ((x.1.tcb 3).kernelStack = stack ∧ (x.1.tcb 3).stackSize = 4096)) = true := by
    rcases hstack with rfl | rfl <;> decide +kernel
  obtain ⟨x, hx, hy⟩ := (Option.any_eq_true _ _).mp hrun
  simp only [Bool.and_eq_true, Bool.not_eq_true', decide_eq_true_eq] at hy
  obtain ⟨⟨huse, huser⟩, hstack, hsize⟩ := hy
  have hboot : ∃ xs, Booted 2
      (initMultitasking 1 2 4096 8192 0 (fun _ => ⟨0, false⟩) 7 fun _ => 0) xs :=
    booted_initMultitasking (by decide) (by decide)
  have hreach := (killRun_killSteps .start hx).reaches
  obtain ⟨xs, hO⟩ := orderly_reaches (fun _ _ h => h) hboot hreach
  exact ⟨x.1, xs, hreach, hO.sched.toQueues, huse, huser, hstack, hsize⟩

/-- The stack is the second of two allocations. -/
theorem kill_releases_two : ∃ s s' calls v,
    Settles (fun n => killThread n 3 s) s' ∧ s'.mmCalls = calls ++ s.mmCalls ∧
      Released v [⟨kernelVirtualMemoryStart + 4096, 4096⟩,
        ⟨kernelVirtualMemoryStart + 8192, 4096⟩] (runCalls calls v) := by
  obtain ⟨s, xs, _, hQ, huse, huser, hstack, hsize⟩ := created_virtual_stack _ (.inr rfl)
  have hkernel : (vmmMalloc 4096 (fun _ => 41)
      (vmmMalloc 4096 (fun _ => 40) (VirtualMemory.init false 30)).2).2.isUser = false := by
    decide +kernel
  obtain ⟨s', calls, hrun, hcalls, hiff⟩ :=
    kill_releases hQ huse live_malloc_two (hkernel.trans huser.symm)
  refine ⟨s, s', calls, _, hrun, hcalls, hiff.mpr ?_⟩
  rw [hstack, hsize]
  unfold Releasable
  rw [if_neg (by rw [hkernel]; decide +kernel), if_neg (by decide +kernel)]
  exact ⟨.inl rfl, ⟨kernelVirtualMemoryStart + 8192, 4096⟩, rfl, rfl, rfl⟩

/-- The thread of the command `uvmth`: its stack is the only allocation of its VMM, so it is freed
twice, and the number of records goes below 0. -/
theorem uvmth_not_released : ∃ s xs v, Reaches (fun s e => orderly 2 s e = true)
      (initMultitasking 1 2 4096 8192 0 (fun _ => ⟨0, false⟩) 7 fun _ => 0) s ∧ Queues s xs ∧
    (s.tcb 3).useVmm = true ∧ v.isUser = (s.vmms (s.tcb 3).vmm).isUser ∧
    Live v [⟨kernelVirtualMemoryStart + 4096, 4096⟩] ∧
    ∀ s' calls, Settles (fun n => killThread n 3 s) s' → s'.mmCalls = calls ++ s.mmCalls →
      ¬ Released v [⟨kernelVirtualMemoryStart + 4096, 4096⟩] (runCalls calls v) := by
  obtain ⟨s, xs, hreach, hQ, huse, huser, hstack, hsize⟩ := created_virtual_stack _ (.inl rfl)
  have hkernel : (vmmMalloc 4096 (fun _ => 40) (VirtualMemory.init false 30)).2.isUser = false := by
    decide +kernel
  refine ⟨s, xs, _, hreach, hQ, huse, hkernel.trans huser.symm, live_malloc_one, ?_⟩
  intro s' calls hrun hcalls hr
  obtain ⟨s'', hrun', hcalls'⟩ := killThread_mmCalls hQ 3 huse
  obtain ⟨n, hn⟩ := hrun.ends
  obtain rfl := hrun'.result hn
  have hmade : calls = [stackCall s 3, .vmmFreeRecords (s.tcb 3).vmm] :=
    List.append_cancel_right (hcalls.symm.trans hcalls')
  have hcall : stackCall s 3 = .vmmFree (kernelVirtualMemoryStart + 4096) 4096 := by
    unfold stackCall
    dsimp only
    rw [huse, huser, hstack, hsize]
    rfl
  have hnum := hr.books.2.2
  rw [hmade, hcall, runCalls_killThread] at hnum
  exact absurd hnum (by decide +kernel)

end Kernel

end Os003
