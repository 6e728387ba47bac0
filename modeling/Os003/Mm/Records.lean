import Os003.Mm.Vmm

set_option autoImplicit false

/-! # The allocation records

`Vmm_Malloc` writes a record behind the last one, and `Vmm_Free` decrements their number whichever
allocation it frees, so the records are those of the live allocations as long as each `Vmm_Free` frees
what has been recorded last (`records_exact`).
-/

namespace Os003

variable {v w : VirtualMemory} {live : List AllocRecord} {r : AllocRecord} {size : Nat}
  {phys : Nat → Nat}

/-! ## What the operations do to the books -/

/-- `Vmm_Malloc` gives nothing: no size, no addresses left, or no physical page for one of its pages. -/
def Refused (v : VirtualMemory) (size : Nat) (phys : Nat → Nat) : Prop :=
  size = 0 ∨ v.stop < (v.address + pagesFor size * pageSize) % 2 ^ 64 ∨
    ∃ i < pagesFor size, phys i = 0

theorem foldl_pmmFree (phys : Nat → Nat) (is : List Nat) (v : VirtualMemory) :
    ∃ fs, is.foldl (fun v j => v.pmmFree (phys j * pageSize) 1) v = { v with frees := fs } := by
  induction is generalizing v with
  | nil => exact ⟨v.frees, rfl⟩
  | cons i is ih =>
      obtain ⟨fs, hfs⟩ := ih (v.pmmFree (phys i * pageSize) 1)
      exact ⟨fs, hfs⟩

theorem vmmMalloc_refused (h : Refused v size phys) :
    ∃ fs, vmmMalloc size phys v = (none, { v with frees := fs }) := by
  unfold vmmMalloc
  dsimp only
  split
  · exact ⟨v.frees, rfl⟩
  next hsize =>
    split
    · exact ⟨v.frees, rfl⟩
    next hstop =>
      obtain ⟨i, hi, h0⟩ := (h.resolve_left hsize).resolve_left hstop
      cases hfind : (List.range (pagesFor size)).find? fun i => phys i = 0 with
      | some j =>
          obtain ⟨fs, hfs⟩ := foldl_pmmFree phys (List.range j) v
          exact ⟨fs, congrArg _ hfs⟩
      | none =>
          have := List.find?_eq_none.mp hfind i (List.mem_range.mpr hi)
          simp [h0] at this

theorem vmmMalloc_granted (h : ¬ Refused v size phys) : ∃ es, vmmMalloc size phys v =
    (some v.address, { v with
      entry := es
      address := (v.address + pagesFor size * pageSize) % 2 ^ 64
      bytes := v.bytes + BitVec.ofNat 64 (pagesFor size * pageSize)
      pages := v.pages + BitVec.ofNat 64 (pagesFor size)
      allocRecord := Function.update v.allocRecord v.allocRecordNum.toNat
        ⟨v.address, pagesFor size * pageSize⟩
      allocRecordNum := v.allocRecordNum + 1 }) := by
  unfold Refused at h
  push Not at h
  obtain ⟨hsize, hstop, hphys⟩ := h
  unfold vmmMalloc
  dsimp only
  rw [if_neg hsize, if_neg (by omega)]
  have hfind : (List.range (pagesFor size)).find? (fun i => phys i = 0) = none := by
    apply List.find?_eq_none.mpr
    intro i hi
    simpa using hphys i (List.mem_range.mp hi)
  rw [hfind]
  dsimp only
  rw [vmmMapRange_rest]
  exact ⟨_, rfl⟩

/-- `Vmm_Free` goes on to the pages. -/
def InRange (v : VirtualMemory) (virt size : Nat) : Prop :=
  size ≠ 0 ∧ v.start + pageSize ≤ virt ∧ virt ≤ v.address

theorem vmmFree_outside {virt : Nat} (h : ¬ InRange v virt size) : vmmFree virt size v = v := by
  unfold InRange at h
  unfold vmmFree
  split
  · rfl
  · rw [if_pos]
    omega

theorem vmmFree_inside {virt : Nat} (h : InRange v virt size) : ∃ es fs, vmmFree virt size v =
    { v with
      entry := es
      frees := fs
      bytes := v.bytes - BitVec.ofNat 64 (pagesFor size * pageSize)
      pages := v.pages - BitVec.ofNat 64 (pagesFor size)
      allocRecordNum := v.allocRecordNum - 1 } := by
  obtain ⟨hsize, hlow, hhigh⟩ := h
  have hpos : 0 < virt := lt_of_lt_of_le (Nat.add_pos_right _ (by decide)) hlow
  unfold vmmFree
  rw [if_neg (by omega), if_neg (by omega)]
  dsimp only
  rw [freePages_rest]
  exact ⟨_, _, rfl⟩

/-! ## Runs -/

/-- A call of `Vmm_Malloc`, which gets these pages, or a call of `Vmm_Free` for an allocation, with a
size of as many pages as it has. -/
inductive VmmEvent
  | malloc (size : Nat) (phys : Nat → Nat)
  | free (r : AllocRecord) (size : Nat)

/-- The VMM, and the allocations that have not been freed. -/
def recordStep (e : VmmEvent) (v : VirtualMemory) (live : List AllocRecord) :
    Option (VirtualMemory × List AllocRecord) :=
  match e with
  | .malloc size phys =>
      match vmmMalloc size phys v with
      | (some a, v) => some (v, live ++ [⟨a, pagesFor size * pageSize⟩])
      | (none, v) => some (v, live)
  | .free r size =>
      if r ∈ live ∧ pagesFor size * pageSize = r.size then
        some (vmmFree r.address size v, live.erase r)
      else none

/-- The runs of a new VMM whose steps meet `P`. -/
inductive RecordRun (P : VirtualMemory → VmmEvent → Prop) (isUser : Bool) (desc : Nat) :
    VirtualMemory → List AllocRecord → Prop
  | start : RecordRun P isUser desc (VirtualMemory.init isUser desc) []
  | step {v w : VirtualMemory} {live live' : List AllocRecord} {e : VmmEvent}
      (h : RecordRun P isUser desc v live) (hP : P v e) (hs : recordStep e v live = some (w, live')) :
      RecordRun P isUser desc w live'

/-- The first `AllocRecordNum` records are the live allocations, and `Bytes` and `PageSize` the sums
over them. -/
structure ExactRecords (v : VirtualMemory) (live : List AllocRecord) : Prop where
  records : ((List.range v.allocRecordNum.toNat).map v.allocRecord).Perm live
  bytes : v.bytes = BitVec.ofNat 64 (live.map fun r => r.size).sum
  pages : v.pages = BitVec.ofNat 64 (live.map fun r => r.size / pageSize).sum

/-- `Vmm_Free` is called for what the last record holds. -/
def FreesLast (v : VirtualMemory) (r : AllocRecord) (size : Nat) : Prop :=
  InRange v r.address size ∧ v.allocRecord (v.allocRecordNum.toNat - 1) = r

/-- There is room for one more record; the last one is freed first. -/
def InOrder (v : VirtualMemory) : VmmEvent → Prop
  | .malloc _ _ => v.allocRecordNum.toNat + 1 < 2 ^ 32
  | .free r size => FreesLast v r size

theorem exactRecords_init (isUser : Bool) (desc : Nat) :
    ExactRecords (VirtualMemory.init isUser desc) [] :=
  ⟨List.Perm.refl _, rfl, rfl⟩

/-- One more allocation. -/
theorem ExactRecords.malloc (h : ExactRecords v live)
    (hroom : v.allocRecordNum.toNat + 1 < 2 ^ 32) {live' : List AllocRecord}
    (hs : recordStep (.malloc size phys) v live = some (w, live')) : ExactRecords w live' := by
  unfold recordStep at hs
  dsimp only at hs
  by_cases hr : Refused v size phys
  · obtain ⟨fs, hfs⟩ := vmmMalloc_refused hr
    rw [hfs] at hs
    cases hs
    exact ⟨h.records, h.bytes, h.pages⟩
  · obtain ⟨es, hes⟩ := vmmMalloc_granted hr
    rw [hes] at hs
    cases hs
    have hnum : (v.allocRecordNum + 1).toNat = v.allocRecordNum.toNat + 1 := by
      rw [BitVec.toNat_add, show (1 : BitVec 32).toNat = 1 from rfl]
      exact Nat.mod_eq_of_lt hroom
    refine ⟨?_, ?_, ?_⟩
    · show ((List.range (v.allocRecordNum + 1).toNat).map (Function.update v.allocRecord _ _)).Perm _
      rw [hnum, List.range_succ, List.map_append]
      apply List.Perm.append
      · refine List.Perm.trans (List.Perm.of_eq (List.map_congr_left ?_)) h.records
        intro i hi
        exact Function.update_of_ne (List.mem_range.mp hi).ne _ _
      · rw [List.map_singleton, Function.update_self]
    · show v.bytes + _ = _
      rw [h.bytes, List.map_append, List.sum_append, BitVec.ofNat_add, List.map_singleton,
        List.sum_singleton]
    · show v.pages + _ = _
      rw [h.pages, List.map_append, List.sum_append, BitVec.ofNat_add, List.map_singleton,
        List.sum_singleton, Nat.mul_div_cancel _ (by decide)]

/-- After a `Vmm_Free` the records are those of the live allocations exactly if the last one has been
freed. -/
theorem ExactRecords.free_iff (h : ExactRecords v live) {live' : List AllocRecord}
    (hs : recordStep (.free r size) v live = some (w, live')) :
    ExactRecords w live' ↔ FreesLast v r size := by
  unfold recordStep at hs
  dsimp only at hs
  split at hs
  next hfree =>
    obtain ⟨hr, hsize⟩ := hfree
    cases hs
    have hlive : live.Perm (r :: live.erase r) := List.perm_cons_erase hr
    have hlength : v.allocRecordNum.toNat = (live.erase r).length + 1 := by
      have := h.records.length_eq
      rw [List.length_map, List.length_range, hlive.length_eq, List.length_cons] at this
      exact this
    obtain ⟨m, hm⟩ : ∃ m, v.allocRecordNum.toNat = m + 1 := ⟨_, hlength⟩
    -- the records before the last one, and the last one
    have hsplit : (List.range v.allocRecordNum.toNat).map v.allocRecord =
        (List.range m).map v.allocRecord ++ [v.allocRecord m] := by
      rw [hm, List.range_succ, List.map_append, List.map_singleton]
    have hperm : (v.allocRecord m :: (List.range m).map v.allocRecord).Perm (r :: live.erase r) := by
      have := h.records
      rw [hsplit] at this
      exact (List.perm_append_singleton _ _).symm.trans (this.trans hlive)
    by_cases hin : InRange v r.address size
    · obtain ⟨es, fs, hw⟩ := vmmFree_inside hin
      have hnum : (v.allocRecordNum - 1).toNat = m := by
        have hlt := v.allocRecordNum.isLt
        rw [BitVec.toNat_sub, show (1 : BitVec 32).toNat = 1 from rfl]
        omega
      have hpages : pagesFor size = r.size / pageSize := by
        rw [← hsize, Nat.mul_div_cancel _ (by decide)]
      rw [hw]
      constructor
      · intro hexact
        refine ⟨hin, ?_⟩
        have hrest : ((List.range m).map v.allocRecord).Perm (live.erase r) := by
          have := hexact.records
          rwa [hnum] at this
        have hcons : (v.allocRecord m :: (List.range m).map v.allocRecord).Perm
            (r :: (List.range m).map v.allocRecord) := hperm.trans (hrest.symm.cons r)
        have hcoe : v.allocRecord m ::ₘ (((List.range m).map v.allocRecord : List AllocRecord) :
            Multiset AllocRecord) = r ::ₘ ((List.range m).map v.allocRecord : List AllocRecord) :=
          Multiset.coe_eq_coe.mpr hcons
        rw [hm, Nat.add_sub_cancel]
        exact (Multiset.cons_inj_left _).mp hcoe
      · rintro ⟨-, hlast⟩
        rw [hm] at hlast
        refine ⟨?_, ?_, ?_⟩
        · show ((List.range (v.allocRecordNum - 1).toNat).map v.allocRecord).Perm _
          rw [hnum]
          rw [show v.allocRecord m = r from hlast] at hperm
          exact (List.perm_cons r).mp hperm
        · show v.bytes - _ = _
          rw [h.bytes, (hlive.map _).sum_eq, List.map_cons, List.sum_cons, hsize]
          exact ofNat_add_sub _ _
        · show v.pages - _ = _
          rw [h.pages, (hlive.map _).sum_eq, List.map_cons, List.sum_cons, hpages]
          exact ofNat_add_sub _ _
    · rw [vmmFree_outside hin]
      constructor
      · intro hexact
        have := hexact.records.length_eq
        rw [List.length_map, List.length_range] at this
        omega
      · intro hlast
        exact absurd hlast.1 hin
  next => cases hs

/-- In a run that frees the allocation recorded last each time the records are exact, and the first
`Vmm_Free` of another one ends that. -/
theorem records_exact {isUser : Bool} {desc : Nat} (h : RecordRun InOrder isUser desc v live) :
    ExactRecords v live ∧ ∀ r size w live', recordStep (.free r size) v live = some (w, live') →
      (ExactRecords w live' ↔ FreesLast v r size) := by
  have hexact : ExactRecords v live := by
    induction h with
    | start => exact exactRecords_init isUser desc
    | @step v w live live' e _ hP hs ih =>
        cases e with
        | malloc size phys => exact ih.malloc hP hs
        | free r size => exact (ih.free_iff hs).mpr hP
  exact ⟨hexact, fun _ _ _ _ hs => hexact.free_iff hs⟩

instance (v : VirtualMemory) (virt size : Nat) : Decidable (InRange v virt size) :=
  inferInstanceAs (Decidable (_ ∧ _))

instance (v : VirtualMemory) (r : AllocRecord) (size : Nat) : Decidable (FreesLast v r size) :=
  inferInstanceAs (Decidable (_ ∧ _))

instance (v : VirtualMemory) (e : VmmEvent) : Decidable (InOrder v e) :=
  match e with
  | .malloc _ _ => inferInstanceAs (Decidable (_ < _))
  | .free r size => inferInstanceAs (Decidable (FreesLast v r size))

/-- The steps on these events, as long as they meet `P`. -/
def recordSteps (P : VirtualMemory → VmmEvent → Prop) [∀ v e, Decidable (P v e)] :
    List VmmEvent → VirtualMemory → List AllocRecord → Option (VirtualMemory × List AllocRecord)
  | [], v, live => some (v, live)
  | e :: es, v, live =>
      if P v e then (recordStep e v live).bind fun x => recordSteps P es x.1 x.2 else none

theorem recordRun_steps {P : VirtualMemory → VmmEvent → Prop} [∀ v e, Decidable (P v e)]
    {isUser : Bool} {desc : Nat} {es : List VmmEvent} {x : VirtualMemory × List AllocRecord}
    (h : RecordRun P isUser desc v live) (hs : recordSteps P es v live = some x) :
    RecordRun P isUser desc x.1 x.2 := by
  induction es generalizing v live with
  | nil =>
      cases hs
      exact h
  | cons e es ih =>
      unfold recordSteps at hs
      split at hs
      next hP =>
        obtain ⟨y, hy, hs⟩ := Option.bind_eq_some_iff.mp hs
        exact ih (h.step hP hy) hs
      next => cases hs

/-- Two allocations; the first one is freed, and its record stays in the place of the second. -/
theorem records_stale : ∃ v live, RecordRun (fun _ _ => True) false 30 v live ∧
    v.allocRecordNum = 1 ∧ live = [⟨kernelVirtualMemoryStart + 8192, 8192⟩] ∧
    v.allocRecord 0 = ⟨kernelVirtualMemoryStart + 4096, 4096⟩ ∧ ¬ ExactRecords v live := by
  have hrun : (recordSteps (fun _ _ => True) [.malloc 4096 fun _ => 40, .malloc 8192 fun i => 41 + i,
      .free ⟨kernelVirtualMemoryStart + 4096, 4096⟩ 4096] (VirtualMemory.init false 30) []).any
      (fun x => x.1.allocRecordNum = 1 && x.2 = [⟨kernelVirtualMemoryStart + 8192, 8192⟩] &&
        x.1.allocRecord 0 = ⟨kernelVirtualMemoryStart + 4096, 4096⟩) = true := by decide +kernel
  obtain ⟨⟨v, live⟩, hs, hx⟩ := (Option.any_eq_true _ _).mp hrun
  simp only [Bool.and_eq_true, decide_eq_true_eq] at hx
  obtain ⟨⟨hnum, hlive⟩, hrecord⟩ := hx
  refine ⟨v, live, recordRun_steps .start hs, hnum, hlive, hrecord, ?_⟩
  intro h
  have hmem : v.allocRecord 0 ∈ live := by
    apply h.records.mem_iff.mp
    rw [hnum]
    exact List.mem_map_of_mem (List.mem_range.mpr (by decide))
  rw [hrecord, hlive] at hmem
  exact absurd hmem (by decide)

/-- Of two allocations the second one is freed first. -/
theorem records_exact_two : ∃ v, RecordRun InOrder false 30 v
    [⟨kernelVirtualMemoryStart + 4096, 4096⟩] ∧ v.address = kernelVirtualMemoryStart + 16384 ∧
    ExactRecords v [⟨kernelVirtualMemoryStart + 4096, 4096⟩] := by
  have hrun : (recordSteps InOrder [.malloc 4096 fun _ => 40, .malloc 8192 fun i => 41 + i,
      .free ⟨kernelVirtualMemoryStart + 8192, 8192⟩ 8192] (VirtualMemory.init false 30) []).any
      (fun x => x.1.address = kernelVirtualMemoryStart + 16384 &&
        x.2 = [⟨kernelVirtualMemoryStart + 4096, 4096⟩]) = true := by decide +kernel
  obtain ⟨⟨v, live⟩, hs, hx⟩ := (Option.any_eq_true _ _).mp hrun
  simp only [Bool.and_eq_true, decide_eq_true_eq] at hx
  obtain ⟨haddress, rfl⟩ := hx
  have h := recordRun_steps .start hs
  exact ⟨v, h, haddress, (records_exact h).1⟩

/-! ## Where the records are -/

/-- The VMMs with the memory their records are in: a 64-bit word at each address. -/
structure RecordMemory where
  memory : Nat → Nat
  vmm : Addr → VirtualMemory
  /-- `AllocRecord`; the `allocRecord` of a `VirtualMemory` is what an array of its own would hold. -/
  records : Addr → Nat
  /-- The memory allocated for the records of a VMM. -/
  area : Addr → Nat → Bool
  created : List Addr
  /-- The addresses of the records that have been written, with the VMM. -/
  written : List (Addr × Nat)

namespace RecordMemory

/-- `sizeof(VMM_ALLOC_RECORD)`. -/
def recordSize : Nat := 16

/-- `AllocRecord[i]`, as it is read for the VMM. -/
def record (m : RecordMemory) (a : Addr) (i : Nat) : AllocRecord :=
  ⟨m.memory (m.records a + recordSize * i), m.memory (m.records a + recordSize * i + 8)⟩

/-- `Init_Virtual_Memory_Manager` and `Init_User_Virtual_Memory_Manager` in the page `a`: `memset` leaves
`AllocRecord` 0, and no memory is allocated for records. -/
def initVirtualMemoryManager (a : Addr) (isUser : Bool) (desc : Nat) (m : RecordMemory) :
    RecordMemory :=
  { m with
    vmm := Function.update m.vmm a (VirtualMemory.init isUser desc)
    records := Function.update m.records a 0
    area := Function.update m.area a fun _ => false
    created := a :: m.created }

/-- `Vmm_Malloc` under the VMM `a`. -/
def vmmMalloc (a : Addr) (size : Nat) (phys : Nat → Nat) (m : RecordMemory) : RecordMemory :=
  let v := m.vmm a
  match Os003.vmmMalloc size phys v with
  | (none, w) => { m with vmm := Function.update m.vmm a w }
  | (some virt, w) =>
      let last := m.records a + recordSize * v.allocRecordNum.toNat
      { m with
        vmm := Function.update m.vmm a w
        memory := Function.update (Function.update m.memory last virt) (last + 8)
          (pagesFor size * pageSize)
        written := (a, last) :: m.written }

/-- `Vmm_Free` under the VMM `a`. -/
def vmmFree (a : Addr) (virt size : Nat) (m : RecordMemory) : RecordMemory :=
  { m with vmm := Function.update m.vmm a (Os003.vmmFree virt size (m.vmm a)) }

end RecordMemory

/-- What is called under a VMM. -/
inductive RecordCall
  | malloc (size : Nat) (phys : Nat → Nat)
  | free (virt size : Nat)

namespace RecordMemory

def call (a : Addr) (c : RecordCall) (m : RecordMemory) : RecordMemory :=
  match c with
  | .malloc size phys => m.vmmMalloc a size phys
  | .free virt size => m.vmmFree a virt size

def calls (a : Addr) (cs : List RecordCall) (m : RecordMemory) : RecordMemory :=
  cs.foldl (fun m c => m.call a c) m

/-- The states that VMMs and calls under them lead to. -/
inductive Reached : RecordMemory → Prop
  | boot {m : RecordMemory} (h : m.created = []) : Reached m
  | init {m : RecordMemory} (h : Reached m) (a : Addr) (isUser : Bool) (desc : Nat) :
      Reached (m.initVirtualMemoryManager a isUser desc)
  | call {m : RecordMemory} (h : Reached m) (a : Addr) (c : RecordCall) : Reached (m.call a c)

/-- The calls under `a` leave the records of `b` alone and write records to memory allocated for them
only. -/
structure Separate (a b : Addr) (cs : List RecordCall) (m : RecordMemory) : Prop where
  kept : ∀ i, i < (m.vmm b).allocRecordNum.toNat → (m.calls a cs).record b i = m.record b i
  written : ∀ xs, (m.calls a cs).written = xs ++ m.written → ∀ x ∈ xs, ∀ j < recordSize,
    m.area x.1 (x.2 + j) = true

/-- Each `Vmm_Malloc` asks for what it cannot get. -/
def NoneGranted (a : Addr) : List RecordCall → RecordMemory → Prop
  | [], _ => True
  | c :: cs, m => (∀ size phys, c = .malloc size phys → Refused (m.vmm a) size phys) ∧
      NoneGranted a cs (m.call a c)

variable {m : RecordMemory} {a b : Addr} {c : RecordCall} {cs : List RecordCall}

/-- No call changes where records are, and no memory comes for them. -/
theorem call_frame (a : Addr) (c : RecordCall) (m : RecordMemory) :
    (m.call a c).records = m.records ∧ (m.call a c).area = m.area ∧
      (m.call a c).created = m.created := by
  cases c with
  | malloc size phys =>
      simp only [call, vmmMalloc]
      split
      · exact ⟨rfl, rfl, rfl⟩
      · exact ⟨rfl, rfl, rfl⟩
  | free virt size => exact ⟨rfl, rfl, rfl⟩

/-- No memory has ever been allocated for records, and they start at address 0. -/
theorem Reached.unallocated (h : Reached m) (ha : a ∈ m.created) :
    m.records a = 0 ∧ m.area a = fun _ => false := by
  induction h with
  | boot h0 =>
      rw [h0] at ha
      cases ha
  | @init m _ a' isUser desc ih =>
      by_cases haa : a = a'
      · rw [haa]
        exact ⟨Function.update_self _ _ _, Function.update_self _ _ _⟩
      · obtain ⟨h1, h2⟩ := ih ((List.mem_cons.mp ha).resolve_left haa)
        exact ⟨(Function.update_of_ne haa _ _).trans h1, (Function.update_of_ne haa _ _).trans h2⟩
  | @call m _ a' c ih =>
      obtain ⟨h1, h2, h3⟩ := call_frame a' c m
      rw [h3] at ha
      rw [h1, h2]
      exact ih ha

/-- A call that is not granted writes nothing. -/
theorem call_refused (h : ∀ size phys, c = .malloc size phys → Refused (m.vmm a) size phys) :
    (m.call a c).memory = m.memory ∧ (m.call a c).written = m.written := by
  cases c with
  | malloc size phys =>
      obtain ⟨fs, hfs⟩ := vmmMalloc_refused (h size phys rfl)
      simp only [call, vmmMalloc, hfs, and_self]
  | free virt size => exact ⟨rfl, rfl⟩

/-- A call that is granted writes a record. -/
theorem call_granted {size : Nat} {phys : Nat → Nat} (h : ¬ Refused (m.vmm a) size phys) :
    ∃ x, (m.call a (.malloc size phys)).written = (a, x) :: m.written := by
  obtain ⟨es, hes⟩ := vmmMalloc_granted h
  refine ⟨m.records a + recordSize * (m.vmm a).allocRecordNum.toNat, ?_⟩
  simp only [call, vmmMalloc, hes]

theorem calls_refused (h : NoneGranted a cs m) :
    (m.calls a cs).memory = m.memory ∧ (m.calls a cs).records = m.records ∧
      (m.calls a cs).written = m.written := by
  induction cs generalizing m with
  | nil => exact ⟨rfl, rfl, rfl⟩
  | cons c cs ih =>
      obtain ⟨hmemory, hwritten⟩ := call_refused h.1
      obtain ⟨h1, h2, h3⟩ := ih h.2
      exact ⟨h1.trans hmemory, h2.trans (call_frame a c m).1, h3.trans hwritten⟩

/-- Calls only add to what has been written, and add something as soon as one is granted. -/
theorem calls_written (a : Addr) (cs : List RecordCall) (m : RecordMemory) :
    ∃ xs, (m.calls a cs).written = xs ++ m.written ∧ (∀ x ∈ xs, x.1 = a) ∧
      (xs = [] → NoneGranted a cs m) := by
  induction cs generalizing m with
  | nil => exact ⟨[], rfl, by simp, fun _ => trivial⟩
  | cons c cs ih =>
      obtain ⟨xs, hxs, hall, hnone⟩ := ih (m.call a c)
      by_cases h : ∀ size phys, c = .malloc size phys → Refused (m.vmm a) size phys
      · refine ⟨xs, ?_, hall, fun hnil => ⟨h, hnone hnil⟩⟩
        rw [← (call_refused h).2]
        exact hxs
      · push Not at h
        obtain ⟨size, phys, rfl, hgranted⟩ := h
        obtain ⟨x, hx⟩ := call_granted hgranted
        refine ⟨xs ++ [(a, x)], ?_, ?_, fun hnil => by simp at hnil⟩
        · rw [List.append_assoc, List.singleton_append, ← hx]
          exact hxs
        · intro y hy
          obtain hy | hy := List.mem_append.mp hy
          · exact hall y hy
          · rw [List.mem_singleton.mp hy]

/-- The records of the VMMs are separate exactly as long as no `Vmm_Malloc` is granted: no memory is ever
allocated for records. -/
theorem separate_iff (h : Reached m) (ha : a ∈ m.created) :
    Separate a b cs m ↔ NoneGranted a cs m := by
  obtain ⟨-, harea⟩ := h.unallocated ha
  obtain ⟨xs, hxs, hall, hnone⟩ := calls_written a cs m
  constructor
  · intro hs
    apply hnone
    cases xs with
    | nil => rfl
    | cons x xs =>
        have hx := hs.written (x :: xs) hxs x List.mem_cons_self 0 (by decide)
        rw [hall x List.mem_cons_self, harea] at hx
        cases hx
  · intro hn
    obtain ⟨hmemory, hrecords, hwritten⟩ := calls_refused hn
    refine ⟨fun i _ => ?_, fun ys hys y hy => ?_⟩
    · unfold record
      rw [hmemory, hrecords]
    · rw [hwritten] at hys
      have hnil : ys = [] := List.append_left_eq_self.mp hys.symm
      rw [hnil] at hy
      cases hy

/-- Two VMMs; the second has one allocation. -/
def twoVmms (memory : Nat → Nat) : RecordMemory :=
  let m : RecordMemory := ⟨memory, fun _ => VirtualMemory.init false 0, fun _ => 0, fun _ _ => false, [], []⟩
  ((m.initVirtualMemoryManager 1 false 30).initVirtualMemoryManager 2 false 31).call 2
    (.malloc 4096 fun _ => 40)

theorem reached_twoVmms (memory : Nat → Nat) : Reached (twoVmms memory) := by
  unfold twoVmms
  apply Reached.call
  apply Reached.init
  apply Reached.init
  exact Reached.boot rfl

/-- A call under the first VMM that asks for nothing. -/
theorem separate_zero :
    Separate 1 2 [.malloc 0 fun _ => 40] (twoVmms fun _ => 0) :=
  (separate_iff (reached_twoVmms _) (by decide)).mpr
    ⟨fun size phys hc => by cases hc; exact .inl rfl, trivial⟩

/-- The first allocation of the first VMM takes the place of the record of the second VMM. -/
theorem records_overwritten : Reached (twoVmms fun _ => 0) ∧
    (twoVmms fun _ => 0).record 2 0 = ⟨kernelVirtualMemoryStart + 4096, 4096⟩ ∧
    ((twoVmms fun _ => 0).calls 1 [.malloc 8192 fun i => 41 + i]).record 2 0 =
      ⟨kernelVirtualMemoryStart + 4096, 8192⟩ ∧
    ¬ Separate 1 2 [.malloc 8192 fun i => 41 + i] (twoVmms fun _ => 0) := by
  have hbefore : (twoVmms fun _ => 0).record 2 0 = ⟨kernelVirtualMemoryStart + 4096, 4096⟩ := by
    decide +kernel
  have hafter : ((twoVmms fun _ => 0).calls 1 [.malloc 8192 fun i => 41 + i]).record 2 0 =
      ⟨kernelVirtualMemoryStart + 4096, 8192⟩ := by decide +kernel
  refine ⟨reached_twoVmms _, hbefore, hafter, fun h => ?_⟩
  have hkept := h.kept 0 (by decide +kernel)
  rw [hbefore, hafter] at hkept
  exact absurd hkept (by decide)

end RecordMemory

end Os003
