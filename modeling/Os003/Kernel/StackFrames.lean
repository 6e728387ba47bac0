import Os003.Kernel.Fields

set_option autoImplicit false

/-! # First frames and stack tops

A thread starts from a frame of 18 words that `create_thread` or `create_user_thread` writes below
`kernel_stack + stack_size`; the same sum is what `schedule()` installs as the stack for the entries
from user mode. For a kernel thread `stack_size` is the size of its kernel stack. For a user thread
it is the size of the user stack, while the kernel stack has one page.

So the frame and the top belong to the pages of the stack exactly for the sizes in `stackSound_iff`. After
the creation nothing writes the two fields as long as the thread lives (`stackOf_reaches`).
-/

namespace Os003

/-! ## The frame -/

/-- A block of pages from `Pmm_Malloc`. -/
structure StackPages where
  addr : Nat
  pages : Nat
  deriving DecidableEq, Repr

/-- The end of the block. -/
def StackPages.stop (b : StackPages) : Nat := b.addr + b.pages * pageSize

/-- `(stack_bottom - 18 * 8) & ~15ULL`. -/
def stackFrame (stack stackSize : Nat) : Nat :=
  ((stack + stackSize) % 2 ^ 64 + (2 ^ 64 - 18 * 8)) % 2 ^ 64 / 16 * 16

/-- The words of a first frame: the registers are 0, then come rflags, rip and the return address. -/
def frameWords (rip threadExit : Nat) : List Nat := List.replicate 15 0 ++ [0x202, rip, threadExit]

/-- The addresses and words that are written. -/
def frameWrites (frame rip threadExit : Nat) : List (Nat × Nat) :=
  (frameWords rip threadExit).mapIdx fun i w => ((frame + i * 8) % 2 ^ 64, w)

/-- A word at the address is in the block. -/
def StackPages.Holds (b : StackPages) (a : Nat) : Prop := b.addr ≤ a ∧ a + 8 ≤ b.stop

instance (b : StackPages) (a : Nat) : Decidable (b.Holds a) := inferInstanceAs (Decidable (_ ∧ _))

/-- The pages that `CreateKernelThread` asks for; their number is an `int`, and then an `uint32_t`. -/
def kernelStackPages (stackSize : Nat) : Nat := Kernel.roundUp stackSize / pageSize % 2 ^ 32

section Frame

variable {b : StackPages} {frame rip threadExit stackSize : Nat}

theorem length_frameWords : (frameWords rip threadExit).length = 18 := by
  simp [frameWords]

theorem holds_frameWrites : (∀ w ∈ frameWrites frame rip threadExit, b.Holds w.1) ↔
    ∀ i < 18, b.Holds ((frame + i * 8) % 2 ^ 64) := by
  simp only [frameWrites, List.mem_mapIdx, forall_exists_index]
  constructor
  · intro h i hi
    exact h _ i (by rw [length_frameWords]; exact hi) rfl
  · rintro h w i hi rfl
    exact h i (by rwa [length_frameWords] at hi)

/-- When the size that is used is at least that of the block, or the block is one page, the frame is in the
block only if the sizes are equal. -/
theorem frame_holds_iff (rip threadExit : Nat) (hstop : b.stop < 2 ^ 64) (hsize : stackSize < 2 ^ 64)
    (hround : stackSize % pageSize = 0) (hle : b.pages * pageSize ≤ stackSize ∨ b.pages = 1) :
    (∀ w ∈ frameWrites (stackFrame b.addr stackSize) rip threadExit, b.Holds w.1) ↔
      stackSize = b.pages * pageSize ∧ 1 ≤ b.pages := by
  rw [holds_frameWrites]
  unfold StackPages.Holds stackFrame
  unfold StackPages.stop at hstop ⊢
  unfold pageSize at hstop hround hle ⊢
  constructor
  · intro h
    have h0 := h 0 (by omega)
    omega
  · rintro ⟨hsize, hpages⟩ i hi
    omega

end Frame

namespace Kernel

variable {s s' : Kernel} {t u : Addr} {n : Nat}

theorem roundUp_mod (stackSize : Nat) : roundUp stackSize % pageSize = 0 := Nat.mul_mod_left _ _

/-! ## The fields of the stack -/

/-- The kernel stack of each thread and the size that its top is computed with. -/
def stackOf (s : Kernel) (t : Addr) : Nat × Nat := ((s.tcb t).kernelStack, (s.tcb t).stackSize)

/-- The two fields of a TCB. -/
def stackFields (b : Tcb) : Nat × Nat := (b.kernelStack, b.stackSize)

theorem stackOf_eq : s.stackOf = fieldOf stackFields s := rfl

theorem steady_stackFields : Steady stackFields := fun _ _ _ => rfl

theorem Relinked.stackOf (h : Relinked s s') : s'.stackOf = s.stackOf :=
  Relinked.fieldOf steady_stackFields h

@[simp] theorem stackOf_setState (x : ThreadState) : (s.setState u x).stackOf = s.stackOf :=
  (Relinked.setState s u x).stackOf

/-- A new thread has the fields that it was created with. -/
theorem stackOf_startThread (b : Tcb) :
    (startThread u b s).stackOf u = (b.kernelStack, b.stackSize) := by
  have hframe : ∀ v : Kernel, (if b.useVmm then
      (switchVirtualManager (switchVirtualManager b.vmm v).1 (switchVirtualManager b.vmm v).2).2
      else v).stackOf = v.stackOf := by
    intro v
    split
    · rw [stackOf_eq, fieldOf_switchVirtualManager, fieldOf_switchVirtualManager]
      rfl
    · rfl
  have hset : ∀ c : Tcb, (s.setTcb u c).stackOf u = stackFields c := fun c => by
    rw [stackOf_eq, fieldOf_setTcb, Function.update_self]
  rw [startThread, stackOf_eq, fieldOf_enableInterrupts, fieldOf_threadEnqueue steady_stackFields]
  show (registerThread u b s).stackOf u = _
  unfold registerThread
  dsimp only
  rw [hframe]
  by_cases h : s.nextTortPosition < tortSize
  · exact (congrFun (congrArg stackOf (if_pos h)) u).trans (hset _)
  · exact (congrFun (congrArg stackOf (if_neg h)) u).trans (hset _)

/-- As long as a thread lives its stack is where it was. -/
theorem stackOf_reaches (h : Reaches (Keeps t) s s') : s'.stackOf t = s.stackOf t :=
  h.invariant (I := fun v => v.stackOf t = s.stackOf t) rfl
    fun _ _ _ _ hI hP hs => (fieldOf_step steady_stackFields hP (.inl fun _ _ => rfl) hs).trans hI

/-- `schedule()` installs the top of the stack of the thread that it switches to. -/
theorem top_installed {k : List Frame} (hf : s.stack s.currentThread = .schedule :: k)
    (hr : step n .run s = some s') (hcur : s'.currentThread = t) (hne : s.currentThread ≠ t) :
    s'.rsp0 = ((s.stackOf t).1 + (s.stackOf t).2) % 2 ^ 64 ∧
      s'.kernelRsp = ((s.stackOf t).1 + (s.stackOf t).2) % 2 ^ 64 := by
  have hrun : schedule n (s.setStack s.currentThread k) = some s' := by
    simpa only [step, hf, runFrame] using hr
  obtain ⟨w, next, hrel, -, -, ⟨-, rfl⟩ | ⟨hsame, rfl⟩⟩ := schedule_cases hrun
  · obtain rfl : next = t := hcur
    have hstack : ({ w with schedulePrevThread := some (s.setStack s.currentThread k).currentThread
                            currentThread := next }.setState next .running).stackOf = s.stackOf := by
      rw [stackOf_setState]
      exact hrel.stackOf
    rw [← hstack]
    exact ⟨rfl, rfl⟩
  · -- no switch
    exact absurd (hsame.trans hcur) hne

/-! ## Creation and runs -/

/-- A creation that succeeds, by `CreateUserThread` when `user` is set: the thread, the pages of its kernel
stack and the state after the call. `create_user_thread` is called with the size rounded up. -/
inductive Creates (s : Kernel) (stackSize : Nat) : Bool → Addr → StackPages → Kernel → Prop
  | kernel {page : Option Addr} {t stack : Addr} (ht : (takeTcb page s.disableInterrupts).1 = some t)
      (hstack : stack ≠ 0) :
      Creates s stackSize false t ⟨stack, kernelStackPages stackSize⟩
        (createKernelThread page stack stackSize s)
  | user {t kernelStack vmm : Addr} (hstack : kernelStack ≠ 0) :
      Creates s stackSize true t ⟨kernelStack, 1⟩
        (createUserThread (some t) kernelStack (roundUp stackSize) vmm s)

/-- The first frame of the thread is in the pages of its kernel stack, and whenever `schedule()` switches to
the thread while it lives, it installs the end of these pages. -/
structure StackSound (b : StackPages) (t : Addr) (s : Kernel) : Prop where
  frame : ∀ rip threadExit, ∀ w ∈ frameWrites (stackFrame (s.stackOf t).1 (s.stackOf t).2) rip threadExit,
    b.Holds w.1
  top : ∀ u v n k, Reaches (Keeps t) s u → u.stack u.currentThread = .schedule :: k →
    step n .run u = some v → v.currentThread = t → u.currentThread ≠ t →
      v.rsp0 = b.stop ∧ v.kernelRsp = b.stop

theorem Creates.stackOf {stackSize : Nat} {user : Bool} {b : StackPages}
    (h : Creates s stackSize user t b s') : s'.stackOf t = (b.addr, roundUp stackSize) := by
  cases h with
  | @kernel page _ stack ht hstack =>
      unfold createKernelThread createThread
      generalize takeTcb page s.disableInterrupts = taken at ht
      obtain ⟨v, s1⟩ := taken
      obtain rfl : v = some t := ht
      dsimp only
      rw [if_neg hstack, stackOf_startThread]
  | user hstack =>
      unfold createUserThread
      dsimp only
      rw [if_neg hstack, stackOf_startThread]

/-- The stack is sound exactly when the size that is kept is the size of the block. -/
theorem stackSound_iff_size {stackSize : Nat} {b : StackPages} (hs : s.stackOf t = (b.addr, stackSize))
    (hstop : b.stop < 2 ^ 64) (hsize : stackSize < 2 ^ 64) (hround : stackSize % pageSize = 0)
    (hle : b.pages * pageSize ≤ stackSize ∨ b.pages = 1) :
    StackSound b t s ↔ stackSize = b.pages * pageSize ∧ 1 ≤ b.pages := by
  have hframe := fun rip threadExit => frame_holds_iff rip threadExit hstop hsize hround hle
  constructor
  · intro h
    have hin := h.frame 0 0
    rw [hs] at hin
    exact (hframe 0 0).mp hin
  · rintro ⟨heq, hpages⟩
    constructor
    · rw [hs]
      exact fun rip threadExit => (hframe rip threadExit).mpr ⟨heq, hpages⟩
    · intro u v n k hreach hf hr hcur hne
      have htop := top_installed hf hr hcur hne
      rw [stackOf_reaches hreach, hs] at htop
      have hend : (b.addr + stackSize) % 2 ^ 64 = b.stop := by
        rw [heq]
        exact Nat.mod_eq_of_lt hstop
      rwa [hend] at htop

/-- The first frame and the stack top of a new thread belong to its kernel stack exactly when a kernel
thread is asked for with a stack of less than 2^44 bytes, or a user thread with a stack of one page. -/
theorem stackSound_iff {stackSize : Nat} {user : Bool} {b : StackPages}
    (h : Creates s stackSize user t b s') (h1 : 1 ≤ stackSize) (h64 : stackSize < 2 ^ 64)
    (hstop : b.stop < 2 ^ 64) :
    StackSound b t s' ↔ stackSize ≤ if user then 4096 else 2 ^ 44 - 4096 := by
  have hround := roundUp_mod stackSize
  have hstack := h.stackOf
  unfold roundUp at hround hstack
  cases h with
  | kernel ht hne =>
      rw [stackSound_iff_size hstack hstop (by unfold pageSize; omega) hround (.inl ?_)]
      · simp only [kernelStackPages, roundUp, pageSize, Bool.false_eq_true, if_false]
        omega
      · simp only [kernelStackPages, roundUp, pageSize]
        omega
  | user hne =>
      rw [stackSound_iff_size hstack hstop (by unfold pageSize; omega) hround (.inr rfl)]
      simp only [pageSize, if_true]
      omega

/-- The kernel before its first thread, with the TCB of the main thread at 1. -/
def bare : Kernel := bootKernel 1 0x100000 1 (fun _ => ⟨1, false⟩) 1 fun _ => 0

theorem stackSound_kernel :
    StackSound ⟨0x200000, kernelStackPages 5000⟩ 2 (createKernelThread (some 2) 0x200000 5000 bare) :=
  (stackSound_iff (.kernel rfl (by decide)) (by decide) (by decide) (by decide)).mpr (by decide)

/-- A user stack of two pages: the first frame is written behind the one page of the kernel stack. -/
theorem user_frame_outside :
    Creates bare 0x2000 true 2 ⟨0x200000, 1⟩ (createUserThread (some 2) 0x200000 (roundUp 0x2000) 1 bare) ∧
      ¬ StackSound ⟨0x200000, 1⟩ 2 (createUserThread (some 2) 0x200000 (roundUp 0x2000) 1 bare) := by
  have hcreates : Creates bare 0x2000 true 2 ⟨0x200000, 1⟩
      (createUserThread (some 2) 0x200000 (roundUp 0x2000) 1 bare) := .user (by decide)
  refine ⟨hcreates, fun h => ?_⟩
  have hframe := h.frame 0 0
  rw [hcreates.stackOf] at hframe
  revert hframe
  decide

end Kernel

end Os003
