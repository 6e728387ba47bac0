import Os003.Kernel.Orderly

set_option autoImplicit false

/-! # System calls

`syscall_entry` keeps the context of its caller in `syscall_cpu`, which it reaches through `swapgs`.
There is one `syscall_cpu`, and `switch_to` does not exchange the bases of `%gs`, so a call that is left
inside `syscall_dispatch` leaves them exchanged: the next thread that makes a call exchanges them back
and works on what lies at the other base, and whoever returns first takes the context of the other
(`overlapping_calls`). When no thread makes a call before the call of another one has come back, each
`sysretq` has the context of its own call (`sysret_restores`).
-/

namespace Os003

/-- What `syscall` leaves in registers and `sysretq` takes from them. -/
structure UserContext where
  rsp : Nat
  rip : Nat
  rflags : Nat
  deriving DecidableEq, Repr

/-- `syscall_cpu_t` without `kernel_rsp`. -/
structure SyscallCpu where
  userRsp : Nat
  userRcx : Nat
  userR11 : Nat
  deriving DecidableEq, Repr

/-- Where `%gs` leads: to `syscall_cpu`, or to the address that GS.base had at boot. -/
inductive GsBase
  | syscallCpu
  | boot
  deriving DecidableEq, Repr

/-- `swapgs`. -/
def GsBase.swap : GsBase → GsBase
  | .syscallCpu => .boot
  | .boot => .syscallCpu

/-- Where a thread is in `syscall_entry`. -/
inductive SyscallPlace
  | outside
  /-- In `syscall_dispatch`, on the kernel stack with this top. -/
  | dispatch (top : Nat)
  /-- Behind the load of `%r11`. -/
  | r11 (rflags : Nat)
  /-- Behind the load of `%rcx`. -/
  | rcx (rflags rip : Nat)
  /-- Behind the load of `%rsp`. -/
  | rsp (c : UserContext)
  /-- Behind the second `swapgs`, at `sysretq`. -/
  | sysret (c : UserContext)
  deriving DecidableEq, Repr

/-- The kernel with the state of system calls. Threads are told apart by their ids. -/
structure Machine where
  kernel : Kernel
  gs : GsBase
  area : GsBase → SyscallCpu
  /-- What lies at the base of boot, where `syscall_cpu` has `kernel_rsp`. -/
  bootTop : Nat
  place : Nat → SyscallPlace
  /-- The context with which the thread has made its last call. -/
  entered : Nat → UserContext

def sysExit : UInt64 := 1

def sysSleep : UInt64 := 2

def sysYield : UInt64 := 3

def sysPutchar : UInt64 := 4

/-- `syscall_dispatch`, up to the place from which the thread goes on; what it prints and returns is left
out. -/
def syscallDispatch (fuel : Nat) (nr arg1 : UInt64) (s : Kernel) : Option Kernel :=
  if nr = sysExit then Kernel.threadExit fuel s
  else if nr = sysYield then some (s.push .schedule)
  else if nr = sysPutchar then some s
  else if nr = sysSleep then some (Kernel.threadSleepMs arg1 s)
  else some s

namespace Machine

/-- The id of the current thread. -/
def current (m : Machine) : Nat := (m.kernel.tcb m.kernel.currentThread).id

/-- The current thread is not inside a function of the kernel. -/
def AtOwn (m : Machine) : Prop := m.kernel.stack m.kernel.currentThread = []

instance (m : Machine) : Decidable m.AtOwn := inferInstanceAs (Decidable (_ = _))

/-- `movq %gs:0, %rsp`. -/
def kernelTop (m : Machine) : Nat :=
  match m.gs with
  | .syscallCpu => m.kernel.kernelRsp
  | .boot => m.bootTop

def setPlace (p : SyscallPlace) (m : Machine) : Machine :=
  { m with place := Function.update m.place m.current p }

/-- `syscall`, and `syscall_entry` up to the call of `syscall_dispatch`; interrupts are off. -/
def syscallEntry (c : UserContext) (m : Machine) : Machine :=
  let m := { m with kernel := m.kernel.disableInterrupts, gs := m.gs.swap }
  let m := { m with area := Function.update m.area m.gs ⟨c.rsp, c.rip, c.rflags⟩ }
  { m.setPlace (.dispatch m.kernelTop) with entered := Function.update m.entered m.current c }

/-- The next instruction of `syscall_entry` behind the call of `syscall_dispatch`. -/
def syscallLeave (m : Machine) : Option Machine :=
  match m.place m.current with
  | .outside => none
  | .dispatch _ => some (m.setPlace (.r11 (m.area m.gs).userR11))
  | .r11 rflags => some (m.setPlace (.rcx rflags (m.area m.gs).userRcx))
  | .rcx rflags rip => some (m.setPlace (.rsp ⟨(m.area m.gs).userRsp, rip, rflags⟩))
  | .rsp c => some { m.setPlace (.sysret c) with gs := m.gs.swap }
  | .sysret c =>
      let m := m.setPlace .outside
      some { m with kernel := { m.kernel with interrupts := c.rflags.testBit 9 } }

end Machine

/-- What can happen next: a system call, an instruction on the way back from one, or an event of the
kernel. -/
inductive MachineEvent
  | syscall (c : UserContext) (nr arg1 : UInt64)
  | leave
  | kernel (e : Event)
  deriving DecidableEq, Repr

namespace Machine

/-- Calls of the kernel's functions are made outside system calls only. -/
def step (fuel : Nat) (e : MachineEvent) (m : Machine) : Option Machine :=
  match e with
  | .syscall c nr arg1 =>
      if m.AtOwn ∧ m.place m.current = .outside then
        let m := m.syscallEntry c
        (syscallDispatch fuel nr arg1 m.kernel).map fun k => { m with kernel := k }
      else none
  | .leave => if m.AtOwn then m.syscallLeave else none
  | .kernel (.call c) =>
      if m.place m.current = .outside then
        (Kernel.step fuel (.call c) m.kernel).map fun k => { m with kernel := k }
      else none
  | .kernel e => (Kernel.step fuel e m.kernel).map fun k => { m with kernel := k }

/-- The runs from `m` whose steps meet `P`. -/
inductive Run (P : Machine → MachineEvent → Prop) (m : Machine) : Machine → Prop
  | start : Run P m m
  | step {u v : Machine} {e : MachineEvent} {n : Nat} (h : Run P m u) (hP : P u e)
      (hs : Machine.step n e u = some v) : Run P m v

/-- No thread is in a system call when another one makes one. -/
def Alone (m : Machine) (e : MachineEvent) : Prop :=
  ∀ c nr arg1, e = .syscall c nr arg1 → ∀ i, m.place i = .outside

/-- The kernel before the first system call. -/
def boot (k : Kernel) (area : GsBase → SyscallCpu) (bootTop : Nat) : Machine where
  kernel := k
  gs := .boot
  area := area
  bootTop := bootTop
  place := fun _ => .outside
  entered := fun _ => ⟨0, 0, 0⟩

variable {m m' m0 : Machine} {e : MachineEvent} {c : UserContext} {i n : Nat}

/-! ## The thread that is in a call -/

/-- The place agrees with the context of the call: what has been loaded is part of it, and the rest is in
`syscall_cpu`, to which `%gs` leads until the second `swapgs`. -/
def Holds (c : UserContext) (gs : GsBase) (cpu : SyscallCpu) : SyscallPlace → Prop
  | .outside => gs = .boot
  | .dispatch _ => gs = .syscallCpu ∧ cpu = ⟨c.rsp, c.rip, c.rflags⟩
  | .r11 rflags => gs = .syscallCpu ∧ cpu = ⟨c.rsp, c.rip, c.rflags⟩ ∧ rflags = c.rflags
  | .rcx rflags rip =>
      gs = .syscallCpu ∧ cpu = ⟨c.rsp, c.rip, c.rflags⟩ ∧ rflags = c.rflags ∧ rip = c.rip
  | .rsp d => gs = .syscallCpu ∧ d = c
  | .sysret d => gs = .boot ∧ d = c

/-- One thread at most is in a call, and it holds its own context. -/
def OneCall (m : Machine) : Prop :=
  ∃ i, (∀ j, j ≠ i → m.place j = .outside) ∧
    Holds (m.entered i) m.gs (m.area .syscallCpu) (m.place i)

theorem oneCall_boot (k : Kernel) (area : GsBase → SyscallCpu) (bootTop : Nat) :
    OneCall (boot k area bootTop) := ⟨0, fun _ _ => rfl, rfl⟩

/-- The kernel's own steps do not touch the state of system calls. -/
theorem OneCall.kernel (h : OneCall m) (k : Kernel) : OneCall { m with kernel := k } := h

/-- A call that is made while no other one is under way. -/
theorem OneCall.entry (h : OneCall m) (hout : ∀ i, m.place i = .outside) (c : UserContext) :
    OneCall (m.syscallEntry c) := by
  obtain ⟨i, _, hi⟩ := h
  rw [hout i] at hi
  have hgs : m.gs.swap = .syscallCpu := by
    rw [show m.gs = .boot from hi]
    rfl
  refine ⟨m.current, fun j hj => ?_, ?_⟩
  · exact (Function.update_of_ne hj _ _).trans (hout j)
  · have hplace : (m.syscallEntry c).place m.current = .dispatch (m.syscallEntry c).kernelTop :=
      Function.update_self _ _ _
    have hentered : (m.syscallEntry c).entered m.current = c := Function.update_self _ _ _
    rw [hplace, hentered]
    refine ⟨hgs, ?_⟩
    show Function.update m.area m.gs.swap _ .syscallCpu = _
    rw [hgs, Function.update_self]

/-- One instruction on the way back. -/
theorem OneCall.leave (h : OneCall m) (hs : m.syscallLeave = some m') : OneCall m' := by
  obtain ⟨i, hother, hi⟩ := h
  have hcur : m.place m.current ≠ .outside := by
    intro hp
    unfold syscallLeave at hs
    rw [hp] at hs
    cases hs
  -- the thread that leaves is the one in the call
  obtain rfl : i = m.current := by
    by_contra hne
    exact hcur (hother _ (Ne.symm hne))
  have hset : ∀ p j, j ≠ m.current → (m.setPlace p).place j = .outside := fun p j hj =>
    (Function.update_of_ne hj _ _).trans (hother j hj)
  have hself : ∀ p, (m.setPlace p).place m.current = p := fun p => Function.update_self _ _ _
  unfold syscallLeave at hs
  cases hp : m.place m.current with
  | outside => exact absurd hp hcur
  | dispatch top =>
    rw [hp] at hs hi
    obtain ⟨hgs, hcpu⟩ := hi
    rw [← Option.some.inj hs]
    refine ⟨m.current, hset _, ?_⟩
    rw [hself, hgs, hcpu]
    exact ⟨hgs, hcpu, rfl⟩
  | r11 rflags =>
    rw [hp] at hs hi
    obtain ⟨hgs, hcpu, hflags⟩ := hi
    rw [← Option.some.inj hs]
    refine ⟨m.current, hset _, ?_⟩
    rw [hself, hgs, hcpu]
    exact ⟨hgs, hcpu, hflags, rfl⟩
  | rcx rflags rip =>
    rw [hp] at hs hi
    obtain ⟨hgs, hcpu, hflags, hrip⟩ := hi
    rw [← Option.some.inj hs]
    refine ⟨m.current, hset _, ?_⟩
    rw [hself, hgs, hcpu, hflags, hrip]
    exact ⟨hgs, rfl⟩
  | rsp d =>
    rw [hp] at hs hi
    obtain ⟨hgs, hd⟩ := hi
    rw [← Option.some.inj hs]
    refine ⟨m.current, hset _, ?_⟩
    show Holds (m.entered m.current) m.gs.swap _ ((m.setPlace (.sysret d)).place m.current)
    rw [hself, hgs]
    exact ⟨rfl, hd⟩
  | sysret d =>
    rw [hp] at hs hi
    rw [← Option.some.inj hs]
    refine ⟨m.current, hset _, ?_⟩
    show Holds (m.entered m.current) m.gs _ ((m.setPlace .outside).place m.current)
    rw [hself]
    exact hi.1

/-- What one step does that meets the condition. -/
theorem OneCall.step (h : OneCall m) (hP : Alone m e) (hs : Machine.step n e m = some m') :
    OneCall m' := by
  unfold Machine.step at hs
  split at hs
  next c nr arg1 =>
    split at hs
    · obtain ⟨k, -, rfl⟩ := Option.map_eq_some_iff.mp hs
      exact (h.entry (hP c nr arg1 rfl) c).kernel k
    · cases hs
  next =>
    split at hs
    · exact h.leave hs
    · cases hs
  next =>
    split at hs
    · obtain ⟨k, -, rfl⟩ := Option.map_eq_some_iff.mp hs
      exact h.kernel k
    · cases hs
  next =>
    obtain ⟨k, -, rfl⟩ := Option.map_eq_some_iff.mp hs
    exact h.kernel k

theorem Run.oneCall (h : Run Alone m m') (h0 : OneCall m) : OneCall m' := by
  induction h with
  | start => exact h0
  | step _ hP hs ih => exact ih.step hP hs

/-- Each `sysretq` has the context with which its thread has made the call, as long as no thread makes a
call before that of another one has come back. A call that has ended in `thread_exit` does not come back:
the bases stay exchanged then too. -/
theorem sysret_restores (k : Kernel) (area : GsBase → SyscallCpu) (bootTop : Nat)
    (h : Run Alone (boot k area bootTop) m) : ∀ i c, m.place i = .sysret c → c = m.entered i := by
  intro i c hc
  obtain ⟨j, hother, hj⟩ := h.oneCall (oneCall_boot k area bootTop)
  have hij : i = j := by
    by_contra hne
    rw [hother i hne] at hc
    cases hc
  rw [← hij, hc] at hj
  exact hj.2

/-! ## Runs on fixed events -/

def steps (fuel : Nat) : List MachineEvent → Machine → Option Machine
  | [], m => some m
  | e :: es, m => (Machine.step fuel e m).bind (steps fuel es)

theorem run_steps {P : Machine → MachineEvent → Prop} {es : List MachineEvent} {u : Machine}
    (h : Run P m u) (hP : ∀ v, ∀ e ∈ es, P v e) (hs : steps n es u = some m') : Run P m m' := by
  induction es generalizing u with
  | nil =>
    cases hs
    exact h
  | cons e es ih =>
    obtain ⟨v, hv, hs⟩ := Option.bind_eq_some_iff.mp hs
    exact ih (h.step (hP u e List.mem_cons_self) hv)
      (fun w x hx => hP w x (List.mem_cons_of_mem e hx)) hs

/-- Events of the kernel, and then the way back from a call. -/
def kernelThenLeave (es : List Event) : List MachineEvent :=
  es.map .kernel ++ List.replicate 4 .leave

theorem alone_kernelThenLeave {es : List Event} (he : e ∈ kernelThenLeave es) : Alone m e := by
  rintro c nr arg1 rfl
  obtain he | he := List.mem_append.mp he
  · obtain ⟨x, -, hx⟩ := List.mem_map.mp he
    cases hx
  · cases List.eq_of_mem_replicate he

/-- The user thread 3 sleeps in the first system call, and goes back with its own context. -/
theorem sysret_restores_sleep :
    ∃ k m, Run Alone (boot k (fun _ => ⟨0, 0, 0⟩) 0) m ∧ m.place 2 = .sysret ⟨0x8000, 0x4000, 0x202⟩ ∧
      ⟨0x8000, 0x4000, 0x202⟩ = m.entered 2 := by
  have hrun : ((Kernel.steps 5
      [.call (.createUserThread (some 3) 8192 4096 8), .tick, .run, .tick, .run]
      (Kernel.initMultitasking 1 2 4096 8192 5 (fun v => ⟨v, v = 8⟩) 5 fun _ => 0)).any fun k =>
        ((Machine.step 5 (.syscall ⟨0x8000, 0x4000, 0x202⟩ sysSleep 1)
          (boot k (fun _ => ⟨0, 0, 0⟩) 0)).any fun u =>
            (steps 5 (kernelThenLeave [.run, .run, .run, .tick, .run, .run, .run, .tick, .run, .run,
              .run, .tick, .run, .run, .run]) u).any fun m =>
                m.place 2 = .sysret ⟨0x8000, 0x4000, 0x202⟩)) = true := by decide +kernel
  obtain ⟨k, -, hk⟩ := (Option.any_eq_true _ _).mp hrun
  obtain ⟨u, hu, hu'⟩ := (Option.any_eq_true _ _).mp hk
  obtain ⟨m, hm, hplace⟩ := (Option.any_eq_true _ _).mp hu'
  have hplace := of_decide_eq_true hplace
  have hcall : Run Alone (boot k (fun _ => ⟨0, 0, 0⟩) 0) u := Run.start.step (fun _ _ _ _ _ => rfl) hu
  have h := run_steps hcall (fun _ _ => alone_kernelThenLeave) hm
  exact ⟨k, m, h, hplace, sysret_restores k _ 0 h 2 _ hplace⟩

/-- The user thread 3 makes a call that switches to the thread 4, which makes one too: 3 goes back to
where 4 has come from. -/
theorem overlapping_calls : ∃ k m c,
    Kernel.Reaches (fun _ _ => True)
      (Kernel.initMultitasking 1 2 4096 8192 5 (fun v => ⟨v, v = 8⟩) 5 fun _ => 0) k ∧
    Run (fun _ _ => True) (boot k (fun _ => ⟨0, 0, 0⟩) 0) m ∧ m.place 2 = .sysret c ∧
      c = m.entered 3 ∧ c ≠ m.entered 2 := by
  have hrun : ((Kernel.steps 5
      [.call (.createUserThread (some 3) 8192 4096 8), .call (.createUserThread (some 4) 16384 4096 8),
        .tick, .run, .tick, .run]
      (Kernel.initMultitasking 1 2 4096 8192 5 (fun v => ⟨v, v = 8⟩) 5 fun _ => 0)).any fun k =>
        (steps 5 (.syscall ⟨0x8000, 0x4000, 0x202⟩ sysYield 0 :: .kernel .run ::
          .syscall ⟨0x9000, 0x5000, 0x246⟩ sysYield 0 :: kernelThenLeave [.run, .run, .run, .tick, .run,
            .run, .run, .tick, .run, .run]) (boot k (fun _ => ⟨0, 0, 0⟩) 0)).any fun m =>
              m.place 2 = .sysret ⟨0x9000, 0x5000, 0x246⟩ &&
                m.entered 3 = ⟨0x9000, 0x5000, 0x246⟩ && m.entered 2 = ⟨0x8000, 0x4000, 0x202⟩) =
      true := by decide +kernel
  obtain ⟨k, hk, hk'⟩ := (Option.any_eq_true _ _).mp hrun
  obtain ⟨m, hm, hplace⟩ := (Option.any_eq_true _ _).mp hk'
  simp only [Bool.and_eq_true, decide_eq_true_eq] at hplace
  obtain ⟨⟨hsysret, hother⟩, hown⟩ := hplace
  refine ⟨k, m, _, Kernel.reaches_steps .start (Kernel.meet_true 5 _ _) hk,
    run_steps .start (fun _ _ _ => trivial) hm, hsysret, hother.symm, ?_⟩
  rw [hown]
  decide

end Machine

end Os003
