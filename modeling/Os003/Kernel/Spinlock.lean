import Mathlib

set_option autoImplicit false

/-! # Spinlocks

`spinlock_acquire`, `spinlock_release` and `spinlock_try_acquire` of `kernel/Thread.c`. Each is one
`asm` statement around `xchgb %0, %1` with the lock as `%1`. In `spinlock_try_acquire` the register
`%0` is a variable with the value 1. In the other two it is the lock as well: it is loaded from the
lock before the statement and stored back to it after, so that the exchange exchanges a value with
itself. `spinlock_acquire` therefore returns only when the lock is free, and leaves it free, and
`spinlock_release` leaves the lock as it is.
-/

namespace Os003

/-- `spinlock_t`, and the interrupt flag. -/
structure Spinlock where
  locked : UInt8
  interrupts : Bool
  deriving DecidableEq, Repr

/-- `xchgb %0, %1`. -/
def xchgb (reg mem : UInt8) : UInt8 × UInt8 := (mem, reg)

/-- The loop of `spinlock_acquire`; each turn needs fuel. -/
def acquireLoop : Nat → UInt8 → UInt8 → Option (UInt8 × UInt8)
  | 0, _, _ => none
  | fuel + 1, reg, mem =>
      let (reg, mem) := xchgb reg mem
      if reg = 0 then some (reg, mem) else acquireLoop fuel reg mem

/-- `%0` is stored to the lock behind the loop. -/
def spinlockAcquire (fuel : Nat) (lock : Spinlock) : Option Spinlock := do
  let (reg, _) ← acquireLoop fuel lock.locked lock.locked
  return { locked := reg, interrupts := false }

def spinlockRelease (lock : Spinlock) : Spinlock where
  locked := (xchgb lock.locked lock.locked).1
  interrupts := true

/-- The result, and the lock. -/
def spinlockTryAcquire (lock : Spinlock) : Bool × Spinlock :=
  let (old, locked) := xchgb 1 lock.locked
  (old == 0, { lock with locked := locked })

/-! ## Sequences of calls -/

inductive SpinCall
  | acquire
  | tryAcquire
  | release
  deriving DecidableEq, Repr

/-- A lock, and whether it has been acquired and not been released since. -/
structure HeldLock where
  lock : Spinlock
  held : Bool
  deriving DecidableEq, Repr

/-- A call that returns. -/
def HeldLock.call (fuel : Nat) (c : SpinCall) (s : HeldLock) : Option HeldLock :=
  match c with
  | .acquire => (spinlockAcquire fuel s.lock).map fun lock => ⟨lock, true⟩
  | .tryAcquire =>
      some ⟨(spinlockTryAcquire s.lock).2, s.held || (spinlockTryAcquire s.lock).1⟩
  | .release => some ⟨spinlockRelease s.lock, false⟩

/-- The lock says whether it is held, and an attempt to acquire it succeeds if it is not. -/
structure HeldLock.Locks (s : HeldLock) : Prop where
  locked : s.lock.locked = if s.held then 1 else 0
  attempt : (spinlockTryAcquire s.lock).1 = !s.held

/-- Every call of the sequence returns. -/
def HeldLock.Returns : HeldLock → List SpinCall → Prop
  | _, [] => True
  | s, c :: cs => ∃ fuel s', s.call fuel c = some s' ∧ s'.Returns cs

/-- The lock locks in every state of the sequence. -/
def HeldLock.LocksAlong : HeldLock → List SpinCall → Prop
  | s, [] => s.Locks
  | s, c :: cs => s.Locks ∧ ∀ fuel s', s.call fuel c = some s' → s'.LocksAlong cs

/-- No call is `spinlock_acquire`, and no `spinlock_release` comes behind a
`spinlock_try_acquire`. -/
def ReleasesThenTries : List SpinCall → Prop
  | [] => True
  | .release :: cs => ReleasesThenTries cs
  | .tryAcquire :: cs => ∀ c ∈ cs, c = .tryAcquire
  | .acquire :: _ => False

/-- A lock with `SPINLOCK_INIT`. -/
def HeldLock.init (interrupts : Bool) : HeldLock := ⟨⟨0, interrupts⟩, false⟩

/-- A lock that `spinlock_try_acquire` has acquired. -/
def HeldLock.tried (interrupts : Bool) : HeldLock := ⟨⟨1, interrupts⟩, true⟩

namespace HeldLock

variable {s s' : HeldLock} {cs : List SpinCall} {fuel : Nat} {interrupts : Bool}

/-- A lock that is held is never acquired by `spinlock_acquire`. -/
theorem acquireLoop_one (fuel : Nat) : acquireLoop fuel 1 1 = none := by
  induction fuel with
  | zero => rfl
  | succ fuel ih =>
      unfold acquireLoop
      simpa [xchgb] using ih

theorem call_acquire_init (h : (init interrupts).call fuel .acquire = some s') :
    s' = ⟨⟨0, false⟩, true⟩ := by
  cases fuel with
  | zero => cases h
  | succ fuel =>
      cases h
      rfl

theorem call_acquire_tried : (tried interrupts).call fuel .acquire = none := by
  show (spinlockAcquire fuel ⟨1, interrupts⟩).map _ = none
  rw [spinlockAcquire, acquireLoop_one]
  rfl

theorem call_release_init :
    (init interrupts).call fuel .release = some (init true) := rfl

theorem call_release_tried :
    (tried interrupts).call fuel .release = some ⟨⟨1, true⟩, false⟩ := rfl

theorem call_tryAcquire_init :
    (init interrupts).call fuel .tryAcquire = some (tried interrupts) := rfl

theorem call_tryAcquire_tried :
    (tried interrupts).call fuel .tryAcquire = some (tried interrupts) := rfl

theorem locks_init (interrupts : Bool) : (init interrupts).Locks := ⟨rfl, rfl⟩

theorem locks_tried (interrupts : Bool) : (tried interrupts).Locks := ⟨rfl, rfl⟩

theorem LocksAlong.locks (h : s.LocksAlong cs) : s.Locks := by
  cases cs with
  | nil => exact h
  | cons c cs => exact h.1

/-- Once a `spinlock_try_acquire` has succeeded, a release does not free the lock. -/
theorem locksAlong_tried (h : (tried interrupts).Returns cs) :
    (tried interrupts).LocksAlong cs ↔ ∀ c ∈ cs, c = .tryAcquire := by
  induction cs with
  | nil => exact iff_of_true (locks_tried interrupts) (fun _ hc => absurd hc List.not_mem_nil)
  | cons c cs ih =>
      obtain ⟨fuel, s', hcall, hreturns⟩ := h
      cases c with
      | acquire =>
          rw [call_acquire_tried] at hcall
          cases hcall
      | tryAcquire =>
          rw [call_tryAcquire_tried] at hcall
          cases hcall
          have hrest := ih hreturns
          constructor
          · rintro ⟨-, halong⟩ c hc
            rcases List.mem_cons.mp hc with rfl | hc
            · rfl
            · exact hrest.mp (halong fuel _ call_tryAcquire_tried) c hc
          · intro hall
            refine ⟨locks_tried interrupts, ?_⟩
            intro n s' hcall
            rw [call_tryAcquire_tried] at hcall
            cases hcall
            exact hrest.mpr fun c hc => hall c (List.mem_cons_of_mem _ hc)
      | release =>
          refine iff_of_false ?_ ?_
          · rintro ⟨-, halong⟩
            have hlocks := (halong fuel _ call_release_tried).locks
            exact absurd hlocks.locked (by decide)
          · intro hall
            cases hall .release List.mem_cons_self

end HeldLock

/-- The lock locks in every state of a sequence of calls exactly if the sequence acquires it with
`spinlock_try_acquire` only, and never releases it. -/
theorem spinlock_locks_iff (interrupts : Bool) {cs : List SpinCall}
    (h : (HeldLock.init interrupts).Returns cs) :
    (HeldLock.init interrupts).LocksAlong cs ↔ ReleasesThenTries cs := by
  induction cs generalizing interrupts with
  | nil => exact iff_of_true (HeldLock.locks_init interrupts) trivial
  | cons c cs ih =>
      obtain ⟨fuel, s', hcall, hreturns⟩ := h
      cases c with
      | acquire =>
          refine iff_of_false ?_ id
          rintro ⟨-, halong⟩
          have hlocks := (halong fuel s' hcall).locks
          rw [HeldLock.call_acquire_init hcall] at hlocks
          exact absurd hlocks.locked (by decide)
      | tryAcquire =>
          rw [HeldLock.call_tryAcquire_init] at hcall
          cases hcall
          have hrest := HeldLock.locksAlong_tried hreturns
          constructor
          · rintro ⟨-, halong⟩
            exact hrest.mp (halong fuel _ HeldLock.call_tryAcquire_init)
          · intro hall
            refine ⟨HeldLock.locks_init interrupts, ?_⟩
            intro n s' hcall
            rw [HeldLock.call_tryAcquire_init] at hcall
            cases hcall
            exact hrest.mpr hall
      | release =>
          rw [HeldLock.call_release_init] at hcall
          cases hcall
          have hrest := ih true hreturns
          constructor
          · rintro ⟨-, halong⟩
            exact hrest.mp (halong fuel _ HeldLock.call_release_init)
          · intro hcs
            refine ⟨HeldLock.locks_init interrupts, ?_⟩
            intro n s' hcall
            rw [HeldLock.call_release_init] at hcall
            cases hcall
            exact hrest.mpr hcs

theorem spinlock_locks_tries :
    (HeldLock.init true).LocksAlong [.release, .tryAcquire, .tryAcquire] := by
  have hreturns : (HeldLock.init true).Returns [.release, .tryAcquire, .tryAcquire] :=
    ⟨0, _, rfl, 0, _, rfl, 0, _, rfl, trivial⟩
  refine (spinlock_locks_iff true hreturns).mpr ?_
  intro c hc
  exact List.mem_singleton.mp hc

/-- `spinlock_acquire` returns, and the lock is free. -/
theorem acquired_lock_free : (HeldLock.init true).Returns [.acquire] ∧
    ¬ (HeldLock.init true).LocksAlong [.acquire] := by
  refine ⟨⟨1, ⟨⟨0, false⟩, true⟩, by decide, trivial⟩, ?_⟩
  rintro ⟨-, halong⟩
  have hlocks : HeldLock.Locks ⟨⟨0, false⟩, true⟩ := halong 1 _ (by decide)
  exact absurd hlocks.locked (by decide)

end Os003
