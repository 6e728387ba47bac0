import Os003.Kernel.Partition

set_option autoImplicit false

/-! # Mutual exclusion

`LockRun` are the runs in which threads are created, sleep, end, and use one mutex without nesting;
next to the kernel it keeps the threads that are between the return of their `mutex_lock` and their
`mutex_unlock`. `mutex_lock` counts on interrupts being off from the test of `locked` to the
assignment, but the `schedule()` in its loop may find that the thread before it has ended, and then
`KillThread` turns interrupts on. A tick behind that lets another thread take the mutex as well
(`two_owners`). In the runs without a tick inside `mutex_lock` the mutex is exclusive
(`mutual_exclusion`).
-/

namespace Os003

open Linked

/-- The frames of a thread that makes no call. -/
def Frame.isIdle : Frame → Bool
  | .schedule | .switchTo _ _ | .reclaimed | .irq0 => true
  | _ => false

/-- The frames of threads that use the mutex `m` and no other mutex or semaphore. -/
def Frame.isFor (m : Addr) : Frame → Bool
  | .lockTest m' => m' = m
  | .lockTake m' => m' = m
  | .waitTest _ => false
  | .waitTake _ => false
  | _ => true

namespace Kernel

variable {s s' : Kernel} {xs : QueueId → List Addr} {t idle m : Addr} {f : Frame}
  {k k' : List Frame} {held held' : Addr → Bool}

/-- The use of the mutex: the idle thread makes no call; a thread does not lock twice, unlocks what it
has locked, and does not end with the mutex locked. -/
def uses (idle m : Addr) (held : Addr → Bool) (s : Kernel) : Event → Bool
  | .tick => true
  | .run => true
  | .call c =>
      s.currentThread ≠ idle &&
        match c with
        | .createThread page _ _ _ _ => page.all (· ∉ s.tcbs)
        | .createKernelThread page _ _ => page.all (· ∉ s.tcbs)
        | .createUserThread page _ _ _ => page.all (· ∉ s.tcbs)
        | .threadSleepMs _ => true
        | .threadSleepSecond _ => true
        | .mutexLock m' => m' = m && !held s.currentThread
        | .mutexUnlock m' => m' = m && held s.currentThread
        | .threadExit => !held s.currentThread
        | .semWait _ => false
        | .semPost _ => false
        | .killThread _ => false

/-- The threads between the return of `mutex_lock` and their `mutex_unlock`, after an event. -/
def heldAfter (m : Addr) (held : Addr → Bool) (s : Kernel) : Event → Addr → Bool
  | .tick => held
  | .run =>
      match s.stack s.currentThread with
      | .lockTake _ :: _ => Function.update held s.currentThread true
      | _ => held
  | .call (.mutexLock _) =>
      if (s.mutex m).owner = some s.currentThread
      then Function.update held s.currentThread true else held
  | .call (.mutexUnlock _) => Function.update held s.currentThread false
  | .call _ => held

/-- The runs from `s` that use the mutex `m` and whose steps meet `P`. -/
inductive LockRun (idle m : Addr) (P : Kernel → Event → Prop) (s : Kernel) :
    Kernel → (Addr → Bool) → Prop
  | start : LockRun idle m P s s fun _ => false
  | step {t u : Kernel} {held : Addr → Bool} {e : Event} {n : Nat}
      (h : LockRun idle m P s t held) (hu : uses idle m held t e = true) (hP : P t e)
      (hs : Kernel.step n e t = some u) : LockRun idle m P s u (heldAfter m held t e)

/-- At most one thread holds the mutex, and it is the owner. -/
def Exclusive (m : Addr) (s : Kernel) (held : Addr → Bool) : Prop :=
  (∀ t u, held t = true → held u = true → t = u) ∧
    ∀ t, held t = true → (s.mutex m).owner = some t

/-- No tick comes while the current thread is inside `mutex_lock`. -/
def Undisturbed (m : Addr) (s : Kernel) (e : Event) : Prop :=
  e = .tick → .lockTest m ∉ s.stack s.currentThread ∧ .lockTake m ∉ s.stack s.currentThread

/-! ## The invariants -/

/-- A stack on which `schedule()` and the end of `mutex_lock` are innermost if they are there at all. -/
structure Good (m : Addr) (k : List Frame) : Prop where
  isFor : ∀ f ∈ k, f.isFor m = true
  inner : ∀ f ∈ k.tail, f ≠ .schedule ∧ f ≠ .lockTake m

/-- Interrupts, stacks and the idle thread: inside `schedule()` interrupts are on only if it was called
by `mutex_lock`. -/
structure LockFrames (idle m : Addr) (s : Kernel) : Prop where
  idleKnown : idle ∈ s.tcbs
  idleState : s.state idle ≠ .blocked ∧ s.state idle ≠ .terminated
  idleStack : ∀ f ∈ s.stack idle, f.isIdle = true
  good : ∀ t, Good m (s.stack t)
  away : ∀ t, t ≠ s.currentThread → s.stack t = [] ∨
    ∃ c b k, s.stack t = .switchTo c b :: k ∧ (b = true → .lockTest m ∈ k)
  quiet : s.interrupts = true → ∀ f k, s.stack s.currentThread = f :: k →
    (f = .schedule ∨ f.isSwitch = true) → .lockTest m ∈ k

/-- The fields of the mutex agree with the threads that hold it. -/
structure LockOwner (m : Addr) (s : Kernel) (held : Addr → Bool) : Prop where
  owner : ∀ t, held t = true ↔ (s.mutex m).owner = some t
  locked : (s.mutex m).locked = true ↔ ∃ t, (s.mutex m).owner = some t
  alive : ∀ t, held t = true → Alive s t
  free : .lockTake m ∈ s.stack s.currentThread → (s.mutex m).locked = false

theorem LockOwner.exclusive (h : LockOwner m s held) : Exclusive m s held := by
  refine ⟨?_, fun t ht => (h.owner t).mp ht⟩
  intro t u ht hu
  exact Option.some.inj (((h.owner t).mp ht).symm.trans ((h.owner u).mp hu))

theorem Good.nil : Good m [] := ⟨fun f hf => (by cases hf), fun f hf => (by cases hf)⟩

theorem Good.tail (h : Good m (f :: k)) : Good m k :=
  ⟨fun g hg => h.isFor g (List.mem_cons_of_mem f hg), fun g hg =>
    h.inner g (List.mem_of_mem_tail hg)⟩

/-- A frame goes on top of a stack from which `schedule()` and the end of `mutex_lock` are absent. -/
theorem Good.cons (hf : f.isFor m = true) (hk : Good m k)
    (hin : ∀ g ∈ k, g ≠ .schedule ∧ g ≠ .lockTake m) : Good m (f :: k) := by
  refine ⟨?_, hin⟩
  intro g hg
  rcases List.mem_cons.mp hg with rfl | hg
  · exact hf
  · exact hk.isFor g hg

/-! ## Stacks and interrupts -/

/-- The current thread is left at work, outside `schedule()`. -/
theorem LockFrames.stays (h : LockFrames idle m s) (hs : Stays s k s') (hk : Good m k)
    (htop : ∀ f r, k = f :: r → f ≠ .schedule ∧ f.isSwitch = false)
    (hidle : s.currentThread = idle → ∀ f ∈ k, f.isIdle = true) : LockFrames idle m s' := by
  have hstack : ∀ u, u ≠ s.currentThread → s'.stack u = s.stack u := by
    intro u hu
    rw [hs.stack, Function.update_of_ne hu]
  have hcur : s'.stack s.currentThread = k := by rw [hs.stack, Function.update_self]
  refine ⟨?_, ?_, ?_, ?_, ?_, ?_⟩
  · rw [hs.tcbs]; exact h.idleKnown
  · rcases hs.state idle with he | ⟨_, he⟩
    · rw [he]; exact h.idleState
    · rw [he]; decide
  · intro g hg
    by_cases hu : idle = s.currentThread
    · rw [hu, hcur] at hg
      exact hidle hu.symm g hg
    · rw [hstack idle hu] at hg
      exact h.idleStack g hg
  · intro u
    by_cases hu : u = s.currentThread
    · subst hu; rw [hcur]; exact hk
    · rw [hstack u hu]; exact h.good u
  · intro u hu
    rw [hs.currentThread] at hu
    rw [hstack u hu]
    exact h.away u hu
  · intro _ f r hfr htop'
    rw [hs.currentThread, hcur] at hfr
    obtain ⟨h1, h2⟩ := htop f r hfr
    rcases htop' with he | he
    · exact absurd he h1
    · cases h2.symm.trans he

/-- The current thread stands at the call of `schedule()`. -/
theorem LockFrames.leaves {x : ThreadState} (h : LockFrames idle m s) (hl : Leaves s f x s')
    (hgood : Good m (f :: s.stack s.currentThread))
    (hin : ∀ g ∈ f :: s.stack s.currentThread, g ≠ .schedule ∧ g ≠ .lockTake m)
    (hq : s.interrupts = true → .lockTest m ∈ f :: s.stack s.currentThread)
    (hidle : s.currentThread = idle → (x ≠ .blocked ∧ x ≠ .terminated) ∧ f.isIdle = true) :
    LockFrames idle m s' := by
  -- only the stack of the current thread has changed
  have hstack : ∀ u, u ≠ s.currentThread → s'.stack u = s.stack u := by
    intro u hu
    rw [hl.stack, Function.update_of_ne hu]
  have hcur : s'.stack s.currentThread = .schedule :: f :: s.stack s.currentThread := by
    rw [hl.stack, Function.update_self]
  refine ⟨?_, ?_, ?_, ?_, ?_, ?_⟩
  · rw [hl.tcbs]; exact h.idleKnown
  · rw [hl.state]
    by_cases hu : idle = s.currentThread
    · rw [hu, Function.update_self]
      exact (hidle hu.symm).1
    · rw [Function.update_of_ne hu]
      exact h.idleState
  · intro g hg
    by_cases hu : idle = s.currentThread
    · rw [hu, hcur] at hg
      rcases List.mem_cons.mp hg with rfl | hg
      · rfl
      · rcases List.mem_cons.mp hg with rfl | hg
        · exact (hidle hu.symm).2
        · exact h.idleStack g (hu ▸ hg)
    · rw [hstack idle hu] at hg
      exact h.idleStack g hg
  · intro u
    by_cases hu : u = s.currentThread
    · subst hu
      rw [hcur]
      exact Good.cons rfl hgood hin
    · rw [hstack u hu]; exact h.good u
  · intro u hu
    rw [hl.currentThread] at hu
    rw [hstack u hu]
    exact h.away u hu
  · -- interrupts were on, so it was a wait at the lock that sent the thread away
    intro hi g r hgr _
    rw [hl.currentThread, hcur] at hgr
    cases hgr
    rw [hl.interrupts] at hi
    exact hq hi

theorem LockFrames.created (h : LockFrames idle m s) (hk : s.stack s.currentThread = [])
    (hc : Created s s') : LockFrames idle m s' := by
  rcases hc with rfl | ⟨t, hdead, htc, hh, hstack, _⟩
  · exact ⟨h.idleKnown, h.idleState, h.idleStack, h.good, h.away, fun hi => by cases hi⟩
  · have hti : idle ≠ t := by
      rintro rfl
      exact hdead ⟨h.idleKnown, h.idleState.2⟩
    refine ⟨(hh.tcbs idle hti).mpr h.idleKnown, ?_, ?_, ?_, ?_, ?_⟩
    · rw [hh.state idle hti]; exact h.idleState
    · rw [hh.stack idle hti]; exact h.idleStack
    · intro u
      by_cases hut : u = t
      · subst hut
        rcases hstack with he | he
        · rw [he]; exact Good.nil
        · rw [he]; exact h.good u
      · rw [hh.stack u hut]; exact h.good u
    · intro u hu
      rw [hh.currentThread] at hu
      by_cases hut : u = t
      · subst hut
        rcases hstack with he | he
        · exact Or.inl he
        · rw [he]; exact h.away u hu
      · rw [hh.stack u hut]; exact h.away u hu
    · intro _ f r hfr
      rw [hh.currentThread, hh.stack _ (Ne.symm htc), hk] at hfr
      cases hfr

/-- `schedule()` has been called with the callers' frames `k` on the stack. -/
theorem LockFrames.switched (h : LockFrames idle m s)
    (hk : s.stack s.currentThread = .schedule :: k) (hsw : ∀ f ∈ k, f.isSwitch = false)
    (hs : Switched (s.setStack s.currentThread k) s') : LockFrames idle m s' := by
  have hgood := h.good s.currentThread
  rw [hk] at hgood
  have hself : (s.setStack s.currentThread k).stack s.currentThread = k :=
    Function.update_self _ _ _
  have hidle : ∀ f ∈ (s.setStack s.currentThread k).stack idle, f.isIdle = true := by
    intro f hf
    by_cases hu : idle = s.currentThread
    · rw [hu, hself] at hf
      exact h.idleStack f (by rw [hu, hk]; exact List.mem_cons_of_mem _ hf)
    · exact h.idleStack f (by simpa [setStack, Function.update_of_ne hu] using hf)
  have hstate : s'.state idle ≠ .blocked ∧ s'.state idle ≠ .terminated :=
    ⟨fun hb => h.idleState.1 (hs.blocked idle hb), fun hd => h.idleState.2 ((hs.dead idle).mp hd)⟩
  have hknown : idle ∈ s'.tcbs := by rw [hs.tcbs]; exact h.idleKnown
  have hpop : ∀ u, u ≠ s.currentThread → (s.setStack s.currentThread k).stack u = s.stack u :=
    fun u hu => Function.update_of_ne hu _ _
  -- `schedule` goes on with the same thread, or `switch_to` leaves a frame with the flag of now
  rcases hs.switch with ⟨hcur, hstack, _⟩ | ⟨hcur, hint, c, hstack⟩
  · refine ⟨hknown, hstate, by rw [hstack]; exact hidle, ?_, ?_, ?_⟩
    · intro u
      rw [hstack]
      by_cases hu : u = s.currentThread
      · subst hu; rw [hself]; exact hgood.tail
      · rw [hpop u hu]; exact h.good u
    · intro u hu
      rw [hcur] at hu
      rw [hstack, hpop u hu]
      exact h.away u hu
    · -- the frame on top was behind `schedule`, so it is neither of the two critical ones
      intro _ f r hfr htop
      rw [hcur, hstack] at hfr
      have hm : f ∈ k := by
        rw [← hself]
        exact hfr ▸ List.mem_cons_self
      rcases htop with rfl | he
      · exact absurd rfl (hgood.inner _ hm).1
      · cases (hsw f hm).symm.trans he
  · have hother : ∀ u, u ≠ s.currentThread → s'.stack u = s.stack u := by
      intro u hu
      rw [hstack]
      exact (Function.update_of_ne hu _ _).trans (hpop u hu)
    have hleft : s'.stack s.currentThread = .switchTo c s.interrupts :: k := by
      rw [hstack]
      refine (Function.update_self _ _ _).trans ?_
      show _ :: (s.setStack s.currentThread k).stack s.currentThread = _
      rw [hself]
      rfl
    refine ⟨hknown, hstate, ?_, ?_, ?_, ?_⟩
    · intro f hf
      by_cases hu : idle = s.currentThread
      · rw [hu, hleft] at hf
        rcases List.mem_cons.mp hf with rfl | hf
        · rfl
        · exact h.idleStack f (by rw [hu, hk]; exact List.mem_cons_of_mem _ hf)
      · rw [hother idle hu] at hf
        exact h.idleStack f hf
    · intro u
      by_cases hu : u = s.currentThread
      · subst hu
        rw [hleft]
        exact Good.cons rfl hgood.tail hgood.inner
      · rw [hother u hu]; exact h.good u
    · intro u _
      by_cases hu : u = s.currentThread
      · subst hu
        refine Or.inr ⟨c, s.interrupts, k, hleft, ?_⟩
        intro hi
        exact h.quiet hi .schedule k hk (Or.inl rfl)
      · rw [hother u hu]; exact h.away u hu
    · -- the thread that comes has been away: with interrupts off it was not left inside
      -- `schedule` or at the lock, so its saved flag decides
      intro hi f r hfr _
      change s'.currentThread ≠ s.currentThread at hcur
      rw [hother _ hcur] at hfr
      rw [hint, hpop _ hcur] at hi
      rcases h.away _ hcur with hnil | ⟨c', b, k', hsw', hb⟩
      · cases hnil.symm.trans hfr
      · rw [hsw'] at hi hfr
        cases hfr
        exact hb hi

theorem LockFrames.disableInterrupts (h : LockFrames idle m s) :
    LockFrames idle m s.disableInterrupts :=
  ⟨h.idleKnown, h.idleState, h.idleStack, h.good, h.away, fun hi => by cases hi⟩

/-- The innermost frame of the current thread is taken off. -/
theorem LockFrames.pop (h : LockFrames idle m s) (hk : s.stack s.currentThread = f :: k)
    (hsw : ∀ g ∈ k, g.isSwitch = false) : LockFrames idle m (s.setStack s.currentThread k) := by
  have hgood := h.good s.currentThread
  rw [hk] at hgood
  have hstays : Stays s k (s.setStack s.currentThread k) :=
    ⟨rfl, rfl, fun _ => Or.inl rfl, rfl⟩
  refine h.stays hstays hgood.tail ?_ ?_
  · rintro g r rfl
    exact ⟨(hgood.inner g List.mem_cons_self).1, hsw g List.mem_cons_self⟩
  · intro e g hg
    refine h.idleStack g ?_
    rw [← e, hk]
    exact List.mem_cons_of_mem f hg

/-- A tick does not come inside the functions that count on interrupts being off. -/
theorem LockFrames.fits_tick (h : LockFrames idle m s) (hS : Sched s xs)
    (hi : s.interrupts = true) (hP : Undisturbed m s .tick) : Fits s .tick := by
  obtain ⟨htest, htake⟩ := hP rfl
  intro f hf
  have hfor := (h.good s.currentThread).isFor f hf
  have hout : f ≠ .schedule ∧ f.isSwitch = false := by
    obtain ⟨g, k, hk⟩ := List.exists_cons_of_ne_nil (List.ne_nil_of_mem hf)
    have hquiet : g ≠ .schedule ∧ g.isSwitch = false := by
      constructor
      · rintro rfl
        exact htest (hk ▸ List.mem_cons_of_mem _ (h.quiet hi _ k hk (Or.inl rfl)))
      · by_contra hsw
        rw [Bool.not_eq_false] at hsw
        exact htest (hk ▸ List.mem_cons_of_mem _ (h.quiet hi _ k hk (Or.inr hsw)))
    have hinner := (h.good s.currentThread).inner
    have hframes := hS.frames s.currentThread
    rw [hk] at hf hinner hframes
    rcases List.mem_cons.mp hf with rfl | hf
    · exact hquiet
    · exact ⟨(hinner f hf).1, hframes f hf⟩
  cases f with
  | schedule => exact absurd rfl hout.1
  | switchTo c b => cases hout.2
  | lockTest m' =>
      have hm : m' = m := of_decide_eq_true hfor
      exact absurd (hm ▸ hf) htest
  | lockTake m' =>
      have hm : m' = m := of_decide_eq_true hfor
      exact absurd (hm ▸ hf) htake
  | waitTest m' => cases hfor
  | waitTake m' => cases hfor
  | reclaimed => rfl
  | irq0 => rfl
  | slept => rfl
  | stop => rfl

/-- The idle thread is never blocked, so there is always a thread to run. -/
theorem LockFrames.findsReady (h : LockFrames idle m s) (hS : Sched s xs) : FindsReady s :=
  hS.findsReady h.idleKnown h.idleState.1 h.idleState.2

theorem LockFrames.fits (h : LockFrames idle m s) (hS : Sched s xs) {e : Event}
    (hu : uses idle m held s e = true) (hP : Undisturbed m s e) (he : Enabled s e) :
    Fits s e := by
  have hpage : ∀ page : Option Addr, page.all (· ∉ s.tcbs) = true →
      ∀ t, page = some t → t ∉ s.tcbs := by
    rintro page hall t rfl
    simpa using hall
  cases e with
  | tick => exact h.fits_tick hS he hP
  | run => exact fun _ => h.findsReady hS
  | call c =>
      obtain ⟨_, hc⟩ := Bool.and_eq_true_iff.mp hu
      cases c with
      | createThread page _ _ _ _ => exact hpage page hc
      | createKernelThread page _ _ => exact hpage page hc
      | createUserThread page _ _ _ => exact hpage page hc
      | killThread t => cases hc
      | threadSleepMs ms => trivial
      | threadSleepSecond sec => trivial
      | mutexLock m' => trivial
      | mutexUnlock m' => trivial
      | semWait m' => trivial
      | semPost m' => trivial
      | threadExit => trivial

/-! ## The owner -/

/-- The mutex is as before, and no thread that holds it has ended. -/
theorem LockOwner.keep (h : LockOwner m s held) (hm : s'.mutex m = s.mutex m)
    (ha : ∀ t, held t = true → Alive s t → Alive s' t)
    (hfree : .lockTake m ∈ s'.stack s'.currentThread → (s.mutex m).locked = false) :
    LockOwner m s' held := by
  refine ⟨?_, ?_, fun t ht => ha t ht (h.alive t ht), ?_⟩
  · rw [hm]; exact h.owner
  · rw [hm]; exact h.locked
  · rw [hm]; exact hfree

/-- The current thread takes the mutex. -/
theorem LockOwner.take (h : LockOwner m s held) (hfree : (s.mutex m).locked = false)
    (hm : s'.mutex m = ⟨true, some t⟩) (ha : Alive s' t)
    (hout : .lockTake m ∉ s'.stack s'.currentThread) :
    LockOwner m s' (Function.update held t true) := by
  have hnone : ∀ u, held u = false := by
    intro u
    by_contra hu
    rw [Bool.not_eq_false] at hu
    cases hfree.symm.trans (h.locked.mpr ⟨u, (h.owner u).mp hu⟩)
  have hupd : ∀ u, Function.update held t true u = true ↔ t = u := by
    intro u
    by_cases hu : u = t
    · subst hu; simp
    · simp [Function.update_of_ne hu, hnone u, Ne.symm hu]
  refine ⟨?_, ?_, ?_, fun hin => absurd hin hout⟩
  · intro u
    rw [hupd u, hm]
    exact Option.some_inj.symm
  · rw [hm]
    exact ⟨fun _ => ⟨t, rfl⟩, fun _ => rfl⟩
  · intro u hu
    rw [← (hupd u).mp hu]
    exact ha

/-- The owner gives the mutex back. -/
theorem LockOwner.release (h : LockOwner m s held) (ht : held t = true)
    (hm : s'.mutex m = ⟨false, none⟩) (hout : .lockTake m ∉ s'.stack s'.currentThread) :
    LockOwner m s' (Function.update held t false) := by
  have hnone : ∀ u, Function.update held t false u = false := by
    intro u
    by_cases hu : u = t
    · subst hu; exact Function.update_self _ _ _
    · rw [Function.update_of_ne hu]
      by_contra hheld
      rw [Bool.not_eq_false] at hheld
      exact hu (h.exclusive.1 u t hheld ht)
  refine ⟨?_, ?_, ?_, fun hin => absurd hin hout⟩
  · intro u
    rw [hnone u, hm]
    simp
  · rw [hm]
    simp
  · intro u hu
    cases (hnone u).symm.trans hu

/-! ## One step -/

structure LockInv (idle m : Addr) (s : Kernel) (held : Addr → Bool) : Prop where
  frames : LockFrames idle m s
  owner : LockOwner m s held

theorem Stays.alive {u : Addr} (h : Stays s k s') (hu : Alive s u) : Alive s' u := by
  refine ⟨by rw [h.tcbs]; exact hu.1, ?_⟩
  rcases h.state u with he | ⟨_, he⟩
  · rw [he]; exact hu.2
  · rw [he]; decide

/-- The current thread is left at work, and the mutex as it was. -/
theorem LockInv.stays (h : LockInv idle m s held) (hs : Stays s k s') (hm : s'.mutex = s.mutex)
    (hk : Good m k) (htop : ∀ f r, k = f :: r → f ≠ .schedule ∧ f.isSwitch = false)
    (hidle : s.currentThread = idle → ∀ f ∈ k, f.isIdle = true)
    (hfree : .lockTake m ∈ k → (s.mutex m).locked = false) : LockInv idle m s' held := by
  refine ⟨h.frames.stays hs hk htop hidle, h.owner.keep (congrFun hm m) (fun t _ => hs.alive) ?_⟩
  rw [hs.currentThread, hs.stack, Function.update_self]
  exact hfree

/-- The current thread stands at the call of `schedule()`; when it has ended it does not hold the mutex. -/
theorem LockInv.leaves {x : ThreadState} (h : LockInv idle m s held) (hl : Leaves s f x s')
    (hgood : Good m (f :: s.stack s.currentThread))
    (hin : ∀ g ∈ f :: s.stack s.currentThread, g ≠ .schedule ∧ g ≠ .lockTake m)
    (hq : s.interrupts = true → .lockTest m ∈ f :: s.stack s.currentThread)
    (hidle : s.currentThread = idle → (x ≠ .blocked ∧ x ≠ .terminated) ∧ f.isIdle = true)
    (hx : x = .terminated → held s.currentThread = false) : LockInv idle m s' held := by
  refine ⟨h.frames.leaves hl hgood hin hq hidle, h.owner.keep (congrFun hl.mutex m) ?_ ?_⟩
  · intro u hu ha
    refine ⟨by rw [hl.tcbs]; exact ha.1, ?_⟩
    rw [hl.state]
    by_cases huc : u = s.currentThread
    · subst huc
      rw [Function.update_self]
      intro hd
      cases (hx hd).symm.trans hu
    · rw [Function.update_of_ne huc]
      exact ha.2
  · rw [hl.currentThread, hl.stack, Function.update_self]
    intro hm
    rcases List.mem_cons.mp hm with he | hm
    · cases he
    · exact absurd rfl (hin _ hm).2

theorem LockInv.created (h : LockInv idle m s held) (hk : s.stack s.currentThread = [])
    (hc : Created s s') : LockInv idle m s' held := by
  refine ⟨h.frames.created hk hc, ?_⟩
  rcases hc with rfl | ⟨t, hdead, htc, hh, _⟩
  · exact h.owner.keep rfl (fun _ _ ha => ha) h.owner.free
  · refine h.owner.keep (congrFun hh.mutex m) ?_ ?_
    · intro u _ ha
      have hut : u ≠ t := by
        rintro rfl
        exact hdead ha
      exact ⟨(hh.tcbs u hut).mpr ha.1, by rw [hh.state u hut]; exact ha.2⟩
    · rw [hh.currentThread, hh.stack _ (Ne.symm htc), hk]
      intro hm
      cases hm

/-- `schedule()` gives the processor to a thread that is not behind the loop of `mutex_lock`. -/
theorem LockInv.switched (h : LockInv idle m s held)
    (hk : s.stack s.currentThread = .schedule :: k) (hsw : ∀ f ∈ k, f.isSwitch = false)
    (hs : Switched (s.setStack s.currentThread k) s') : LockInv idle m s' held := by
  have hgood := h.frames.good s.currentThread
  rw [hk] at hgood
  refine ⟨h.frames.switched hk hsw hs, h.owner.keep (congrFun hs.mutex m) ?_ ?_⟩
  · intro u _ ha
    exact ⟨by rw [hs.tcbs]; exact ha.1, fun hd => ha.2 ((hs.dead u).mp hd)⟩
  · intro hm
    exfalso
    rcases hs.switch with ⟨hcur, hstack, _⟩ | ⟨hcur, _, c, hstack⟩
    · rw [hcur, hstack] at hm
      have hself : (s.setStack s.currentThread k).stack s.currentThread = k :=
        Function.update_self _ _ _
      change _ ∈ (s.setStack s.currentThread k).stack s.currentThread at hm
      rw [hself] at hm
      exact (hgood.inner _ hm).2 rfl
    · change s'.currentThread ≠ s.currentThread at hcur
      have hother : s'.stack s'.currentThread = s.stack s'.currentThread := by
        rw [hstack]
        exact (Function.update_of_ne hcur _ _).trans (Function.update_of_ne hcur _ _)
      rw [hother] at hm
      have hin := (h.frames.good s'.currentThread).inner
      rcases h.frames.away _ hcur with hnil | ⟨c', b, r, hsw', _⟩
      · rw [hnil] at hm
        cases hm
      · rw [hsw'] at hm hin
        rcases List.mem_cons.mp hm with he | hm
        · cases he
        · exact (hin _ hm).2 rfl

theorem LockInv.disableInterrupts (h : LockInv idle m s held) :
    LockInv idle m s.disableInterrupts held :=
  ⟨h.frames.disableInterrupts, h.owner.keep rfl (fun _ _ ha => ha) h.owner.free⟩

/-- A tick outside `mutex_lock`. -/
theorem LockInv.tick (h : LockInv idle m s held) (hS : Sched s xs) (hfit : Fits s .tick) :
    LockInv idle m (Kernel.tick s) held := by
  have hR := hS.runningOfTick hfit
  have hl : Leaves s.disableInterrupts .irq0 .running (Kernel.tick s) := by
    refine ⟨rfl, rfl, rfl, rfl, ?_, ?_⟩
    · exact (Function.update_eq_self_iff.mpr hR.running.symm).symm
    · show (Kernel.tick s).stack = Function.update s.stack s.currentThread
        (.schedule :: .irq0 :: s.stack s.currentThread)
      simp [Kernel.tick]
  have hout : ∀ g ∈ s.stack s.currentThread, g ≠ .schedule ∧ g ≠ .lockTake m := by
    intro g hg
    have hcrit := hfit g hg
    constructor <;> rintro rfl <;> cases hcrit
  refine h.disableInterrupts.leaves hl ?_ ?_ ?_ ?_ ?_
  · exact Good.cons rfl (h.frames.good _) hout
  · intro g hg
    rcases List.mem_cons.mp hg with rfl | hg
    · exact ⟨by simp, by simp⟩
    · exact hout g hg
  · intro hi
    cases hi
  · exact fun _ => ⟨⟨by decide, by decide⟩, rfl⟩
  · intro hx
    cases hx

/-- The thread goes to sleep. -/
theorem LockInv.sleepUntil (h : LockInv idle m s held) (hk : s.stack s.currentThread = [])
    (hne : s.currentThread ≠ idle) (w : UInt64) : LockInv idle m (Kernel.sleepUntil w s) held := by
  refine h.disableInterrupts.leaves (sleepUntil_spec w s).2 ?_ ?_ ?_ (fun e => absurd e hne) ?_
  · show Good m (.slept :: s.stack s.currentThread)
    rw [hk]
    exact Good.cons rfl Good.nil (fun g hg => by cases hg)
  · show ∀ g ∈ .slept :: s.stack s.currentThread, _
    rw [hk]
    simp
  · intro hi
    cases hi
  · intro hx
    cases hx

/-- The thread asks for the mutex, which it does not hold. -/
theorem LockInv.mutexLock (h : LockInv idle m s held) (hk : s.stack s.currentThread = [])
    (hne : s.currentThread ≠ idle) (hfree : held s.currentThread = false) :
    LockInv idle m (Kernel.mutexLock m s) held := by
  have hnot : (s.mutex m).owner ≠ some s.currentThread := by
    intro ho
    rw [(h.owner.owner _).mpr ho] at hfree
    cases hfree
  obtain ⟨hmutex, ⟨ho, _⟩ | ⟨_, _, hst⟩⟩ := mutexLock_spec m s
  · exact absurd ho hnot
  · rw [hk] at hst
    refine h.stays hst hmutex ?_ ?_ (fun e => absurd e hne) ?_
    · exact Good.cons (by simp [Frame.isFor]) Good.nil (fun g hg => by cases hg)
    · intro f r he
      cases he
      exact ⟨by simp, rfl⟩
    · simp

/-- The holder of the mutex gives it back. -/
theorem LockInv.mutexUnlock (h : LockInv idle m s held) (hS : Running s xs)
    (hk : s.stack s.currentThread = []) (hheld : held s.currentThread = true) :
    LockInv idle m (Kernel.mutexUnlock m s) (Function.update held s.currentThread false) := by
  obtain ⟨_, hst, hmutex⟩ := hS.mutexUnlock_spec m
  rw [if_pos ((h.owner.owner _).mp hheld)] at hmutex
  rw [hk] at hst
  have hout : .lockTake m ∉ (Kernel.mutexUnlock m s).stack (Kernel.mutexUnlock m s).currentThread := by
    rw [hst.currentThread, hst.stack, Function.update_self]
    simp
  refine ⟨?_, h.owner.release hheld ?_ hout⟩
  · exact h.frames.stays hst Good.nil (fun _ _ he => by cases he) (fun _ _ hf => by cases hf)
  · rw [hmutex, Function.update_self]

/-- The thread ends, with the mutex not held. -/
theorem LockInv.threadExit (h : LockInv idle m s held) (hS : Running s xs)
    (hk : s.stack s.currentThread = []) (hne : s.currentThread ≠ idle)
    (hfree : held s.currentThread = false) {n : Nat} (hs : Kernel.threadExit n s = some s') :
    LockInv idle m s' held := by
  obtain ⟨u, hset, _, hl⟩ := hS.threadExit
  rw [hset.result hs]
  refine h.disableInterrupts.leaves hl ?_ ?_ ?_ (fun e => absurd e hne) ?_
  · show Good m (.stop :: s.stack s.currentThread)
    rw [hk]
    exact Good.cons rfl Good.nil (fun g hg => by cases hg)
  · show ∀ g ∈ .stop :: s.stack s.currentThread, _
    rw [hk]
    simp
  · intro hi
    cases hi
  · intro _
    exact hfree

theorem LockInv.call (h : LockInv idle m s held) (hS : Running s xs)
    (hk : s.stack s.currentThread = []) {c : Call} (hu : uses idle m held s (.call c) = true)
    (hfit : Fits s (.call c)) {n : Nat} (hs : Kernel.call n c s = some s') :
    LockInv idle m s' (heldAfter m held s (.call c)) := by
  obtain ⟨hne, hc⟩ := Bool.and_eq_true_iff.mp hu
  have hne : s.currentThread ≠ idle := of_decide_eq_true hne
  cases c with
  | createThread page stack size useVmm vmm =>
      obtain ⟨_, _, hcr, _⟩ := hS.createThread page stack size useVmm vmm hfit
      cases hs
      exact h.created hk hcr
  | createKernelThread page stack size =>
      obtain ⟨_, _, hcr, _⟩ := hS.createThread page stack
        (roundUp size) false s.currentVmmDesc hfit
      cases hs
      exact h.created hk hcr
  | createUserThread page stack size vmm =>
      obtain ⟨_, _, hcr, _⟩ := hS.createUserThread page stack size vmm hfit
      cases hs
      exact h.created hk hcr
  | threadSleepMs ms =>
      cases hs
      unfold threadSleepMs
      split
      · exact h
      · exact h.sleepUntil hk hne _
  | threadSleepSecond sec =>
      cases hs
      unfold threadSleepSecond
      split
      · exact h
      · exact h.sleepUntil hk hne _
  -- the caller does not hold the mutex, so the call is no recursive one
  | mutexLock m' =>
      cases hs
      obtain ⟨hm, hfree⟩ := Bool.and_eq_true_iff.mp hc
      obtain rfl : m' = m := of_decide_eq_true hm
      have hfree : held s.currentThread = false := by simpa using hfree
      have hnot : (s.mutex m').owner ≠ some s.currentThread := by
        intro ho
        rw [(h.owner.owner _).mpr ho] at hfree
        cases hfree
      show LockInv idle m' _ (if (s.mutex m').owner = some s.currentThread then _ else held)
      rw [if_neg hnot]
      exact h.mutexLock hk hne hfree
  | mutexUnlock m' =>
      cases hs
      obtain ⟨hm, hheld⟩ := Bool.and_eq_true_iff.mp hc
      obtain rfl : m' = m := of_decide_eq_true hm
      exact h.mutexUnlock hS hk hheld
  | threadExit => exact h.threadExit hS hk hne (by simpa using hc) hs
  | semWait m' => cases hc
  | semPost m' => cases hc
  | killThread t => cases hc

/-- What the frame under `schedule()` and `switch_to` does keeps the invariant; behind the loop of
`mutex_lock` the current thread gets the mutex. -/
theorem LockInv.inside (h : LockInv idle m s held) (hS : Running s xs)
    (hin : ∀ g ∈ s.stack s.currentThread, g ≠ .schedule ∧ g ≠ .lockTake m)
    (hf : f.isFor m = true) (hidle : s.currentThread = idle → f.isIdle = true)
    (hfree : f = .lockTake m → (s.mutex m).locked = false)
    (hnot : f ≠ .schedule ∧ f.isSwitch = false) {n : Nat}
    (hs : Kernel.runFrame n f s = some s') :
    LockInv idle m s' (if f = .lockTake m then Function.update held s.currentThread true
      else held) := by
  have hgood := h.frames.good s.currentThread
  have htop : ∀ f r, s.stack s.currentThread = f :: r → f ≠ .schedule ∧ f.isSwitch = false := by
    intro g r hg
    rw [hg] at hin
    exact ⟨(hin g List.mem_cons_self).1, hS.working g (hg ▸ List.mem_cons_self)⟩
  have hcurIdle : s.currentThread = idle → ∀ f ∈ s.stack s.currentThread, f.isIdle = true := by
    rintro e g hg
    rw [e] at hg
    exact h.frames.idleStack g hg
  -- most frames leave the lock and the stacks of the others alone
  have hback : ∀ {u}, Stays s (s.stack s.currentThread) u → u.mutex = s.mutex →
      LockInv idle m u held := by
    intro u hu hm
    exact h.stays hu hm hgood htop hcurIdle fun hm => absurd rfl (hin _ hm).2
  cases f with
  | schedule => exact absurd rfl hnot.1
  | switchTo c b => cases hnot.2
  | waitTest m' => cases hf
  | waitTake m' => cases hf
  | reclaimed =>
      cases hs
      exact hback (Stays.of_eq rfl rfl rfl rfl) rfl
  | irq0 =>
      cases hs
      exact hback (Stays.of_eq rfl rfl rfl rfl) rfl
  | slept =>
      cases hs
      exact hback (Stays.of_eq rfl rfl rfl rfl) rfl
  | stop =>
      cases hs
      refine h.stays (stays_push s .stop) rfl (Good.cons rfl hgood hin) ?_ ?_ ?_
      · intro g r hg
        cases hg
        exact ⟨by simp, rfl⟩
      · intro e
        cases hidle e
      · simp only [List.mem_cons, reduceCtorEq, false_or]
        exact fun hm => absurd rfl (hin _ hm).2
  -- the taking of the lock, which is the one frame that changes the holder
  | lockTake m' =>
      cases hs
      obtain rfl : m' = m := of_decide_eq_true hf
      have hst : Stays s (s.stack s.currentThread) (Kernel.lockTake m' s) :=
        Stays.of_eq rfl rfl rfl rfl
      rw [if_pos rfl]
      refine ⟨h.frames.stays hst hgood htop hcurIdle, ?_⟩
      refine h.owner.take (hfree rfl) (Function.update_self _ _ _) ?_ ?_
      · refine ⟨hS.current, ?_⟩
        show s.state s.currentThread ≠ .terminated
        rw [hS.running]
        decide
      · exact fun hm => (hin _ hm).2 rfl
  -- the test: behind a free lock the taking is pushed, otherwise the thread goes to the wait queue
  | lockTest m' =>
      cases hs
      obtain rfl : m' = m := of_decide_eq_true hf
      have hne : s.currentThread ≠ idle := by
        intro e
        cases hidle e
      rw [if_neg (by simp)]
      rcases lockTest_spec m' s with ⟨_, hl⟩ | ⟨hunlocked, hmutex, _, hst⟩
      · refine h.leaves hl (Good.cons hf hgood hin) ?_ (fun _ => List.mem_cons_self)
          (fun e => absurd e hne) (fun hx => by cases hx)
        intro g hg
        rcases List.mem_cons.mp hg with rfl | hg
        · exact ⟨by simp, by simp⟩
        · exact hin g hg
      · refine h.stays hst hmutex (Good.cons hf hgood hin) ?_ (fun e => absurd e hne)
          (fun _ => hunlocked)
        intro g r hg
        cases hg
        exact ⟨by simp, rfl⟩

/-- The thread that comes back from `switch_to` may have to reclaim the one before it. -/
theorem LockInv.resumed (h : LockInv idle m s held) (hS : Running s xs)
    (hin : ∀ g ∈ s.stack s.currentThread, g ≠ .schedule ∧ g ≠ .lockTake m)
    (hr : Resumed s s') : LockInv idle m s' held := by
  have hgood := h.frames.good s.currentThread
  have hout : .lockTake m ∉ s.stack s.currentThread := fun hm => (hin _ hm).2 rfl
  have hidle : s.currentThread = idle → ∀ f ∈ s.stack s.currentThread, f.isIdle = true := by
    rintro e g hg
    rw [e] at hg
    exact h.frames.idleStack g hg
  rcases hr.reclaims with ⟨hstack, _⟩ | ⟨_, _, hstack⟩
  · have hst : Stays s (s.stack s.currentThread) s' :=
      ⟨hr.tcbs, hr.currentThread, fun u => Or.inl (congrFun hr.state u), by
        rw [hstack]
        exact (Function.update_eq_self _ _).symm⟩
    refine h.stays hst hr.mutex hgood ?_ hidle (fun hm => absurd hm hout)
    intro g r hg
    exact ⟨(hin g (hg ▸ List.mem_cons_self)).1, hS.working g (hg ▸ List.mem_cons_self)⟩
  · have hst : Stays s (.reclaimed :: s.stack s.currentThread) s' :=
      ⟨hr.tcbs, hr.currentThread, fun u => Or.inl (congrFun hr.state u), hstack⟩
    refine h.stays hst hr.mutex (Good.cons rfl hgood hin) ?_ ?_ ?_
    · intro g r hg
      cases hg
      exact ⟨by simp, rfl⟩
    · intro e g hg
      rcases List.mem_cons.mp hg with rfl | hg
      · rfl
      · exact hidle e g hg
    · simp only [List.mem_cons, reduceCtorEq, false_or]
      exact fun hm => absurd hm hout

theorem LockInv.runFrame (h : LockInv idle m s held) (hS : Sched s xs)
    (hk : s.stack s.currentThread = f :: k) {n : Nat}
    (hs : Kernel.runFrame n f (s.setStack s.currentThread k) = some s') :
    LockInv idle m s' (if f = .lockTake m then Function.update held s.currentThread true
      else held) := by
  have hgood := h.frames.good s.currentThread
  have hsw := hS.frames s.currentThread
  rw [hk] at hgood hsw
  have hself : (s.setStack s.currentThread k).stack s.currentThread = k :=
    Function.update_self _ _ _
  by_cases hsch : f = .schedule
  · subst hsch
    obtain ⟨hcore, hwork⟩ := hS.atSchedule hk
    obtain ⟨u, _, hset, _, hsd, _⟩ := hcore.schedule hwork (h.frames.findsReady hS)
    rw [← hset.result hs] at hsd
    rw [if_neg (by simp)]
    exact h.switched hk hsw hsd
  · have hR := hS.pop hk hsch
    have h0 : LockInv idle m (s.setStack s.currentThread k) held := by
      refine ⟨h.frames.pop hk hsw, h.owner.keep rfl (fun _ _ ha => ha) ?_⟩
      show .lockTake m ∈ (s.setStack s.currentThread k).stack s.currentThread → _
      rw [hself]
      exact fun hm => absurd rfl (hgood.inner _ hm).2
    have hin : ∀ g ∈ (s.setStack s.currentThread k).stack s.currentThread,
        g ≠ .schedule ∧ g ≠ .lockTake m := by
      rw [hself]
      exact hgood.inner
    cases hfs : f.isSwitch with
    | true =>
        obtain ⟨c, b, rfl⟩ : ∃ c b, f = .switchTo c b := by
          cases f <;> simp_all [Frame.isSwitch]
        obtain ⟨u, _, hset, _, hres, _⟩ := hS.resume hk
        rw [← hset.result hs] at hres
        rw [if_neg (by simp)]
        exact h0.resumed hR hin hres
    | false =>
        refine h0.inside hR hin (hgood.isFor f List.mem_cons_self) ?_ ?_ ⟨hsch, hfs⟩ hs
        · intro e
          refine h.frames.idleStack f ?_
          rw [← show s.currentThread = idle from e, hk]
          exact List.mem_cons_self
        · rintro rfl
          exact h.owner.free (hk ▸ List.mem_cons_self)

/-- One step of a run without a tick inside `mutex_lock`. -/
theorem LockInv.step (h : LockInv idle m s held) (hS : Sched s xs) {e : Event}
    (hu : uses idle m held s e = true) (hP : Undisturbed m s e) {n : Nat}
    (hs : Kernel.step n e s = some s') : LockInv idle m s' (heldAfter m held s e) := by
  have he := enabled_of_step hs
  have hfit := h.frames.fits hS hu hP he
  cases e with
  | tick =>
      cases (if_pos he).symm.trans hs
      exact h.tick hS hfit
  | call c => exact h.call (hS.runningOfCall he) he hu hfit ((if_pos he).symm.trans hs)
  | run =>
      obtain ⟨f, k, hk, hrun⟩ := runFrame_of_step hs
      have hafter : heldAfter m held s .run =
          if f = .lockTake m then Function.update held s.currentThread true else held := by
        have hfor := (h.frames.good s.currentThread).isFor f (hk ▸ List.mem_cons_self)
        simp only [heldAfter, hk]
        cases f <;> simp_all [Frame.isFor]
      rw [hafter]
      exact h.runFrame hS hk hrun

/-! ## Runs -/

/-- A run with the threads that hold the mutex, when the threads use it so and each step meets `P`. -/
def lockRun (fuel : Nat) (idle m : Addr) (P : Kernel → Event → Prop) [∀ s e, Decidable (P s e)] :
    List Event → Kernel × (Addr → Bool) → Option (Kernel × (Addr → Bool))
  | [], p => some p
  | e :: es, (s, held) =>
      if uses idle m held s e ∧ P s e then
        (Kernel.step fuel e s).bind fun u => lockRun fuel idle m P es (u, heldAfter m held s e)
      else none

theorem lockRun_reaches {P : Kernel → Event → Prop} [∀ s e, Decidable (P s e)] {fuel : Nat}
    {es : List Event} {r : Kernel × (Addr → Bool)} (h : LockRun idle m P s s' held)
    (hr : lockRun fuel idle m P es (s', held) = some r) : LockRun idle m P s r.1 r.2 := by
  induction es generalizing s' held with
  | nil =>
      cases hr
      exact h
  | cons e es ih =>
      unfold lockRun at hr
      split at hr
      · rename_i hstep
        obtain ⟨u, hu, hrest⟩ := Option.bind_eq_some_iff.mp hr
        exact ih (h.step hstep.1 hstep.2 hu) hrest
      · cases hr

instance (m : Addr) (s : Kernel) (e : Event) : Decidable (Undisturbed m s e) :=
  inferInstanceAs (Decidable (_ → _))

section Boot

variable {main idle bootStack idleStack kernelPml4 : Nat} {vmms : Addr → Vmm} {vmmDesc : Addr}
  {counts : Addr → Int}

theorem Booted.lockInv (h : Booted idle s xs) (m : Addr) : LockInv idle m s fun _ => false := by
  have hC := h.calm
  refine ⟨⟨hC.idleKnown, ⟨hC.idleState, hC.alive idle hC.idleKnown⟩, ?_, ?_,
    fun t _ => Or.inl (h.stack t), ?_⟩, ⟨?_, ?_, ?_, ?_⟩⟩
  · rw [h.stack idle]
    intro f hf
    cases hf
  · intro t
    rw [h.stack t]
    exact Good.nil
  · intro _ f k hk
    cases (h.stack _).symm.trans hk
  · simp [h.mutex m]
  · simp [h.mutex m]
  · intro t ht
    cases ht
  · rw [h.stack]
    intro hf
    cases hf

theorem mutual_exclusion (hne : main ≠ idle) (hstack : idleStack ≠ 0) {m : Addr} {s : Kernel}
    {held : Addr → Bool} (h : LockRun idle m (Undisturbed m)
      (initMultitasking main idle bootStack idleStack kernelPml4 vmms vmmDesc counts) s held) :
    Exclusive m s held := by
  suffices hinv : ∃ xs, Sched s xs ∧ LockInv idle m s held from hinv.choose_spec.2.owner.exclusive
  induction h with
  | start =>
      obtain ⟨xs, hB⟩ := booted_initMultitasking hne hstack
      exact ⟨xs, hB.sched, hB.lockInv m⟩
  | step _ hu hP hs ih =>
      obtain ⟨xs, hS, hL⟩ := ih
      have he := enabled_of_step hs
      obtain ⟨u', xs', hset, hS', _⟩ := hS.step he (hL.frames.fits hS hu hP he)
      rw [← hset.result hs] at hS'
      exact ⟨xs', hS', hL.step hS hu hP hs⟩

end Boot

/-- The thread 3 waits for the mutex that the main thread has locked. -/
theorem mutual_exclusion_waits :
    ∃ s held, LockRun 2 9 (Undisturbed 9)
        (initMultitasking 1 2 4096 8192 0 (fun _ => ⟨0, false⟩) 7 fun _ => 0) s held ∧
      held 1 = true ∧ s.state 3 = .blocked ∧ Exclusive 9 s held := by
  have hrun : (lockRun 5 2 9 (Undisturbed 9)
      [.call (.createThread (some 3) 8192 4096 false 0), .call (.mutexLock 9), .run, .run, .tick,
        .run, .tick, .run, .call (.mutexLock 9), .run, .run]
      (initMultitasking 1 2 4096 8192 0 (fun _ => ⟨0, false⟩) 7 (fun _ => 0), fun _ => false)).any
        (fun r => r.2 1 && r.1.state 3 = .blocked) = true := by decide +kernel
  obtain ⟨r, hr, hr1⟩ := (Option.any_eq_true _ _).mp hrun
  obtain ⟨h1, h3⟩ := Bool.and_eq_true_iff.mp hr1
  have hreach := lockRun_reaches .start hr
  refine ⟨r.1, r.2, hreach, h1, of_decide_eq_true h3, ?_⟩
  exact mutual_exclusion (by decide) (by decide) hreach

/-- A tick, and the next thread in the ready queue starts. -/
def preempt : List Event := [.tick, .run]

/-- A tick, and the next thread in the ready queue comes back from its own tick. -/
def preemptBack : List Event := [.tick, .run, .run, .run]

/-- The thread 3 waits for the main thread's mutex and gets it just after the thread 4 has ended: the
`KillThread` in its `schedule()` turns interrupts on, and the main thread locks the mutex before
the thread 3 has set `locked`. -/
def endedInBetween : List Event :=
  List.flatten
    [[.call (.createThread (some 3) 8192 4096 false 0), .call (.mutexLock 9), .run, .run],
      preempt, preempt, [.call (.mutexLock 9), .run, .run, .run, .run],
      [.call (.createThread (some 4) 8192 4096 false 0), .call (.mutexUnlock 9)],
      preemptBack, preempt, [.call .threadExit, .run, .run, .run, .run],
      preemptBack, [.call (.mutexLock 9), .run, .run], preemptBack, preemptBack, [.run]]

theorem two_owners :
    ∃ s held, LockRun 2 9 (fun _ _ => True)
        (initMultitasking 1 2 4096 8192 0 (fun _ => ⟨0, false⟩) 7 fun _ => 0) s held ∧
      ¬ Exclusive 9 s held := by
  have hrun : (lockRun 5 2 9 (fun _ _ => True) endedInBetween
      (initMultitasking 1 2 4096 8192 0 (fun _ => ⟨0, false⟩) 7 (fun _ => 0), fun _ => false)).any
        (fun r => r.2 1 && r.2 3) = true := by decide +kernel
  obtain ⟨r, hr, hheld⟩ := (Option.any_eq_true _ _).mp hrun
  obtain ⟨h1, h3⟩ := Bool.and_eq_true_iff.mp hheld
  refine ⟨r.1, r.2, lockRun_reaches .start hr, ?_⟩
  intro hex
  exact absurd (hex.1 1 3 h1 h3) (by decide)

end Kernel

end Os003
