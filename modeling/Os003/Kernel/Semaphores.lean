import Os003.Kernel.Books

set_option autoImplicit false

/-! # Semaphores

`sem_post` adds a permit and takes one thread out of the wait queue, but it does not hand the permit
to that thread: another one may test `count` first, and the thread that was released then queues
again. What keeps permits from being stranded is a relation between three numbers: while threads
wait, there are at most as many permits as threads that have been released and have not tested
`count` since (`permits_conserved`).
-/

namespace Os003

open Linked

namespace Kernel

variable {s s' : Kernel} {xs xs' : QueueId → List Addr} {t m idle : Addr} {f : Frame}
  {k : List Frame} {e : Event} {n : Nat}

/-- `sem_init`. -/
def semInit (m : Addr) (value : Int) (s : Kernel) : Kernel :=
  { s.setCount m value with queue := Function.update s.queue (.sem m) Queue.empty }

/-- No thread is in a function of the semaphore. -/
def Unused (m : Addr) (s : Kernel) : Prop :=
  s.queue (.sem m) = Queue.empty ∧ ∀ t, .waitTest m ∉ s.stack t ∧ .waitTake m ∉ s.stack t

/-! ## The frames of the current thread -/

/-- The frames of the current thread behind an event in which it stays the current one. -/
inductive Goes (s : Kernel) : Event → List Frame → Prop
  | tick : Goes s .tick [.schedule, .irq0]
  | own {c : Call} : Goes s (.call c) []
  | sleeps {c : Call} : Goes s (.call c) [.schedule, .slept]
  | locks {m : Addr} : Goes s (.call (.mutexLock m)) [.lockTest m]
  | waits {m : Addr} : Goes s (.call (.semWait m)) [.waitTest m]
  | returns {f : Frame} (hk : s.stack s.currentThread = [f]) (hf : ∀ m, f ≠ .waitTest m) :
      Goes s .run []
  | back {f g : Frame} (hk : s.stack s.currentThread = [f, g]) : Goes s .run [g]
  | lockBlocks {m : Addr} (hk : s.stack s.currentThread = [.lockTest m]) :
      Goes s .run [.schedule, .lockTest m]
  | lockTakes {m : Addr} (hk : s.stack s.currentThread = [.lockTest m]) :
      Goes s .run [.lockTake m]
  | waitBlocks {m : Addr} (hk : s.stack s.currentThread = [.waitTest m]) (h : s.semCount m ≤ 0) :
      Goes s .run [.schedule, .waitTest m]
  | waitTakes {m : Addr} (hk : s.stack s.currentThread = [.waitTest m]) (h : 0 < s.semCount m) :
      Goes s .run [.waitTake m]

theorem Stays.goes (h : Stays s k s') (hg : Goes s e k) : Goes s e (s'.stack s.currentThread) := by
  rw [h.stack, Function.update_self]
  exact hg

theorem goes_call (h : Running s xs) (hk : s.stack s.currentThread = []) {c : Call}
    (hP : Plain idle s (.call c)) (hs : Kernel.call n c s = some s') :
    Goes s (.call c) (s'.stack s.currentThread) := by
  obtain ⟨_, hexit, hkill, hfit⟩ := hP
  -- outside `schedule()` a call begins on an empty stack and leaves at most its own frame on it
  have hcreated : ∀ {u}, Created s u → Goes s (.call c) (u.stack s.currentThread) := by
    rintro u (rfl | ⟨t, _, htc, hh, _⟩)
    · show Goes s (.call c) (s.stack s.currentThread)
      rw [hk]
      exact .own
    · rw [hh.stack _ (Ne.symm htc), hk]
      exact .own
  have hown : ∀ {u}, Stays s (s.stack s.currentThread) u →
      Goes s (.call c) (u.stack s.currentThread) := by
    intro u hu
    rw [hk] at hu
    exact hu.goes .own
  have hsleep : ∀ w, Goes s (.call c) ((sleepUntil w s).stack s.currentThread) := by
    intro w
    have hl := (sleepUntil_spec w s).2
    rw [hl.stack]
    show Goes s (.call c) (Function.update s.stack s.currentThread
      (.schedule :: .slept :: s.stack s.currentThread) s.currentThread)
    rw [Function.update_self, hk]
    exact .sleeps
  cases c with
  | createThread page stack size useVmm vmm =>
      obtain ⟨_, _, hc, _⟩ := h.createThread page stack size useVmm vmm hfit
      cases hs
      exact hcreated hc
  | createKernelThread page stack size =>
      obtain ⟨_, _, hc, _⟩ := h.createThread page stack
        (roundUp size) false s.currentVmmDesc hfit
      cases hs
      exact hcreated hc
  | createUserThread page stack size vmm =>
      obtain ⟨_, _, hc, _⟩ := h.createUserThread page stack size vmm hfit
      cases hs
      exact hcreated hc
  | threadSleepMs ms =>
      cases hs
      unfold threadSleepMs
      split
      · exact hown (Stays.of_eq rfl rfl rfl rfl)
      · exact hsleep _
  | threadSleepSecond sec =>
      cases hs
      unfold threadSleepSecond
      split
      · exact hown (Stays.of_eq rfl rfl rfl rfl)
      · exact hsleep _
  | mutexLock m =>
      cases hs
      rcases (mutexLock_spec m s).2 with ⟨_, _, hstay⟩ | ⟨_, _, hstay⟩
      · exact hown hstay
      · rw [hk] at hstay
        exact hstay.goes .locks
  | mutexUnlock m =>
      cases hs
      exact hown (h.mutexUnlock_spec m).2.1
  | semWait m =>
      cases hs
      show Goes s _ (Function.update s.stack s.currentThread
        (.waitTest m :: s.stack s.currentThread) s.currentThread)
      rw [Function.update_self, hk]
      exact .waits
  | semPost m =>
      cases hs
      exact hown (h.semPost_spec m).2.1
  | threadExit => exact absurd rfl hexit
  | killThread t => exact absurd rfl (hkill t)

/-- The current thread goes on behind a call of `schedule()`. -/
theorem goes_inside (hk : s.stack s.currentThread = [f]) (hf : f.isBase = true)
    (hs : Kernel.runFrame n f (s.setStack s.currentThread []) = some s') :
    Goes s .run (s'.stack s.currentThread) := by
  have hpop : (s.setStack s.currentThread []).stack s.currentThread = [] :=
    Function.update_self _ _ _
  -- the only frame has run: another one takes its place, the thread leaves, or the call returns
  have hin : ∀ {u g}, Stays (s.setStack s.currentThread [])
      (g :: (s.setStack s.currentThread []).stack s.currentThread) u → Goes s .run [g] →
      Goes s .run (u.stack s.currentThread) := by
    intro u g hu hg
    have hself : u.stack s.currentThread = [g] :=
      (congrFun hu.stack _).trans ((Function.update_self _ _ _).trans (congrArg _ hpop))
    rwa [hself]
  have hout : ∀ {u g}, Leaves (s.setStack s.currentThread []) g .blocked u →
      Goes s .run [.schedule, g] → Goes s .run (u.stack s.currentThread) := by
    intro u g hu hg
    have hself : u.stack s.currentThread = [.schedule, g] :=
      (congrFun hu.stack _).trans ((Function.update_self _ _ _).trans
        (congrArg (fun k => .schedule :: g :: k) hpop))
    rwa [hself]
  have hback : ∀ {u : Kernel}, u.stack = (s.setStack s.currentThread []).stack →
      (∀ m, f ≠ .waitTest m) → Goes s .run (u.stack s.currentThread) := by
    intro u hu hf
    rw [hu, hpop]
    exact .returns hk hf
  cases f with
  | schedule => cases hf
  | switchTo c b => cases hf
  | reclaimed => cases hf
  | stop => cases hf
  | irq0 =>
      cases hs
      exact hback rfl (by simp)
  | slept =>
      cases hs
      exact hback rfl (by simp)
  | lockTake m =>
      cases hs
      exact hback rfl (by simp)
  | waitTake m =>
      cases hs
      exact hback rfl (by simp)
  | lockTest m =>
      cases hs
      rcases lockTest_spec m (s.setStack s.currentThread []) with ⟨_, hl⟩ | ⟨_, _, _, hst⟩
      · exact hout hl (.lockBlocks hk)
      · exact hin hst (.lockTakes hk)
  | waitTest m =>
      cases hs
      rcases waitTest_spec m (s.setStack s.currentThread []) with ⟨hc, hl⟩ | ⟨hc, _, _, hst⟩
      · exact hout hl (.waitBlocks hk hc)
      · exact hin hst (.waitTakes hk hc)

theorem Calm.goes (h : Calm idle s) (hS : Sched s xs) (hP : Plain idle s e)
    (hs : Kernel.step n e s = some s') (hcur : s'.currentThread = s.currentThread) :
    Goes s e (s'.stack s.currentThread) := by
  have he := enabled_of_step hs
  cases e with
  | tick =>
      have hk := h.off he
      cases (if_pos he).symm.trans hs
      have htick : (Kernel.tick s).stack s.currentThread = [.schedule, .irq0] := by
        simp [Kernel.tick, hk]
      rw [htick]
      exact .tick
  | call c => exact goes_call (hS.runningOfCall he) he hP ((if_pos he).symm.trans hs)
  | run =>
      obtain ⟨f, k, hk, hrun⟩ := runFrame_of_step hs
      have hstack : (s.setStack s.currentThread k).stack s.currentThread = k :=
        Function.update_self _ _ _
      have hshape := h.shape s.currentThread
      rw [hk] at hshape
      cases hshape with
      | inside hf => exact goes_inside hk hf hrun
      | leaving hf =>
          obtain ⟨hcore, hwork⟩ := hS.atSchedule hk
          obtain ⟨u, _, hset, _, hsw, _⟩ := hcore.schedule hwork (h.findsReady hS)
          rw [← hset.result hrun] at hsw
          rcases hsw.switch with ⟨_, hst, _⟩ | ⟨hne, _⟩
          · rw [hst, hstack]
            exact .back hk
          · exact absurd hcur hne
      | left c hf =>
          obtain ⟨u, _, hset, _, hres, _⟩ := hS.resume hk
          rw [← hset.result hrun] at hres
          rcases hres.reclaims with ⟨hst, _⟩ | ⟨⟨d, hd, hdead⟩, _⟩
          · rw [hst, hstack]
            exact .back hk
          · exact absurd hdead (h.alive d hd)

/-! ## The other threads -/

/-- What a step does to a thread that is not the current one. -/
theorem Moves.others (h : Moves s e s') {u : Addr} (hu : u ≠ s.currentThread) :
    (s'.stack u = s.stack u ∨ ¬ Alive s u ∧ s'.stack u = []) ∧
      (Alive s u → u ∈ s'.tcbs ∧ (s'.state u = .blocked → s.state u = .blocked)) := by
  have hpop : ∀ k, (s.setStack s.currentThread k).stack u = s.stack u :=
    fun k => Function.update_of_ne hu _ _
  cases h with
  | stays h hk =>
      refine ⟨.inl ?_, fun ha => ⟨h.tcbs ▸ ha.1, fun hb => ?_⟩⟩
      · rw [h.stack, Function.update_of_ne hu]
      · rcases h.state u with he | ⟨_, he⟩
        · exact he ▸ hb
        · cases he.symm.trans hb
  | leaves hx htcbs hcur hstate hstack =>
      refine ⟨.inl ?_, fun ha => ⟨htcbs ▸ ha.1, fun hb => ?_⟩⟩
      · rw [hstack, Function.update_of_ne hu]
      · rwa [hstate, Function.update_of_ne hu] at hb
  | created he hk h =>
      rcases h with rfl | ⟨t, hdead, htc, hh, hstack, hready⟩
      · exact ⟨.inl rfl, fun ha => ⟨ha.1, id⟩⟩
      · by_cases hut : u = t
        · subst hut
          exact ⟨hstack.symm.imp_right fun h => ⟨hdead, h⟩, fun ha => absurd ha hdead⟩
        · exact ⟨.inl (hh.stack u hut), fun ha => ⟨(hh.tcbs u hut).mpr ha.1, fun hb =>
            (hh.state u hut).symm.trans hb⟩⟩
  | @killed t he hk h =>
      refine ⟨.inl (congrFun h.stack u), fun ha => ⟨h.tcbs ▸ ha.1, fun hb => ?_⟩⟩
      rw [h.state] at hb
      by_cases hut : u = t
      · rw [hut, Function.update_self] at hb
        cases hb
      · rwa [Function.update_of_ne hut] at hb
  | switched he hk hw h =>
      refine ⟨.inl ?_, fun ha => ⟨h.tcbs ▸ ha.1, h.blocked u⟩⟩
      rcases h.switch with ⟨_, hst, _⟩ | ⟨_, _, c, hst⟩
      · exact (congrFun hst u).trans (hpop _)
      · exact (congrFun hst u).trans ((Function.update_of_ne hu _ _).trans (hpop _))
  | resumed he hk hw h =>
      refine ⟨.inl ?_, fun ha => ⟨h.tcbs ▸ ha.1, fun hb => ?_⟩⟩
      · rcases h.reclaims with ⟨hst, _⟩ | ⟨_, _, hst⟩
        · exact (congrFun hst u).trans (hpop _)
        · exact (congrFun hst u).trans ((Function.update_of_ne hu _ _).trans (hpop _))
      · rw [h.state] at hb
        exact hb

/-- A thread that is left for another one stands in `switch_to`. -/
theorem Calm.left_for (h : Calm idle s) (hm : Moves s e s')
    (hcur : s'.currentThread ≠ s.currentThread) : ∃ f c,
      s.stack s.currentThread = [.schedule, f] ∧
      s'.stack s.currentThread = [.switchTo c false, f] := by
  cases hm with
  | stays h _ => exact absurd h.currentThread hcur
  | leaves _ _ hc _ _ => exact absurd hc hcur
  | created _ _ hc =>
      rcases hc with rfl | ⟨_, _, _, hh, _⟩
      · exact absurd rfl hcur
      · exact absurd hh.currentThread hcur
  | killed _ _ hk => exact absurd hk.currentThread hcur
  | switched _ hk _ hsw =>
      have hshape := h.shape s.currentThread
      rw [hk] at hshape
      cases hshape with
      | inside hf => cases hf
      | leaving hf =>
          have hoff : s.interrupts = false := by
            cases hi : s.interrupts with
            | false => rfl
            | true => cases hk.symm.trans (h.off hi)
          rcases hsw.switch with ⟨hc, _⟩ | ⟨_, _, c, hst⟩
          · exact absurd hc hcur
          · refine ⟨_, c, hk, ?_⟩
            refine (congrFun hst _).trans ((Function.update_self _ _ _).trans ?_)
            show Frame.switchTo c s.interrupts ::
              Function.update s.stack s.currentThread _ s.currentThread = _
            rw [Function.update_self, hoff]
  | resumed _ _ _ hr => exact absurd hr.currentThread hcur

/-! ## Waiting and released threads -/

/-- The thread has blocked in the wait queue of the semaphore. -/
def InQueue (m : Addr) (s : Kernel) (t : Addr) : Prop :=
  (∃ c, s.stack t = [.switchTo c false, .waitTest m]) ∨
    t = s.currentThread ∧ s.stack t = [.schedule, .waitTest m]

/-- The thread goes on at the test of `count` when it runs. -/
structure Retests (m : Addr) (s : Kernel) (t : Addr) : Prop where
  known : t ∈ s.tcbs
  awake : s.state t ≠ .blocked
  frames : (∃ c, s.stack t = [.switchTo c false, .waitTest m]) ∨
    t = s.currentThread ∧ s.stack t = [.waitTest m]

/-- No thread has been left between its test of `count` and the decrement. -/
def NeverTaking (m : Addr) (s : Kernel) : Prop := ∀ t f, s.stack t ≠ [f, .waitTake m]

/-- Inside a function the current thread can only go on. -/
theorem Calm.run_of_inside (h : Calm idle s) (hs : Kernel.step n e s = some s')
    (hk : s.stack s.currentThread ≠ []) : e = .run := by
  have he := enabled_of_step hs
  cases e with
  | tick => exact absurd (h.off he) hk
  | call c => exact absurd he hk
  | run => rfl

/-- A current thread that has blocked stands at the call of `schedule()`. -/
theorem Sched.at_schedule (h : Sched s xs) (hb : s.state s.currentThread = .blocked) :
    ∃ k, s.stack s.currentThread = .schedule :: k := by
  rcases h.currentState with hr | ⟨_, hk⟩
  · cases hr.symm.trans hb
  · exact hk

section Step

variable (hC : Calm idle s) (hS : Sched s xs) (hP : Plain idle s e)
  (hs : Kernel.step n e s = some s')

include hC hS hP hs

theorem NeverTaking.step (h : NeverTaking m s) : NeverTaking m s' := by
  have hfit := hC.fits hS hP (enabled_of_step hs)
  have hm := hS.moves hfit hs
  intro t f ht
  by_cases htc : t = s.currentThread
  · subst htc
    by_cases hcur : s'.currentThread = s.currentThread
    · have hg := hC.goes hS hP hs hcur
      rw [ht] at hg
      cases hg
    · obtain ⟨g, c, hg, hleft⟩ := hC.left_for hm hcur
      cases hleft.symm.trans ht
      exact h s.currentThread _ hg
  · rcases (hm.others htc).1 with hsame | ⟨_, hnil⟩
    · exact h t f (hsame.symm.trans ht)
    · cases hnil.symm.trans ht

/-- The decrement comes right behind the test. -/
theorem NeverTaking.tested (h : NeverTaking m s)
    (ht : s'.stack s'.currentThread = [.waitTake m]) :
    e = .run ∧ s.stack s.currentThread = [.waitTest m] ∧ 0 < s.semCount m := by
  have hfit := hC.fits hS hP (enabled_of_step hs)
  have hm := hS.moves hfit hs
  by_cases hcur : s'.currentThread = s.currentThread
  · rw [hcur] at ht
    have hg := hC.goes hS hP hs hcur
    rw [ht] at hg
    cases hg with
    | back hb => exact absurd hb (h _ _)
    | waitTakes hb hpos => exact ⟨rfl, hb, hpos⟩
  · obtain ⟨_, _, _, hstack⟩ := hm.current.resolve_left hcur
    rw [hstack] at ht
    rcases hC.away _ hcur with hnil | ⟨c, f, hsw⟩
    · cases hnil.symm.trans ht
    · cases hsw.symm.trans ht

variable (hS' : Sched s' xs')

include hS'

/-- A thread that stays in the queue. -/
theorem InQueue.step (h : InQueue m s t) (ht : t ∈ xs (.sem m)) (ht' : t ∈ xs' (.sem m)) :
    InQueue m s' t := by
  have hfit := hC.fits hS hP (enabled_of_step hs)
  have hm := hS.moves hfit hs
  obtain ⟨hknown, hblocked⟩ := (hS.blocked_iff t).mp ⟨.sem m, by simp, ht⟩
  have hblocked' := ((hS'.blocked_iff t).mp ⟨.sem m, by simp, ht'⟩).2
  by_cases htc : t = s.currentThread
  · subst htc
    obtain ⟨k, hk⟩ := hS.at_schedule hblocked
    rcases h with ⟨c, hsw⟩ | ⟨_, hsch⟩
    · cases hk.symm.trans hsw
    have he := hC.run_of_inside hs (by rw [hsch]; simp)
    by_cases hcur : s'.currentThread = s.currentThread
    · -- `schedule()` would have come back to a thread that is still blocked
      rw [← hcur] at hblocked'
      obtain ⟨k', hk'⟩ := hS'.at_schedule hblocked'
      have hg := hC.goes hS hP hs hcur
      rw [hcur] at hk'
      rw [hk', he] at hg
      cases hg with
      | back hb => cases hb.symm.trans hsch
      | lockBlocks hb => cases hb.symm.trans hsch
      | waitBlocks hb _ => cases hb.symm.trans hsch
    · obtain ⟨f, c, hf, hleft⟩ := hC.left_for hm hcur
      cases hf.symm.trans hsch
      exact .inl ⟨c, hleft⟩
  · rcases h with ⟨c, hsw⟩ | ⟨h, _⟩
    · rcases (hm.others htc).1 with hsame | ⟨hdead, _⟩
      · exact .inl ⟨c, hsame.trans hsw⟩
      · exact absurd ⟨hknown, hC.alive t hknown⟩ hdead
    · exact absurd h htc

/-- A released thread that has not tested `count`. -/
theorem Retests.step (h : Retests m s t)
    (hne : ¬ (t = s.currentThread ∧ s.stack t = [.waitTest m])) : Retests m s' t := by
  have hfit := hC.fits hS hP (enabled_of_step hs)
  have hm := hS.moves hfit hs
  obtain ⟨c, hsw⟩ := h.frames.resolve_right hne
  by_cases htc : t = s.currentThread
  · subst htc
    have he := hC.run_of_inside hs (by rw [hsw]; simp)
    have hcur : s'.currentThread = s.currentThread := by
      by_contra hcur
      obtain ⟨f, c', hf, _⟩ := hC.left_for hm hcur
      cases hf.symm.trans hsw
    have hg := hC.goes hS hP hs hcur
    have hback : s'.stack s.currentThread = [.waitTest m] := by
      rw [he] at hg
      generalize s'.stack s.currentThread = k at hg
      cases hg with
      | returns hb _ => cases hb.symm.trans hsw
      | back hb =>
          cases hb.symm.trans hsw
          rfl
      | lockBlocks hb => cases hb.symm.trans hsw
      | lockTakes hb => cases hb.symm.trans hsw
      | waitBlocks hb _ => cases hb.symm.trans hsw
      | waitTakes hb _ => cases hb.symm.trans hsw
    refine ⟨hcur ▸ hS'.current, fun hb => ?_, .inr ⟨hcur.symm, hback⟩⟩
    rw [← hcur] at hb
    obtain ⟨k, hk⟩ := hS'.at_schedule hb
    rw [hcur, hback] at hk
    cases hk
  · have halive : Alive s t := ⟨h.known, hC.alive t h.known⟩
    obtain ⟨hstack, hrest⟩ := hm.others htc
    obtain ⟨hknown, hblocked⟩ := hrest halive
    rcases hstack with hsame | ⟨hdead, _⟩
    · exact ⟨hknown, fun hb => h.awake (hblocked hb), .inl ⟨c, hsame.trans hsw⟩⟩
    · exact absurd halive hdead

end Step

/-! ## Permits -/

/-- The completed posts and waits of a semaphore, and the threads that a post has taken out of its
queue and that have not tested `count` since. -/
structure Permits where
  posts : Nat
  waits : Nat
  released : Finset Addr

/-- The event is a post of the semaphore. -/
def Posts (m : Addr) (e : Event) : Prop := e = .call (.semPost m)

/-- The event is the decrement of `count` in a wait. -/
def Takes (m : Addr) (s : Kernel) (e : Event) : Prop :=
  e = .run ∧ (s.stack s.currentThread).head? = some (.waitTake m)

/-- The event is the test of `count` in a wait. -/
def Tests (m : Addr) (s : Kernel) (e : Event) : Prop :=
  e = .run ∧ (s.stack s.currentThread).head? = some (.waitTest m)

instance (m : Addr) (e : Event) : Decidable (Posts m e) := inferInstanceAs (Decidable (_ = _))

instance (m : Addr) (s : Kernel) (e : Event) : Decidable (Takes m s e) :=
  inferInstanceAs (Decidable (_ ∧ _))

instance (m : Addr) (s : Kernel) (e : Event) : Decidable (Tests m s e) :=
  inferInstanceAs (Decidable (_ ∧ _))

def permitsAfter (m : Addr) (r : Permits) (s : Kernel) (e : Event) : Permits :=
  if Posts m e then
    { r with
      posts := r.posts + 1
      released := r.released ∪ (s.queue (.sem m)).head.toFinset }
  else if Tests m s e then { r with released := r.released.erase s.currentThread }
  else if Takes m s e then { r with waits := r.waits + 1 }
  else r

/-- 1 while the current thread is between its test of `count` and the decrement. -/
def taking (m : Addr) (s : Kernel) : Nat :=
  if s.stack s.currentThread = [.waitTake m] then 1 else 0

/-- What posts, waits and released threads have to do with `count`. -/
structure Conserves (m : Addr) (v : Int) (s : Kernel) (xs : QueueId → List Addr) (r : Permits) :
    Prop where
  count : s.semCount m = v + r.posts - r.waits
  nonneg : 0 ≤ s.semCount m
  taken : s.stack s.currentThread = [.waitTake m] → 0 < s.semCount m
  never : NeverTaking m s
  queued : ∀ t ∈ xs (.sem m), InQueue m s t
  released : ∀ t ∈ r.released, Retests m s t
  bound : xs (.sem m) ≠ [] → s.semCount m ≤ r.released.card + taking m s

theorem semCount_create {page : Option Addr} {stack size : Nat} {useVmm : Bool} {vmm : Addr}
    (b : Books) : (b.create page stack size useVmm vmm).semCount = b.semCount := by
  have htake : (b.take page).2.semCount = b.semCount := by
    unfold Books.take
    split
    · rfl
    · split <;> rfl
  unfold Books.create
  split
  · rename_i h
    rwa [h] at htake
  · rename_i h
    rw [h] at htake
    split <;> exact htake

/-- Only posts and waits write `count`. -/
theorem semCount_step (hs : Kernel.step n e s = some s') :
    s'.semCount m = s.semCount m + (if Posts m e then 1 else 0) - if Takes m s e then 1 else 0 := by
  have hbooks : s'.semCount m = (booksAfter s e).semCount m :=
    congrFun (congrArg Books.semCount (books_step hs)) m
  have hpool : ∀ t, (s.books.pool t).semCount = s.semCount := by
    intro t
    unfold Books.pool
    split <;> rfl
  -- most steps touch no counter, and are neither a post nor a take
  have hsame : (booksAfter s e).semCount = s.semCount → ¬ Posts m e → ¬ Takes m s e →
      s'.semCount m = s.semCount m + (if Posts m e then 1 else 0) -
        if Takes m s e then 1 else 0 := by
    intro h h1 h2
    rw [hbooks, h, if_neg h1, if_neg h2]
    omega
  cases e with
  | tick => exact hsame rfl (by rintro ⟨⟩) (by rintro ⟨⟨⟩, _⟩)
  | call c =>
      have hnot : ¬ Takes m s (.call c) := by rintro ⟨⟨⟩, _⟩
      cases c with
      | createThread | createKernelThread =>
          exact hsame (semCount_create s.books) (by rintro ⟨⟩) hnot
      | createUserThread =>
          refine hsame ?_ (by rintro ⟨⟩) hnot
          unfold booksAfter Books.createUser
          dsimp only
          split
          · rfl
          · split <;> rfl
      | killThread t => exact hsame (hpool t) (by rintro ⟨⟩) hnot
      | mutexUnlock q =>
          refine hsame ?_ (by rintro ⟨⟩) hnot
          unfold booksAfter
          dsimp only
          split <;> rfl
      | semPost q =>
          by_cases hq : q = m
          · subst hq
            have hposts : Posts q (.call (.semPost q)) := rfl
            rw [hbooks, if_pos hposts, if_neg hnot]
            show Function.update s.semCount q (s.semCount q + 1) q = _
            rw [Function.update_self]
            omega
          · rw [hbooks, if_neg (by rintro ⟨⟩; exact hq rfl), if_neg hnot]
            show Function.update s.semCount q (s.semCount q + 1) m = _
            rw [Function.update_of_ne (Ne.symm hq)]
            omega
      | _ => exact hsame rfl (by rintro ⟨⟩) hnot
  | run =>
      have hnot : ¬ Posts m .run := by rintro ⟨⟩
      obtain ⟨f, k, hk⟩ := List.exists_cons_of_ne_nil (enabled_of_step hs)
      -- the frame on top of the stack decides; only `waitTake` is a decrement
      have hbooks' := hbooks
      unfold booksAfter at hbooks'
      simp only [hk] at hbooks'
      have htakes : Takes m s .run ↔ f = .waitTake m := by
        unfold Takes
        rw [hk]
        simp
      cases f with
      | waitTake q =>
          by_cases hq : q = m
          · subst hq
            rw [hbooks', if_neg hnot, if_pos (htakes.mpr rfl)]
            show Function.update s.semCount q (s.semCount q - 1) q = _
            rw [Function.update_self]
            omega
          · rw [hbooks', if_neg hnot, if_neg (by rw [htakes]; rintro ⟨⟩; exact hq rfl)]
            show Function.update s.semCount q (s.semCount q - 1) m = _
            rw [Function.update_of_ne (Ne.symm hq)]
            omega
      | switchTo c b =>
          rw [if_neg hnot, if_neg (by rw [htakes]; simp), hbooks']
          dsimp only
          split
          · rw [hpool]
            omega
          · show s.semCount m = _
            omega
      | _ =>
          rw [if_neg hnot, if_neg (by rw [htakes]; simp), hbooks']
          show s.semCount m = _
          omega

/-- What a step makes of the wait queue of the semaphore. -/
theorem waits_step (hC : Calm idle s) (hS : Sched s xs) (hP : Plain idle s e)
    (hs : Kernel.step n e s = some s') (hS' : Sched s' xs') : xs' (.sem m) =
      if Posts m e then (xs (.sem m)).tail
      else if Tests m s e ∧ s.semCount m ≤ 0 then xs (.sem m) ++ [s.currentThread]
      else xs (.sem m) := by
  have he := enabled_of_step hs
  by_cases hposts : Posts m e
  · rw [if_pos hposts]
    subst hposts
    obtain ⟨ys, hR, _, htail⟩ := (hS.runningOfCall he).semPost m
    cases (if_pos he).symm.trans hs
    rw [hS'.toQueues.unique hR.toQueues, htail]
  rw [if_neg hposts]
  by_cases htests : Tests m s e
  · obtain ⟨rfl, hhead⟩ := htests
    obtain ⟨f, k, hk, hrun⟩ := runFrame_of_step hs
    obtain rfl : f = .waitTest m := Option.some.inj ((congrArg List.head? hk).symm.trans hhead)
    obtain ⟨ys, hR, _, hys⟩ := (hS.pop hk (by simp)).waitTest m
    have hs' : Kernel.waitTest m (s.setStack s.currentThread k) = s' := Option.some.inj hrun
    rw [hs'] at hR
    rw [hS'.toQueues.unique hR.toQueues, hys]
    have htrue : Tests m s .run := ⟨rfl, hhead⟩
    simp only [htrue, true_and]
    rfl
  rw [if_neg fun h => htests h.1]
  obtain ⟨u, ys, hset, hSu, hsame⟩ := hS.step he (hC.fits hS hP he)
  rw [← hset.result hs] at hSu
  rw [hS'.toQueues.unique hSu.toQueues]
  refine hsame (.sem m) (by simp) (by simp) ?_
  -- the event works on another queue
  intro hq
  cases e with
  | tick => cases hq
  | call c =>
      cases c <;> cases hq
      exact hposts rfl
  | run =>
      unfold waitQueue at hq
      dsimp only at hq
      split at hq
      · cases hq
      · rename_i hk
        cases hq
        exact htests ⟨rfl, by rw [hk]; rfl⟩
      · cases hq

/-- The function that the current thread is in, by its innermost frame. -/
theorem Calm.only (h : Calm idle s) (hf : f.isBase = true)
    (hk : (s.stack s.currentThread).head? = some f) : s.stack s.currentThread = [f] := by
  obtain ⟨k, hk⟩ := List.head?_eq_some_iff.mp hk
  have hshape := h.shape s.currentThread
  rw [hk] at hshape ⊢
  cases hshape with
  | inside _ => rfl
  | leaving _ => cases hf
  | left _ _ => cases hf

theorem Queues.state_wakeWaiter {q : QueueId} {r : List Addr} (h : Queues s xs)
    (hl : xs q = t :: r) : (Kernel.wakeWaiter (dequeue q s)).state t = .ready := by
  have hpair : dequeue q s = (some t, (dequeue q s).2) := by rw [← (h.dequeue_cons hl).1]
  rw [hpair]
  simp [Kernel.wakeWaiter, Kernel.threadEnqueue]

/-- The thread that a post takes out of the queue goes on at its test. -/
theorem Calm.released_by_post (hC : Calm idle s) (hS : Sched s xs)
    (hP : Plain idle s (.call (.semPost m))) (hs : Kernel.step n (.call (.semPost m)) s = some s')
    (hq : t ∈ xs (.sem m) → InQueue m s t) (ht : t ∈ (xs (.sem m)).head?) :
    Retests m s' t := by
  have hnil : s.stack s.currentThread = [] := enabled_of_step hs
  obtain ⟨ws, hws⟩ := List.head?_eq_some_iff.mp ht
  have hmem : t ∈ xs (.sem m) := by
    rw [hws]
    exact List.mem_cons_self
  obtain ⟨hknown, hblocked⟩ := (hS.blocked_iff t).mp ⟨.sem m, by simp, hmem⟩
  have hm := hS.moves (hC.fits hS hP hnil) hs
  obtain ⟨c, hsw⟩ : ∃ c, s.stack t = [.switchTo c false, .waitTest m] := by
    rcases hq hmem with h | ⟨rfl, hsch⟩
    · exact h
    · cases hnil.symm.trans hsch
  have htc : t ≠ s.currentThread := by
    rintro rfl
    cases hnil.symm.trans hsw
  have halive : Alive s t := ⟨hknown, hC.alive t hknown⟩
  obtain ⟨hstack, hrest⟩ := hm.others htc
  refine ⟨(hrest halive).1, ?_, ?_⟩
  · cases (if_pos hnil).symm.trans hs
    have hq1 : Queues (s.disableInterrupts.setCount m (s.semCount m + 1)) xs :=
      hS.toQueues.congr rfl rfl
    have hready : (Kernel.semPost m s).state t = .ready := hq1.state_wakeWaiter hws
    rw [hready]
    simp
  · rcases hstack with hsame | ⟨hdead, _⟩
    · exact .inl ⟨c, hsame.trans hsw⟩
    · exact absurd halive hdead

/-- A released thread is no longer in the queue. -/
theorem Conserves.not_released {v : Int} {r : Permits} (h : Conserves m v s xs r) (hS : Sched s xs)
    (ht : t ∈ xs (.sem m)) : t ∉ r.released := fun hr =>
  (h.released t hr).awake ((hS.blocked_iff t).mp ⟨.sem m, by simp, ht⟩).2

/-- The current thread takes only what its test has found. -/
theorem Conserves.positive {v : Int} {r : Permits} (h : Conserves m v s xs r) (hC : Calm idle s)
    (hS : Sched s xs) (hP : Plain idle s e) (hs : Kernel.step n e s = some s')
    (ht : s'.stack s'.currentThread = [.waitTake m]) : 0 < s'.semCount m := by
  obtain ⟨rfl, hk, hpos⟩ := h.never.tested hC hS hP hs ht
  rw [semCount_step hs, if_neg (by rintro ⟨⟩),
    if_neg (by rintro ⟨_, hhead⟩; rw [hk] at hhead; cases hhead)]
  omega

/-- A post releases the first thread of the queue. -/
theorem Conserves.post {v : Int} {r : Permits} (h : Conserves m v s xs r) (hC : Calm idle s)
    (hS : Sched s xs) (hP : Plain idle s e) (hs : Kernel.step n e s = some s')
    (hS' : Sched s' xs') (hposts : Posts m e) : Conserves m v s' xs' (permitsAfter m r s e) := by
  have he : e = .call (.semPost m) := hposts
  subst he
  have hnil : s.stack s.currentThread = [] := enabled_of_step hs
  have hcount := semCount_step (m := m) hs
  have hwaits := waits_step (m := m) hC hS hP hs hS'
  have hnot : ¬ Takes m s (.call (.semPost m)) := by rintro ⟨⟨⟩, _⟩
  rw [if_pos hposts, if_neg hnot] at hcount
  rw [if_pos hposts] at hwaits
  have hafter : permitsAfter m r s (.call (.semPost m)) = { r with
      posts := r.posts + 1
      released := r.released ∪ (s.queue (.sem m)).head.toFinset } := if_pos hposts
  rw [hafter]
  have hcountv := h.count
  have hnonneg := h.nonneg
  -- the released threads: those from before, and the head of the wait queue
  refine ⟨by push_cast; omega, by omega, h.positive hC hS hP hs, h.never.step hC hS hP hs, ?_, ?_, ?_⟩
  · intro t ht
    have hold : t ∈ xs (.sem m) := List.mem_of_mem_tail (hwaits ▸ ht)
    exact (h.queued t hold).step hC hS hP hs hS' hold ht
  · intro t ht
    rcases Finset.mem_union.mp ht with ht | ht
    · refine (h.released t ht).step hC hS hP hs hS' ?_
      rintro ⟨rfl, hk⟩
      cases hnil.symm.trans hk
    · rw [(hS.listed (.sem m)).head] at ht
      exact hC.released_by_post hS hP hs (h.queued t) (by simpa using ht)
  · -- if a waiter is left there was a head, so the post has released one
    intro hne
    rw [hwaits] at hne
    obtain ⟨w, ws, hws⟩ : ∃ w ws, xs (.sem m) = w :: ws := by
      refine List.exists_cons_of_ne_nil fun hnone => hne ?_
      rw [hnone, List.tail_nil]
    have hbound := h.bound (by rw [hws]; simp)
    have hnotTaking : taking m s = 0 := if_neg (by rw [hnil]; simp)
    have hhead : (s.queue (.sem m)).head.toFinset = {w} := by
      rw [(hS.listed (.sem m)).head, hws]
      rfl
    have hcard : (r.released ∪ {w}).card = r.released.card + 1 := by
      rw [Finset.union_comm, ← Finset.insert_eq, Finset.card_insert_of_notMem]
      exact h.not_released hS (by rw [hws]; exact List.mem_cons_self)
    rw [hnotTaking] at hbound
    rw [hhead, hcard]
    push_cast
    omega

/-- The test of `count` blocks the current thread or lets it take a permit. -/
theorem Calm.tests (hC : Calm idle s) (hS : Sched s xs) (hP : Plain idle s e)
    (hs : Kernel.step n e s = some s') (htests : Tests m s e) :
    s'.currentThread = s.currentThread ∧
      (s.semCount m ≤ 0 ∧ s'.stack s.currentThread = [.schedule, .waitTest m] ∨
        0 < s.semCount m ∧ s'.stack s.currentThread = [.waitTake m]) := by
  have hk := hC.only rfl htests.2
  have hm := hS.moves (hC.fits hS hP (enabled_of_step hs)) hs
  have hcur : s'.currentThread = s.currentThread := by
    by_contra hcur
    obtain ⟨f, c, hf, _⟩ := hC.left_for hm hcur
    cases hf.symm.trans hk
  refine ⟨hcur, ?_⟩
  have hg := hC.goes hS hP hs hcur
  rw [htests.1] at hg
  generalize s'.stack s.currentThread = k at hg
  cases hg with
  | returns hb hf =>
      cases hb.symm.trans hk
      exact absurd rfl (hf m)
  | back hb => cases hb.symm.trans hk
  | lockBlocks hb => cases hb.symm.trans hk
  | lockTakes hb => cases hb.symm.trans hk
  | waitBlocks hb hle =>
      cases hb.symm.trans hk
      exact .inl ⟨hle, rfl⟩
  | waitTakes hb hlt =>
      cases hb.symm.trans hk
      exact .inr ⟨hlt, rfl⟩

/-- A test puts the current thread into the queue, or a permit is this thread's although `count` has
not gone down yet. -/
theorem Conserves.test {v : Int} {r : Permits} (h : Conserves m v s xs r) (hC : Calm idle s)
    (hS : Sched s xs) (hP : Plain idle s e) (hs : Kernel.step n e s = some s')
    (hS' : Sched s' xs') (htests : Tests m s e) :
    Conserves m v s' xs' (permitsAfter m r s e) := by
  have hk := hC.only rfl htests.2
  obtain ⟨hcur, hgoes⟩ := hC.tests hS hP hs htests
  have hcount := semCount_step (m := m) hs
  have hwaits := waits_step (m := m) hC hS hP hs hS'
  have hposts : ¬ Posts m e := by
    rintro rfl
    cases htests.1
  have hnot : ¬ Takes m s e := by
    rintro ⟨_, hhead⟩
    rw [hk] at hhead
    cases hhead
  rw [if_neg hposts, if_neg hnot] at hcount
  rw [if_neg hposts] at hwaits
  have hafter : permitsAfter m r s e = { r with released := r.released.erase s.currentThread } :=
    (if_neg hposts).trans (if_pos htests)
  rw [hafter]
  have hcountv := h.count
  have hnonneg := h.nonneg
  -- only a thread that finds no permit goes to the wait queue
  have hsame : 0 < s.semCount m → xs' (.sem m) = xs (.sem m) := by
    intro hlt
    rw [hwaits, if_neg (by rintro ⟨_, hle⟩; omega)]
  refine ⟨?_, by omega, h.positive hC hS hP hs, h.never.step hC hS hP hs, ?_, ?_, ?_⟩
  · show s'.semCount m = v + r.posts - r.waits
    omega
  · intro t ht
    by_cases hold : t ∈ xs (.sem m)
    · exact (h.queued t hold).step hC hS hP hs hS' hold ht
    · rcases hgoes with ⟨hle, hgo⟩ | ⟨hlt, _⟩
      · rw [hwaits, if_pos ⟨htests, hle⟩] at ht
        obtain rfl := List.mem_singleton.mp ((List.mem_append.mp ht).resolve_left hold)
        exact .inr ⟨hcur.symm, hgo⟩
      · exact absurd (hsame hlt ▸ ht) hold
  · intro t ht
    obtain ⟨hne, ht⟩ := Finset.mem_erase.mp ht
    exact (h.released t ht).step hC hS hP hs hS' fun hc => hne hc.1
  · -- a waiter is left: then the counter was covered before, and a thread that takes a permit now
    -- is between test and decrement
    intro hne
    have hcard := Finset.pred_card_le_card_erase (s := r.released) (a := s.currentThread)
    rcases hgoes with ⟨hle, _⟩ | ⟨hlt, hgo⟩
    · omega
    · have hbound := h.bound (hsame hlt ▸ hne)
      have hnotTaking : taking m s = 0 := if_neg (by rw [hk]; simp)
      have htaking : taking m s' = 1 := if_pos (by rw [hcur, hgo])
      rw [hnotTaking] at hbound
      rw [htaking]
      dsimp only
      omega

/-- Any other event leaves the queue and the released threads as they are. -/
theorem Conserves.rest {v : Int} {r : Permits} (h : Conserves m v s xs r) (hC : Calm idle s)
    (hS : Sched s xs) (hP : Plain idle s e) (hs : Kernel.step n e s = some s')
    (hS' : Sched s' xs') (hposts : ¬ Posts m e) (htests : ¬ Tests m s e) :
    Conserves m v s' xs' (permitsAfter m r s e) := by
  have hcount := semCount_step (m := m) hs
  have hsame : xs' (.sem m) = xs (.sem m) := by
    rw [waits_step hC hS hP hs hS', if_neg hposts, if_neg fun h => htests h.1]
  have hqueued : ∀ t ∈ xs' (.sem m), InQueue m s' t := fun t ht =>
    (h.queued t (hsame ▸ ht)).step hC hS hP hs hS' (hsame ▸ ht) ht
  have hreleased : ∀ t ∈ r.released, Retests m s' t := by
    intro t ht
    refine (h.released t ht).step hC hS hP hs hS' ?_
    rintro ⟨rfl, hk⟩
    exact htests ⟨hC.run_of_inside hs (by rw [hk]; simp), by rw [hk]; rfl⟩
  have hpos := h.positive hC hS hP hs
  have hnever := h.never.step hC hS hP hs
  have hnotTaking' : taking m s' = 0 := if_neg fun ht => by
    obtain ⟨he, hk, _⟩ := h.never.tested hC hS hP hs ht
    exact htests ⟨he, by rw [hk]; rfl⟩
  have hcountv := h.count
  have hnonneg := h.nonneg
  by_cases htakes : Takes m s e
  · have hk := hC.only rfl htakes.2
    have hafter : permitsAfter m r s e = { r with waits := r.waits + 1 } :=
      (if_neg hposts).trans ((if_neg htests).trans (if_pos htakes))
    rw [if_neg hposts, if_pos htakes] at hcount
    rw [hafter]
    have htaking : taking m s = 1 := if_pos hk
    have htakenPos := h.taken hk
    refine ⟨by push_cast; omega, by omega, hpos, hnever, hqueued, hreleased, fun hne => ?_⟩
    have hbound := h.bound (hsame ▸ hne)
    rw [htaking] at hbound
    dsimp only
    omega
  · have hafter : permitsAfter m r s e = r :=
      (if_neg hposts).trans ((if_neg htests).trans (if_neg htakes))
    rw [if_neg hposts, if_neg htakes] at hcount
    rw [hafter]
    have hnotTaking : taking m s = 0 := if_neg fun hk =>
      htakes ⟨hC.run_of_inside hs (by rw [hk]; simp), by rw [hk]; rfl⟩
    refine ⟨by omega, by omega, hpos, hnever, hqueued, hreleased, fun hne => ?_⟩
    have hbound := h.bound (hsame ▸ hne)
    omega

theorem Conserves.step {v : Int} {r : Permits} (h : Conserves m v s xs r) (hC : Calm idle s)
    (hS : Sched s xs) (hP : Plain idle s e) (hs : Kernel.step n e s = some s')
    (hS' : Sched s' xs') : Conserves m v s' xs' (permitsAfter m r s e) := by
  by_cases hposts : Posts m e
  · exact h.post hC hS hP hs hS' hposts
  by_cases htests : Tests m s e
  · exact h.test hC hS hP hs hS' htests
  · exact h.rest hC hS hP hs hS' hposts htests

/-! ## Runs -/

theorem semInit_eq {v : Int} (h : Unused m s) : semInit m v s = s.setCount m v := by
  have hqueue : Function.update s.queue (.sem m) Queue.empty = s.queue :=
    Function.update_eq_self_iff.mpr h.1.symm
  unfold semInit
  rw [hqueue]
  rfl

theorem Sched.setCount (h : Sched s xs) (v : Int) : Sched (s.setCount m v) xs where
  toCore := h.toCore.congr rfl rfl rfl rfl rfl rfl rfl (fun _ _ => rfl) (h.frames _)
  currentState := h.currentState
  pending := h.pending

theorem Calm.setCount (h : Calm idle s) (v : Int) : Calm idle (s.setCount m v) :=
  ⟨h.alive, h.off, h.shape, h.away, h.idleKnown, h.idleState, h.idleStack⟩

/-- A semaphore that has just been initialised. -/
theorem conserves_semInit {v : Int} (hS : Sched s xs) (h : Unused m s) (hv : 0 ≤ v) :
    Conserves m v (s.setCount m v) xs ⟨0, 0, ∅⟩ := by
  have hempty : xs (.sem m) = [] := by
    have hlist := hS.listed (.sem m)
    rw [h.1] at hlist
    exact hlist.unique IsQueue.empty
  have hcount : (s.setCount m v).semCount m = v := Function.update_self _ _ _
  refine ⟨?_, ?_, ?_, ?_, ?_, ?_, ?_⟩
  · rw [hcount]
    simp
  · rw [hcount]
    exact hv
  · intro hk
    have hk : s.stack s.currentThread = [.waitTake m] := hk
    exact absurd (by rw [hk]; simp) (h.2 s.currentThread).2
  · intro t f ht
    have ht : s.stack t = [f, .waitTake m] := ht
    exact absurd (by rw [ht]; simp) (h.2 t).2
  · intro t ht
    rw [hempty] at ht
    cases ht
  · intro t ht
    cases ht
  · intro hne
    exact absurd hempty hne

section Boot

variable {main idleStack bootStack kernelPml4 : Nat} {vmms : Addr → Vmm} {vmmDesc : Addr}
  {counts : Addr → Int}

/-- In a run in which no thread ends the invariants hold all the time. -/
theorem plain_reaches (h0 : ∃ xs, Booted idle s xs) (h : Reaches (Plain idle) s s') :
    ∃ xs, Sched s' xs ∧ Calm idle s' := by
  refine h.invariant (I := fun t => ∃ xs, Sched t xs ∧ Calm idle t)
    (h0.imp fun _ hB => ⟨hB.sched, hB.calm⟩) ?_
  rintro t u e n ⟨xs, hS, hC⟩ hP hs
  have he := enabled_of_step hs
  obtain ⟨u', xs', hset, hS', _⟩ := hS.step he (hC.fits hS hP he)
  rw [← hset.result hs] at hS'
  exact ⟨xs', hS', hC.step hS hP hs⟩

theorem permits_conserved (hne : main ≠ idle) (hstack : idleStack ≠ 0) {s0 s : Kernel} {v : Int}
    {r : Permits}
    (h0 : Reaches (Plain idle)
      (initMultitasking main idle bootStack idleStack kernelPml4 vmms vmmDesc counts) s0)
    (hunused : Unused m s0) (hv : 0 ≤ v)
    (h : Traces (Plain idle) (permitsAfter m) (semInit m v s0) ⟨0, 0, ∅⟩ s r) :
    s.semCount m = v + r.posts - r.waits ∧ 0 ≤ s.semCount m ∧
      ((s.queue (.sem m)).head ≠ none → s.semCount m ≤ r.released.card + taking m s ∧
        (0 < s.semCount m → r.released.Nonempty ∨ taking m s = 1)) ∧
      ∀ t ∈ r.released, Meets s.next t (s.queue .ready).head ∨ t = s.currentThread := by
  obtain ⟨xs0, hS0, hC0⟩ := plain_reaches (booted_initMultitasking hne hstack) h0
  rw [semInit_eq hunused] at h
  have hinv : ∃ xs, Sched s xs ∧ Calm idle s ∧ Conserves m v s xs r := by
    refine h.invariant (I := fun s r => ∃ xs, Sched s xs ∧ Calm idle s ∧ Conserves m v s xs r)
      ⟨xs0, hS0.setCount v, hC0.setCount v, conserves_semInit hS0 hunused hv⟩ ?_
    rintro t u q e n ⟨xs, hS, hC, hI⟩ hP hs
    have he := enabled_of_step hs
    obtain ⟨u', xs', hset, hS', _⟩ := hS.step he (hC.fits hS hP he)
    rw [← hset.result hs] at hS'
    exact ⟨xs', hS', hC.step hS hP hs, hI.step hC hS hP hs hS'⟩
  obtain ⟨xs, hS, hC, hI⟩ := hinv
  refine ⟨hI.count, hI.nonneg, ?_, ?_⟩
  · -- for the bound a waiter must be there
    intro hhead
    have hne : xs (.sem m) ≠ [] := by
      intro hempty
      rw [(hS.listed (.sem m)).head, hempty] at hhead
      exact hhead rfl
    have hbound := hI.bound hne
    refine ⟨hbound, fun hpos => ?_⟩
    rcases Finset.eq_empty_or_nonempty r.released with hnone | hsome
    · by_cases ht : s.stack s.currentThread = [.waitTake m]
      · exact .inr (if_pos ht)
      · have hnot : taking m s = 0 := if_neg ht
        rw [hnone, hnot] at hbound
        exact absurd hpos (not_lt.mpr hbound)
    · exact .inl hsome
  · intro t ht
    have hr := hI.released t ht
    rw [(hS.listed .ready).meets_iff]
    cases hstate : s.state t with
    | ready => exact .inl ((hS.ready_iff t).mpr ⟨hr.known, hstate⟩)
    | running => exact .inr (hS.onlyRunning t hr.known hstate)
    | blocked => exact absurd hstate hr.awake
    | terminated => exact absurd hstate (hC.alive t hr.known)

end Boot

/-- A check that the event is one of a run in which no thread ends. -/
def plain (idle : Addr) (s : Kernel) : Event → Bool
  | .call (.createThread page _ _ _ _) =>
      decide (s.currentThread ≠ idle) && page.all fun t => decide (t ∉ s.tcbs)
  | .call (.semWait _) | .call (.semPost _) => decide (s.currentThread ≠ idle)
  | .call _ => false
  | _ => true

theorem plain_of_check (h : plain idle s e = true) : Plain idle s e := by
  cases e with
  | tick => trivial
  | run => trivial
  | call c =>
      cases c with
      | createThread page stack size useVmm vmm =>
          obtain ⟨hcur, hpage⟩ := Bool.and_eq_true_iff.mp h
          refine ⟨of_decide_eq_true hcur, by simp, by simp, ?_⟩
          rintro t rfl
          exact of_decide_eq_true hpage
      | semWait | semPost => exact ⟨of_decide_eq_true h, by simp, by simp, trivial⟩
      | _ => cases h

theorem Traces.mono {R : Type} {P Q : Kernel → Event → Prop} {after : R → Kernel → Event → R}
    {r q : R} (h : Traces P after s r s' q) (hPQ : ∀ t e, P t e → Q t e) :
    Traces Q after s r s' q := by
  induction h with
  | start => exact .start
  | step _ hP hs ih => exact ih.step (hPQ _ _ hP) hs

/-- The main thread and the thread 3 wait, the thread 4 posts: the main thread is released and the
permit is its own to take, while the thread 3 still waits. -/
theorem permits_conserved_two :
    ∃ s r, Traces (Plain 2) (permitsAfter 5) (semInit 5 0
        (initMultitasking 1 2 4096 8192 0 (fun _ => ⟨0, false⟩) 7 fun _ => 0)) ⟨0, 0, ∅⟩ s r ∧
      (s.queue (.sem 5)).head = some 3 ∧ r.released = {1} ∧ s.semCount 5 = 1 ∧
      s.semCount 5 ≤ r.released.card + taking 5 s := by
  have hrun : (traceSteps 5 (fun s e => plain 2 s e = true) (permitsAfter 5)
      [.call (.createThread (some 3) 8192 4096 false 0),
        .call (.createThread (some 4) 8192 4096 false 0), .call (.semWait 5), .run, .run, .tick,
        .run, .call (.semWait 5), .run, .run, .call (.semPost 5)]
      (semInit 5 0 (initMultitasking 1 2 4096 8192 0 (fun _ => ⟨0, false⟩) 7 fun _ => 0),
        ⟨0, 0, ∅⟩)).any (fun x => (x.1.queue (.sem 5)).head = some 3 && x.2.released = {1} &&
          x.1.semCount 5 = 1) = true := by decide +kernel
  obtain ⟨⟨s, r⟩, hx, hy⟩ := (Option.any_eq_true _ _).mp hrun
  simp only [Bool.and_eq_true, decide_eq_true_eq] at hy
  obtain ⟨⟨hhead, hreleased⟩, hcount⟩ := hy
  have htrace := (traces_traceSteps .start hx).mono fun _ _ h => plain_of_check h
  have hunused : Unused 5
      (initMultitasking 1 2 4096 8192 0 (fun _ => ⟨0, false⟩) 7 fun _ => 0) := by
    have hboot : ∃ xs, Booted 2
        (initMultitasking 1 2 4096 8192 0 (fun _ => ⟨0, false⟩) 7 fun _ => 0) xs :=
      booted_initMultitasking (by decide) (by decide)
    obtain ⟨_, hb⟩ := hboot
    refine ⟨rfl, fun t => ?_⟩
    rw [hb.stack t]
    exact ⟨List.not_mem_nil, List.not_mem_nil⟩
  have hall := permits_conserved (by decide) (by decide) .start hunused le_rfl htrace
  exact ⟨s, r, htrace, hhead, hreleased, hcount, (hall.2.2.1 (by rw [hhead]; simp)).1⟩

end Kernel

end Os003
