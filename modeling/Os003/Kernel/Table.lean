import Os003.Kernel.Pool

set_option autoImplicit false

/-! # The table of threads

`create_thread` enters a thread into `TORT` at `next_TORT_Position`, which only grows; `KillThread`
clears the entry. While the position is inside the table each thread has an entry of its own and the
table is exact (`table_exact`). From the seventeenth creation on a thread is not entered and has
position 0, so it is missing, and when it is killed the entry of another thread is cleared
(`table_misses`).
-/

namespace Os003

open Linked

namespace Kernel

variable {s s' : Kernel} {xs : QueueId → List Addr} {t u main idle : Addr} {n : Nat}

/-! ## The table -/

/-- The loop of `CleanAllThreads` over the entries of the table; `KillThread` does not come back when it
is called on the current thread. -/
def cleanLoop (fuel : Nat) : List Nat → Kernel → Option Kernel
  | [], s => some s
  | i :: is, s =>
      match s.tort i with
      | none => cleanLoop fuel is s
      | some t =>
          if (s.tcb t).id = 0 ∨ (s.tcb t).id = 1 then cleanLoop fuel is s
          else
            (killThread fuel t s).bind fun s' =>
              if t = s.currentThread then some s' else cleanLoop fuel is s'

def cleanAllThreads (fuel : Nat) (s : Kernel) : Option Kernel :=
  cleanLoop fuel (List.range tortSize) s

/-- Each live thread but the main one is in the table at its position, every entry is a live thread's,
and `CleanAllThreads`, called by the main thread, leaves only the main and the idle thread alive. -/
def TableExact (main idle : Addr) (s : Kernel) : Prop :=
  (∀ t, Alive s t → t ≠ main → (s.tcb t).positionInTable < tortSize ∧
    s.tort (s.tcb t).positionInTable = some t) ∧
  (∀ i t, s.tort i = some t → Alive s t) ∧
  (s.currentThread = main → ∃ s', Settles (fun n => cleanAllThreads n s) s' ∧
    ∀ t, Alive s' t → t = main ∨ t = idle)

/-- Threads are created, sleep, and are killed by others; none ends by itself, and the main thread is
not killed. -/
def createsAndKills (main idle : Addr) (s : Kernel) (e : Event) : Bool :=
  orderly idle s e && e ≠ .call .threadExit && e ≠ .call (.killThread main)

/-- A thread is created only while the table has an entry left. -/
def HasEntry (s : Kernel) (e : Event) : Prop :=
  e.creates = true → s.nextTortPosition < tortSize

instance (s : Kernel) (e : Event) : Decidable (HasEntry s e) := inferInstanceAs (Decidable (_ → _))

/-- The entries are the live threads but the main one, and the ids tell the main and the idle thread from
the others. -/
structure Table (main idle : Addr) (s : Kernel) : Prop where
  exact : ∀ t, Alive s t → t ≠ main → s.tort (s.tcb t).positionInTable = some t
  entry : ∀ i t, s.tort i = some t →
    Alive s t ∧ t ≠ main ∧ (s.tcb t).positionInTable = i ∧ i < s.nextTortPosition
  bound : s.nextTortPosition ≤ tortSize
  mainLives : Alive s main
  idleLives : Alive s idle
  other : ∀ t, Alive s t → t ≠ main → t ≠ idle → 2 ≤ (s.tcb t).id
  nextId : 2 ≤ s.nextThreadId
  mainId : (s.tcb main).id = 0
  idleId : (s.tcb idle).id = 1

theorem Killed.alive_iff (h : Killed s t s') (u : Addr) : Alive s' u ↔ Alive s u ∧ u ≠ t := by
  unfold Alive
  rw [h.tcbs, h.state]
  by_cases hut : u = t
  · subst hut
    simp
  · simp [hut]

namespace Table

/-- No thread has begun or ended, and the books are as before. -/
theorem congr (h : Table main idle s) (hbooks : s'.books = s.books)
    (hdead : ∀ u, s'.state u = .terminated ↔ s.state u = .terminated) : Table main idle s' := by
  have hfixed : ∀ u, (s'.tcb u).fixed = (s.tcb u).fixed :=
    fun u => congrFun (congrArg Books.fixed hbooks) u
  have htcbs : s'.tcbs = s.tcbs := congrArg Books.tcbs hbooks
  have htort : s'.tort = s.tort := congrArg Books.tort hbooks
  have hnext : s'.nextTortPosition = s.nextTortPosition := congrArg Books.nextTortPosition hbooks
  have halive : ∀ u, Alive s' u ↔ Alive s u := fun u => by
    unfold Alive
    rw [htcbs, Ne, Ne, hdead u]
  refine ⟨?_, ?_, hnext ▸ h.bound, (halive _).mpr h.mainLives, (halive _).mpr h.idleLives, ?_, ?_,
    (fixed_fields (hfixed main)).1.trans h.mainId, (fixed_fields (hfixed idle)).1.trans h.idleId⟩
  · intro t ht hm
    rw [htort, (fixed_fields (hfixed t)).2.2.1]
    exact h.exact t ((halive t).mp ht) hm
  · intro i t ht
    obtain ⟨ha, hm, hp, hi⟩ := h.entry i t (htort ▸ ht)
    exact ⟨(halive t).mpr ha, hm, (fixed_fields (hfixed t)).2.2.1.trans hp, hnext ▸ hi⟩
  · intro t ht hm hi
    rw [(fixed_fields (hfixed t)).1]
    exact h.other t ((halive t).mp ht) hm hi
  · have hid : s'.nextThreadId = s.nextThreadId := congrArg Books.nextThreadId hbooks
    exact hid ▸ h.nextId

/-- A TCB of no live thread has been given back. -/
theorem freed (h : Table main idle s) (hf : Freed s t s') : Table main idle s' := by
  have halive : ∀ u, Alive s u → Alive s' u := by
    intro u hu
    have hut : u ≠ t := fun hut => hf.dead (hut ▸ hu)
    exact ⟨(hf.tcbs u).mpr ⟨hu.1, hut⟩, hf.state u hut ▸ hu.2⟩
  have hback : ∀ u, Alive s' u → Alive s u ∧ u ≠ t := by
    intro u hu
    obtain ⟨hm, hut⟩ := (hf.tcbs u).mp hu.1
    exact ⟨⟨hm, hf.state u hut ▸ hu.2⟩, hut⟩
  have hid : ∀ u, Alive s u → (s'.tcb u).id = (s.tcb u).id :=
    fun u hu => (fixed_fields (hf.fixed u fun hut => hf.dead (hut ▸ hu))).1
  refine ⟨?_, ?_, hf.position ▸ h.bound, halive _ h.mainLives, halive _ h.idleLives, ?_,
    hf.nextId ▸ h.nextId, (hid main h.mainLives).trans h.mainId,
    (hid idle h.idleLives).trans h.idleId⟩
  · intro u hu hm
    obtain ⟨ha, hut⟩ := hback u hu
    rw [hf.tort, (fixed_fields (hf.fixed u hut)).2.2.1]
    exact h.exact u ha hm
  · intro i u hu
    obtain ⟨ha, hm, hp, hi⟩ := h.entry i u (hf.tort ▸ hu)
    have hut : u ≠ t := fun hut => hf.dead (hut ▸ ha)
    exact ⟨halive u ha, hm, (fixed_fields (hf.fixed u hut)).2.2.1.trans hp, hf.position ▸ hi⟩
  · intro u hu hm hi
    obtain ⟨ha, hut⟩ := hback u hu
    rw [(fixed_fields (hf.fixed u hut)).1]
    exact h.other u ha hm hi

/-- A thread has been started and entered behind the others. -/
theorem started (h : Table main idle s) (hs : Started s t s')
    (hroom : s.nextTortPosition < tortSize) : Table main idle s' := by
  obtain ⟨hposition, htort, hnext⟩ := hs.entry hroom
  have hlive : Alive s' t := ⟨(hs.tcbs t).mpr (.inr rfl), by rw [hs.ready]; decide⟩
  have hne : ∀ u, Alive s u → u ≠ t := fun u hu hut => hs.dead (hut ▸ hu)
  have halive : ∀ u, Alive s u → Alive s' u := fun u hu =>
    ⟨(hs.tcbs u).mpr (.inl hu.1), hs.state u (hne u hu) ▸ hu.2⟩
  have hback : ∀ u, u ≠ t → Alive s' u → Alive s u := by
    intro u hut hu
    exact ⟨((hs.tcbs u).mp hu.1).resolve_right hut, hs.state u hut ▸ hu.2⟩
  have hid : ∀ u, Alive s u → (s'.tcb u).id = (s.tcb u).id :=
    fun u hu => (fixed_fields (hs.fixed u (hne u hu))).1
  refine ⟨?_, ?_, by omega, halive _ h.mainLives, halive _ h.idleLives, ?_, ?_,
    (hid main h.mainLives).trans h.mainId, (hid idle h.idleLives).trans h.idleId⟩
  · intro u hu hm
    by_cases hut : u = t
    · subst hut
      rw [hposition, htort, Function.update_self]
    · have hexact := h.exact u (hback u hut hu) hm
      -- the new entry lies behind all others
      have hlt := (h.entry _ u hexact).2.2.2
      rw [(fixed_fields (hs.fixed u hut)).2.2.1, htort, Function.update_of_ne (by omega)]
      exact hexact
  · intro i u hu
    rw [htort] at hu
    by_cases hi : i = s.nextTortPosition
    · subst hi
      rw [Function.update_self] at hu
      cases hu
      exact ⟨hlive, fun hm => hs.dead (hm ▸ h.mainLives), hposition, by omega⟩
    · rw [Function.update_of_ne hi] at hu
      obtain ⟨ha, hm, hp, hlt⟩ := h.entry i u hu
      exact ⟨halive u ha, hm, (fixed_fields (hs.fixed u (hne u ha))).2.2.1.trans hp, by omega⟩
  · intro u hu hm hi
    by_cases hut : u = t
    · subst hut
      rw [hs.id]
      exact h.nextId
    · rw [(fixed_fields (hs.fixed u hut)).1]
      exact h.other u (hback u hut hu) hm hi
  · rw [hs.nextId]
    exact h.nextId.trans (Nat.le_succ _)

/-- A thread has been killed and its entry cleared. -/
theorem killed (h : Table main idle s) (ht : Alive s t) (hm : t ≠ main) (hi : t ≠ idle)
    (hk : Killed s t s') (hbooks : s'.books = s.books.pool t) : Table main idle s' := by
  -- a kill changes the pool and one entry of the table, and none of the fixed fields
  have hfixed : ∀ u, (s'.tcb u).fixed = (s.tcb u).fixed :=
    fun u => congrFun ((congrArg Books.fixed hbooks).trans (fixed_pool s.books)) u
  have htort : s'.tort = Function.update s.tort (s.tcb t).positionInTable none := by
    refine (congrArg Books.tort hbooks).trans ?_
    unfold Books.pool
    split <;> rfl
  have hnext : s'.nextTortPosition = s.nextTortPosition := by
    refine (congrArg Books.nextTortPosition hbooks).trans ?_
    unfold Books.pool
    split <;> rfl
  have hid : s'.nextThreadId = s.nextThreadId := by
    refine (congrArg Books.nextThreadId hbooks).trans ?_
    unfold Books.pool
    split <;> rfl
  have halive := hk.alive_iff
  refine ⟨?_, ?_, hnext ▸ h.bound, (halive _).mpr ⟨h.mainLives, hm.symm⟩,
    (halive _).mpr ⟨h.idleLives, hi.symm⟩, ?_, hid ▸ h.nextId,
    (fixed_fields (hfixed main)).1.trans h.mainId, (fixed_fields (hfixed idle)).1.trans h.idleId⟩
  · intro u hu hum
    obtain ⟨ha, hut⟩ := (halive u).mp hu
    have hexact := h.exact u ha hum
    rw [htort, (fixed_fields (hfixed u)).2.2.1, Function.update_of_ne]
    · exact hexact
    · -- two threads with one position would be one entry
      intro hp
      rw [hp, h.exact t ht hm] at hexact
      exact hut (Option.some.inj hexact).symm
  · intro i u hu
    rw [htort] at hu
    by_cases hp : i = (s.tcb t).positionInTable
    · subst hp
      rw [Function.update_self] at hu
      cases hu
    · rw [Function.update_of_ne hp] at hu
      obtain ⟨ha, hum, hpos, hlt⟩ := h.entry i u hu
      have hut : u ≠ t := by
        rintro rfl
        exact hp hpos.symm
      exact ⟨(halive u).mpr ⟨ha, hut⟩, hum, (fixed_fields (hfixed u)).2.2.1.trans hpos, hnext ▸ hlt⟩
  · intro u hu hum hui
    rw [(fixed_fields (hfixed u)).1]
    exact h.other u ((halive u).mp hu).1 hum hui

end Table

/-- The event touches no books unless it creates or kills a thread. -/
theorem NoWait.booksAfter (h : NoWait s) {e : Event} (he : orderly idle s e = true)
    (hc : e.creates = false) (hk : ∀ t, e ≠ .call (.killThread t))
    (hr : ∀ c b k, s.stack s.currentThread = .switchTo c b :: k → s.reclaimed = none) :
    Kernel.booksAfter s e = s.books := by
  rcases e with _ | c | _
  · rfl
  · cases c with
    | createThread | createKernelThread | createUserThread => cases hc
    | killThread t => exact absurd rfl (hk t)
    | mutexUnlock | semPost => simp [orderly] at he
    | _ => rfl
  · unfold Kernel.booksAfter
    cases hstack : s.stack s.currentThread with
    | nil => rfl
    | cons f k =>
        have hf := h s.currentThread f (hstack ▸ List.mem_cons_self)
        cases f with
        | switchTo c b =>
            dsimp only
            rw [hr c b k hstack]
        | lockTake | waitTake => cases hf
        | _ => rfl

/-- The invariant of the runs in which no thread ends by itself: `schedule()` finds none to reclaim. -/
structure Tabled (main idle : Addr) (s : Kernel) : Prop extends Table main idle s where
  current : s.state s.currentThread ≠ .terminated
  pending : ¬ AtWork s → ∀ p, s.schedulePrevThread = some p → s.state p ≠ .terminated

namespace Tabled

/-- Nothing is left to do for the end of `schedule()`. -/
theorem reclaimed (h : Tabled main idle s) {c : Nat} {b : Bool} {k : List Frame}
    (hk : s.stack s.currentThread = .switchTo c b :: k) : s.reclaimed = none := by
  have haway : ¬ AtWork s := fun ha => by cases ha _ _ hk
  unfold Kernel.reclaimed
  cases hp : s.schedulePrevThread with
  | none => rfl
  | some p => simp [Option.filter, h.pending haway p hp]

theorem table_step (h : Tabled main idle s) (hO : Orderly idle s xs) {e : Event}
    (he : createsAndKills main idle s e = true) (hroom : HasEntry s e)
    (hs : Kernel.step n e s = some s') : Table main idle s' := by
  simp only [createsAndKills, Bool.and_eq_true, decide_eq_true_eq] at he
  obtain ⟨⟨horderly, hexit⟩, hmain⟩ := he
  have hmoves := hO.sched.moves (hO.fits horderly (enabled_of_step hs)) hs
  have hbooks := books_step hs
  cases hc : e.creates with
  | true =>
      cases hO.creation horderly hc hs with
      | none hstate hbooks' => exact h.toTable.congr hbooks' fun u => by rw [hstate]
      | freed hf => exact h.toTable.freed hf
      | started hst => exact h.toTable.started hst (hroom hc)
  | false =>
      by_cases hk : ∃ t, e = .call (.killThread t)
      · obtain ⟨t, rfl⟩ := hk
        obtain ⟨ha, hcur, hti⟩ := orderly_kill horderly
        obtain ⟨u, hset, _, hkill⟩ := hO.sched.toQueues.killThread hcur
        rw [hset.result ((if_pos (enabled_of_step hs)).symm.trans hs)] at hbooks ⊢
        exact h.toTable.killed ha (fun htm => hmain (htm ▸ rfl)) hti hkill hbooks
      · have hnot : ∀ t, e ≠ .call (.killThread t) := fun t ht => hk ⟨t, ht⟩
        refine h.toTable.congr (hbooks.trans ?_) (hmoves.dead hc hnot hexit h.current)
        exact hO.noWait.booksAfter horderly hc hnot fun _ _ _ => h.reclaimed

/-- The thread that goes on has not ended. -/
theorem current_step (h : Tabled main idle s) (hO : Orderly idle s xs) {xs' : QueueId → List Addr}
    (hO' : Orderly idle s' xs') {e : Event} (he : createsAndKills main idle s e = true)
    (hs : Kernel.step n e s = some s') : s'.state s'.currentThread ≠ .terminated := by
  simp only [createsAndKills, Bool.and_eq_true, decide_eq_true_eq] at he
  obtain ⟨⟨horderly, hexit⟩, _⟩ := he
  have hmoves := hO.sched.moves (hO.fits horderly (enabled_of_step hs)) hs
  rcases hmoves.current with hcur | ⟨_, _, hne, hstack⟩
  · rw [hcur]
    cases hc : e.creates with
    | true =>
        have hlive : Alive s s.currentThread := ⟨hO.sched.current, h.current⟩
        cases hO.creation horderly hc hs with
        | none hstate _ =>
            rw [hstate]
            exact h.current
        | freed hf =>
            rw [hf.state _ fun hct => hf.dead (hct ▸ hlive)]
            exact h.current
        | started hst =>
            rw [hst.state _ fun hct => hst.dead (hct ▸ hlive)]
            exact h.current
    | false =>
        by_cases hk : ∃ t, e = .call (.killThread t)
        · obtain ⟨t, rfl⟩ := hk
          obtain ⟨_, hct, _⟩ := orderly_kill horderly
          obtain ⟨u, hset, _, hkill⟩ := hO.sched.toQueues.killThread hct
          rw [hset.result ((if_pos (enabled_of_step hs)).symm.trans hs), hkill.state,
            Function.update_of_ne hct.symm]
          exact h.current
        · exact fun hd => h.current ((hmoves.dead hc (fun t ht => hk ⟨t, ht⟩) hexit h.current _).mp hd)
  · -- a thread that was away stands in `switch_to` or has not started
    have hrun : s'.state s'.currentThread = .running := by
      refine hO'.sched.state_running fun k hk => ?_
      rw [hstack] at hk
      rcases hO.lock.frames.away _ hne with hnil | ⟨c, b, r, hsw, _⟩
      · cases hnil.symm.trans hk
      · cases hsw.symm.trans hk
    rw [hrun]
    decide

theorem step (h : Tabled main idle s) (hO : Orderly idle s xs) {xs' : QueueId → List Addr}
    (hO' : Orderly idle s' xs') {e : Event} (he : createsAndKills main idle s e = true)
    (hroom : HasEntry s e) (hs : Kernel.step n e s = some s') : Tabled main idle s' := by
  refine ⟨h.table_step hO he hroom hs, h.current_step hO hO' he hs, fun haway p hp => ?_⟩
  simp only [createsAndKills, Bool.and_eq_true, decide_eq_true_eq] at he
  obtain ⟨⟨horderly, hexit⟩, _⟩ := he
  have hfit := hO.fits horderly (enabled_of_step hs)
  obtain ⟨rfl, _, _, hprev⟩ := hO.sched.switched hfit hs haway
  obtain rfl : s.currentThread = p := Option.some.inj (hprev.symm.trans hp)
  intro hd
  refine h.current (((hO.sched.moves hfit hs).dead rfl ?_ hexit h.current _).mp hd)
  intro t ht
  cases ht

end Tabled

/-! ## CleanAllThreads -/

/-- The loop over the entries `is` ends; the threads that are alive behind it were so before, and none but
the main and the idle one has its entry there. -/
theorem Table.cleanLoop (is : List Nat) (h : Table main idle s) (hq : Queues s xs)
    (hcur : s.currentThread = main) :
    ∃ s', Settles (fun n => Kernel.cleanLoop n is s) s' ∧ ∀ u, Alive s' u → Alive s u ∧
      (u ≠ main → u ≠ idle → (s.tcb u).positionInTable ∉ is) := by
  induction is generalizing s xs with
  | nil => exact ⟨s, .const s, fun u hu => ⟨hu, fun _ _ => List.not_mem_nil⟩⟩
  | cons i is ih =>
      -- the entry `i` is passed over
      have hskip : (∀ n, Kernel.cleanLoop n (i :: is) s = Kernel.cleanLoop n is s) →
          (∀ u, s.tort i = some u → u = idle) → ∃ s',
            Settles (fun n => Kernel.cleanLoop n (i :: is) s) s' ∧ ∀ u, Alive s' u → Alive s u ∧
              (u ≠ main → u ≠ idle → (s.tcb u).positionInTable ∉ i :: is) := by
        intro heq hi
        obtain ⟨s', hset, hs'⟩ := ih h hq hcur
        refine ⟨s', hset.congr heq, fun u hu => ⟨(hs' u hu).1, fun hm hui => ?_⟩⟩
        rw [List.mem_cons]
        rintro (hp | hp)
        · exact hui (hi u (hp ▸ h.exact u (hs' u hu).1 hm))
        · exact (hs' u hu).2 hm hui hp
      cases hl : s.tort i with
      | none =>
          refine hskip (fun n => ?_) fun u hu => ?_
          · simp only [Kernel.cleanLoop, hl]
          · cases hl.symm.trans hu
      | some t =>
          obtain ⟨ha, hm, hp, _⟩ := h.entry i t hl
          by_cases hid : (s.tcb t).id = 0 ∨ (s.tcb t).id = 1
          · refine hskip (fun n => ?_) fun u hu => ?_
            · simp only [Kernel.cleanLoop, hl, if_pos hid]
            · obtain rfl : t = u := Option.some.inj (hl.symm.trans hu)
              by_contra hti
              have := h.other t ha hm hti
              omega
          · have hti : t ≠ idle := fun hti => hid (.inr (hti ▸ h.idleId))
            have htc : t ≠ s.currentThread := hcur.symm ▸ hm
            obtain ⟨v, hset, hqv, hkill⟩ := hq.killThread htc
            obtain ⟨n, hn⟩ := hset.ends
            have hbooks := books_killThread hn
            have hfixed : ∀ u, (v.tcb u).fixed = (s.tcb u).fixed :=
              fun u => congrFun ((congrArg Books.fixed hbooks).trans (fixed_pool s.books)) u
            obtain ⟨s', hset', hs'⟩ := ih (h.killed ha hm hti hkill hbooks) hqv
              (hkill.currentThread.trans hcur)
            refine ⟨s', (hset.bind hset').congr fun n => ?_, fun u hu => ?_⟩
            · simp only [Kernel.cleanLoop, hl, if_neg hid, if_neg htc]
            · obtain ⟨hu1, hu2⟩ := hs' u hu
              obtain ⟨hus, hut⟩ := (hkill.alive_iff u).mp hu1
              refine ⟨hus, fun hum hui => ?_⟩
              rw [List.mem_cons]
              rintro (hpu | hpu)
              · have hexact := h.exact u hus hum
                rw [hpu, hl] at hexact
                exact hut (Option.some.inj hexact).symm
              · exact hu2 hum hui ((fixed_fields (hfixed u)).2.2.1.symm ▸ hpu)

theorem Table.tableExact (h : Table main idle s) (hq : Queues s xs) : TableExact main idle s := by
  have hlt : ∀ t, Alive s t → t ≠ main → (s.tcb t).positionInTable < tortSize := fun t ht hm =>
    lt_of_lt_of_le (h.entry _ t (h.exact t ht hm)).2.2.2 h.bound
  refine ⟨fun t ht hm => ⟨hlt t ht hm, h.exact t ht hm⟩, fun i t ht => (h.entry i t ht).1, ?_⟩
  intro hcur
  obtain ⟨s', hset, hs'⟩ := h.cleanLoop (List.range tortSize) hq hcur
  refine ⟨s', hset, fun t ht => ?_⟩
  by_contra hnot
  obtain ⟨hm, hi⟩ := not_or.mp hnot
  obtain ⟨hts, hp⟩ := hs' t ht
  exact hp hm hi (List.mem_range.mpr (hlt t hts hm))

/-! ## Runs -/

section Boot

variable {bootStack idleStack kernelPml4 : Nat} {vmms : Addr → Vmm} {vmmDesc : Addr}
  {counts : Addr → Int}

/-- Behind `init_multitasking` the idle thread is the only one in the table. -/
theorem table_initMultitasking (hne : main ≠ idle) (hstack : idleStack ≠ 0) : Table main idle
    (initMultitasking main idle bootStack idleStack kernelPml4 vmms vmmDesc counts) := by
  let b : Kernel := bootKernel main bootStack kernelPml4 vmms vmmDesc counts
  have hfresh : idle ∉ b.tcbs := fun hm => hne (List.mem_singleton.mp hm).symm
  have hinit : initMultitasking main idle bootStack idleStack kernelPml4 vmms vmmDesc counts =
      startThread idle { Tcb.zero with
        kernelStack := idleStack, stackSize := roundUp 4096
        useVmm := false, vmm := vmmDesc } (allocTcb idle b.disableInterrupts) := if_neg hstack
  have hs := (taken_allocTcb hfresh).started idleStack
    (roundUp 4096) false vmmDesc
  rw [← hinit] at hs
  generalize initMultitasking main idle bootStack idleStack kernelPml4 vmms vmmDesc counts = s at hs
  obtain ⟨hposition, htort, hnext⟩ := hs.entry (show 0 < tortSize by decide)
  have hmain : Alive s main := by
    refine ⟨(hs.tcbs main).mpr (.inl List.mem_cons_self), ?_⟩
    rw [hs.state main hne]
    exact (by decide : ThreadState.running ≠ .terminated)
  have hidle : Alive s idle := ⟨(hs.tcbs idle).mpr (.inr rfl), by rw [hs.ready]; decide⟩
  have honly : ∀ t, Alive s t → t ≠ main → t = idle := fun t ht hm =>
    ((hs.tcbs t).mp ht.1).resolve_left fun hb => hm (List.mem_singleton.mp hb)
  refine ⟨?_, ?_, ?_, hmain, hidle, fun t ht hm hi => absurd (honly t ht hm) hi, ?_, ?_, hs.id⟩
  · intro t ht hm
    obtain rfl := honly t ht hm
    rw [hposition, htort, Function.update_self]
  · intro i t ht
    rw [htort] at ht
    by_cases hi : i = b.nextTortPosition
    · subst hi
      rw [Function.update_self] at ht
      cases ht
      exact ⟨hidle, hne.symm, hposition, by omega⟩
    · rw [Function.update_of_ne hi] at ht
      cases ht
  · rw [hnext]
    exact (by decide : 0 + 1 ≤ tortSize)
  · rw [hs.nextId]
    exact le_rfl
  · exact (fixed_fields (hs.fixed main hne)).1

theorem table_exact (hne : main ≠ idle) (hstack : idleStack ≠ 0) {s : Kernel}
    (h : Reaches (fun s e => createsAndKills main idle s e = true ∧ HasEntry s e)
      (initMultitasking main idle bootStack idleStack kernelPml4 vmms vmmDesc counts) s) :
    TableExact main idle s := by
  have hboot : ∃ xs, Booted idle
      (initMultitasking main idle bootStack idleStack kernelPml4 vmms vmmDesc counts) xs :=
    booted_initMultitasking hne hstack
  obtain ⟨xs0, hb⟩ := hboot
  have hinv : ∃ xs, Orderly idle s xs ∧ Tabled main idle s := by
    refine h.invariant (I := fun s => ∃ xs, Orderly idle s xs ∧ Tabled main idle s)
      ⟨xs0, hb.orderly, table_initMultitasking hne hstack, ?_, ?_⟩ ?_
    · rw [hb.sched.state_running fun k hk => by cases (hb.stack _).symm.trans hk]
      decide
    · refine fun haway => absurd (fun f k hk => ?_) haway
      rw [hb.stack] at hk
      cases hk
    · rintro t u e n ⟨xs, hO, hT⟩ ⟨he, hroom⟩ hs
      have horderly : orderly idle t e = true := by
        simp only [createsAndKills, Bool.and_eq_true] at he
        exact he.1.1
      obtain ⟨xs', hO'⟩ := hO.step horderly hs
      exact ⟨xs', hO', hT.step hO hO' he hroom hs⟩
  obtain ⟨xs, hO, hT⟩ := hinv
  exact hT.tableExact hO.sched.toQueues

end Boot

/-- Three threads are created and one of them is killed. -/
theorem table_exact_three :
    ∃ s, Reaches (fun s e => createsAndKills 1 2 s e = true ∧ HasEntry s e)
        (initMultitasking 1 2 4096 8192 0 (fun _ => ⟨0, false⟩) 7 fun _ => 0) s ∧
      s.nextTortPosition = 4 ∧ s.tort 2 = none ∧ TableExact 1 2 s := by
  have hrun : (stepsMeeting 5 (fun s e => createsAndKills 1 2 s e && decide (HasEntry s e))
      [.call (.createThread (some 3) 8192 4096 false 0),
        .call (.createThread (some 4) 8192 4096 false 0),
        .call (.createUserThread (some 5) 12288 4096 7), .call (.killThread 4)]
      (initMultitasking 1 2 4096 8192 0 (fun _ => ⟨0, false⟩) 7 (fun _ => 0))).any
        (fun s => s.nextTortPosition = 4 && s.tort 2 = none) = true := by decide +kernel
  obtain ⟨s, hs, hs1⟩ := (Option.any_eq_true _ _).mp hrun
  simp only [Bool.and_eq_true, decide_eq_true_eq] at hs1
  have h := (reaches_stepsMeeting .start hs).mono fun t e hP => by
    rwa [Bool.and_eq_true, decide_eq_true_eq] at hP
  exact ⟨s, h, hs1.1, hs1.2, table_exact (by decide) (by decide) h⟩

/-- The thread 3 is killed and created anew with its TCB. -/
def killAndCreate : List Event :=
  [.call (.killThread 3), .call (.createThread none 8192 4096 false 0)]

/-- A thread is created and then fifteen times killed and created anew; the sixteenth one is not in the
table. There are never more than three TCBs. -/
theorem table_misses :
    ∃ s, Reaches (fun s e => createsAndKills 1 2 s e = true ∧ s.tcbs.length ≤ 3)
        (initMultitasking 1 2 4096 8192 0 (fun _ => ⟨0, false⟩) 7 fun _ => 0) s ∧
      ¬ TableExact 1 2 s := by
  have hrun : (stepsMeeting 5 (fun s e => createsAndKills 1 2 s e && decide (s.tcbs.length ≤ 3))
      (.call (.createThread (some 3) 8192 4096 false 0) ::
        (List.replicate 15 killAndCreate).flatten)
      (initMultitasking 1 2 4096 8192 0 (fun _ => ⟨0, false⟩) 7 (fun _ => 0))).any
        (fun s => (s.tcb 3).positionInTable = 0 && s.tort 0 = some 2 && 3 ∈ s.tcbs &&
          s.state 3 = .ready) = true := by decide +kernel
  obtain ⟨s, hs, hs1⟩ := (Option.any_eq_true _ _).mp hrun
  simp only [Bool.and_eq_true, decide_eq_true_eq] at hs1
  obtain ⟨⟨⟨hposition, hentry⟩, hmem⟩, hready⟩ := hs1
  have h := (reaches_stepsMeeting .start hs).mono fun t e hP => by
    rwa [Bool.and_eq_true, decide_eq_true_eq] at hP
  refine ⟨s, h, fun hexact => ?_⟩
  have h3 := (hexact.1 3 ⟨hmem, by rw [hready]; decide⟩ (by decide)).2
  rw [hposition, hentry] at h3
  cases h3

end Kernel

end Os003
