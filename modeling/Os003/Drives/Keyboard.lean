import Os003.Lib.Ring

set_option autoImplicit false

/-! # The keyboard buffer

`irq_1` puts keys into a ring of 256 cells, `GetKey` and `GetKey_NoBlock` take them out. The section
between `cli` and `sti` of each reader and each interrupt is one step. `GetKey` tests `kbbuffer_count`
before its `cli`, so between its test and its section another reader may take the last key
(`two_readers_one_key`). As long as that does not happen, the buffer is a queue (`keyboard_fifo`).
-/

namespace Os003

open Ring

/-- `KEYBOARD_BUFFER_SIZE`. -/
def keyboardBufferSize : Nat := 256

def keyLeftShift : UInt8 := 0x2A

def keyRightShift : UInt8 := 0x36

/-- `scan_to_ascii`; the entries from 58 on are 0. -/
def scanToAscii : List UInt8 :=
  [0, 0, 49, 50, 51, 52, 53, 54, 55, 56, 57, 48, 45, 61, 8, 9,
    113, 119, 101, 114, 116, 121, 117, 105, 111, 112, 91, 93, 10, 0, 97, 115,
    100, 102, 103, 104, 106, 107, 108, 59, 39, 96, 0, 92, 122, 120, 99, 118,
    98, 110, 109, 44, 46, 47, 0, 42, 0, 32]

/-- `scan_to_ascii_1`, with Shift; the entries from 58 on are 0. -/
def scanToAscii1 : List UInt8 :=
  [0, 0, 33, 64, 35, 36, 37, 94, 38, 42, 40, 41, 95, 43, 8, 9,
    81, 87, 69, 82, 84, 89, 85, 73, 79, 80, 123, 125, 10, 0, 65, 83,
    68, 70, 71, 72, 74, 75, 76, 58, 34, 126, 0, 124, 90, 88, 67, 86,
    66, 78, 77, 60, 62, 63, 0, 42, 0, 32]

/-- The variables of the driver. The indices are never negative; `kbbuffer_count` is an `int`. -/
structure Keyboard where
  buffer : Nat → UInt8
  writeIndex : Nat
  readIndex : Nat
  count : Int
  shiftPressed : Bool

namespace Keyboard

/-- `_getkey_noblock` on what it reads from port 0x60. -/
def getkeyNoblock (scancode : UInt8) (k : Keyboard) : UInt8 × Keyboard :=
  if scancode = keyLeftShift ∨ scancode = keyRightShift then (0, { k with shiftPressed := true })
  else if scancode = keyLeftShift ||| 0x80 ∨ scancode = keyRightShift ||| 0x80 then
    (0, { k with shiftPressed := false })
  else if scancode &&& 0x80 ≠ 0 then (0, k)
  else if k.shiftPressed then (scanToAscii1.getD scancode.toNat 0, k)
  else (scanToAscii.getD scancode.toNat 0, k)

/-- `irq_1`, with the key it has put into the buffer. -/
def irq1 (scancode : UInt8) (k : Keyboard) : Option UInt8 × Keyboard :=
  let (key, k) := k.getkeyNoblock scancode
  if key ≠ 0 ∧ k.count < keyboardBufferSize then
    (some key, { k with
      buffer := Function.update k.buffer k.writeIndex key
      writeIndex := (k.writeIndex + 1) % keyboardBufferSize
      count := k.count + 1 })
  else (none, k)

/-- What `GetKey` and `GetKey_NoBlock` do to take a key. -/
def takeKey (k : Keyboard) : UInt8 × Keyboard :=
  (k.buffer k.readIndex, { k with
    buffer := Function.update k.buffer k.readIndex 0
    readIndex := (k.readIndex + 1) % keyboardBufferSize
    count := k.count - 1 })

/-- `GetKey_NoBlock`. -/
def getKeyNoBlock (k : Keyboard) : UInt8 × Keyboard :=
  if k.count ≠ 0 then k.takeKey else (0, k)

end Keyboard

/-- Where a thread is in `GetKey`. -/
inductive ReaderPlace
  | outside
  /-- At the test of `kbbuffer_count`. -/
  | test
  /-- Behind the loop, before `cli`. -/
  | taking
  deriving DecidableEq, Repr

/-- The buffer and its readers. -/
structure Keys where
  keyboard : Keyboard
  place : Nat → ReaderPlace
  /-- The keys that `irq_1` has put into the buffer. -/
  accepted : List UInt8
  /-- The keys other than 0 that the readers have returned, in the order of removal. -/
  removed : List UInt8
  /-- What `GetKey` has returned. -/
  returned : List UInt8

/-- What can happen next; the readers are told apart by numbers. -/
inductive KeyEvent
  | irq (scancode : UInt8)
  /-- A call of `GetKey`. -/
  | getKey (t : Nat)
  /-- One test of `kbbuffer_count == 0`. -/
  | test (t : Nat)
  /-- From `cli` to the return of `GetKey`. -/
  | take (t : Nat)
  /-- A call of `GetKey_NoBlock`, up to its return. -/
  | noBlock (t : Nat)
  deriving DecidableEq, Repr

namespace Keys

def setPlace (t : Nat) (p : ReaderPlace) (s : Keys) : Keys :=
  { s with place := Function.update s.place t p }

/-- A key that a reader has removed. -/
def remove (key : UInt8) (s : Keys) : Keys :=
  { s with removed := if key = 0 then s.removed else s.removed ++ [key] }

def step (e : KeyEvent) (s : Keys) : Option Keys :=
  match e with
  | .irq scancode =>
      let (key, k) := s.keyboard.irq1 scancode
      some { s with keyboard := k, accepted := s.accepted ++ key.toList }
  | .getKey t => if s.place t = .outside then some (s.setPlace t .test) else none
  | .test t =>
      if s.place t = .test then
        some (if s.keyboard.count = 0 then s else s.setPlace t .taking)
      else none
  | .take t =>
      if s.place t = .taking then
        let (key, k) := s.keyboard.takeKey
        some ({ s with keyboard := k, returned := s.returned ++ [key] }.remove key |>.setPlace t
          .outside)
      else none
  | .noBlock t =>
      if s.place t = .outside then
        let (key, k) := s.keyboard.getKeyNoBlock
        some ({ s with keyboard := k }.remove key)
      else none

/-- At boot. -/
def boot : Keys where
  keyboard := ⟨fun _ => 0, 0, 0, 0, false⟩
  place := fun _ => .outside
  accepted := []
  removed := []
  returned := []

/-- The runs from `s` whose steps meet `P`. -/
inductive Run (P : Keys → KeyEvent → Prop) (s : Keys) : Keys → Prop
  | start : Run P s s
  | step {u v : Keys} {e : KeyEvent} (h : Run P s u) (hP : P u e) (hs : step e u = some v) : Run P s v

/-- The buffer works as a queue. -/
structure Fifo (s : Keys) : Prop where
  nonneg : 0 ≤ s.keyboard.count
  le : s.keyboard.count ≤ keyboardBufferSize
  index : (s.keyboard.writeIndex : Int) =
    (s.keyboard.readIndex + s.keyboard.count) % keyboardBufferSize
  order : s.removed <+: s.accepted
  key : 0 ∉ s.returned

/-- When `GetKey` comes to its section, a key is there. -/
def KeyLeft (s : Keys) (e : KeyEvent) : Prop := ∀ t, e = .take t → s.keyboard.count ≠ 0

variable {s s' : Keys} {e : KeyEvent} {t : Nat}

/-! ## The invariant -/

/-- The buffer holds the keys that have been accepted and not removed. -/
structure Holds (s : Keys) (n : Nat) : Prop where
  count : s.keyboard.count = n
  le : n ≤ keyboardBufferSize
  read : s.keyboard.readIndex < keyboardBufferSize
  write : s.keyboard.writeIndex = (s.keyboard.readIndex + n) % keyboardBufferSize
  order : s.accepted = s.removed ++
    ringList keyboardBufferSize s.keyboard.buffer s.keyboard.readIndex n
  accepted : 0 ∉ s.accepted
  returned : 0 ∉ s.returned

theorem holds_boot : Holds boot 0 where
  count := rfl
  le := Nat.zero_le _
  read := by decide
  write := rfl
  order := rfl
  accepted := List.not_mem_nil
  returned := List.not_mem_nil

theorem Holds.fifo {n : Nat} (h : Holds s n) : Fifo s where
  nonneg := by rw [h.count]; omega
  le := by rw [h.count]; exact_mod_cast h.le
  index := by rw [h.count, h.write]; push_cast; rfl
  order := ⟨_, h.order.symm⟩
  key := h.returned

/-- Moving a reader does not matter. -/
theorem Holds.setPlace {n : Nat} (h : Holds s n) (t : Nat) (p : ReaderPlace) :
    Holds (s.setPlace t p) n :=
  ⟨h.count, h.le, h.read, h.write, h.order, h.accepted, h.returned⟩

/-- `_getkey_noblock` changes the state of Shift at most. -/
theorem getkeyNoblock_spec (scancode : UInt8) (k : Keyboard) :
    ∃ key b, k.getkeyNoblock scancode = (key, { k with shiftPressed := b }) := by
  unfold Keyboard.getkeyNoblock
  split
  · exact ⟨_, _, rfl⟩
  · split
    · exact ⟨_, _, rfl⟩
    · split
      · exact ⟨_, k.shiftPressed, rfl⟩
      · split
        · exact ⟨_, k.shiftPressed, rfl⟩
        · exact ⟨_, k.shiftPressed, rfl⟩

/-- The interrupt appends the key it accepts. -/
theorem Holds.irq {n : Nat} (h : Holds s n) {scancode : UInt8}
    (hs : step (.irq scancode) s = some s') : ∃ m, Holds s' m := by
  obtain ⟨key, b, hkey⟩ := getkeyNoblock_spec scancode s.keyboard
  simp only [step, Keyboard.irq1, hkey] at hs
  split at hs
  next hroom =>
    obtain ⟨hnonzero, hlt⟩ := hroom
    have hn : n < keyboardBufferSize := by
      have hcount := h.count
      omega
    obtain rfl := Option.some.inj hs
    refine ⟨n + 1, ?_, hn, h.read, ?_, ?_, ?_, h.returned⟩
    · show s.keyboard.count + 1 = _
      rw [h.count]
      push_cast
      rfl
    · show (s.keyboard.writeIndex + 1) % keyboardBufferSize = _
      rw [h.write, Nat.mod_add_mod, Nat.add_assoc]
    · show s.accepted ++ [key] = s.removed ++ ringList _ (Function.update _ s.keyboard.writeIndex key)
        s.keyboard.readIndex (n + 1)
      rw [h.write, ringList_write hn, h.order, List.append_assoc]
    · show 0 ∉ s.accepted ++ [key]
      simp [h.accepted, Ne.symm hnonzero]
  next =>
    obtain rfl := Option.some.inj hs
    refine ⟨n, h.count, h.le, h.read, h.write, ?_, ?_, h.returned⟩
    · exact (List.append_nil _).trans h.order
    · simpa using h.accepted

/-- Where a key is, both readers take the oldest one. -/
theorem Holds.takeKey {n : Nat} (h : Holds s n) (hn : n ≠ 0) (r : List UInt8)
    (hr : r = s.returned ∨ r = s.returned ++ [s.keyboard.takeKey.1]) :
    Holds ({ s with keyboard := s.keyboard.takeKey.2, returned := r }.remove s.keyboard.takeKey.1)
      (n - 1) := by
  obtain ⟨m, rfl⟩ := Nat.exists_eq_succ_of_ne_zero hn
  have hm : m < keyboardBufferSize := h.le
  have hread : s.keyboard.readIndex % keyboardBufferSize = s.keyboard.readIndex :=
    Nat.mod_eq_of_lt h.read
  have horder : s.accepted = s.removed ++ s.keyboard.buffer s.keyboard.readIndex ::
      ringList keyboardBufferSize s.keyboard.buffer
        ((s.keyboard.readIndex + 1) % keyboardBufferSize) m := by
    rw [h.order, ringList_succ, hread]
  -- every key that has been accepted is one
  have hkey : s.keyboard.takeKey.1 ≠ 0 := by
    intro h0
    apply h.accepted
    rw [horder]
    refine List.mem_append_right _ ?_
    rw [← h0]
    exact List.mem_cons_self
  have hremove : s.removed ++ [s.keyboard.takeKey.1] = (({ s with
      keyboard := s.keyboard.takeKey.2, returned := r } : Keys).remove s.keyboard.takeKey.1).removed :=
    (if_neg hkey).symm
  refine ⟨?_, by omega, Nat.mod_lt _ (by decide), ?_, ?_, h.accepted, ?_⟩
  · show s.keyboard.count - 1 = _
    rw [h.count]
    simp
  · show s.keyboard.writeIndex = ((s.keyboard.readIndex + 1) % keyboardBufferSize + m) %
      keyboardBufferSize
    rw [h.write, Nat.mod_add_mod]
    congr 1
    omega
  · have hclear : ringList keyboardBufferSize (Function.update s.keyboard.buffer
        (s.keyboard.readIndex % keyboardBufferSize) 0)
          ((s.keyboard.readIndex + 1) % keyboardBufferSize) m =
        ringList keyboardBufferSize s.keyboard.buffer
          ((s.keyboard.readIndex + 1) % keyboardBufferSize) m := ringList_clear hm 0
    rw [hread] at hclear
    calc s.accepted = s.removed ++ s.keyboard.takeKey.1 ::
          ringList keyboardBufferSize s.keyboard.buffer
            ((s.keyboard.readIndex + 1) % keyboardBufferSize) m := horder
      _ = (s.removed ++ [s.keyboard.takeKey.1]) ++
          ringList keyboardBufferSize s.keyboard.takeKey.2.buffer
            ((s.keyboard.readIndex + 1) % keyboardBufferSize) m := by
        rw [List.append_assoc, List.singleton_append]
        exact congrArg _ (congrArg _ hclear.symm)
      _ = _ := by rw [hremove]; rfl
  · show 0 ∉ r
    obtain rfl | rfl := hr
    · exact h.returned
    · simp [h.returned, Ne.symm hkey]

theorem Holds.step {n : Nat} (h : Holds s n) (hP : KeyLeft s e) (hs : step e s = some s') :
    ∃ m, Holds s' m := by
  cases e with
  | irq scancode => exact h.irq hs
  | getKey t =>
      simp only [Keys.step] at hs
      split at hs
      · exact ⟨n, Option.some.inj hs ▸ h.setPlace t _⟩
      · cases hs
  | test t =>
      simp only [Keys.step] at hs
      split at hs
      · obtain rfl := Option.some.inj hs
        split
        · exact ⟨n, h⟩
        · exact ⟨n, h.setPlace t _⟩
      · cases hs
  | take t =>
      simp only [Keys.step] at hs
      split at hs
      · have hn : n ≠ 0 := by
          rintro rfl
          exact hP t rfl h.count
        exact ⟨n - 1, Option.some.inj hs ▸ (h.takeKey hn _ (.inr rfl)).setPlace t _⟩
      · cases hs
  | noBlock t =>
      simp only [Keys.step, Keyboard.getKeyNoBlock] at hs
      split at hs
      · split at hs
        next hcount =>
          have hn : n ≠ 0 := by
            rintro rfl
            exact hcount h.count
          exact ⟨n - 1, Option.some.inj hs ▸ h.takeKey hn _ (.inl rfl)⟩
        next =>
          obtain rfl := Option.some.inj hs
          exact ⟨n, h.count, h.le, h.read, h.write, h.order, h.accepted, h.returned⟩
      · cases hs

theorem Run.holds (h : Run KeyLeft boot s) : ∃ n, Holds s n := by
  induction h with
  | start => exact ⟨0, holds_boot⟩
  | step _ hP hs ih =>
      obtain ⟨n, hn⟩ := ih
      exact hn.step hP hs

/-- The buffer is a queue for all its readers as long as each `GetKey` that has seen a key finds one in
its section, and no longer. -/
theorem keyboard_fifo (h : Run KeyLeft boot s) :
    Fifo s ∧ ∀ e s', step e s = some s' → (Fifo s' ↔ KeyLeft s e) := by
  obtain ⟨n, hn⟩ := h.holds
  refine ⟨hn.fifo, fun e s' hs => ⟨fun hfifo t ht hcount => ?_, fun hleft => ?_⟩⟩
  · obtain rfl := ht
    simp only [Keys.step] at hs
    split at hs
    · have hneg : s'.keyboard.count = s.keyboard.count - 1 := by
        rw [← Option.some.inj hs]
        rfl
      have := hfifo.nonneg
      omega
    · cases hs
  · obtain ⟨m, hm⟩ := hn.step hleft hs
    exact hm.fifo

def steps : List KeyEvent → Keys → Option Keys
  | [], s => some s
  | e :: es, s => (step e s).bind (steps es)

theorem run_steps {P : Keys → KeyEvent → Prop} {es : List KeyEvent} {u v : Keys} (h : Run P s u)
    (hP : ∀ w, ∀ e ∈ es, P w e) (hs : steps es u = some v) : Run P s v := by
  induction es generalizing u with
  | nil =>
      cases hs
      exact h
  | cons e es ih =>
      obtain ⟨w, hw, hs⟩ := Option.bind_eq_some_iff.mp hs
      exact ih (h.step (hP u e List.mem_cons_self) hw)
        (fun x y hy => hP x y (List.mem_cons_of_mem e hy)) hs

/-- A key is put into the buffer and read by `GetKey_NoBlock`, and a second one waits for `GetKey`. -/
theorem keyboard_fifo_two : ∃ s, Run KeyLeft boot s ∧ s.accepted = [97, 98] ∧ s.removed = [97] ∧
    Fifo s := by
  have hrun : (steps [.irq 0x1E, .getKey 1, .noBlock 2, .irq 0x30, .test 1] boot).any
      (fun s => s.accepted = [97, 98] && s.removed = [97]) = true := by decide +kernel
  obtain ⟨s, hs, hs1⟩ := (Option.any_eq_true _ _).mp hrun
  simp only [Bool.and_eq_true, decide_eq_true_eq] at hs1
  have h : Run KeyLeft boot s := by
    refine run_steps .start (fun w e he t ht => ?_) hs
    rw [ht] at he
    simp at he
  exact ⟨s, h, hs1.1, hs1.2, (keyboard_fifo h).1⟩

/-- Two readers have seen the key `a` that `irq_1` has put into the empty buffer, and both take it. -/
theorem two_readers_one_key : ∃ s, Run (fun _ _ => True) boot s ∧ s.accepted = [97] ∧
    s.returned = [97, 0] ∧ s.keyboard.count = -1 ∧ ¬ Fifo s := by
  have hrun : (steps [.getKey 1, .getKey 2, .irq 0x1E, .test 1, .test 2, .take 1, .take 2] boot).any
      (fun s => s.accepted = [97] && s.returned = [97, 0] && s.keyboard.count = -1) = true := by
    decide +kernel
  obtain ⟨s, hs, hs1⟩ := (Option.any_eq_true _ _).mp hrun
  simp only [Bool.and_eq_true, decide_eq_true_eq] at hs1
  obtain ⟨⟨haccepted, hreturned⟩, hcount⟩ := hs1
  refine ⟨s, run_steps .start (fun _ _ _ => trivial) hs, haccepted, hreturned, hcount, ?_⟩
  intro hfifo
  have := hfifo.nonneg
  omega

end Keys

end Os003
