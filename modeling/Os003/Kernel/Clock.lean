import Os003.Lib.Fuel

set_option autoImplicit false

/-! # Measuring the CPU with the clock

`Get_CPU_Frequency` (`lib/delay.c`) reads the seconds of the real-time clock until they are one more than at
the start, and again until they are one more than that; the time-stamp counter in between is the
frequency. One more than 59 is 60, which the clock never shows. A measurement that starts in the
last but one second of a minute hangs in its second loop, one that starts in the last second in its
first (`getCpuFrequency_ends_iff`).
-/

namespace Os003

/-! ## The clock -/

/-- What `get_rtc_time` reads from the CMOS. -/
structure CmosReading where
  second : UInt8
  minute : UInt8
  hour : UInt8
  day : UInt8
  month : UInt8
  year : UInt8
  statusB : UInt8

/-- `struct rtc_time`, as `get_rtc_time` fills it in. -/
structure RtcTime where
  second : UInt8
  minute : UInt8
  hour : UInt8
  day : UInt8
  month : UInt8
  year : UInt8
deriving DecidableEq, Repr

/-- A BCD byte as a number. -/
def fromBcd (b : UInt8) : UInt8 := (b &&& 0x0F) + b / 16 * 10

/-- The hours keep their top bit, which is the afternoon of a 12-hour clock. -/
def hourFromBcd (b : UInt8) : UInt8 := ((b &&& 0x0F) + (b &&& 0x70) / 16 * 10) ||| (b &&& 0x80)

/-- `get_rtc_time`, when the clock is not updating its registers. -/
def getRtcTime (r : CmosReading) : RtcTime :=
  let t : RtcTime :=
    if r.statusB &&& 0x04 = 0 then
      ⟨fromBcd r.second, fromBcd r.minute, hourFromBcd r.hour, fromBcd r.day, fromBcd r.month,
        fromBcd r.year⟩
    else ⟨r.second, r.minute, r.hour, r.day, r.month, r.year⟩
  let hour :=
    if r.statusB &&& 0x02 = 0 ∧ t.hour &&& 0x80 ≠ 0 then ((t.hour &&& 0x7F) + 12) % 24 else t.hour
  if hour > 24 then { t with hour := hour - 24, day := t.day + 1 } else { t with hour := hour }

theorem getRtcTime_second (r : CmosReading) :
    (getRtcTime r).second = if r.statusB &&& 0x04 = 0 then fromBcd r.second else r.second := by
  simp only [getRtcTime]
  split_ifs <;> rfl

/-- The seconds register of a clock that shows `s`, in the format of its status byte. -/
def showsSecond (r : CmosReading) (s : Nat) : Prop :=
  r.second = if r.statusB &&& 0x04 = 0 then UInt8.ofNat (s / 10 * 16 + s % 10) else UInt8.ofNat s

theorem fromBcd_digits : ∀ s < 60, fromBcd (UInt8.ofNat (s / 10 * 16 + s % 10)) = UInt8.ofNat s := by
  decide

/-- Both formats are read as the second they show. -/
theorem second_of_shows {r : CmosReading} {s : Nat} (hs : s < 60) (h : showsSecond r s) :
    (getRtcTime r).second.toNat = s := by
  have hmod : s % 2 ^ 8 = s := Nat.mod_eq_of_lt (by omega)
  rw [getRtcTime_second, h]
  split
  · rw [fromBcd_digits s hs, UInt8.toNat_ofNat', hmod]
  · rw [UInt8.toNat_ofNat', hmod]

/-- The readings follow a clock: reading `n` shows the second `sec n`, which is that of the reading before
or the one behind it, and the seconds go on for ever. -/
structure Ticks (reading : Nat → CmosReading) (sec : Nat → Nat) : Prop where
  lt : ∀ n, sec n < 60
  shows : ∀ n, showsSecond (reading n) (sec n)
  step : ∀ n, sec (n + 1) = sec n ∨ sec (n + 1) = (sec n + 1) % 60
  advances : ∀ n, ∃ m, n < m ∧ sec m ≠ sec n

/-- How often the second has changed up to the reading `n`. -/
def changes (sec : Nat → Nat) : Nat → Nat
  | 0 => 0
  | n + 1 => changes sec n + if sec (n + 1) = sec n then 0 else 1

/-! ## The measurement -/

/-- A waiting loop, with `s` read last and `k` readings taken: it goes on until it reads `target`. -/
def awaitSecond (reading : Nat → CmosReading) (target : Nat) : (fuel k s : Nat) → Option (Nat × Nat)
  | 0, _, _ => none
  | fuel + 1, k, s =>
      if s ≠ target then awaitSecond reading target fuel (k + 1) (getRtcTime (reading k)).second.toNat
      else some (k, s)

/-- `Get_CPU_Frequency`, with `tsc k` the time-stamp counter after `k` readings. The result is the
frequency and the number of readings taken. -/
def getCpuFrequency (reading : Nat → CmosReading) (tsc : Nat → BitVec 64) (fuel : Nat) :
    Option (BitVec 64 × Nat) :=
  let s1 := (getRtcTime (reading 0)).second.toNat
  (awaitSecond reading (s1 + 1) fuel 1 0).bind fun first =>
    (awaitSecond reading (first.2 + 1) fuel first.1 0).map fun second =>
      (tsc second.1 - tsc first.1, second.1)

section Clock

variable {reading : Nat → CmosReading} {sec : Nat → Nat} {tsc : Nat → BitVec 64}
  {target n m k s : Nat}

/-- A loop that has not read its target yet reads on up to the first reading that shows it. -/
theorem awaitSecond_settles (hs : s ≠ target) (hkm : k ≤ m)
    (hbefore : ∀ i, k ≤ i → i < m → (getRtcTime (reading i)).second.toNat ≠ target)
    (hat : (getRtcTime (reading m)).second.toNat = target) :
    Settles (fun fuel => awaitSecond reading target fuel k s) (m + 1, target) := by
  obtain ⟨d, rfl⟩ : ∃ d, m = k + d := ⟨m - k, by omega⟩
  induction d generalizing k s with
  | zero =>
      apply Settles.turn rfl (fun fuel => by rw [awaitSecond, if_pos hs])
      rw [Nat.add_zero] at hat ⊢
      apply Settles.turn rfl (fun fuel => by rw [awaitSecond, if_neg (not_not.mpr hat)])
      rw [hat]
      exact Settles.const _
  | succ d ih =>
      apply Settles.turn rfl (fun fuel => by rw [awaitSecond, if_pos hs])
      have h := ih (k := k + 1) (s := (getRtcTime (reading k)).second.toNat)
        (hbefore k le_rfl (by omega)) (by omega)
        (fun i hki him => hbefore i (by omega) (by omega))
        (by rwa [show k + 1 + d = k + (d + 1) by omega])
      rwa [show k + 1 + d = k + (d + 1) by omega] at h

/-- A loop whose target is never shown never ends. -/
theorem awaitSecond_never (hs : s ≠ target) (hnever : ∀ i, (getRtcTime (reading i)).second.toNat ≠ target)
    (fuel : Nat) : awaitSecond reading target fuel k s = none := by
  induction fuel generalizing k s with
  | zero => rfl
  | succ fuel ih =>
      rw [awaitSecond, if_pos hs]
      exact ih (hnever k)

theorem awaitSecond_result {fuel : Nat} {run : Nat × Nat}
    (h : awaitSecond reading target fuel k s = some run) : run.2 = target := by
  induction fuel generalizing k s with
  | zero => simp [awaitSecond] at h
  | succ fuel ih =>
      rw [awaitSecond] at h
      split at h
      · exact ih h
      · rename_i heq
        cases h
        exact not_not.mp heq

/-- From each reading on, the clock shows the same second until it shows the next one. -/
theorem Ticks.next (h : Ticks reading sec) (n : Nat) :
    ∃ m, n < m ∧ (∀ i, n ≤ i → i < m → sec i = sec n) ∧ sec m = (sec n + 1) % 60 := by
  classical
  have hex := h.advances n
  have hmin : ∀ i, n ≤ i → i < Nat.find hex → sec i = sec n := by
    intro i hni hi
    rcases Nat.eq_or_lt_of_le hni with rfl | hlt
    · rfl
    · by_contra hne
      exact Nat.find_min hex hi ⟨hlt, hne⟩
  obtain ⟨hlt, hne⟩ := Nat.find_spec hex
  refine ⟨Nat.find hex, hlt, hmin, ?_⟩
  obtain ⟨p, hp⟩ : ∃ p, Nat.find hex = p + 1 := ⟨Nat.find hex - 1, by omega⟩
  have hprev := hmin p (by omega) (by omega)
  rw [hp] at hne ⊢
  rcases h.step p with hsame | hnext
  · exact absurd (hsame.trans hprev) hne
  · rw [hnext, hprev]

/-- While the second stays the same, nothing is counted, and one change counts at most once. -/
theorem changes_le (hnm : n < m) (hsame : ∀ i, n ≤ i → i < m → sec i = sec n) :
    changes sec m ≤ changes sec n + 1 := by
  obtain ⟨d, rfl⟩ : ∃ d, m = n + d + 1 := ⟨m - n - 1, by omega⟩
  have hflat : ∀ e, e ≤ d → changes sec (n + e) = changes sec n := by
    intro e
    induction e with
    | zero => exact fun _ => rfl
    | succ e ih =>
        intro he
        rw [← Nat.add_assoc, changes, ih (by omega), if_pos, Nat.add_zero]
        rw [hsame (n + e) (by omega) (by omega), hsame (n + e + 1) (by omega) (by omega)]
  rw [changes, hflat d le_rfl]
  split <;> omega

theorem Ticks.second (h : Ticks reading sec) (n : Nat) :
    (getRtcTime (reading n)).second.toNat = sec n :=
  second_of_shows (h.lt n) (h.shows n)

/-- A measurement ends, and then within two changes of the second, exactly if it starts in neither
of the last two seconds of a minute. -/
theorem getCpuFrequency_ends_iff (h : Ticks reading sec) (tsc : Nat → BitVec 64) :
    (∃ run, Settles (getCpuFrequency reading tsc) run ∧ changes sec (run.2 - 1) ≤ 2) ↔
      sec 0 ≠ 58 ∧ sec 0 ≠ 59 := by
  have h0 := h.lt 0
  constructor
  · rintro ⟨run, hrun, -⟩
    obtain ⟨fuel, hok⟩ := hrun.ends
    rw [getCpuFrequency, h.second 0] at hok
    obtain ⟨first, hfirst, hok⟩ := Option.bind_eq_some_iff.mp hok
    obtain ⟨second, hsecond, -⟩ := Option.map_eq_some_iff.mp hok
    -- no loop whose target is 60 ends
    have hsixty (k fuel : Nat) : awaitSecond reading 60 fuel k 0 = none := by
      apply awaitSecond_never (by decide)
      intro i
      rw [h.second]
      exact Nat.ne_of_lt (h.lt i)
    have htarget := awaitSecond_result hfirst
    constructor
    · intro hs
      rw [htarget, hs, hsixty] at hsecond
      cases hsecond
    · intro hs
      rw [hs, hsixty] at hfirst
      cases hfirst
  · rintro ⟨h58, h59⟩
    obtain ⟨m1, hm1, hsame1, hnext1⟩ := h.next 0
    obtain ⟨m2, hm2, hsame2, hnext2⟩ := h.next m1
    rw [Nat.mod_eq_of_lt (by omega)] at hnext1
    rw [hnext1, Nat.mod_eq_of_lt (by omega)] at hnext2
    have hfirst : Settles (fun fuel => awaitSecond reading (sec 0 + 1) fuel 1 0) (m1 + 1, sec 0 + 1) := by
      apply awaitSecond_settles (by omega) (by omega)
      · intro i _ hi
        rw [h.second, hsame1 i (Nat.zero_le i) hi]
        omega
      · rw [h.second, hnext1]
    have hsecond : Settles (fun fuel => awaitSecond reading (sec 0 + 1 + 1) fuel (m1 + 1) 0)
        (m2 + 1, sec 0 + 1 + 1) := by
      apply awaitSecond_settles (by omega) (by omega)
      · intro i hi him
        rw [h.second, hsame2 i (by omega) him, hnext1]
        omega
      · rw [h.second, hnext2]
    refine ⟨(tsc (m2 + 1) - tsc (m1 + 1), m2 + 1), ?_, ?_⟩
    · refine Settles.congr ?_ (hfirst.bind (g := fun fuel first =>
        (awaitSecond reading (first.2 + 1) fuel first.1 0).map fun second =>
          (tsc second.1 - tsc first.1, second.1)) hsecond.map)
      intro fuel
      rw [getCpuFrequency, h.second 0]
    · have hc1 : changes sec m1 ≤ 0 + 1 := changes_le hm1 hsame1
      have hc2 := changes_le hm2 hsame2
      rw [Nat.add_sub_cancel]
      omega

end Clock

/-- A clock whose every reading shows the next second, from the second `s` on, in binary and 24 hours. -/
def steadyClock (s n : Nat) : CmosReading where
  second := UInt8.ofNat ((s + n) % 60)
  minute := 0
  hour := 0
  day := 1
  month := 1
  year := 26
  statusB := 0x06

theorem steadyClock_ticks (s : Nat) : Ticks (steadyClock s) (fun n => (s + n) % 60) where
  lt n := Nat.mod_lt _ (by decide)
  shows n := (if_neg (show ¬ (0x06 &&& 0x04 : UInt8) = 0 by decide)).symm
  step n := Or.inr (by omega)
  advances n := ⟨n + 1, by omega, by omega⟩

theorem getCpuFrequency_ends_noon :
    (∃ run, Settles (getCpuFrequency (steadyClock 0) fun k => BitVec.ofNat 64 k) run ∧
      changes (fun n => (0 + n) % 60) (run.2 - 1) ≤ 2) ↔
      (0 + 0) % 60 ≠ 58 ∧ (0 + 0) % 60 ≠ 59 :=
  getCpuFrequency_ends_iff (steadyClock_ticks 0) _

/-- A measurement that starts in the second 59 of this clock never ends. -/
theorem getCpuFrequency_hangs : Ticks (steadyClock 59) (fun n => (59 + n) % 60) ∧
    ∀ fuel, getCpuFrequency (steadyClock 59) (fun k => BitVec.ofNat 64 k) fuel = none := by
  refine ⟨steadyClock_ticks 59, ?_⟩
  intro fuel
  have hnever : awaitSecond (steadyClock 59) 60 fuel 1 0 = none := by
    apply awaitSecond_never (by decide)
    intro i
    rw [(steadyClock_ticks 59).second]
    exact Nat.ne_of_lt (Nat.mod_lt _ (by decide))
  rw [getCpuFrequency, (steadyClock_ticks 59).second 0]
  show (awaitSecond (steadyClock 59) 60 fuel 1 0).bind _ = none
  rw [hnever]
  rfl

end Os003
