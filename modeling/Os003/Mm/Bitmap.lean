import Mathlib

set_option autoImplicit false

/-! # Bitmaps

The bitmaps of the physical memory manager (`mm/bitmap.c`): an array of bytes whose bits say which
pages of a region are in use.

`BitmapAllocBits` looks for `size` bits in a row with two cursors. The inner loop counts the first
bit twice, so it looks at `size - 1` bits only, and when the end of the bitmap stops it the
function returns the start of the run it was in without having marked it. What the function
finds is therefore the first place where `size - 1` bits in a row, or all bits up to the end,
have the value (`bitmapAllocBits_spec`), and not the first place with `size` of them.
-/

namespace Os003

/-- `bitmap_t`; `bits` are the bytes that its pointer leads to. -/
structure Bitmap where
  bitSize : Nat
  bits : Nat → BitVec 8

/-! ## Bits -/

/-- `BitmapGetBit`. -/
def bitmapGetBit (bitmap : Bitmap) (index : Nat) : Bool :=
  (bitmap.bits (index / 8) >>> (index % 8) &&& 0x1) != 0

/-- One bit is set or cleared. -/
def bitmapPutBit (bitmap : Bitmap) (index : Nat) (value : Bool) : Bitmap :=
  let byte := bitmap.bits (index / 8)
  let mask := 1#8 <<< (index % 8)
  { bitmap with
    bits := Function.update bitmap.bits (index / 8)
      (if value then byte ||| mask else byte &&& ~~~mask) }

/-- The loop of `BitmapSetBits`, with `n` turns to go. -/
def setBitsLoop (value : Bool) : Nat → Nat → Bitmap → Bitmap
  | 0, _, bitmap => bitmap
  | n + 1, index, bitmap =>
      if index < bitmap.bitSize then
        setBitsLoop value n (index + 1) (bitmapPutBit bitmap index value)
      else bitmap

/-- `BitmapSetBits`. -/
def bitmapSetBits (bitmap : Bitmap) (index size : Nat) (value : Bool) : Bitmap :=
  setBitsLoop value size index bitmap

/-- `BitmapInit`, with memory that `memset` fills. -/
def bitmapInit (bitSize : Nat) (value : Bool) : Bitmap where
  bitSize
  bits := fun _ => if value then 0xFF#8 else 0

/-- How the inner loop of `BitmapAllocBits` ends: with its count, at a bit of the other value, or at the
end of the bitmap. -/
inductive RunExit where
  | full
  | broken (sidx : Nat)
  | atEnd
  deriving DecidableEq, Repr

/-- The inner loop of `BitmapAllocBits`, with `n` turns to go. -/
def runLoop (bitmap : Bitmap) (value : Bool) : Nat → Nat → RunExit
  | 0, _ => .full
  | n + 1, sidx =>
      if sidx < bitmap.bitSize then
        if bitmapGetBit bitmap sidx ≠ value then .broken (sidx + 1)
        else runLoop bitmap value n (sidx + 1)
      else .atEnd

/-- The outer loop of `BitmapAllocBits`: the index found and the bitmap; `none` is -1. Every turn moves
`sidx` on, so as many turns as there are bits are enough. -/
def allocBitsLoop (bitmap : Bitmap) (value : Bool) (size : Nat) :
    Nat → Nat → Option Nat × Bitmap
  | 0, _ => (none, bitmap)
  | fuel + 1, sidx =>
      if sidx < bitmap.bitSize then
        if bitmapGetBit bitmap sidx ≠ value then allocBitsLoop bitmap value size fuel (sidx + 1)
        else
          match runLoop bitmap value (size - 1) sidx with
          | .full => (some sidx, bitmapSetBits bitmap sidx size true)
          | .broken next => allocBitsLoop bitmap value size fuel next
          | .atEnd => (some sidx, bitmap)
      else (none, bitmap)

/-- `BitmapAllocBits`. -/
def bitmapAllocBits (bitmap : Bitmap) (value : Bool) (size : Nat) : Option Nat × Bitmap :=
  allocBitsLoop bitmap value size bitmap.bitSize 0

section Bits

variable {b : Bitmap} {i j n size r : Nat} {v : Bool}

theorem bitmapGetBit_eq (b : Bitmap) (i : Nat) :
    bitmapGetBit b i = (b.bits (i / 8)).getLsbD (i % 8) := by
  unfold bitmapGetBit
  generalize b.bits (i / 8) = x
  generalize i % 8 = k
  rw [show (0x1 : BitVec 8) = 1#8 from rfl, BitVec.and_one_eq_setWidth_ofBool_getLsbD,
    BitVec.getLsbD_ushiftRight, Nat.add_zero]
  cases x.getLsbD k <;> decide

theorem bitmapGetBit_putBit (b : Bitmap) (i j : Nat) (v : Bool) :
    bitmapGetBit (bitmapPutBit b i v) j = if j = i then v else bitmapGetBit b j := by
  rw [bitmapGetBit_eq, bitmapGetBit_eq]
  have hi : i % 8 < 8 := Nat.mod_lt _ (by decide)
  have hj : j % 8 < 8 := Nat.mod_lt _ (by decide)
  by_cases hw : j / 8 = i / 8
  · -- a bit of the same byte
    have hne : j = i ↔ j % 8 = i % 8 := by omega
    simp only [bitmapPutBit, hw, Function.update_self, hne]
    cases v <;> by_cases he : j % 8 = i % 8 <;> simp [he, hi, hj] <;> omega
  · have hne : j ≠ i := fun h => hw (by rw [h])
    rw [if_neg hne]
    simp only [bitmapPutBit, Function.update_of_ne hw]

theorem setBitsLoop_bitSize (v : Bool) (n i : Nat) (b : Bitmap) :
    (setBitsLoop v n i b).bitSize = b.bitSize := by
  induction n generalizing i b with
  | zero => rfl
  | succ n ih =>
      unfold setBitsLoop
      split
      · exact ih (i + 1) (bitmapPutBit b i v)
      · rfl

theorem bitmapGetBit_setBitsLoop (v : Bool) (n i : Nat) (b : Bitmap) :
    bitmapGetBit (setBitsLoop v n i b) j =
      if i ≤ j ∧ j < i + n ∧ j < b.bitSize then v else bitmapGetBit b j := by
  induction n generalizing i b with
  | zero => rw [if_neg (by omega)]; rfl
  | succ n ih =>
      unfold setBitsLoop
      by_cases hi : i < b.bitSize
      · rw [if_pos hi, ih, bitmapGetBit_putBit]
        have hsize : (bitmapPutBit b i v).bitSize = b.bitSize := rfl
        rw [hsize]
        by_cases hj : j = i
        · rw [if_neg (by omega), if_pos hj, if_pos (by omega)]
        · rw [if_neg hj]
          exact if_congr (by omega) rfl rfl
      · rw [if_neg hi, if_neg (by omega)]

@[simp] theorem bitmapSetBits_bitSize (b : Bitmap) (i n : Nat) (v : Bool) :
    (bitmapSetBits b i n v).bitSize = b.bitSize := setBitsLoop_bitSize v n i b

/-- The bits from `i` to `i + n` have the new value, as far as there are any. -/
theorem bitmapGetBit_setBits (b : Bitmap) (i n j : Nat) (v : Bool) :
    bitmapGetBit (bitmapSetBits b i n v) j =
      if i ≤ j ∧ j < i + n ∧ j < b.bitSize then v else bitmapGetBit b j :=
  bitmapGetBit_setBitsLoop v n i b

/-! ## The search -/

/-- What the search takes for a place with `size` bits: `size - 1` bits in a row have the value, or all bits
up to the end of the bitmap. -/
def Candidate (b : Bitmap) (v : Bool) (size r : Nat) : Prop :=
  r < b.bitSize ∧ bitmapGetBit b r = v ∧
    ∀ j, r ≤ j → j < r + (size - 1) → j < b.bitSize → bitmapGetBit b j = v

/-- The first place that the search takes. -/
def FirstCandidate (b : Bitmap) (v : Bool) (size r : Nat) : Prop :=
  Candidate b v size r ∧ ∀ i < r, ¬ Candidate b v size i

theorem FirstCandidate.unique (h : FirstCandidate b v size i) (h' : FirstCandidate b v size j) :
    i = j := by
  have hle : ¬ i < j := fun hlt => h'.2 i hlt h.1
  have hge : ¬ j < i := fun hlt => h.2 j hlt h'.1
  omega

/-- The result of `BitmapAllocBits`. -/
inductive Allocated (b : Bitmap) (v : Bool) (size : Nat) : Option Nat × Bitmap → Prop
  | none (h : ∀ r, ¬ Candidate b v size r) : Allocated b v size (none, b)
  | full {r : Nat} (h : FirstCandidate b v size r) (hr : r + (size - 1) ≤ b.bitSize) :
      Allocated b v size (some r, bitmapSetBits b r size true)
  | atEnd {r : Nat} (h : FirstCandidate b v size r) (hr : b.bitSize < r + (size - 1)) :
      Allocated b v size (some r, b)

theorem runLoop_full (h : runLoop b v n i = .full) :
    ∀ j, i ≤ j → j < i + n → j < b.bitSize ∧ bitmapGetBit b j = v := by
  induction n generalizing i with
  | zero => intro j hij hj; omega
  | succ n ih =>
      intro j hij hj
      unfold runLoop at h
      split at h
      · rename_i hi
        split at h
        · cases h
        · rename_i hv
          by_cases he : j = i
          · rw [he]
            exact ⟨hi, not_not.mp hv⟩
          · exact ih h j (by omega) (by omega)
      · cases h

/-- The run ends at a bit with the other value, which has been read. -/
theorem runLoop_broken {next : Nat} (h : runLoop b v n i = .broken next) :
    i < next ∧ next ≤ i + n ∧ next ≤ b.bitSize ∧ bitmapGetBit b (next - 1) ≠ v := by
  induction n generalizing i with
  | zero => cases h
  | succ n ih =>
      unfold runLoop at h
      split at h
      · rename_i hi
        split at h
        · rename_i hv
          cases h
          exact ⟨by omega, by omega, hi, hv⟩
        · obtain ⟨h1, h2, h3⟩ := ih h
          exact ⟨by omega, by omega, h3⟩
      · cases h

theorem runLoop_atEnd (h : runLoop b v n i = .atEnd) (hi : i ≤ b.bitSize) :
    b.bitSize < i + n ∧ ∀ j, i ≤ j → j < b.bitSize → bitmapGetBit b j = v := by
  induction n generalizing i with
  | zero => cases h
  | succ n ih =>
      unfold runLoop at h
      split at h
      · rename_i hlt
        split at h
        · cases h
        · rename_i hv
          obtain ⟨h1, h2⟩ := ih h hlt
          refine ⟨by omega, fun j hij hj => ?_⟩
          by_cases he : j = i
          · rw [he]
            exact not_not.mp hv
          · exact h2 j (by omega) hj
      · exact ⟨by omega, fun j hij hj => by omega⟩

/-- No place before `sidx` is a candidate, which every turn keeps: behind a bit of the other value a run
starts anew. -/
theorem allocBitsLoop_spec (fuel sidx : Nat) (hfuel : b.bitSize ≤ sidx + fuel)
    (hbefore : ∀ i < sidx, ¬ Candidate b v size i) :
    Allocated b v size (allocBitsLoop b v size fuel sidx) := by
  induction fuel generalizing sidx with
  | zero => exact .none fun r hr => hbefore r (by have := hr.1; omega) hr
  | succ fuel ih =>
      unfold allocBitsLoop
      split
      · rename_i hlt
        split
        · rename_i hv
          refine ih (sidx + 1) (by omega) fun i hi hc => ?_
          by_cases he : i = sidx
          · exact hv (he ▸ hc.2.1)
          · exact hbefore i (by omega) hc
        · rename_i hv
          have hbit : bitmapGetBit b sidx = v := not_not.mp hv
          cases hrun : runLoop b v (size - 1) sidx with
          | full =>
              have hall := runLoop_full hrun
              have hend : sidx + (size - 1) ≤ b.bitSize := by
                by_cases h0 : size - 1 = 0
                · omega
                · have := (hall (sidx + (size - 1) - 1) (by omega) (by omega)).1
                  omega
              exact .full ⟨⟨hlt, hbit, fun j hj hj' _ => (hall j hj hj').2⟩, hbefore⟩ hend
          | broken next =>
              obtain ⟨h1, h2, h3, h4⟩ := runLoop_broken hrun
              refine ih next (by omega) fun i hi hc => ?_
              by_cases he : i < sidx
              · exact hbefore i he hc
              · -- the run from `i` holds the bit that ended the one from `sidx`
                exact h4 (hc.2.2 (next - 1) (by omega) (by omega) (by omega))
          | atEnd =>
              obtain ⟨h1, h2⟩ := runLoop_atEnd hrun hlt.le
              exact .atEnd ⟨⟨hlt, hbit, fun j hj _ hj' => h2 j hj hj'⟩, hbefore⟩ h1
      · exact .none fun r hr => hbefore r (by have := hr.1; omega) hr

theorem bitmapAllocBits_spec (b : Bitmap) (v : Bool) (size : Nat) :
    Allocated b v size (bitmapAllocBits b v size) :=
  allocBitsLoop_spec b.bitSize 0 (by omega) fun _ hi => absurd hi (Nat.not_lt_zero _)

/-- The first place is the one that is returned. -/
theorem bitmapAllocBits_first (h : FirstCandidate b v size i) :
    (bitmapAllocBits b v size).1 = some i := by
  have hspec := bitmapAllocBits_spec b v size
  generalize bitmapAllocBits b v size = res at hspec
  cases hspec with
  | none hno => exact absurd h.1 (hno i)
  | full hfirst => rw [hfirst.unique h]
  | atEnd hfirst => rw [hfirst.unique h]

end Bits

end Os003
