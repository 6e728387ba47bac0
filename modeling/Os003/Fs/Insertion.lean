import Os003.Fs.Refusal
import Os003.Fs.Rename

set_option autoImplicit false

/-! # Room for a new entry

`FAT32_CreateFile` and `FAT32_CreateDir` look for free slots in one cluster of the directory at a
time: a run of deleted slots that is long enough, or what is left from the end mark on, together with
the deleted slots directly before it. `findRoom_some` says what such a place is, `inserted_live` what is
live in the cluster when the slots of the new entry have been written there: what was live before and
the new short entry. That nothing else comes to light behind it depends on `EndsClean`: behind an end
mark there are only end marks.
-/

namespace Os003

open Bytes

/-! ## End marks -/

/-- Behind an end mark there are only end marks. -/
def EndsClean (buf : List UInt8) (n : Nat) : Prop :=
  ∀ i j, i ≤ j → j < n → (slotAt buf i).name0 = 0 → (slotAt buf j).name0 = 0

/-- A change that sets no slot from or to an end mark. -/
theorem EndsClean.congr {buf buf' : List UInt8} {n : Nat} (h : EndsClean buf n)
    (hmarks : ∀ j, j < n → ((slotAt buf' j).name0 = 0 ↔ (slotAt buf j).name0 = 0)) :
    EndsClean buf' n := by
  intro i j hij hj hi
  exact (hmarks j hj).mpr (h i j hij hj ((hmarks i (by omega)).mp hi))

/-- A cluster of zeros behind its first slots. -/
theorem endsClean_of_zero {buf : List UInt8} {n k : Nat} (hfirst : ∀ j, j < k → (slotAt buf j).name0 ≠ 0)
    (hrest : ∀ j, k ≤ j → j < n → (slotAt buf j).name0 = 0) : EndsClean buf n := by
  intro i j hij hj hi
  rcases Nat.lt_or_ge i k with hik | hki
  · exact absurd hi (hfirst i hik)
  · exact hrest j (hki.trans hij) hj

/-! ## The search for a place -/

/-- From `pos` on there are `needed` slots without an entry: each of them is deleted, or there is an
end mark at it or before it, but none before `pos`. -/
structure FreeAt (buf : List UInt8) (needed count pos : Nat) : Prop where
  fits : pos + needed ≤ count
  reached : ∀ j, j < pos → (slotAt buf j).name0 ≠ 0
  free : ∀ j, pos ≤ j → j < pos + needed →
    (slotAt buf j).name0 = 0xE5 ∨ ∃ m, m ≤ j ∧ (slotAt buf m).name0 = 0

/-- There is no entry in such a place. -/
theorem FreeAt.not_live {buf : List UInt8} {needed count pos k : Nat}
    (h : FreeAt buf needed count pos) (hclean : EndsClean buf count) (hk : pos ≤ k)
    (hlt : k < pos + needed) : ¬ SlotLive buf count k := by
  intro hlive
  have hvalid := (isValidSfnEntry_iff _).mp hlive.valid
  rcases h.free k hk hlt with hdel | ⟨m, hm, h0⟩
  · exact hvalid.2.1 hdel
  · exact hvalid.1 (hclean m k hm hlive.lt h0)

/-- The place that the search finds from slot `i` on, when the `freeRun` slots before `i` are deleted and
too few. -/
theorem findRoom_from {buf : List UInt8} {needed count n i freeRun freeStart pos : Nat}
    (hn : i + n = count) (hreached : ∀ j, j < i → (slotAt buf j).name0 ≠ 0)
    (hrun : freeRun < needed) (hstart : freeRun ≠ 0 → freeStart + freeRun = i)
    (hdel : ∀ j, i - freeRun ≤ j → j < i → (slotAt buf j).name0 = 0xE5)
    (h : findRoom buf needed count n i freeRun freeStart = some pos) : FreeAt buf needed count pos := by
  induction n generalizing i freeRun freeStart with
  | zero => cases h
  | succ n ih =>
      -- the first free slot when slot `i` is one
      have hplace : (if freeRun = 0 then i else freeStart) + freeRun = i := by
        split
        · omega
        · exact hstart ‹_›
      rw [findRoom] at h
      by_cases h0 : (slotAt buf i).name0 = 0x00
      · rw [if_pos h0] at h
        split at h
        · cases h
          refine ⟨by omega, fun j hj => hreached j (by omega), fun j hj hlt => ?_⟩
          rcases Nat.lt_or_ge j i with hji | hij
          · exact Or.inl (hdel j (by omega) hji)
          · exact Or.inr ⟨i, hij, h0⟩
        · cases h
      · rw [if_neg h0] at h
        have hnext : ∀ j, j < i + 1 → (slotAt buf j).name0 ≠ 0 := not_end_succ h0 hreached
        by_cases he5 : (slotAt buf i).name0 = 0xE5
        · rw [if_pos he5] at h
          have hdel' : ∀ j, i + 1 - (freeRun + 1) ≤ j → j < i + 1 → (slotAt buf j).name0 = 0xE5 := by
            intro j hj hlt
            by_cases hji : j = i
            · rw [hji]
              exact he5
            · exact hdel j (by omega) (by omega)
          split at h
          · cases h
            refine ⟨by omega, fun j hj => hreached j (by omega), fun j hj hlt => ?_⟩
            exact Or.inl (hdel' j (by omega) (by omega))
          · exact ih (by omega) hnext (by omega) (fun _ => by omega) hdel' h
        · rw [if_neg he5] at h
          exact ih (by omega) hnext (by omega) (fun h => absurd rfl h)
            (fun j hj hlt => by omega) h

theorem findRoom_some {buf : List UInt8} {needed count pos : Nat} (hneeded : 0 < needed)
    (h : findRoom buf needed count count 0 0 0 = some pos) : FreeAt buf needed count pos :=
  findRoom_from (Nat.zero_add count) (fun j hj => absurd hj (Nat.not_lt_zero j)) hneeded
    (fun h => absurd rfl h) (fun j _ hj => absurd hj (Nat.not_lt_zero j)) h

/-! ## The new short entry -/

section NewEntry

variable (sfn : Name83) (attr : UInt8) (rtc : RtcTime) {c : Nat}

theorem mkSfn_name : (mkSfn sfn attr rtc c).name = sfn := by
  apply Subtype.ext
  simp [Slot.name, mkSfn, sfn.2]

/-- Behind the name a new entry has its bytes in their places. -/
theorem mkSfn_getD (j : Nat) : (mkSfn sfn attr rtc c).1.getD (11 + j) 0 =
    ([attr, 0, 0] ++ le16 rtc.fatTime ++ le16 rtc.fatDate ++ le16 rtc.fatDate ++
      le16 ((c >>> 16) &&& 0xFFFF) ++ le16 rtc.fatTime ++ le16 rtc.fatDate ++
      le16 (c &&& 0xFFFF) ++ le32 0).getD j 0 := by
  simp only [mkSfn, List.append_assoc]
  rw [List.getD_append_right _ _ _ _ (by rw [sfn.2]; omega), sfn.2, Nat.add_sub_cancel_left]

theorem mkSfn_attr : (mkSfn sfn attr rtc c).attr = attr := mkSfn_getD sfn attr rtc 0

theorem mkSfn_fileSize : (mkSfn sfn attr rtc c).fileSize = 0 := by
  have h : readLe32 (mkSfn sfn attr rtc c).1 28 = readLe32 (le32 0) 0 := by
    refine readLe32_congr fun j hj => ?_
    rw [show 28 + j = 11 + (17 + j) by omega, mkSfn_getD]
    rcases j with _ | _ | _ | _ | j
    · rfl
    · rfl
    · rfl
    · rfl
    · omega
  exact h.trans (readLe32_le32 0)

theorem mkSfn_cluster (hc : c < 2 ^ 32) : (mkSfn sfn attr rtc c).cluster = c := by
  have hhigh : (mkSfn sfn attr rtc c).clusterHigh = readLe16 (le16 ((c >>> 16) &&& 0xFFFF)) 0 := by
    refine readLe16_congr fun j hj => ?_
    rw [show 20 + j = 11 + (9 + j) by omega, mkSfn_getD]
    rcases j with _ | _ | j
    · rfl
    · rfl
    · omega
  have hlow : (mkSfn sfn attr rtc c).clusterLow = readLe16 (le16 (c &&& 0xFFFF)) 0 := by
    refine readLe16_congr fun j hj => ?_
    rw [show 26 + j = 11 + (15 + j) by omega, mkSfn_getD]
    rcases j with _ | _ | j
    · rfl
    · rfl
    · omega
  rw [Slot.cluster_eq, hhigh, hlow, readLe16_le16, readLe16_le16, Nat.shiftRight_eq_div_pow,
    show 0xFFFF = 2 ^ 16 - 1 from rfl, Nat.and_two_pow_sub_one_eq_mod, Nat.and_two_pow_sub_one_eq_mod]
  omega

end NewEntry
/-- A name whose entry is found again: it is a C string with room for its pieces, and its 8.3 form does
not begin with a mark. -/
structure Nameable (name : List UInt8) : Prop where
  length : name.length ≤ 255
  noNull : 0 ∉ name
  notDeleted : (nameTo83 name).1.getD 0 0 ≠ 0xE5
  notDot : (nameTo83 name).1.getD 0 0 ≠ 0x2E

theorem Nameable.notEnd {name : List UInt8} (h : Nameable name) : (nameTo83 name).1.getD 0 0 ≠ 0 := by
  have hlen := (nameTo83 name).2
  have hmem : (nameTo83 name).1.getD 0 0 ∈ (nameTo83 name).1 := by
    rw [List.getD_eq_getElem _ _ (by omega)]
    exact List.getElem_mem _
  exact nameTo83_ne_zero h.noNull _ hmem

/-- The entry of a new file or directory is valid. -/
theorem mkSfn_valid {name : List UInt8} (h : Nameable name) {attr : UInt8} (rtc : RtcTime) (c : Nat)
    (hattr : attr = attrArchive ∨ attr = attrDirectory) :
    isValidSfnEntry (mkSfn (nameTo83 name) attr rtc c) = true := by
  rw [isValidSfnEntry_iff, Slot.name0_eq, mkSfn_name, mkSfn_attr]
  refine ⟨h.notEnd, h.notDeleted, h.notDot, ?_⟩
  rcases hattr with rfl | rfl
  · decide
  · decide

/-! ## The cluster with the new entry -/

section Cluster

variable {buf : List UInt8} {n pos : Nat} {pieces : List Slot} {e : Slot}
  (hfree : FreeAt buf (pieces.length + 1) n pos) (hlen : 32 * n ≤ buf.length)
include hfree hlen

/-- The slots of the new entry, and the others. -/
theorem slotAt_inserted (k : Nat) :
    (k < pos ∨ pos + pieces.length < k →
      slotAt (setSlots buf pos (pieces ++ [e])) k = slotAt buf k) ∧
    (pos ≤ k → k < pos + pieces.length →
      slotAt (setSlots buf pos (pieces ++ [e])) k ∈ pieces) ∧
    (k = pos + pieces.length → slotAt (setSlots buf pos (pieces ++ [e])) k = e) := by
  have hfits := hfree.fits
  have hroom : 32 * (pos + (pieces ++ [e]).length) ≤ buf.length := by
    simp only [List.length_append, List.length_cons, List.length_nil]
    omega
  refine ⟨?_, ?_, ?_⟩
  · intro hk
    refine slotAt_setSlots_of_not_mem hroom ?_
    simp only [List.length_append, List.length_cons, List.length_nil]
    omega
  · intro h1 h2
    obtain ⟨j, rfl⟩ := Nat.exists_eq_add_of_le h1
    have hj : j < pieces.length := by omega
    rw [slotAt_setSlots hroom (by simp; omega), List.getElem_append_left hj]
    exact List.getElem_mem hj
  · rintro rfl
    rw [slotAt_setSlots hroom (by simp), List.getElem_append_right (le_refl _)]
    simp

variable (hpieces : ∀ p ∈ pieces, IsPiece p) (he : e.name0 ≠ 0)
include hpieces he

/-- The new slots are no end marks. -/
theorem inserted_marks {k : Nat} (hk : pos ≤ k) (hlt : k ≤ pos + pieces.length) :
    (slotAt (setSlots buf pos (pieces ++ [e])) k).name0 ≠ 0 := by
  obtain ⟨-, hpiece, hlast⟩ := slotAt_inserted hfree hlen (e := e) k
  rcases Nat.lt_or_ge k (pos + pieces.length) with h | h
  · exact (hpieces _ (hpiece hk h)).notEnd
  · rw [hlast (by omega)]
    exact he

theorem inserted_endsClean (hclean : EndsClean buf n) :
    EndsClean (setSlots buf pos (pieces ++ [e])) n := by
  intro i j hij hj hi
  have hout : ∀ k, pos + pieces.length < k →
      slotAt (setSlots buf pos (pieces ++ [e])) k = slotAt buf k := fun k hk =>
    (slotAt_inserted hfree hlen k).1 (Or.inr hk)
  rcases Nat.lt_or_ge i pos with hlt | hge
  · rw [(slotAt_inserted hfree hlen i).1 (Or.inl hlt)] at hi
    exact absurd hi (hfree.reached i hlt)
  · rcases Nat.lt_or_ge (pos + pieces.length) i with h | h
    · rw [hout i h] at hi
      rw [hout j (by omega)]
      exact hclean i j hij hj hi
    · exact absurd hi (inserted_marks hfree hlen hpieces he hge h)

/-- What is live apart from the new short entry is what was live before. -/
theorem inserted_live (hclean : EndsClean buf n) {k : Nat} (hk : k ≠ pos + pieces.length) :
    (SlotLive (setSlots buf pos (pieces ++ [e])) n k ↔ SlotLive buf n k) ∧
      (SlotLive buf n k → slotAt (setSlots buf pos (pieces ++ [e])) k = slotAt buf k) := by
  obtain ⟨hout, hpiece, -⟩ := slotAt_inserted hfree hlen (e := e) k
  rcases Nat.lt_or_ge k pos with hlt | hge
  · -- before the new slots nothing changes
    have hsame : ∀ j, j ≤ k → slotAt (setSlots buf pos (pieces ++ [e])) j = slotAt buf j := fun j hj =>
      (slotAt_inserted hfree hlen j).1 (Or.inl (by omega))
    refine ⟨?_, fun _ => hsame k (le_refl k)⟩
    constructor
    · intro h
      exact h.congr (by rw [← hsame k (le_refl k)]; exact h.valid)
        fun j hj h' => by rwa [← hsame j hj.le]
    · intro h
      exact h.congr (by rw [hsame k (le_refl k)]; exact h.valid)
        fun j hj h' => by rwa [hsame j hj.le]
  · rcases Nat.lt_or_ge k (pos + pieces.length) with hin | hafter
    · -- a piece of the new name, where there was no entry
      have hnew : ¬ SlotLive (setSlots buf pos (pieces ++ [e])) n k := fun h =>
        ((isValidSfnEntry_iff _).mp h.valid).2.2.2.1 (hpieces _ (hpiece hge hin)).attr
      have hold := hfree.not_live hclean hge (by omega)
      exact ⟨iff_of_false hnew hold, fun h => absurd h hold⟩
    · have hlt : pos + pieces.length < k := by omega
      have hsame := hout (Or.inr hlt)
      refine ⟨?_, fun _ => hsame⟩
      constructor
      · intro h
        -- behind an end mark there was no entry
        refine h.congr (by rw [← hsame]; exact h.valid) fun j hj _ h0 => ?_
        have hk0 := hclean j k hj.le h.lt h0
        rw [← hsame] at hk0
        exact ((isValidSfnEntry_iff _).mp h.valid).1 hk0
      · intro h
        refine h.congr (by rw [hsame]; exact h.valid) fun j hj h' => ?_
        rcases Nat.lt_or_ge j pos with hj1 | hj1
        · rwa [(slotAt_inserted hfree hlen j).1 (Or.inl hj1)]
        · rcases Nat.lt_or_ge (pos + pieces.length) j with hj2 | hj2
          · rwa [(slotAt_inserted hfree hlen j).1 (Or.inr hj2)]
          · exact inserted_marks hfree hlen hpieces he hj1 hj2

/-- The new short entry is live when it is valid. -/
theorem inserted_new (hvalid : isValidSfnEntry e = true) :
    SlotLive (setSlots buf pos (pieces ++ [e])) n (pos + pieces.length) := by
  have hfits := hfree.fits
  refine ⟨by omega, ?_, ?_⟩
  · rw [(slotAt_inserted hfree hlen _).2.2 rfl]
    exact hvalid
  · intro j hj
    rcases Nat.lt_or_ge j pos with hj1 | hj1
    · rw [(slotAt_inserted hfree hlen j).1 (Or.inl hj1)]
      exact hfree.reached j hj1
    · exact inserted_marks hfree hlen hpieces he hj1 hj.le

end Cluster

end Os003
