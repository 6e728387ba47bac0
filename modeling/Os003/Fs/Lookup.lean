import Os003.Fs.Walk
import Os003.Fs.Contents

set_option autoImplicit false

/-! # Looking up a name

What a scanner has collected when it reaches a slot does not depend on the name it looks for:
`pieces` gives it for every slot of a cluster. A scanner then stops at the first live slot
that it matches with the pieces pending there. From this follow the results of the lookup
functions on a directory and of the changes that renaming and deleting make to a cluster.
-/

namespace Os003

open Bytes Linked

/-! ## Slots after a change of the cluster -/

theorem Slot.name_setName (e : Slot) (n : Name83) : (e.setName n).name = n := by
  apply Subtype.ext
  show (splice e.1 0 n.1).take 11 = n.1
  rw [splice_zero, List.take_append_of_le_length (by rw [n.2]), List.take_of_length_le (by rw [n.2])]

theorem Slot.getD_setName (e : Slot) (n : Name83) {j : Nat} (hj : 11 ≤ j) :
    (e.setName n).1.getD j 0 = e.1.getD j 0 := by
  show (e.put 0 n.1 _).1.getD j 0 = _
  rw [Slot.getD_put, n.2, if_neg (by omega)]

theorem Slot.attr_setName (e : Slot) (n : Name83) : (e.setName n).attr = e.attr :=
  e.getD_setName n (by decide)

theorem Slot.cluster_setName (e : Slot) (n : Name83) : (e.setName n).cluster = e.cluster := by
  have hhigh : (e.setName n).clusterHigh = e.clusterHigh :=
    readLe16_congr (fun i _ => e.getD_setName n (by omega))
  have hlow : (e.setName n).clusterLow = e.clusterLow :=
    readLe16_congr (fun i _ => e.getD_setName n (by omega))
  rw [Slot.cluster, Slot.cluster, hhigh, hlow]

theorem Slot.fileSize_setName (e : Slot) (n : Name83) : (e.setName n).fileSize = e.fileSize :=
  readLe32_congr (fun i _ => e.getD_setName n (by omega))

theorem Slot.name0_setName0 (e : Slot) (c : UInt8) : (e.setName0 c).name0 = c := by
  show (e.put 0 [c] _).1.getD 0 0 = c
  rw [Slot.getD_put]
  simp

/-- The room for a slot. -/
def SlotRoom (buf : List UInt8) (i : Nat) : Prop := 32 * i + 32 ≤ buf.length

theorem slotAt_setSlotName {buf : List UInt8} {k : Nat} (h : SlotRoom buf k) (n : Name83)
    (i : Nat) : slotAt (setSlotName buf k n) i =
      if i = k then (slotAt buf k).setName n else slotAt buf i := by
  unfold SlotRoom at h
  apply Slot.ext_bytes
  intro j hj
  rw [getD_slotAt _ _ _ hj, setSlotName, getD_splice _ _ _ (by rw [n.2]; omega), n.2]
  by_cases hik : i = k
  · subst hik
    rw [if_pos rfl]
    show _ = ((slotAt buf i).put 0 n.1 _).1.getD j 0
    rw [Slot.getD_put, n.2, getD_slotAt _ _ _ hj]
    by_cases hj11 : j < 11
    · rw [if_pos (by omega), if_pos (by omega)]
      congr 1
      omega
    · rw [if_neg (by omega), if_neg (by omega)]
  · rw [if_neg (by omega), if_neg hik, getD_slotAt _ _ _ hj]

theorem slotAt_setName0 {buf : List UInt8} {k : Nat} (h : SlotRoom buf k) (c : UInt8) (i : Nat) :
    slotAt (splice buf (32 * k) [c]) i =
      if i = k then (slotAt buf k).setName0 c else slotAt buf i := by
  unfold SlotRoom at h
  apply Slot.ext_bytes
  intro j hj
  rw [getD_slotAt _ _ _ hj, getD_splice _ _ _ (by simp; omega), List.length_singleton]
  by_cases hik : i = k
  · subst hik
    rw [if_pos rfl]
    show _ = ((slotAt buf i).put 0 [c] _).1.getD j 0
    rw [Slot.getD_put, getD_slotAt _ _ _ hj, List.length_singleton]
    by_cases hj0 : j = 0
    · rw [if_pos (by omega), if_pos (by omega)]
      congr 1
      omega
    · rw [if_neg (by omega), if_neg (by omega)]
  · rw [if_neg (by omega), if_neg hik, getD_slotAt _ _ _ hj]

theorem markDeleted_length {buf : List UInt8} {is : List Nat} (h : ∀ i ∈ is, SlotRoom buf i) :
    (markDeleted buf is).length = buf.length := by
  induction is generalizing buf with
  | nil => rfl
  | cons k is ih =>
      have hk := h k List.mem_cons_self
      unfold SlotRoom at hk
      have hlen : (splice buf (32 * k) [0xE5]).length = buf.length :=
        splice_length _ _ _ (by simp; omega)
      show (markDeleted (splice buf (32 * k) [0xE5]) is).length = _
      rw [ih, hlen]
      intro i hi
      have := h i (List.mem_cons_of_mem _ hi)
      unfold SlotRoom at this ⊢
      rw [hlen]
      exact this

/-- Marked slots begin with the deletion mark, the others are as before. -/
theorem slotAt_markDeleted {buf : List UInt8} {is : List Nat} (h : ∀ i ∈ is, SlotRoom buf i)
    (i : Nat) : (i ∈ is → (slotAt (markDeleted buf is) i).name0 = 0xE5) ∧
      (i ∉ is → slotAt (markDeleted buf is) i = slotAt buf i) := by
  induction is generalizing buf with
  | nil => exact ⟨fun hi => (by cases hi), fun _ => rfl⟩
  | cons k is ih =>
      have hk := h k List.mem_cons_self
      have hlen : (splice buf (32 * k) [0xE5]).length = buf.length := by
        unfold SlotRoom at hk
        exact splice_length _ _ _ (by simp; omega)
      have hroom : ∀ j ∈ is, SlotRoom (splice buf (32 * k) [0xE5]) j := by
        intro j hj
        have := h j (List.mem_cons_of_mem _ hj)
        unfold SlotRoom at this ⊢
        rw [hlen]
        exact this
      obtain ⟨ih1, ih2⟩ := ih hroom
      have hfirst := slotAt_setName0 hk 0xE5 i
      constructor
      · intro hi
        by_cases his : i ∈ is
        · exact ih1 his
        · have hik : i = k := by
            rcases List.mem_cons.mp hi with h | h
            · exact h
            · exact absurd h his
          show (slotAt (markDeleted (splice buf (32 * k) [0xE5]) is) i).name0 = 0xE5
          rw [ih2 his, hfirst, if_pos hik, Slot.name0_setName0]
      · intro hi
        have hik : i ≠ k := fun h => hi (by rw [h]; exact List.mem_cons_self)
        have his : i ∉ is := fun h => hi (List.mem_cons_of_mem _ h)
        show slotAt (markDeleted (splice buf (32 * k) [0xE5]) is) i = _
        rw [ih2 his, hfirst, if_neg hik]

/-- Overwritten slots hold one of the new slots, the others are as before. -/
theorem slotAt_setPieces {buf : List UInt8} {is : List Nat} {es : List Slot}
    (hlen : is.length = es.length) (h : ∀ i ∈ is, SlotRoom buf i) (i : Nat) :
    (setPieces buf is es).length = buf.length ∧
      (i ∈ is → slotAt (setPieces buf is es) i ∈ es) ∧
      (i ∉ is → slotAt (setPieces buf is es) i = slotAt buf i) := by
  induction is generalizing buf es with
  | nil => exact ⟨rfl, fun hi => (by cases hi), fun _ => rfl⟩
  | cons k is ih =>
      obtain ⟨e, es, rfl⟩ : ∃ e t, es = e :: t := by
        cases es with
        | nil => cases hlen
        | cons e t => exact ⟨e, t, rfl⟩
      have hk : 32 * k + 32 ≤ buf.length := h k List.mem_cons_self
      have hset := setSlot_length buf k e hk
      have hroom : ∀ j ∈ is, SlotRoom (setSlot buf k e) j := by
        intro j hj
        have := h j (List.mem_cons_of_mem _ hj)
        unfold SlotRoom at this ⊢
        rw [hset]
        exact this
      obtain ⟨ih0, ih1, ih2⟩ := ih (Nat.succ.inj hlen) hroom
      have hfirst := slotAt_setSlot buf k i e hk
      refine ⟨ih0.trans hset, ?_, ?_⟩
      · intro hi
        by_cases his : i ∈ is
        · exact List.mem_cons_of_mem _ (ih1 his)
        · have hik : i = k := by
            rcases List.mem_cons.mp hi with h | h
            · exact h
            · exact absurd h his
          show slotAt (setPieces (setSlot buf k e) is es) i ∈ _
          rw [ih2 his, hfirst, if_pos hik]
          exact List.mem_cons_self
      · intro hi
        have hik : i ≠ k := fun h => hi (by rw [h]; exact List.mem_cons_self)
        have his : i ∉ is := fun h => hi (List.mem_cons_of_mem _ h)
        show slotAt (setPieces (setSlot buf k e) is es) i = _
        rw [ih2 his, hfirst, if_neg hik]

/-! ## Pending pieces -/

/-- The pieces a scanner has pending when it reaches slot `i`, having come into the cluster with
the pieces `lfn`. -/
def pieces (buf : List UInt8) (lfn : List Nat) : Nat → List Nat
  | 0 => lfn
  | i + 1 =>
      if (slotAt buf i).name0 = 0xE5 then []
      else if (slotAt buf i).attr = attrLfn then pushPiece (pieces buf lfn i) i
      else []

/-- Pieces collected in the cluster are long-name slots before the current one. -/
theorem pieces_spec {buf : List UInt8} {i j : Nat} (h : j ∈ pieces buf [] i) :
    j < i ∧ (slotAt buf j).name0 ≠ 0xE5 ∧ (slotAt buf j).attr = attrLfn := by
  induction i with
  | zero => cases h
  | succ i ih =>
      unfold pieces at h
      by_cases he5 : (slotAt buf i).name0 = 0xE5
      · rw [if_pos he5] at h
        cases h
      · rw [if_neg he5] at h
        by_cases hlfn : (slotAt buf i).attr = attrLfn
        · rw [if_pos hlfn] at h
          have hmem : j ∈ pieces buf [] i ∨ j = i := by
            unfold pushPiece at h
            split at h
            · simpa using h
            · exact Or.inl h
          rcases hmem with hj | rfl
          · obtain ⟨h1, h2⟩ := ih hj
            exact ⟨by omega, h2⟩
          · exact ⟨by omega, he5, hlfn⟩
        · rw [if_neg hlfn] at h
          cases h

/-- One turn of the slot loop: it passes over slots that are not live, and stops at a live one
that matches. -/
theorem scanLfn_turn (buf : List UInt8) (matched : List Nat → Nat → Bool) (lfn : List Nat)
    (n i : Nat) : scanLfn buf matched (n + 1) i (pieces buf lfn i) =
      if (slotAt buf i).name0 = 0 then .inl (pieces buf lfn i)
      else if isValidSfnEntry (slotAt buf i) = true ∧ matched (pieces buf lfn i) i = true then
        .inr (i, pieces buf lfn i)
      else scanLfn buf matched n (i + 1) (pieces buf lfn (i + 1)) := by
  have hvalid := isValidSfnEntry_iff (slotAt buf i)
  rw [scanLfn]
  by_cases h0 : (slotAt buf i).name0 = 0
  · rw [if_pos h0, if_pos h0]
  · rw [if_neg h0, if_neg h0]
    by_cases he5 : (slotAt buf i).name0 = 0xE5
    · rw [if_pos he5, if_neg (by tauto), pieces, if_pos he5]
    · rw [if_neg he5]
      by_cases hlfn : (slotAt buf i).attr = attrLfn
      · rw [if_pos hlfn, if_neg (by tauto), pieces, if_neg he5, if_pos hlfn]
      · have hnext : pieces buf lfn (i + 1) = [] := by
          rw [pieces, if_neg he5, if_neg hlfn]
        rw [if_neg hlfn, hnext]
        by_cases hdot : (slotAt buf i).name0 = 0x2E
        · rw [if_pos hdot, if_neg (by tauto)]
        · rw [if_neg hdot]
          by_cases hvol : (slotAt buf i).attr &&& attrVolumeId ≠ 0
          · rw [if_pos hvol, if_neg (by tauto)]
          · rw [if_neg hvol]
            push Not at hvol
            by_cases hm : matched (pieces buf lfn i) i = true
            · rw [if_pos hm, if_pos ⟨hvalid.mpr ⟨h0, he5, hdot, hlfn, hvol⟩, hm⟩]
            · rw [if_neg hm, if_neg (by tauto)]

/-- A hit of a scanner is the first live slot that matches with the pieces pending there. -/
theorem scanLfn_inr {buf : List UInt8} {matched : List Nat → Nat → Bool} {lfn lfn' : List Nat}
    {n i k : Nat} (h : scanLfn buf matched n i (pieces buf lfn i) = .inr (k, lfn'))
    (hi : ∀ j, j < i → (slotAt buf j).name0 ≠ 0) :
    i ≤ k ∧ SlotLive buf (i + n) k ∧ lfn' = pieces buf lfn k ∧ matched lfn' k = true ∧
      ∀ j, i ≤ j → j < k → SlotLive buf (i + n) j → matched (pieces buf lfn j) j = false := by
  induction n generalizing i with
  | zero => cases h
  | succ n ih =>
      rw [scanLfn_turn] at h
      by_cases h0 : (slotAt buf i).name0 = 0
      · rw [if_pos h0] at h
        cases h
      · rw [if_neg h0] at h
        by_cases hm : isValidSfnEntry (slotAt buf i) = true ∧ matched (pieces buf lfn i) i = true
        · rw [if_pos hm] at h
          cases h
          exact ⟨Nat.le_refl _, ⟨by omega, hm.1, hi⟩, rfl, hm.2, fun j h1 h2 => by omega⟩
        · rw [if_neg hm] at h
          have hi' : ∀ j, j < i + 1 → (slotAt buf j).name0 ≠ 0 := by
            intro j hj
            rcases Nat.lt_succ_iff_lt_or_eq.mp hj with hlt | rfl
            · exact hi j hlt
            · exact h0
          obtain ⟨h1, h2, h3, h4, h5⟩ := ih h hi'
          have hn : i + 1 + n = i + (n + 1) := by omega
          rw [hn] at h2 h5
          refine ⟨by omega, h2, h3, h4, ?_⟩
          intro j hij hjk hlive
          rcases Nat.eq_or_lt_of_le hij with rfl | hlt
          · by_contra hmatch
            exact hm ⟨hlive.valid, by simpa using hmatch⟩
          · exact h5 j hlt hjk hlive

/-- A scanner without a hit matches no live slot. -/
theorem scanLfn_inl {buf : List UInt8} {matched : List Nat → Nat → Bool} {lfn lfn' : List Nat}
    {n i : Nat} (h : scanLfn buf matched n i (pieces buf lfn i) = .inl lfn') {k : Nat}
    (hk : SlotLive buf (i + n) k) (hik : i ≤ k) : matched (pieces buf lfn k) k = false := by
  induction n generalizing i with
  | zero =>
      have := hk.lt
      omega
  | succ n ih =>
      rw [scanLfn_turn] at h
      by_cases h0 : (slotAt buf i).name0 = 0
      · -- the end mark hides the slots behind it
        rcases Nat.eq_or_lt_of_le hik with rfl | hlt
        · exact absurd h0 ((isValidSfnEntry_iff _).mp hk.valid).1
        · exact absurd h0 (hk.reached i hlt)
      · rw [if_neg h0] at h
        by_cases hm : isValidSfnEntry (slotAt buf i) = true ∧ matched (pieces buf lfn i) i = true
        · rw [if_pos hm] at h
          cases h
        · rw [if_neg hm] at h
          rcases Nat.eq_or_lt_of_le hik with rfl | hlt
          · by_contra hmatch
            exact hm ⟨hk.valid, by simpa using hmatch⟩
          · refine ih h ?_ hlt
            rw [show i + 1 + n = i + (n + 1) by omega]
            exact hk

/-! ## The lookup functions -/

section Sound

variable {M : Mount} (hM : M.Sound) {s s' : FsState} {V : Volume} {A : List Nat}
include hM

/-- `FAT32_FindEntry` returns a live entry with the name it was given. -/
theorem findEntry_spec {fuel d st : Nat} {l : List Nat} {n : Name83} {o : Option Slot}
    (hat : M.At s V A) (hd : M.DirOn V d l)
    (hrun : fat32FindEntry M fuel d n s = some ((st, o), s')) :
    s.Reads s' ∧ ((st = 0 ∧ ∃ c ∈ l, ∃ i, M.LiveAt V c i ∧ (V.slot c i).name = n ∧
      o = some (V.slot c i)) ∨ (st ≠ 0 ∧ o = none)) := by
  obtain ⟨s1, hr1, hw⟩ := walkDir_chain hM hat (2, (none : Option Slot)) (3, none)
    (fun buf (_ : Unit) => scanSfn buf n M.slotCount 0)
    (fun _ buf i => pure (0, some (slotAt buf i))) (fun _ _ _ => pure (1, none)) hd.1 hd.2 ()
  have hrun' := hw fuel
  cases hwalk : V.walk (fun buf (_ : Unit) => scanSfn buf n M.slotCount 0) l () with
  | inr u =>
      rw [hwalk, Volume.finish, Prog.pure_run] at hrun'
      rcases hrun' with h | ⟨h, -⟩
      · cases h.symm.trans hrun
        exact ⟨hr1, Or.inr ⟨by decide, rfl⟩⟩
      · cases h.symm.trans hrun
  | inl hit =>
      obtain ⟨c, i⟩ := hit
      obtain ⟨hc, a, hs⟩ := Volume.walk_inl hwalk
      obtain ⟨hlive, hname⟩ := scanSfn_inr hs (fun j hj => absurd hj (Nat.not_lt_zero j))
      rw [Nat.zero_add] at hlive
      rw [hwalk, Volume.finish, Prog.pure_run] at hrun'
      rcases hrun' with h | ⟨h, -⟩
      · cases h.symm.trans hrun
        exact ⟨hr1, Or.inl ⟨rfl, c, hc, i, hlive, hname, rfl⟩⟩
      · cases h.symm.trans hrun

/-- `FAT32_FindEntryAny` returns a live entry; if it returns none, no live entry has the 8.3 form
of the name. -/
theorem findEntryAny_spec {fuel d st : Nat} {l : List Nat} {name : List UInt8} {o : Option Slot}
    (hat : M.At s V A) (hd : M.DirOn V d l)
    (hrun : fat32FindEntryAny M fuel d name s = some ((st, o), s')) :
    s.Reads s' ∧ ((st = 0 ∧ ∃ c ∈ l, ∃ i, M.LiveAt V c i ∧ o = some (V.slot c i)) ∨
      (st ≠ 0 ∧ o = none ∧ ∀ c ∈ l, ∀ i, M.LiveAt V c i →
        (V.slot c i).name ≠ nameTo83 name)) := by
  obtain ⟨s1, hr1, hw⟩ := walkDir_chain hM hat (2, (none : Option Slot)) (3, none)
    (fun buf lfn => scanLfn buf (matchedBy foundLongName name buf) M.slotCount 0 lfn)
    (fun _ buf hit => pure (0, some (slotAt buf hit.1))) (fun _ _ _ => pure (1, none)) hd.1 hd.2 []
  have hrun' := hw fuel
  cases hwalk : V.walk
      (fun buf lfn => scanLfn buf (matchedBy foundLongName name buf) M.slotCount 0 lfn) l [] with
  | inr lfn =>
      rw [hwalk, Volume.finish, Prog.pure_run] at hrun'
      rcases hrun' with h | ⟨h, -⟩
      · cases h.symm.trans hrun
        refine ⟨hr1, Or.inr ⟨by decide, rfl, ?_⟩⟩
        intro c hc i hlive hname
        obtain ⟨a, a', hs⟩ := Volume.walk_inr hwalk c hc
        have hmiss := scanLfn_inl hs (by rw [Nat.zero_add]; exact hlive) (Nat.zero_le i)
        rw [matchedBy, Bool.or_eq_false_iff] at hmiss
        have hname' : (slotAt (V.data c) i).name = nameTo83 name := hname
        rw [hname'] at hmiss
        simp at hmiss
      · cases h.symm.trans hrun
  | inl hit =>
      obtain ⟨c, i, lfn⟩ := hit
      obtain ⟨hc, a, hs⟩ := Volume.walk_inl hwalk
      obtain ⟨-, hlive, -⟩ := scanLfn_inr hs (fun j hj => absurd hj (Nat.not_lt_zero j))
      rw [Nat.zero_add] at hlive
      rw [hwalk, Volume.finish, Prog.pure_run] at hrun'
      rcases hrun' with h | ⟨h, -⟩
      · cases h.symm.trans hrun
        exact ⟨hr1, Or.inl ⟨rfl, c, hc, i, hlive, rfl⟩⟩
      · cases h.symm.trans hrun

/-- The search of `FAT32_RenameFile`, `FAT32_RemoveDir` and `FAT32_DeleteFile`: a hit is a live
entry with its pieces, in a cluster of the directory. -/
theorem scanOrdered_walk {β : Type} (hat : M.At s V A) {d : Nat} {l : List Nat}
    (hd : M.DirOn V d l) (name : List UInt8) (readErr nextErr : β)
    (onHit : Nat → List UInt8 → Nat × List Nat → Prog FsState β)
    (onEnd : Nat → List UInt8 → List Nat → Prog FsState β) {fuel : Nat} {b : β}
    (hrun : walkDir M readErr nextErr (scanOrdered M name) onHit onEnd fuel d [] s =
      some (b, s')) :
    ∃ s1, s.Reads s1 ∧ ((∃ c ∈ l, ∃ i, M.LiveAt V c i ∧
        matchedBy orderedLongName name (V.data c) (pieces (V.data c) [] i) i = true ∧
        onHit c (V.data c) (i, pieces (V.data c) [] i) s1 = some (b, s')) ∨
      ((∀ c ∈ l, ∀ i, M.LiveAt V c i →
        matchedBy orderedLongName name (V.data c) (pieces (V.data c) [] i) i = false) ∧
        ∃ x buf lfn, onEnd x buf lfn s1 = some (b, s'))) := by
  obtain ⟨s1, hr1, hw⟩ := walkDir_chain hM hat readErr nextErr (scanOrdered M name) onHit onEnd
    hd.1 hd.2 []
  refine ⟨s1, hr1, ?_⟩
  have hrun' : V.finish onHit onEnd (l.getLastD 0) (V.walk (scanOrdered M name) l []) s1 =
      some (b, s') := by
    rcases hw fuel with h | ⟨h, -⟩
    · exact h.symm.trans hrun
    · cases h.symm.trans hrun
  cases hwalk : V.walk (scanOrdered M name) l [] with
  | inr lfn =>
      rw [hwalk, Volume.finish] at hrun'
      refine Or.inr ⟨?_, _, _, _, hrun'⟩
      intro c hc i hlive
      obtain ⟨a, a', hs⟩ := Volume.walk_inr hwalk c hc
      exact scanLfn_inl hs (by rw [Nat.zero_add]; exact hlive) (Nat.zero_le i)
  | inl hit =>
      obtain ⟨c, i, lfn⟩ := hit
      obtain ⟨hc, a, hs⟩ := Volume.walk_inl hwalk
      obtain ⟨-, hlive, rfl, hmatch, -⟩ :=
        scanLfn_inr hs (fun j hj => absurd hj (Nat.not_lt_zero j))
      rw [Nat.zero_add] at hlive
      rw [hwalk, Volume.finish] at hrun'
      exact Or.inl ⟨c, hc, i, hlive, hmatch, hrun'⟩

end Sound

/-! ## What renaming and deleting make of a cluster -/

/-- If, apart from slot `i`, a change of a cluster only takes slots out of the search, then what is
live afterwards was live before. -/
theorem SlotLive.before {buf buf' : List UInt8} {n i j : Nat} (hi : SlotLive buf n i)
    (hsame : ∀ k, k ≠ i → slotAt buf' k = slotAt buf k ∨
      (isValidSfnEntry (slotAt buf' k) = false ∧ (slotAt buf k).name0 ≠ 0))
    (hj : SlotLive buf' n j) :
    SlotLive buf n j ∧ (j ≠ i → slotAt buf' j = slotAt buf j) := by
  by_cases hji : j = i
  · subst hji
    exact ⟨hi, fun h => absurd rfl h⟩
  · have heq : slotAt buf' j = slotAt buf j := by
      rcases hsame j hji with h | ⟨h, -⟩
      · exact h
      · rw [hj.valid] at h
        cases h
    refine ⟨⟨hj.lt, ?_, ?_⟩, fun _ => heq⟩
    · rw [← heq]
      exact hj.valid
    · intro k hk
      by_cases hki : k = i
      · subst hki
        exact ((isValidSfnEntry_iff _).mp hi.valid).1
      · rcases hsame k hki with h | ⟨-, h⟩
        · rw [← h]
          exact hj.reached k hk
        · exact h

theorem isValidSfnEntry_lfn {e : Slot} (h : e.attr = attrLfn) : isValidSfnEntry e = false := by
  rw [← Bool.not_eq_true, isValidSfnEntry_iff]
  tauto

theorem isValidSfnEntry_deleted {e : Slot} (h : e.name0 = 0xE5) : isValidSfnEntry e = false := by
  rw [← Bool.not_eq_true, isValidSfnEntry_iff]
  tauto

theorem attr_mkLfn (order : Nat) (checksum : UInt8) (units : List Nat) (h : units.length = 13) :
    (mkLfn order checksum units h).attr = attrLfn := by
  obtain ⟨a, b, c, d, e, r, rfl⟩ : ∃ a b c d e r, units = a :: b :: c :: d :: e :: r := by
    match units, h with
    | a :: b :: c :: d :: e :: r, _ => exact ⟨a, b, c, d, e, r, rfl⟩
  rfl

theorem attr_makeLfnEntries {name : List UInt8} {checksum : UInt8} {e : Slot}
    (h : e ∈ makeLfnEntries name checksum) : e.attr = attrLfn := by
  simp only [makeLfnEntries, List.mem_map] at h
  obtain ⟨i, -, rfl⟩ := h
  exact attr_mkLfn _ _ _ _

section Cluster

variable {M : Mount} (hM : M.Sound) {buf : List UInt8} {i : Nat}
  (hlen : buf.length = M.clusterSize) (hi : SlotLive buf M.slotCount i)

include hM hlen hi

theorem SlotLive.room : SlotRoom buf i := by
  have := hM.slot_room hi.lt
  unfold SlotRoom
  omega

/-- The pieces before a live slot: they fit the cluster, are not the slot itself, and the search
has passed them. -/
theorem SlotLive.piece {j : Nat} (hj : j ∈ pieces buf [] i) :
    SlotRoom buf j ∧ j ≠ i ∧ (slotAt buf j).name0 ≠ 0 := by
  have hlt := (pieces_spec hj).1
  have hroom := hM.slot_room (i := j) (by have := hi.lt; omega)
  refine ⟨?_, by omega, hi.reached j hlt⟩
  unfold SlotRoom
  omega

/-- Renaming changes the name of the slot, and else only takes long-name pieces. -/
theorem renamedCluster_spec (name : List UInt8) :
    (renamedCluster buf i (pieces buf [] i) name).length = M.clusterSize ∧
      slotAt (renamedCluster buf i (pieces buf [] i) name) i =
        (slotAt buf i).setName (nameTo83 name) ∧
      ∀ k, k ≠ i → slotAt (renamedCluster buf i (pieces buf [] i) name) k = slotAt buf k ∨
        (isValidSfnEntry (slotAt (renamedCluster buf i (pieces buf [] i) name) k) = false ∧
          (slotAt buf k).name0 ≠ 0) := by
  have hroom := hi.room hM hlen
  have hpieces : ∀ j ∈ pieces buf [] i, SlotRoom buf j := fun j hj => (hi.piece hM hlen hj).1
  have hnot : i ∉ pieces buf [] i := fun h => (hi.piece hM hlen h).2.1 rfl
  -- both branches name the slot in a cluster whose pieces have been changed
  have key : ∀ b : List UInt8, b.length = buf.length →
      (∀ k, (k ∉ pieces buf [] i → slotAt b k = slotAt buf k) ∧
        (k ∈ pieces buf [] i → isValidSfnEntry (slotAt b k) = false)) →
      (setSlotName b i (nameTo83 name)).length = M.clusterSize ∧
        slotAt (setSlotName b i (nameTo83 name)) i = (slotAt buf i).setName (nameTo83 name) ∧
        ∀ k, k ≠ i → slotAt (setSlotName b i (nameTo83 name)) k = slotAt buf k ∨
          (isValidSfnEntry (slotAt (setSlotName b i (nameTo83 name)) k) = false ∧
            (slotAt buf k).name0 ≠ 0) := by
    intro b hb hslots
    have hroomb : SlotRoom b i := by
      unfold SlotRoom at hroom ⊢
      omega
    refine ⟨?_, ?_, ?_⟩
    · unfold SlotRoom at hroomb
      rw [setSlotName, splice_length _ _ _ (by rw [(nameTo83 name).2]; omega), hb, hlen]
    · rw [slotAt_setSlotName hroomb, if_pos rfl, (hslots i).1 hnot]
    · intro k hk
      rw [slotAt_setSlotName hroomb, if_neg hk]
      by_cases hkp : k ∈ pieces buf [] i
      · exact Or.inr ⟨(hslots k).2 hkp, (hi.piece hM hlen hkp).2.2⟩
      · exact Or.inl ((hslots k).1 hkp)
  unfold renamedCluster
  simp only []
  split
  · rename_i hsame
    have hset := fun k => slotAt_setPieces hsame.2.2 hpieces k
    refine key _ (hset i).1 (fun k => ⟨(hset k).2.2, fun hk => ?_⟩)
    exact isValidSfnEntry_lfn (attr_makeLfnEntries ((hset k).2.1 hk))
  · have hmark := fun k => slotAt_markDeleted hpieces k
    refine key _ (markDeleted_length hpieces) (fun k => ⟨(hmark k).2, fun hk => ?_⟩)
    exact isValidSfnEntry_deleted ((hmark k).1 hk)

/-- Removing takes the slot and its pieces. -/
theorem removed_spec :
    (markDeleted buf (pieces buf [] i ++ [i])).length = M.clusterSize ∧
      (slotAt (markDeleted buf (pieces buf [] i ++ [i])) i).name0 = 0xE5 ∧
      ∀ k, slotAt (markDeleted buf (pieces buf [] i ++ [i])) k = slotAt buf k ∨
        (isValidSfnEntry (slotAt (markDeleted buf (pieces buf [] i ++ [i])) k) = false ∧
          (slotAt buf k).name0 ≠ 0) := by
  have hroom : ∀ j ∈ pieces buf [] i ++ [i], SlotRoom buf j := by
    intro j hj
    rcases List.mem_append.mp hj with h | h
    · exact (hi.piece hM hlen h).1
    · rw [List.mem_singleton.mp h]
      exact hi.room hM hlen
  have hmark := fun k => slotAt_markDeleted hroom k
  refine ⟨(markDeleted_length hroom).trans hlen, (hmark i).1 (by simp), ?_⟩
  intro k
  by_cases hk : k ∈ pieces buf [] i ++ [i]
  · refine Or.inr ⟨isValidSfnEntry_deleted ((hmark k).1 hk), ?_⟩
    rcases List.mem_append.mp hk with h | h
    · exact (hi.piece hM hlen h).2.2
    · rw [List.mem_singleton.mp h]
      exact ((isValidSfnEntry_iff _).mp hi.valid).1
  · exact Or.inl ((hmark k).2 hk)

end Cluster

end Os003
