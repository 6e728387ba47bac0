import Os003.Fs.Insertion

set_option autoImplicit false

/-! # Clusters that name their entries

The scanners go by two names: the eleven bytes of the short entry, and the long name in front of it. In
a cluster that is well named the long name never says more than the short one does, so a scanner
selects the entry whose short name is the 8.3 form of what is searched for (`WellNamed.matched_iff`).
For this every piece must belong to an entry: a piece left over in front of free slots would be read
together with the pieces of the next entry that is put there.

Renaming, removing and adding an entry keep a cluster well named.
-/

namespace Os003

open Bytes

/-- The long name that the scanners see in front of slot `i`, if any, has the short name of the slot
as its 8.3 form, whichever way its pieces are joined. -/
def Spelled (buf : List UInt8) (i : Nat) : Prop :=
  lfnValid buf (pieces buf [] i) i = true →
    nameTo83 (cstr (foundLongName buf (pieces buf [] i))) = (slotAt buf i).name ∧
      nameTo83 (cstr (orderedLongName buf (pieces buf [] i))) = (slotAt buf i).name

/-- A cluster of `n` slots in which every piece belongs to an entry and no long name is false. -/
structure WellNamed (buf : List UInt8) (n : Nat) : Prop where
  owned : ∀ j, j < n → (∀ m, m < j → (slotAt buf m).name0 ≠ 0) → IsPiece (slotAt buf j) →
    ∃ k, SlotLive buf n k ∧ j ∈ pieces buf [] k
  spelled : ∀ i, SlotLive buf n i → Spelled buf i

/-! ## Pending pieces -/

theorem SlotLive.not_isPiece {buf : List UInt8} {n i : Nat} (h : SlotLive buf n i) :
    ¬ IsPiece (slotAt buf i) := fun hp => ((isValidSfnEntry_iff _).mp h.valid).2.2.2.1 hp.attr

/-- From a slot on, the pending pieces depend on what is pending there and on the slots between. -/
theorem pieces_resume {buf buf' : List UInt8} {i k : Nat} (hik : i ≤ k)
    (h : pieces buf' [] i = pieces buf [] i)
    (hsame : ∀ j, i ≤ j → j < k → slotAt buf' j = slotAt buf j) :
    pieces buf' [] k = pieces buf [] k := by
  induction k, hik using Nat.le_induction with
  | base => exact h
  | succ k hik ih =>
      rw [pieces, pieces, hsame k hik (Nat.lt_succ_self k), ih fun j h1 h2 => hsame j h1 (by omega)]

/-- The pending pieces only depend on which of the slots before are pieces. -/
theorem pieces_like {buf buf' : List UInt8} {i : Nat}
    (h : ∀ j, j < i → slotAt buf' j = slotAt buf j ∨ IsPiece (slotAt buf' j) ∧ IsPiece (slotAt buf j)) :
    pieces buf' [] i = pieces buf [] i := by
  induction i with
  | zero => rfl
  | succ i ih =>
      rw [pieces, pieces, ih fun j hj => h j (by omega)]
      rcases h i (Nat.lt_succ_self i) with heq | ⟨hp', hp⟩
      · rw [heq]
      · rw [if_neg hp'.notDeleted, if_pos hp'.attr, if_neg hp.notDeleted, if_pos hp.attr]

/-- The slots of a list of places, written one after the other. -/
theorem map_slotAt_setPieces {buf : List UInt8} {is : List Nat} {es : List Slot}
    (hlen : is.length = es.length) (h : ∀ i ∈ is, SlotRoom buf i) (hnodup : is.Nodup) :
    is.map (slotAt (setPieces buf is es)) = es := by
  induction is generalizing buf es with
  | nil => exact (List.eq_nil_of_length_eq_zero hlen.symm).symm
  | cons k is ih =>
      cases es with
      | nil => simp at hlen
      | cons e es =>
          obtain ⟨hk, hnodup⟩ := List.nodup_cons.mp hnodup
          have hroom := h k List.mem_cons_self
          have hroom' : ∀ j ∈ is, SlotRoom (setSlot buf k e) j := by
            intro j hj
            rw [SlotRoom, setSlot_length buf k e hroom]
            exact h j (List.mem_cons_of_mem _ hj)
          have hlen' : is.length = es.length := by simpa using hlen
          have hset : setPieces buf (k :: is) (e :: es) = setPieces (setSlot buf k e) is es := rfl
          rw [List.map_cons, hset, ih hlen' hroom' hnodup, (slotAt_setPieces hlen' hroom' k).2.2 hk,
            slotAt_setSlot _ _ _ _ hroom, if_pos rfl]

/-- A piece pending at a slot that is live is not in front of another live slot. -/
theorem pieces_unique {buf : List UInt8} {n i k j : Nat} (hi : SlotLive buf n i)
    (hk : SlotLive buf n k) (hji : j ∈ pieces buf [] i) (hjk : j ∈ pieces buf [] k) : i = k := by
  have hi' := pieces_inRun hi.reached hji
  have hk' := pieces_inRun hk.reached hjk
  rcases Nat.lt_trichotomy i k with h | h | h
  · exact absurd (hk'.2 i hi'.1.le h) hi.not_isPiece
  · exact h
  · exact absurd (hi'.2 k hk'.1.le h) hk.not_isPiece

/-- What the scanners make of an entry depends on its name and on the slots of its pieces. -/
theorem Spelled.congr {buf buf' : List UInt8} {i : Nat} (h : Spelled buf i)
    (hpieces : pieces buf' [] i = pieces buf [] i)
    (hsame : ∀ j ∈ pieces buf [] i, slotAt buf' j = slotAt buf j)
    (hname : (slotAt buf' i).name = (slotAt buf i).name) : Spelled buf' i := by
  have hslots : (pieces buf [] i).map (slotAt buf') = (pieces buf [] i).map (slotAt buf) :=
    List.map_congr_left hsame
  have hvalid : lfnValid buf' (pieces buf [] i) i = lfnValid buf (pieces buf [] i) i := by
    rw [lfnValid, lfnValid, hname]
    cases hlast : (pieces buf [] i).getLast? with
    | none => rfl
    | some j => simp only [hsame j (List.mem_of_getLast? hlast)]
  rw [Spelled, hpieces, hvalid, hname, foundLongName, orderedLongName, List.map_reverse, hslots,
    ← List.map_reverse]
  exact h

/-- An entry without pieces is spelled by its short name alone. -/
theorem spelled_of_nil {buf : List UInt8} {i : Nat} (h : pieces buf [] i = []) : Spelled buf i := by
  intro hvalid
  rw [h] at hvalid
  cases hvalid

/-! ## What a scanner selects -/

section WellNamed

variable {buf : List UInt8} {n : Nat} (h : WellNamed buf n)
include h

theorem WellNamed.runsClosed : RunsClosed buf n := by
  intro j hj hreached hpiece
  obtain ⟨k, hk, hjk⟩ := h.owned j hj hreached hpiece
  obtain ⟨hlt, hrun⟩ := pieces_inRun hk.reached hjk
  have hvalid := (isValidSfnEntry_iff _).mp hk.valid
  exact ⟨k, hlt, hk.lt, fun m h1 h2 => hrun m h1.le h2, hvalid.1, hvalid.2.1, hvalid.2.2.2.1⟩

/-- The run in front of an entry belongs to it. -/
theorem WellNamed.mem_pieces {i j : Nat} (hi : SlotLive buf n i) (hrun : InRunBefore buf i j) :
    j ∈ pieces buf [] i := by
  have hilt := hi.lt
  obtain ⟨hji, hpieces⟩ := hrun
  obtain ⟨k, hk, hjk⟩ := h.owned j (by omega) (fun m hm => hi.reached m (by omega))
    (hpieces j (le_refl j) hji)
  have hrun' := pieces_inRun hk.reached hjk
  rcases Nat.lt_trichotomy k i with hlt | rfl | hgt
  · exact absurd (hpieces k hrun'.1.le hlt) hk.not_isPiece
  · exact hjk
  · exact absurd (hrun'.2 i hji.le hgt) hi.not_isPiece

/-- Only at an entry are pieces pending. -/
theorem WellNamed.pieces_nil {i : Nat} (hi : ∀ m, m < i → (slotAt buf m).name0 ≠ 0) (hin : i ≤ n)
    (hfree : i < n → (slotAt buf i).name0 = 0 ∨ (slotAt buf i).name0 = 0xE5) :
    pieces buf [] i = [] := by
  cases i with
  | zero => rfl
  | succ i =>
      by_contra hne
      have hpiece : IsPiece (slotAt buf i) := by
        by_contra hp
        exact hne (pieces_of_not_isPiece (hi i (Nat.lt_succ_self i)) hp)
      obtain ⟨k, hk, hik⟩ := h.owned i (by omega) (fun m hm => hi m (by omega)) hpiece
      obtain ⟨hlt, hrun⟩ := pieces_inRun hk.reached hik
      -- the entry would be in the free slot or behind it
      have hvalid := (isValidSfnEntry_iff _).mp hk.valid
      have hkn := hk.lt
      rcases Nat.eq_or_lt_of_le hlt with hki | hki
      · rw [← hki] at hvalid
        rcases hfree (by omega) with h0 | h0
        · exact hvalid.1 h0
        · exact hvalid.2.1 h0
      · have hnext := hrun (i + 1) (by omega) hki
        rcases hfree (by omega) with h0 | h0
        · exact hnext.notEnd h0
        · exact hnext.notDeleted h0

/-- Either reading of the long name leaves the match to the short name. -/
theorem WellNamed.matched_iff {i : Nat} (hi : SlotLive buf n i) (name : List UInt8) :
    (matchedBy foundLongName name buf (pieces buf [] i) i = true ↔
      (slotAt buf i).name = nameTo83 name) ∧
    (matchedBy orderedLongName name buf (pieces buf [] i) i = true ↔
      (slotAt buf i).name = nameTo83 name) := by
  have hspelled := h.spelled i hi
  constructor
  · rw [matchedBy]
    simp only [Bool.or_eq_true, Bool.and_eq_true, beq_iff_eq]
    constructor
    · rintro (⟨hvalid, rfl⟩ | hname)
      · exact (hspelled hvalid).1.symm
      · exact hname
    · exact Or.inr
  · rw [matchedBy]
    simp only [Bool.or_eq_true, Bool.and_eq_true, beq_iff_eq]
    constructor
    · rintro (⟨hvalid, rfl⟩ | hname)
      · exact (hspelled hvalid).2.symm
      · exact hname
    · exact Or.inr

end WellNamed

/-! ## Changes to one entry -/

section Edit

variable {buf buf' : List UInt8} {n i : Nat} (h : WellNamed buf n) (hi : SlotLive buf n i)
  (hsame : ∀ k, k ≠ i → k ∉ pieces buf [] i → slotAt buf' k = slotAt buf k)

include hi hsame

/-- In front of another entry nothing changes. -/
theorem pieces_edited (hself : (slotAt buf' i).name0 ≠ 0 ∧ ¬ IsPiece (slotAt buf' i)) {k : Nat}
    (hk : SlotLive buf n k) (hne : k ≠ i) : pieces buf' [] k = pieces buf [] k ∧
      ∀ j ∈ pieces buf [] k, slotAt buf' j = slotAt buf j := by
  have hrun : ∀ j ∈ pieces buf [] i, InRunBefore buf i j := fun j hj => pieces_inRun hi.reached hj
  refine ⟨?_, ?_⟩
  · rcases Nat.lt_or_gt_of_ne hne with hlt | hgt
    · -- the pieces of the changed entry are behind `k`
      refine pieces_congr fun j hj => hsame j (by omega) fun hji => ?_
      exact hk.not_isPiece ((hrun j hji).2 k hj.le hlt)
    · refine pieces_resume (i := i + 1) hgt ?_ fun j h1 h2 => hsame j (by omega) fun hji => ?_
      · rw [pieces_of_not_isPiece hself.1 hself.2,
          pieces_of_not_isPiece ((isValidSfnEntry_iff _).mp hi.valid).1 hi.not_isPiece]
      · have := (hrun j hji).1
        omega
  · intro j hj
    refine hsame j ?_ fun hji => hne (pieces_unique hi hk hji hj).symm
    rintro rfl
    exact hi.not_isPiece ((pieces_inRun hk.reached hj).2 j (le_refl j) (pieces_spec hj).1)

include h

/-- A change of one entry and its pieces: what is left of the pieces must belong to the entry, and the
entry must be spelled. -/
theorem WellNamed.edit (hself : (slotAt buf' i).name0 ≠ 0 ∧ ¬ IsPiece (slotAt buf' i))
    (hpieces : ∀ j ∈ pieces buf [] i, (slotAt buf' j).name0 ≠ 0 ∧
      isValidSfnEntry (slotAt buf' j) = false ∧
      (IsPiece (slotAt buf' j) → SlotLive buf' n i ∧ j ∈ pieces buf' [] i))
    (hspelled : SlotLive buf' n i → Spelled buf' i) : WellNamed buf' n := by
  -- no end mark comes or goes
  have hmarks : ∀ k, k < n → ((slotAt buf' k).name0 = 0 ↔ (slotAt buf k).name0 = 0) := by
    intro k hkn
    by_cases hki : k = i
    · rw [hki]
      exact iff_of_false hself.1 ((isValidSfnEntry_iff _).mp hi.valid).1
    · by_cases hkp : k ∈ pieces buf [] i
      · exact iff_of_false (hpieces k hkp).1 (hi.reached k (pieces_spec hkp).1)
      · rw [hsame k hki hkp]
  have hlive : ∀ k, k ≠ i → (SlotLive buf' n k ↔ SlotLive buf n k) := by
    intro k hki
    have hreached : k < n → ((∀ m, m < k → (slotAt buf' m).name0 ≠ 0) ↔
        ∀ m, m < k → (slotAt buf m).name0 ≠ 0) := fun hkn =>
      forall_congr' fun m => imp_congr_right fun hm => not_congr (hmarks m (by omega))
    have hvalid : isValidSfnEntry (slotAt buf' k) = isValidSfnEntry (slotAt buf k) := by
      by_cases hkp : k ∈ pieces buf [] i
      · rw [(hpieces k hkp).2.1, isValidSfnEntry_lfn (pieces_spec hkp).2.2]
      · rw [hsame k hki hkp]
    exact ⟨fun hk => ⟨hk.lt, hvalid ▸ hk.valid, (hreached hk.lt).mp hk.reached⟩,
      fun hk => ⟨hk.lt, hvalid ▸ hk.valid, (hreached hk.lt).mpr hk.reached⟩⟩
  refine ⟨fun j hj hreached hpiece => ?_, fun k hk => ?_⟩
  · by_cases hjp : j ∈ pieces buf [] i
    · exact ⟨i, (hpieces j hjp).2.2 hpiece⟩
    · have hji : j ≠ i := by
        rintro rfl
        exact hself.2 hpiece
      rw [hsame j hji hjp] at hpiece
      obtain ⟨k, hk, hjk⟩ := h.owned j hj
        (fun m hm h0 => hreached m hm ((hmarks m (by omega)).mpr h0)) hpiece
      have hki : k ≠ i := by
        rintro rfl
        exact hjp hjk
      refine ⟨k, (hlive k hki).mpr hk, ?_⟩
      rw [(pieces_edited hi hsame hself hk hki).1]
      exact hjk
  · by_cases hki : k = i
    · rw [hki] at hk ⊢
      exact hspelled hk
    · have hk' := (hlive k hki).mp hk
      obtain ⟨heq, hslots⟩ := pieces_edited hi hsame hself hk' hki
      have hkp : k ∉ pieces buf [] i := fun hkp => by
        have hvalid := hk'.valid
        rw [isValidSfnEntry_lfn (pieces_spec hkp).2.2] at hvalid
        cases hvalid
      exact (h.spelled k hk').congr heq hslots (by rw [hsame k hki hkp])

end Edit

/-! ## The operations -/

/-- A name whose entry is found again, and whose long name is not false when its pieces are joined the
other way round. -/
structure Spellable (name : List UInt8) : Prop extends Nameable name where
  mirrored : nameTo83 (namePieces name).reverse.flatten = nameTo83 name

/-- Short enough for one piece. -/
theorem Nameable.spellable {name : List UInt8} (h : Nameable name) (hlen : name.length ≤ 13) :
    Spellable name := ⟨h, by rw [namePieces_reverse hlen]⟩

/-- An entry with the pieces of its own name. -/
theorem Spellable.spelled {name : List UInt8} (h : Spellable name) {buf : List UInt8} {i : Nat}
    {checksum : UInt8}
    (hpieces : (pieces buf [] i).map (slotAt buf) = makeLfnEntries name checksum)
    (hname : (slotAt buf i).name = nameTo83 name) : Spelled buf i := by
  intro _
  have htexts : (pieces buf [] i).map (fun j => (slotAt buf j).text) = namePieces name := by
    rw [← text_makeLfnEntries h.noNull checksum, ← hpieces, List.map_map]
    rfl
  have hlen : (namePieces name).reverse.flatten.length = name.length := by
    conv_rhs => rw [← namePieces_flatten name]
    rw [List.length_flatten, List.length_flatten, List.map_reverse, List.sum_reverse]
  have hnull : (0 : UInt8) ∉ (namePieces name).reverse.flatten := by
    intro h0
    apply h.noNull
    rw [← namePieces_flatten name]
    simpa using h0
  have hshort := h.length
  constructor
  · rw [foundLongName_eq, List.flatMap_def, List.map_reverse, htexts, List.take_of_length_le,
      cstr_of_not_mem hnull, h.mirrored, hname]
    rw [hlen, show fat32MaxName = 260 from rfl]
    omega
  · rw [orderedLongName_eq, List.flatMap_def, htexts, namePieces_flatten, List.take_of_length_le,
      cstr_of_not_mem h.noNull, hname]
    rw [show fat32MaxName = 260 from rfl]
    omega

section Entry

variable {M : Mount} (hM : M.Sound) {buf : List UInt8} {i : Nat}
  (hlen : buf.length = M.clusterSize) (hi : SlotLive buf M.slotCount i)
  (h : WellNamed buf M.slotCount)

/-- An entry written back with its name and kind. -/
theorem WellNamed.refiled {buf buf' : List UInt8} {n i : Nat} (h : WellNamed buf n)
    (hi : SlotLive buf n i) (hsame : ∀ k, k ≠ i → slotAt buf' k = slotAt buf k)
    (hvalid : isValidSfnEntry (slotAt buf' i) = true)
    (hname : (slotAt buf' i).name = (slotAt buf i).name) : WellNamed buf' n := by
  have hslots : ∀ j, j < i → slotAt buf' j = slotAt buf j := fun j hj => hsame j (by omega)
  have hpieces : pieces buf' [] i = pieces buf [] i := pieces_congr hslots
  have hlive : SlotLive buf' n i := by
    refine ⟨hi.lt, hvalid, fun j hj => ?_⟩
    rw [hslots j hj]
    exact hi.reached j hj
  refine h.edit hi (fun k hk _ => hsame k hk)
    ⟨((isValidSfnEntry_iff _).mp hvalid).1, hlive.not_isPiece⟩ ?_ ?_
  · intro j hj
    have hspec := pieces_spec hj
    rw [hslots j hspec.1, hpieces]
    exact ⟨hi.reached j hspec.1, isValidSfnEntry_lfn hspec.2.2, fun _ => ⟨hlive, hj⟩⟩
  · intro _
    exact (h.spelled i hi).congr hpieces (fun j hj => hslots j (pieces_spec hj).1) hname

include hM hlen hi h

/-- An entry removed together with its pieces. -/
theorem WellNamed.removed :
    WellNamed (markDeleted buf (pieces buf [] i ++ [i])) M.slotCount := by
  have hroom : ∀ j ∈ pieces buf [] i ++ [i], SlotRoom buf j := by
    intro j hj
    rcases List.mem_append.mp hj with hj | hj
    · exact (hi.piece hM hlen hj).1
    · rw [List.mem_singleton.mp hj]
      exact hi.room hM hlen
  have hgone := fun k => (slotAt_markDeleted hroom k).1
  have hself := hgone i (by simp)
  refine h.edit hi (fun k hki hkp => (slotAt_markDeleted hroom k).2 (by simp [hki, hkp])) ?_ ?_ ?_
  · rw [hself]
    exact ⟨by decide, fun hp => hp.notDeleted hself⟩
  · intro j hj
    have hdel := hgone j (by simp [hj])
    refine ⟨?_, isValidSfnEntry_deleted hdel, fun hp => absurd hdel hp.notDeleted⟩
    rw [hdel]
    decide
  · intro hlive
    have hvalid := hlive.valid
    rw [isValidSfnEntry_deleted hself] at hvalid
    cases hvalid

/-- An entry renamed: its pieces are taken over by the new name, or they go. -/
theorem WellNamed.renamed {name : List UInt8} (hname : Spellable name) :
    WellNamed (renamedCluster buf i (pieces buf [] i) name) M.slotCount := by
  have hlive := renamedCluster_live hM hlen hi hname.length hname.noNull hname.notDeleted hname.notDot
  have hroom := hi.room hM hlen
  have hpieces : ∀ j ∈ pieces buf [] i, SlotRoom buf j := fun j hj => (hi.piece hM hlen hj).1
  have hnot : i ∉ pieces buf [] i := fun hp => (hi.piece hM hlen hp).2.1 rfl
  obtain ⟨-, hself, -⟩ := renamedCluster_spec hM hlen hi name
  have hslots := fun k hk => renamedCluster_slots hM hlen hi hname.length k hk
  -- the slots of the pieces in both cases
  have hcase : (∀ j ∈ pieces buf [] i,
        (slotAt (renamedCluster buf i (pieces buf [] i) name) j).name0 = 0xE5) ∨
      (pieces buf [] i).map (slotAt (renamedCluster buf i (pieces buf [] i) name)) =
        makeLfnEntries name (fat32LfnChecksum (nameTo83 name)) := by
    have hkey : ∀ b : List UInt8, b.length = buf.length → ∀ j ∈ pieces buf [] i,
        slotAt (setSlotName b i (nameTo83 name)) j = slotAt b j := by
      intro b hb j hj
      have hroomb : SlotRoom b i := by rwa [SlotRoom, hb]
      rw [slotAt_setSlotName hroomb, if_neg (ne_of_mem_of_not_mem hj hnot)]
    unfold renamedCluster
    simp only []
    split
    · rename_i hcount
      right
      have hset := slotAt_setPieces hcount.2.2 hpieces
      rw [List.map_congr_left (hkey _ (hset 0).1),
        map_slotAt_setPieces hcount.2.2 hpieces (pieces_nodup buf i)]
    · left
      intro j hj
      rw [hkey _ (markDeleted_length hpieces) j hj]
      exact (slotAt_markDeleted hpieces j).1 hj
  -- and what is pending then
  generalize hbuf : renamedCluster buf i (pieces buf [] i) name = buf' at *
  have hgone : (∀ j ∈ pieces buf [] i, (slotAt buf' j).name0 = 0xE5) → pieces buf' [] i = [] := by
    intro hdel
    cases i with
    | zero => rfl
    | succ m =>
        by_cases hp : IsPiece (slotAt buf m)
        · have hm := h.mem_pieces hi (j := m) ⟨Nat.lt_succ_self m, fun k h1 h2 => by
            rwa [show k = m by omega]⟩
          rw [pieces, if_pos (hdel m hm)]
        · have hm : m ∉ pieces buf [] (m + 1) := fun hm =>
            hp ⟨(pieces_spec hm).2.2, hi.reached m (Nat.lt_succ_self m), (pieces_spec hm).2.1⟩
          have heq := (hslots m (by omega)).1 hm
          refine pieces_of_not_isPiece ?_ (by rwa [heq])
          rw [heq]
          exact hi.reached m (Nat.lt_succ_self m)
  have hkept : (pieces buf [] i).map (slotAt buf') =
      makeLfnEntries name (fat32LfnChecksum (nameTo83 name)) →
        pieces buf' [] i = pieces buf [] i := by
    intro hnew
    refine pieces_like fun j hj => ?_
    by_cases hjp : j ∈ pieces buf [] i
    · have hentry := List.mem_map_of_mem (f := slotAt buf') hjp
      rw [hnew] at hentry
      exact Or.inr ⟨(makeLfnEntries_isPiece hname.length hentry).1, (pieces_spec hjp).2.2,
        hi.reached j hj, (pieces_spec hjp).2.1⟩
    · exact Or.inl ((hslots j (by omega)).1 hjp)
  refine h.edit hi (fun k hki hkp => (hslots k hki).1 hkp)
    ⟨((isValidSfnEntry_iff _).mp hlive.valid).1, hlive.not_isPiece⟩ ?_ ?_
  · intro j hj
    have hji : j ≠ i := ne_of_mem_of_not_mem hj hnot
    refine ⟨(hslots j hji).2 hj, ?_⟩
    rcases hcase with hdel | hnew
    · exact ⟨isValidSfnEntry_deleted (hdel j hj), fun hp => absurd (hdel j hj) hp.notDeleted⟩
    · have hentry := List.mem_map_of_mem (f := slotAt buf') hj
      rw [hnew] at hentry
      have hpiece := (makeLfnEntries_isPiece hname.length hentry).1
      exact ⟨isValidSfnEntry_lfn hpiece.attr, fun _ => ⟨hlive, hkept hnew ▸ hj⟩⟩
  · intro _
    rcases hcase with hdel | hnew
    · exact spelled_of_nil (hgone hdel)
    · have hentries : (pieces buf' [] i).map (slotAt buf') =
          makeLfnEntries name (fat32LfnChecksum (nameTo83 name)) := by
        rw [hkept hnew, hnew]
      exact hname.spelled hentries (by rw [hself, Slot.name_setName])

end Entry

section Inserted

variable {buf : List UInt8} {n pos : Nat} {name : List UInt8} {e : Slot}
  (hfree : FreeAt buf (slotsNeeded name) n pos) (hlen : 32 * n ≤ buf.length)
  (hclean : EndsClean buf n) (he : isValidSfnEntry e = true)

include hfree hlen hclean he

/-- In front of the other entries nothing changes. -/
theorem pieces_inserted {k : Nat} (hk : SlotLive buf n k) :
    pieces (setSlots buf pos (makeLfnEntries name (fat32LfnChecksum (nameTo83 name)) ++ [e])) [] k =
        pieces buf [] k ∧
      ∀ j ∈ pieces buf [] k,
        slotAt (setSlots buf pos (makeLfnEntries name (fat32LfnChecksum (nameTo83 name)) ++ [e])) j =
          slotAt buf j := by
  generalize hes : makeLfnEntries name (fat32LfnChecksum (nameTo83 name)) = es at *
  have hfree' : FreeAt buf (es.length + 1) n pos := by rwa [← hes]
  have hslots := slotAt_inserted hfree' hlen (e := e)
  rcases Nat.lt_or_ge k pos with hlt | hge
  · -- in front of the place
    have hsame : ∀ j, j < k → slotAt (setSlots buf pos (es ++ [e])) j = slotAt buf j := fun j hj =>
      (hslots j).1 (Or.inl (by omega))
    exact ⟨pieces_congr hsame, fun j hj => hsame j (pieces_spec hj).1⟩
  · have hafter : pos + es.length < k := by
      by_contra hle
      exact hfree'.not_live hclean hge (by omega) hk
    have hsame : ∀ j, pos + es.length < j → slotAt (setSlots buf pos (es ++ [e])) j = slotAt buf j :=
      fun j hj => (hslots j).1 (Or.inr hj)
    -- the last slot of the place was a deleted one, since there is an entry behind it
    have hdel : (slotAt buf (pos + es.length)).name0 = 0xE5 := by
      rcases hfree'.free (pos + es.length) (by omega) (by omega) with h | ⟨m, hm, h0⟩
      · exact h
      · exact absurd h0 (hk.reached m (by omega))
    have hlast := (hslots (pos + es.length)).2.2 rfl
    have hvalid := (isValidSfnEntry_iff _).mp he
    refine ⟨pieces_resume (i := pos + es.length + 1) hafter ?_ fun j h1 _ => hsame j h1, ?_⟩
    · rw [pieces_of_not_isPiece (by rw [hlast]; exact hvalid.1)
          (by rw [hlast]; exact fun hp => hvalid.2.2.2.1 hp.attr),
        pieces_of_not_isPiece (by rw [hdel]; decide) fun hp => hp.notDeleted hdel]
    · intro j hj
      refine hsame j ?_
      by_contra hle
      exact ((pieces_inRun hk.reached hj).2 (pos + es.length) (by omega) hafter).notDeleted hdel

/-- A new entry where there is room for it. -/
theorem WellNamed.inserted (h : WellNamed buf n) (hname : Spellable name)
    (hnamed : e.name = nameTo83 name) :
    WellNamed (setSlots buf pos (makeLfnEntries name (fat32LfnChecksum (nameTo83 name)) ++ [e])) n := by
  have hothers := fun k hk => pieces_inserted hfree hlen hclean he (k := k) hk
  generalize hes : makeLfnEntries name (fat32LfnChecksum (nameTo83 name)) = es at *
  have hfree' : FreeAt buf (es.length + 1) n pos := by rwa [← hes]
  have hfits := hfree'.fits
  have hpieces : ∀ p ∈ es, IsPiece p := by
    intro p hp
    rw [← hes] at hp
    exact (makeLfnEntries_isPiece hname.length hp).1
  have h0 := ((isValidSfnEntry_iff _).mp he).1
  have hslots := slotAt_inserted hfree' hlen (e := e)
  have hnew := inserted_new hfree' hlen hpieces h0 he
  have hlive := fun k hk => inserted_live hfree' hlen hpieces h0 hclean (k := k) hk
  generalize hbuf : setSlots buf pos (es ++ [e]) = buf' at *
  -- the pieces of the new entry
  have hnone : pieces buf [] pos = [] := by
    refine h.pieces_nil hfree'.reached (by omega) fun _ => ?_
    rcases hfree'.free pos (le_refl pos) (by omega) with hdel | ⟨m, hm, hend⟩
    · exact Or.inr hdel
    · rcases Nat.eq_or_lt_of_le hm with rfl | hlt
      · exact Or.inl hend
      · exact absurd hend (hfree'.reached m hlt)
  have hown : pieces buf' [] (pos + es.length) = List.range' pos es.length := by
    have hfront : pieces buf' [] pos = [] :=
      (pieces_congr fun j hj => (hslots j).1 (Or.inl hj)).trans hnone
    rw [pieces_run hfront fun j h1 h2 => hpieces _ ((hslots j).2.1 h1 h2), List.take_of_length_le]
    have hcount := hname.length
    rw [List.length_range', ← hes, makeLfnEntries_length, show lfnMaxPieces = 20 from rfl]
    omega
  refine ⟨fun j hj hreached hpiece => ?_, fun k hk => ?_⟩
  · have hold : slotAt buf' j = slotAt buf j → (∀ m, m < j → (slotAt buf m).name0 ≠ 0) →
        ∃ k, SlotLive buf' n k ∧ j ∈ pieces buf' [] k := by
      intro heq hreached'
      rw [heq] at hpiece
      obtain ⟨k, hk, hjk⟩ := h.owned j hj hreached' hpiece
      have hkn : k ≠ pos + es.length := by
        rintro rfl
        exact hfree'.not_live hclean (by omega) (by omega) hk
      refine ⟨k, (hlive k hkn).1.mpr hk, ?_⟩
      rw [(hothers k hk).1]
      exact hjk
    rcases Nat.lt_or_ge j pos with hlt | hge
    · exact hold ((hslots j).1 (Or.inl hlt)) fun m hm => hfree'.reached m (by omega)
    · rcases Nat.lt_trichotomy j (pos + es.length) with hlt | rfl | hgt
      · refine ⟨pos + es.length, hnew, ?_⟩
        rw [hown, List.mem_range'_1]
        exact ⟨hge, hlt⟩
      · exact absurd hpiece hnew.not_isPiece
      · have heq := (hslots j).1 (Or.inr hgt)
        refine hold heq fun m hm hend => ?_
        -- behind an end mark there would be no piece
        apply hpiece.notEnd
        rw [heq]
        exact hclean m j hm.le hj hend
  · by_cases hkn : k = pos + es.length
    · subst hkn
      have hentries : (List.range' pos es.length).map (slotAt buf') = es := by
        have hroom : 32 * (pos + (es ++ [e]).length) ≤ buf.length := by
          rw [List.length_append, List.length_singleton]
          omega
        have hall := map_slotAt_setSlots hroom
        rw [hbuf, List.length_append, List.length_singleton, List.range'_concat, List.map_append] at hall
        exact (List.append_inj hall (by simp)).1
      rw [← hown] at hentries
      exact hname.spelled (hentries.trans hes.symm) (by rw [(hslots _).2.2 rfl]; exact hnamed)
    · obtain ⟨hiff, hsame⟩ := hlive k hkn
      have hk' := hiff.mp hk
      obtain ⟨heq, hsame'⟩ := hothers k hk'
      exact (h.spelled k hk').congr heq hsame' (by rw [hsame hk'])

end Inserted

end Os003
