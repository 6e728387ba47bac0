import Os003.Fs.Emptiness

set_option autoImplicit false

/-! # Cluster boundaries

A directory is one sequence of slots, cut into clusters. `FAT32_DeleteFile`, `FAT32_RemoveDir` and
`FAT32_RenameFile` forget at every boundary what they have collected, and an end mark hides the
slots up to the next boundary. So what they select depends on the cut exactly in these two places:
`CutAlike` says when two cuts of one sequence are the same to them.
-/

namespace Os003

open Bytes Linked

/-! ## Sequences of slots -/

/-- The slots of a directory, one cluster after the other. -/
def Mount.slots (M : Mount) (V : Volume) (l : List Nat) : List Slot :=
  l.flatMap fun c => (List.range M.slotCount).map (V.slot c)

/-- Slot `p` of a sequence. -/
def slotIn (ss : List Slot) (p : Nat) : Slot := ss.getD p (slotAt [] 0)

theorem Mount.slots_length (M : Mount) (V : Volume) (l : List Nat) :
    (M.slots V l).length = l.length * M.slotCount := by
  unfold Mount.slots
  induction l with
  | nil => simp
  | cons c l ih =>
      rw [List.flatMap_cons, List.length_append, ih, List.length_map, List.length_range,
        List.length_cons]
      ring

/-- Slot `i` of the cluster at position `k`. -/
theorem Mount.slotIn_slots (M : Mount) (V : Volume) {l : List Nat} {k c i : Nat}
    (hk : l[k]? = some c) (hi : i < M.slotCount) :
    slotIn (M.slots V l) (k * M.slotCount + i) = V.slot c i := by
  induction l generalizing k with
  | nil => cases hk
  | cons a l ih =>
      have hlen : ((List.range M.slotCount).map (V.slot a)).length = M.slotCount := by simp
      have hcons : M.slots V (a :: l) =
          (List.range M.slotCount).map (V.slot a) ++ M.slots V l := rfl
      unfold slotIn
      rw [hcons]
      cases k with
      | zero =>
          cases hk
          rw [Nat.zero_mul, Nat.zero_add, List.getD_append _ _ _ _ (by omega),
            List.getD_eq_getElem _ _ (by omega), List.getElem_map, List.getElem_range]
      | succ k =>
          have hk' : l[k]? = some c := hk
          rw [List.getD_append_right _ _ _ _ (by rw [hlen]; nlinarith), hlen,
            show (k + 1) * M.slotCount + i - M.slotCount = k * M.slotCount + i by
              rw [Nat.succ_mul]; omega]
          exact ih hk'

/-- The first slot of the cluster that slot `p` is in, when clusters have `n` slots. -/
def clusterStart (n p : Nat) : Nat := p / n * n

theorem clusterStart_le (n p : Nat) : clusterStart n p ≤ p := Nat.div_mul_le_self p n

theorem clusterStart_add {n i : Nat} (k : Nat) (hi : i < n) : clusterStart n (k * n + i) = k * n := by
  unfold clusterStart
  rw [Nat.mul_comm k n, Nat.mul_add_div (by omega), Nat.div_eq_of_lt hi, Nat.add_zero,
    Nat.mul_comm]

/-- Slot `p` holds a short entry with no end mark before it in its cluster. -/
structure Seen (ss : List Slot) (n p : Nat) : Prop where
  valid : isValidSfnEntry (slotIn ss p) = true
  reached : ∀ q, clusterStart n p ≤ q → q < p → (slotIn ss q).name0 ≠ 0

instance (ss : List Slot) (n p : Nat) : Decidable (Seen ss n p) :=
  decidable_of_iff (isValidSfnEntry (slotIn ss p) = true ∧
      ∀ q, clusterStart n p ≤ q → q < p → (slotIn ss q).name0 ≠ 0)
    ⟨fun h => ⟨h.1, h.2⟩, fun h => ⟨h.valid, h.reached⟩⟩

/-- The pieces pending behind the `m` slots from `b` on. -/
def pendingFrom (ss : List Slot) (b : Nat) : Nat → List Nat
  | 0 => []
  | m + 1 =>
      if (slotIn ss (b + m)).name0 = 0xE5 then []
      else if (slotIn ss (b + m)).attr = attrLfn then pushPiece (pendingFrom ss b m) (b + m)
      else []

/-- The pieces pending in front of slot `p`. -/
def pendingAt (ss : List Slot) (n p : Nat) : List Nat :=
  pendingFrom ss (clusterStart n p) (p - clusterStart n p)

/-- The entry `p`, with pieces in front of it, has the name searched for. -/
def matchedIn (name : List UInt8) (ss : List Slot) (p : Nat × List Nat) : Bool :=
  ((match p.2.getLast? with
      | none => false
      | some j => (slotIn ss j).checksum = fat32LfnChecksum (slotIn ss p.1).name : Bool) &&
    cstr (rebuildLfnName (p.2.reverse.map (slotIn ss)) fat32MaxName) == name) ||
  (slotIn ss p.1).name == nameTo83 name

/-- The short entries that a scanner sees in a sequence, each with the pieces pending there. -/
def entriesIn (ss : List Slot) (n b m : Nat) : List (Nat × List Nat) :=
  ((List.range' b m).filter (fun p => Seen ss n p)).map fun p => (p, pendingAt ss n p)

/-- The entry of the sequence selected for a name. -/
def selectIn (name : List UInt8) (ss : List Slot) (n : Nat) : Option (Nat × List Nat) :=
  (entriesIn ss n 0 ss.length).find? (matchedIn name ss)

/-! ## One cluster of a sequence -/

section Cluster

variable {ss : List Slot} {buf : List UInt8} {n b : Nat}
  (hslot : ∀ i, i < n → slotIn ss (b + i) = slotAt buf i)
include hslot

theorem pendingFrom_eq {m : Nat} (hm : m ≤ n) :
    pendingFrom ss b m = (pieces buf [] m).map (b + ·) := by
  induction m with
  | zero => rfl
  | succ m ih =>
      unfold pendingFrom pieces
      rw [hslot m (by omega), ih (by omega)]
      by_cases hdel : (slotAt buf m).name0 = 0xE5
      · rw [if_pos hdel, if_pos hdel, List.map_nil]
      · rw [if_neg hdel, if_neg hdel]
        by_cases hlfn : (slotAt buf m).attr = attrLfn
        · rw [if_pos hlfn, if_pos hlfn]
          unfold pushPiece
          rw [List.length_map]
          by_cases hroom : (pieces buf [] m).length < lfnMaxPieces
          · rw [if_pos hroom, if_pos hroom, List.map_append, List.map_singleton]
          · rw [if_neg hroom, if_neg hroom]
        · rw [if_neg hlfn, if_neg hlfn, List.map_nil]

theorem matchedIn_eq (name : List UInt8) {i : Nat} {lfn : List Nat} (hi : i < n)
    (hlfn : ∀ j ∈ lfn, j < n) : matchedIn name ss (b + i, lfn.map (b + ·)) =
      matchedBy orderedLongName name buf lfn i := by
  have hmap : (lfn.map (b + ·)).reverse.map (slotIn ss) = lfn.reverse.map (slotAt buf) := by
    rw [← List.map_reverse, List.map_map]
    apply List.map_congr_left
    intro j hj
    exact hslot j (hlfn j (List.mem_reverse.mp hj))
  unfold matchedIn matchedBy orderedLongName lfnValid
  simp only [hmap, hslot i hi, List.getLast?_map]
  cases hlast : lfn.getLast? with
  | none => rfl
  | some j =>
      have hj : j < n := hlfn j (List.mem_of_getLast? hlast)
      simp only [Option.map_some, hslot j hj]

/-- The entries a scanner sees in a cluster are its live entries. -/
theorem entriesIn_cluster {k : Nat} (hb : b = k * n) : entriesIn ss n b n =
    (candidates buf n []).map (fun p => (b + p.1, p.2.map (b + ·))) := by
  subst hb
  have hseen : ∀ i, i < n → (Seen ss n (k * n + i) ↔ SlotLive buf n i) := by
    intro i hi
    constructor
    · intro h
      refine ⟨hi, ?_, ?_⟩
      · rw [← hslot i hi]
        exact h.valid
      · intro j hj
        rw [← hslot j (by omega)]
        exact h.reached (k * n + j) (by rw [clusterStart_add k hi]; omega) (by omega)
    · intro h
      constructor
      · rw [hslot i hi]
        exact h.valid
      · intro q hq hlt
        rw [clusterStart_add k hi] at hq
        obtain ⟨j, rfl⟩ : ∃ j, q = k * n + j := ⟨q - k * n, by omega⟩
        rw [hslot j (by omega)]
        exact h.reached j (by omega)
  unfold entriesIn candidates
  rw [List.range'_eq_map_range, List.filter_map, List.map_map, List.map_map]
  have hfilter : (List.range n).filter ((fun p => decide (Seen ss n p)) ∘ fun x => k * n + x) =
      (List.range n).filter (fun i => decide (SlotLive buf n i)) := by
    apply List.filter_congr
    intro i hi
    exact decide_eq_decide.mpr (hseen i (List.mem_range.mp hi))
  rw [hfilter]
  apply List.map_congr_left
  intro i hi
  have hin : i < n := List.mem_range.mp (List.mem_filter.mp hi).1
  simp only [Function.comp_apply, pendingAt, clusterStart_add k hin, Nat.add_sub_cancel_left]
  rw [pendingFrom_eq hslot hin.le]

end Cluster

/-! ## The walk over a sequence -/

theorem entriesIn_add (ss : List Slot) (n b m m' : Nat) :
    entriesIn ss n b (m + m') = entriesIn ss n b m ++ entriesIn ss n (b + m) m' := by
  unfold entriesIn
  rw [← List.map_append, ← List.filter_append, List.range'_append_1]

theorem mem_candidates {buf : List UInt8} {n : Nat} {p : Nat × List Nat}
    (h : p ∈ candidates buf n []) : SlotLive buf n p.1 ∧ p.2 = pieces buf [] p.1 := by
  obtain ⟨i, hi, rfl⟩ := List.mem_map.mp h
  exact ⟨of_decide_eq_true (List.mem_filter.mp hi).2, rfl⟩

/-- The place of a slot in the sequence: its cluster is at position `k` of the directory. -/
def Mount.placed (M : Mount) (k : Nat) (p : Nat × List Nat) : Nat × List Nat :=
  (k * M.slotCount + p.1, p.2.map (k * M.slotCount + ·))

/-- The walk from position `k` on selects the first entry of the sequence from there on that
matches. -/
theorem walk_entriesIn (M : Mount) (V : Volume) (name : List UInt8) (pre : List Nat)
    {l : List Nat} (acc : List Nat) :
    (∃ k c i lfn, (pre ++ l)[k]? = some c ∧ V.walk (scanOrdered M name) l acc = .inl (c, i, lfn) ∧
      (entriesIn (M.slots V (pre ++ l)) M.slotCount (pre.length * M.slotCount)
        (l.length * M.slotCount)).find? (matchedIn name (M.slots V (pre ++ l))) =
          some (M.placed k (i, lfn))) ∨
    ((∃ lfn, V.walk (scanOrdered M name) l acc = .inr lfn) ∧
      (entriesIn (M.slots V (pre ++ l)) M.slotCount (pre.length * M.slotCount)
        (l.length * M.slotCount)).find? (matchedIn name (M.slots V (pre ++ l))) = none) := by
  -- by the clusters to come; behind `pre` the slots of the walk are those of the long list
  induction l generalizing pre acc with
  | nil =>
      right
      refine ⟨⟨acc, rfl⟩, ?_⟩
      rw [List.length_nil, Nat.zero_mul]
      rfl
  | cons c l ih =>
      have hpos : (pre ++ c :: l)[pre.length]? = some c := by
        rw [List.getElem?_append_right (Nat.le_refl _), Nat.sub_self]
        rfl
      have hslot : ∀ i, i < M.slotCount →
          slotIn (M.slots V (pre ++ c :: l)) (pre.length * M.slotCount + i) =
            slotAt (V.data c) i := fun i hi => M.slotIn_slots V hpos hi
      have hmatch : ∀ p ∈ candidates (V.data c) M.slotCount [],
          matchedIn name (M.slots V (pre ++ c :: l)) (M.placed pre.length p) =
            matchedBy orderedLongName name (V.data c) p.2 p.1 := by
        intro p hp
        obtain ⟨hlive, hpieces⟩ := mem_candidates hp
        apply matchedIn_eq hslot name hlive.lt
        intro j hj
        rw [hpieces] at hj
        exact (pieces_spec hj).1.trans hlive.lt
      have hfirst : (entriesIn (M.slots V (pre ++ c :: l)) M.slotCount
          (pre.length * M.slotCount) M.slotCount).find?
            (matchedIn name (M.slots V (pre ++ c :: l))) =
          ((candidates (V.data c) M.slotCount []).find? (fun p =>
            matchedBy orderedLongName name (V.data c) p.2 p.1)).map (M.placed pre.length) := by
        rw [entriesIn_cluster hslot rfl, List.find?_map]
        congr 1
        apply List.find?_congr
        exact hmatch
      have hscan := scanLfn_find (V.data c) (matchedBy orderedLongName name (V.data c))
        M.slotCount []
      -- the first entry that matches is in this cluster, or in the rest
      rw [List.length_cons, Nat.succ_mul, Nat.add_comm (l.length * M.slotCount), entriesIn_add,
        List.find?_append, hfirst]
      unfold Volume.walk scanOrdered
      simp only [hscan]
      cases hfind : (candidates (V.data c) M.slotCount []).find? (fun p =>
          matchedBy orderedLongName name (V.data c) p.2 p.1) with
      | some hit =>
          left
          exact ⟨pre.length, c, hit.1, hit.2, hpos, rfl, rfl⟩
      | none =>
          simp only [Option.map_none, Option.none_or]
          have hrest := ih (pre ++ [c]) (carried (V.data c) M.slotCount [])
          rw [List.append_assoc, List.singleton_append, List.length_append, List.length_singleton,
            Nat.add_mul, Nat.one_mul] at hrest
          exact hrest

/-- The scanners select from the sequence of slots. -/
theorem walk_selectIn (M : Mount) (V : Volume) (name : List UInt8) (l : List Nat) :
    (∃ k c i lfn, l[k]? = some c ∧ V.walk (scanOrdered M name) l [] = .inl (c, i, lfn) ∧
      selectIn name (M.slots V l) M.slotCount = some (M.placed k (i, lfn))) ∨
    ((∃ lfn, V.walk (scanOrdered M name) l [] = .inr lfn) ∧
      selectIn name (M.slots V l) M.slotCount = none) := by
  have h := walk_entriesIn M V name [] (l := l) []
  rw [List.nil_append, List.length_nil, Nat.zero_mul, ← M.slots_length V l] at h
  exact h

/-! ## Two cuts of one sequence -/

instance (e : Slot) : Decidable (IsPiece e) :=
  decidable_of_iff (e.attr = attrLfn ∧ e.name0 ≠ 0x00 ∧ e.name0 ≠ 0xE5)
    ⟨fun h => ⟨h.1, h.2.1, h.2.2⟩, fun h => ⟨h.attr, h.notEnd, h.notDeleted⟩⟩

/-- Two cuts of a sequence, into clusters of `n` and of `n'` slots, are alike: a short entry that
one cut hides behind an end mark is hidden by the other one too, and no boundary that only one of
them has lies in the run of long-name slots in front of an entry that is seen. -/
structure CutAlike (ss : List Slot) (n n' : Nat) : Prop where
  seen : ∀ p, p < ss.length → isValidSfnEntry (slotIn ss p) = true → (Seen ss n p ↔ Seen ss n' p)
  run : ∀ p, p < ss.length → Seen ss n p → ∀ a, a < p →
    (∀ q, a ≤ q → q < p → IsPiece (slotIn ss q)) → (clusterStart n p ≤ a ↔ clusterStart n' p ≤ a)

/-- Behind a slot where nothing is pending, it does not matter what came before. -/
theorem pendingFrom_add {ss : List Slot} {b m : Nat} (h : pendingFrom ss b m = []) (k : Nat) :
    pendingFrom ss b (m + k) = pendingFrom ss (b + m) k := by
  induction k with
  | zero => exact h
  | succ k ih =>
      show pendingFrom ss b ((m + k) + 1) = _
      unfold pendingFrom
      rw [ih, Nat.add_assoc]

/-- Nothing is pending behind a slot that is no piece. -/
theorem pendingFrom_reset {ss : List Slot} {b q : Nat} (hb : b ≤ q)
    (h0 : (slotIn ss q).name0 ≠ 0) (hq : ¬ IsPiece (slotIn ss q)) {p : Nat} (hp : q < p) :
    pendingFrom ss b (p - b) = pendingFrom ss (q + 1) (p - (q + 1)) := by
  have hnil : pendingFrom ss b (q - b + 1) = [] := by
    unfold pendingFrom
    rw [show b + (q - b) = q by omega]
    by_cases hdel : (slotIn ss q).name0 = 0xE5
    · rw [if_pos hdel]
    · rw [if_neg hdel]
      by_cases hlfn : (slotIn ss q).attr = attrLfn
      · exact absurd ⟨hlfn, h0, hdel⟩ hq
      · rw [if_neg hlfn]
  calc pendingFrom ss b (p - b) = pendingFrom ss b (q - b + 1 + (p - (q + 1))) := by
        rw [show q - b + 1 + (p - (q + 1)) = p - b by omega]
    _ = pendingFrom ss (b + (q - b + 1)) (p - (q + 1)) := pendingFrom_add hnil _
    _ = pendingFrom ss (q + 1) (p - (q + 1)) := by rw [show b + (q - b + 1) = q + 1 by omega]

/-- The pieces pending at `p` are the same from the later start `b'` on, unless a run of pieces
reaches across it. -/
theorem pendingFrom_start {ss : List Slot} {b b' p : Nat} (hb : b ≤ b') (hp : b' ≤ p)
    (h0 : ∀ q, b ≤ q → q < p → (slotIn ss q).name0 ≠ 0)
    (hrun : b < b' → ¬ ∀ q, b' - 1 ≤ q → q < p → IsPiece (slotIn ss q)) :
    pendingFrom ss b (p - b) = pendingFrom ss b' (p - b') := by
  by_cases hall : ∀ q, b' ≤ q → q < p → IsPiece (slotIn ss q)
  · rcases Nat.eq_or_lt_of_le hb with rfl | hlt
    · rfl
    · -- the slot before `b'` ends the run
      have hlast : ¬ IsPiece (slotIn ss (b' - 1)) := by
        intro hpiece
        apply hrun hlt
        intro q hq hqp
        rcases Nat.eq_or_lt_of_le hq with rfl | hq
        · exact hpiece
        · exact hall q (by omega) hqp
      have hreset := pendingFrom_reset (b := b) (q := b' - 1) (p := p) (by omega)
        (h0 (b' - 1) (by omega) (by omega)) hlast (by omega)
      rw [show b' - 1 + 1 = b' by omega] at hreset
      exact hreset
  · push Not at hall
    obtain ⟨q, hq, hqp, hpiece⟩ := hall
    rw [pendingFrom_reset (hb.trans hq) (h0 q (hb.trans hq) hqp) hpiece hqp,
      pendingFrom_reset hq (h0 q (hb.trans hq) hqp) hpiece hqp]

theorem CutAlike.pendingAt_eq {ss : List Slot} {n n' p : Nat} (h : CutAlike ss n n')
    (hp : p < ss.length) (hseen : Seen ss n p) : pendingAt ss n p = pendingAt ss n' p := by
  have hseen' : Seen ss n' p := (h.seen p hp hseen.valid).mp hseen
  unfold pendingAt
  rcases Nat.le_total (clusterStart n p) (clusterStart n' p) with hle | hle
  · apply pendingFrom_start hle (clusterStart_le n' p) hseen.reached
    intro hlt hall
    have hle' := clusterStart_le n' p
    have hiff := h.run p hp hseen (clusterStart n' p - 1) (by omega) hall
    omega
  · apply Eq.symm
    apply pendingFrom_start hle (clusterStart_le n p) hseen'.reached
    intro hlt hall
    have hle' := clusterStart_le n p
    have hiff := h.run p hp hseen (clusterStart n p - 1) (by omega) hall
    omega

/-- In two cuts that are alike the scanners see the same entries with the same pieces. -/
theorem CutAlike.entriesIn_eq {ss : List Slot} {n n' : Nat} (h : CutAlike ss n n') :
    entriesIn ss n 0 ss.length = entriesIn ss n' 0 ss.length := by
  unfold entriesIn
  have hfilter : (List.range' 0 ss.length).filter (fun p => decide (Seen ss n p)) =
      (List.range' 0 ss.length).filter (fun p => decide (Seen ss n' p)) := by
    apply List.filter_congr
    intro p hp
    have hlt : p < ss.length := by
      have := (List.mem_range'_1.mp hp).2
      omega
    apply decide_eq_decide.mpr
    constructor
    · intro hs
      exact (h.seen p hlt hs.valid).mp hs
    · intro hs
      exact (h.seen p hlt hs.valid).mpr hs
  rw [← hfilter]
  apply List.map_congr_left
  intro p hp
  obtain ⟨hmem, hs⟩ := List.mem_filter.mp hp
  have hlt : p < ss.length := by
    have := (List.mem_range'_1.mp hmem).2
    omega
  rw [h.pendingAt_eq hlt (of_decide_eq_true hs)]

theorem CutAlike.selectIn_eq {ss : List Slot} {n n' : Nat} (h : CutAlike ss n n')
    (name : List UInt8) : selectIn name ss n = selectIn name ss n' := by
  unfold selectIn
  rw [h.entriesIn_eq]

/-! ## What is written -/

theorem Slot.setName0_setName0 (e : Slot) (c : UInt8) : (e.setName0 c).setName0 c = e.setName0 c := by
  apply Slot.ext_bytes
  intro i _
  unfold Slot.setName0
  rw [Slot.getD_put, Slot.getD_put]
  split <;> rfl

/-- Marking changes the first byte of the slots marked. -/
theorem slotAt_markDeleted_eq {buf : List UInt8} {is : List Nat} (h : ∀ i ∈ is, SlotRoom buf i)
    (i : Nat) : slotAt (markDeleted buf is) i =
      if i ∈ is then (slotAt buf i).setName0 0xE5 else slotAt buf i := by
  induction is generalizing buf with
  | nil => rfl
  | cons k is ih =>
      have hk := h k List.mem_cons_self
      have hlen : (splice buf (32 * k) [0xE5]).length = buf.length := by
        unfold SlotRoom at hk
        exact splice_length _ _ _ (by simp; omega)
      have hroom : ∀ j ∈ is, SlotRoom (splice buf (32 * k) [0xE5]) j := by
        intro j hj
        have := h j (List.mem_cons_of_mem _ hj)
        unfold SlotRoom at this ⊢
        rw [hlen]
        exact this
      show slotAt (markDeleted (splice buf (32 * k) [0xE5]) is) i = _
      rw [ih hroom, slotAt_setName0 hk 0xE5 i]
      by_cases hik : i = k
      · subst hik
        rw [if_pos rfl, if_pos List.mem_cons_self, Slot.setName0_setName0, ite_self]
      · have hmem : i ∈ k :: is ↔ i ∈ is := by
          rw [List.mem_cons, or_iff_right hik]
        simp only [if_neg hik, hmem]

/-- Overwriting puts the new slots at the given places, in order. -/
theorem slotAt_setPieces_eq {buf : List UInt8} {is : List Nat} {es : List Slot}
    (hlen : is.length = es.length) (h : ∀ i ∈ is, SlotRoom buf i) (hnodup : is.Nodup) (i : Nat) :
    slotAt (setPieces buf is es) i =
      if i ∈ is then es.getD (is.idxOf i) (slotAt buf i) else slotAt buf i := by
  induction is generalizing buf es with
  | nil => rfl
  | cons k is ih =>
      obtain ⟨e, es, rfl⟩ : ∃ e t, es = e :: t := by
        cases es with
        | nil => cases hlen
        | cons e t => exact ⟨e, t, rfl⟩
      have hk : 32 * k + 32 ≤ buf.length := h k List.mem_cons_self
      have hset := setSlot_length buf k e hk
      have hroom : ∀ j ∈ is, SlotRoom (setSlot buf k e) j := by
        intro j hj
        have := h j (List.mem_cons_of_mem _ hj)
        unfold SlotRoom at this ⊢
        rw [hset]
        exact this
      obtain ⟨hnot, hnodup'⟩ := List.nodup_cons.mp hnodup
      show slotAt (setPieces (setSlot buf k e) is es) i = _
      rw [ih (Nat.succ.inj hlen) hroom hnodup', slotAt_setSlot buf k i e hk]
      by_cases hik : i = k
      · subst hik
        rw [if_neg hnot, if_pos rfl, if_pos List.mem_cons_self, List.idxOf_cons_self]
        rfl
      · have hmem : i ∈ k :: is ↔ i ∈ is := by
          rw [List.mem_cons, or_iff_right hik]
        rw [if_neg hik, List.idxOf_cons_ne is (Ne.symm hik)]
        simp only [hmem]
        rfl

theorem pieces_nodup (buf : List UInt8) (i : Nat) : (pieces buf [] i).Nodup := by
  induction i with
  | zero => exact List.nodup_nil
  | succ i ih =>
      unfold pieces
      split
      · exact List.nodup_nil
      · split
        · unfold pushPiece
          split
          · apply List.Nodup.append ih (List.nodup_singleton i)
            intro j hj hi
            rw [List.mem_singleton] at hi
            subst hi
            exact absurd (pieces_spec hj).1 (Nat.lt_irrefl j)
          · exact ih
        · exact List.nodup_nil

/-- A sequence with the entry `p` and its pieces marked as deleted. -/
def removedIn (ss : List Slot) (p : Nat × List Nat) (q : Nat) : Slot :=
  if q = p.1 ∨ q ∈ p.2 then (slotIn ss q).setName0 0xE5 else slotIn ss q

/-- A sequence with the entry `p` renamed: its pieces are overwritten when the new name needs as
many, otherwise they are marked as deleted. -/
def renamedIn (ss : List Slot) (newName : List UInt8) (p : Nat × List Nat) (q : Nat) : Slot :=
  let newSfn := nameTo83 newName
  let newLfn := makeLfnEntries newName (fat32LfnChecksum newSfn)
  if q = p.1 then (slotIn ss q).setName newSfn
  else if q ∈ p.2 then
    if p.2.length > 0 ∧ newLfn.length > 0 ∧ p.2.length = newLfn.length then
      newLfn.getD (p.2.idxOf q) (slotIn ss q)
    else (slotIn ss q).setName0 0xE5
  else slotIn ss q

theorem idxOf_map_add (b : Nat) (is : List Nat) (i : Nat) :
    (is.map (b + ·)).idxOf (b + i) = is.idxOf i := by
  induction is with
  | nil => rfl
  | cons k is ih =>
      rw [List.map_cons]
      by_cases hki : k = i
      · subst hki
        rw [List.idxOf_cons_self, List.idxOf_cons_self]
      · rw [List.idxOf_cons_ne _ hki, List.idxOf_cons_ne _ (show b + k ≠ b + i by omega), ih]

theorem mem_map_add (b : Nat) (is : List Nat) (i : Nat) : b + i ∈ is.map (b + ·) ↔ i ∈ is := by
  rw [List.mem_map]
  constructor
  · rintro ⟨j, hj, heq⟩
    obtain rfl : j = i := by omega
    exact hj
  · intro hi
    exact ⟨i, hi, rfl⟩

section Written

variable {M : Mount} (hM : M.Sound) {ss : List Slot} {buf : List UInt8} {k i : Nat}
  (hslot : ∀ j, j < M.slotCount → slotIn ss (k * M.slotCount + j) = slotAt buf j)
  (hlen : buf.length = M.clusterSize) (hi : SlotLive buf M.slotCount i)
include hM hslot hlen hi

theorem removedIn_eq {j : Nat} (hj : j < M.slotCount) :
    slotAt (markDeleted buf (pieces buf [] i ++ [i])) j =
      removedIn ss (M.placed k (i, pieces buf [] i)) (k * M.slotCount + j) := by
  have hroom : ∀ x ∈ pieces buf [] i ++ [i], SlotRoom buf x := by
    intro x hx
    rcases List.mem_append.mp hx with hx | hx
    · exact (hi.piece hM hlen hx).1
    · rw [List.mem_singleton.mp hx]
      exact hi.room hM hlen
  unfold removedIn Mount.placed
  rw [slotAt_markDeleted_eq hroom, hslot j hj]
  have hmem : j ∈ pieces buf [] i ++ [i] ↔
      k * M.slotCount + j = k * M.slotCount + i ∨ j ∈ pieces buf [] i := by
    rw [List.mem_append, List.mem_singleton, Nat.add_left_cancel_iff, or_comm]
  simp only [hmem, mem_map_add]

theorem renamedIn_eq (newName : List UInt8) {j : Nat} (hj : j < M.slotCount) :
    slotAt (renamedCluster buf i (pieces buf [] i) newName) j =
      renamedIn ss newName (M.placed k (i, pieces buf [] i)) (k * M.slotCount + j) := by
  have hroom := hi.room hM hlen
  have hpieces : ∀ x ∈ pieces buf [] i, SlotRoom buf x := fun x hx => (hi.piece hM hlen hx).1
  have hnot : i ∉ pieces buf [] i := fun h => (hi.piece hM hlen h).2.1 rfl
  unfold renamedIn renamedCluster Mount.placed
  simp only [List.length_map, hslot j hj, mem_map_add, idxOf_map_add, Nat.add_left_cancel_iff]
  split
  · rename_i hsame
    have hroom' : SlotRoom (setPieces buf (pieces buf [] i)
        (makeLfnEntries newName (fat32LfnChecksum (nameTo83 newName)))) i := by
      unfold SlotRoom at hroom ⊢
      rw [(slotAt_setPieces hsame.2.2 hpieces i).1]
      exact hroom
    rw [slotAt_setSlotName hroom', slotAt_setPieces_eq hsame.2.2 hpieces (pieces_nodup buf i),
      slotAt_setPieces_eq hsame.2.2 hpieces (pieces_nodup buf i), if_neg hnot]
    by_cases hji : j = i
    · subst hji
      rw [if_pos rfl]
    · rw [if_neg hji, if_neg hji]
  · have hroom' : SlotRoom (markDeleted buf (pieces buf [] i)) i := by
      unfold SlotRoom at hroom ⊢
      rw [markDeleted_length hpieces]
      exact hroom
    rw [slotAt_setSlotName hroom', slotAt_markDeleted_eq hpieces, slotAt_markDeleted_eq hpieces,
      if_neg hnot]
    by_cases hji : j = i
    · subst hji
      rw [if_pos rfl]
    · rw [if_neg hji, if_neg hji]

omit hM hslot hlen in
/-- An entry and its pieces are in one cluster of the sequence. -/
theorem placed_start {q : Nat} (hq : clusterStart M.slotCount q ≠ k * M.slotCount) :
    q ≠ (M.placed k (i, pieces buf [] i)).1 ∧ q ∉ (M.placed k (i, pieces buf [] i)).2 := by
  constructor
  · rintro rfl
    exact hq (clusterStart_add k hi.lt)
  · intro hmem
    obtain ⟨j, hj, rfl⟩ := List.mem_map.mp hmem
    exact hq (clusterStart_add k ((pieces_spec hj).1.trans hi.lt))

end Written

/-! ## The functions on two cuts -/

/-- What the scanner of `FAT32_DeleteFile`, `FAT32_RemoveDir` and `FAT32_RenameFile` selects for a
name in the directory at `d` with the clusters `l`, by places in the sequence of slots. -/
def Mount.SelectsAt (M : Mount) (s : FsState) (d : Nat) (l : List Nat) (name : List UInt8)
    (p : Nat × List Nat) : Prop :=
  ∃ fuel k c i lfn t, M.selects (scanOrdered M name) fuel d s = some (some (c, i, lfn), t) ∧
    l[k]? = some c ∧ p = M.placed k (i, lfn)

/-- One cluster of the directory has been written; with it the sequence of slots has gone from `ss`
to `g`. -/
def Mount.Rewritten (M : Mount) (V : Volume) (l : List Nat) (ss : List Slot) (g : Nat → Slot) :
    Prop :=
  ∃ k c, l[k]? = some c ∧ (∀ i, i < M.slotCount → V.slot c i = g (k * M.slotCount + i)) ∧
    ∀ q, clusterStart M.slotCount q ≠ k * M.slotCount → g q = slotIn ss q

/-- On two volumes whose directories hold the same slots, the functions select the same entry and
make the same changes. -/
structure SameEffect (M M' : Mount) (s s' : FsState) (d d' : Nat) (l l' : List Nat)
    (name : List UInt8) : Prop where
  selected : ∀ p, M.SelectsAt s d l name p ↔ M'.SelectsAt s' d' l' name p
  deleted : ∀ fuel fuel' t t', fat32DeleteFile M fuel d name s = some (0, t) →
    fat32DeleteFile M' fuel' d' name s' = some (0, t') →
    ∃ g, M.Rewritten (M.view t) l (M.slots (M.view s) l) g ∧
      M'.Rewritten (M'.view t') l' (M.slots (M.view s) l) g
  removed : ∀ fuel fuel' t t', fat32RemoveDir M fuel d name s = some (0, t) →
    fat32RemoveDir M' fuel' d' name s' = some (0, t') →
    ∃ g, M.Rewritten (M.view t) l (M.slots (M.view s) l) g ∧
      M'.Rewritten (M'.view t') l' (M.slots (M.view s) l) g
  renamed : ∀ newName fuel fuel' t t', fat32RenameFile M fuel d name newName s = some (0, t) →
    fat32RenameFile M' fuel' d' name newName s' = some (0, t') →
    ∃ g, M.Rewritten (M.view t) l (M.slots (M.view s) l) g ∧
      M'.Rewritten (M'.view t') l' (M.slots (M.view s) l) g

section Sound

variable {M : Mount} (hM : M.Sound) {s s' : FsState} {V : Volume} {A : List Nat} {d : Nat}
  {l : List Nat} {name : List UInt8} (hat : M.At s V A) (hd : M.DirOn V d l)
include hM hat hd

/-- The functions select what is selected from the sequence of slots. -/
theorem selectsAt_iff (p : Nat × List Nat) :
    M.SelectsAt s d l name p ↔ selectIn name (M.slots V l) M.slotCount = some p := by
  constructor
  · rintro ⟨fuel, k, c, i, lfn, t, hrun, hk, rfl⟩
    have hwalk := (selects_iff hM hat hd _ _).mp ⟨fuel, t, hrun⟩
    rcases walk_selectIn M V name l with ⟨k', c', i', lfn', hk', hwalk', hsel⟩ | ⟨⟨x, hnone⟩, -⟩
    · rw [hwalk] at hwalk'
      cases hwalk'
      -- a cluster is at one position only
      have hlt := (List.getElem?_eq_some_iff.mp hk).1
      have hkk := (List.getElem?_inj hlt (Chain.nodup hd.1)).mp (hk.trans hk'.symm)
      rw [hkk]
      exact hsel
    · rw [hwalk] at hnone
      cases hnone
  · intro h
    rcases walk_selectIn M V name l with ⟨k, c, i, lfn, hk, hwalk, hsel⟩ | ⟨-, hnone⟩
    · obtain ⟨fuel, t, hrun⟩ := (selects_iff hM hat hd _ _).mpr hwalk
      rw [hsel] at h
      exact ⟨fuel, k, c, i, lfn, t, hrun, hk, (Option.some.inj h).symm⟩
    · rw [hnone] at h
      cases h

/-- `FAT32_RemoveDir` that returns 0 has removed the entry it selects. -/
theorem removeDir_selects {fuel : Nat} (hrun : fat32RemoveDir M fuel d name s = some (0, s')) :
    ∃ c i, c ∈ l ∧ M.LiveAt V c i ∧
      V.walk (scanOrdered M name) l [] = .inl (c, i, pieces (V.data c) [] i) ∧
      (M.view s').data c = markDeleted (V.data c) (pieces (V.data c) [] i ++ [i]) := by
  obtain ⟨s1, hr1, ⟨c, i, lfn, hwalk, hhit⟩ | ⟨-, x, buf, lfn, hend⟩⟩ :=
    walkDir_selects hM hat hd _ _ _ _ _ hrun
  · obtain ⟨hc, a, hs⟩ := Volume.walk_inl hwalk
    obtain ⟨-, hlive, rfl, -, -⟩ := scanLfn_inr hs (fun j hj => absurd hj (Nat.not_lt_zero j))
    rw [Nat.zero_add] at hlive
    have hat1 := hr1.stays hat
    have hlen := (removed_spec hM (hat.data_length (hd.2 c hc)) hlive).1
    refine ⟨c, i, hc, hlive, hwalk, ?_⟩
    simp only [] at hhit
    split at hhit
    · cases hhit
    · split at hhit
      · obtain ⟨empty, s2, hempty, hrest⟩ := Prog.bind_eq_some.mp hhit
        have hq2 := isDirEmpty_steps M.keeps_quiet _ _ _ _ _ hempty hat1.quiet
        split at hrest
        · cases hrest
        · obtain ⟨st, s3, hfree, hrest⟩ := Prog.bind_eq_some.mp hrest
          have hq3 := fat32FreeClusterChain_steps M.keeps_quiet _ _ _ _ _ hfree hq2
          split at hrest
          · cases hrest
          · exact removeSlots_marks hM hq3 (hd.2 c hc) hlen hrest
      · exact removeSlots_marks hM hat1.quiet (hd.2 c hc) hlen hhit
  · cases hend

/-- `FAT32_RenameFile` that returns 0 has renamed the entry it selects. -/
theorem renameFile_selects {fuel : Nat} {newName : List UInt8}
    (hrun : fat32RenameFile M fuel d name newName s = some (0, s')) :
    ∃ c i, c ∈ l ∧ M.LiveAt V c i ∧
      V.walk (scanOrdered M name) l [] = .inl (c, i, pieces (V.data c) [] i) ∧
      (M.view s').data c = renamedCluster (V.data c) i (pieces (V.data c) [] i) newName := by
  rw [fat32RenameFile] at hrun
  obtain ⟨⟨st, o⟩, s0, hfind, hrest⟩ := Prog.bind_eq_some.mp hrun
  have hat0 := (findEntryAny_selects hM hat hd hfind).1.stays hat
  simp only [] at hrest
  split at hrest
  · cases hrest
  · obtain ⟨s1, hr1, ⟨c, i, lfn, hwalk, hhit⟩ | ⟨-, x, buf, lfn, hend⟩⟩ :=
      walkDir_selects hM hat0 hd _ _ _ _ _ hrest
    · obtain ⟨hc, a, hs⟩ := Volume.walk_inl hwalk
      obtain ⟨-, hlive, rfl, -, -⟩ := scanLfn_inr hs (fun j hj => absurd hj (Nat.not_lt_zero j))
      rw [Nat.zero_add] at hlive
      have hat1 := hr1.stays hat0
      have hlen := (renamedCluster_spec hM (hat.data_length (hd.2 c hc)) hlive newName).1
      refine ⟨c, i, hc, hlive, hwalk, ?_⟩
      have hwrite := fat32WriteCluster_run hM hat1.quiet (hd.2 c hc) hlen
      simp only [] at hhit
      rw [Prog.bind_run hwrite, if_neg (by simp), Prog.bind_run (ata_flush_run _ _),
        Prog.pure_run] at hhit
      cases hhit
      rw [Mount.view_note, view_putCluster hM (hd.2 c hc) hlen, Volume.setData_data,
        Function.update_self]
    · cases hend

omit hM hat hd in
/-- A cluster written with changes of an entry and its pieces rewrites the sequence. -/
theorem rewritten_of_data {V' : Volume} {c i : Nat} {lfn : List Nat} {g : Nat → Slot}
    (hwalk : V.walk (scanOrdered M name) l [] = .inl (c, i, lfn)) {p : Nat × List Nat}
    (hsel : selectIn name (M.slots V l) M.slotCount = some p)
    (hg : ∀ k, p = M.placed k (i, lfn) →
      (∀ j, j < M.slotCount → slotIn (M.slots V l) (k * M.slotCount + j) = V.slot c j) →
      (∀ j, j < M.slotCount → V'.slot c j = g (k * M.slotCount + j)) ∧
        ∀ q, clusterStart M.slotCount q ≠ k * M.slotCount → g q = slotIn (M.slots V l) q) :
    M.Rewritten V' l (M.slots V l) g := by
  rcases walk_selectIn M V name l with ⟨k, c', i', lfn', hk, hwalk', hsel'⟩ | ⟨⟨x, hnone⟩, -⟩
  · rw [hwalk] at hwalk'
    cases hwalk'
    rw [hsel] at hsel'
    obtain ⟨h1, h2⟩ := hg k (Option.some.inj hsel') (fun j hj => M.slotIn_slots V hk hj)
    exact ⟨k, c, hk, h1, h2⟩
  · rw [hwalk] at hnone
    cases hnone

/-- Removing an entry rewrites the sequence. -/
theorem rewritten_removed {V' : Volume} {c i : Nat} (hc : c ∈ l) (hlive : M.LiveAt V c i)
    (hwalk : V.walk (scanOrdered M name) l [] = .inl (c, i, pieces (V.data c) [] i))
    (hdata : V'.data c = markDeleted (V.data c) (pieces (V.data c) [] i ++ [i]))
    {p : Nat × List Nat} (hsel : selectIn name (M.slots V l) M.slotCount = some p) :
    M.Rewritten V' l (M.slots V l) (removedIn (M.slots V l) p) := by
  apply rewritten_of_data hwalk hsel
  rintro k rfl hslot
  constructor
  · intro j hj
    show slotAt (V'.data c) j = _
    rw [hdata]
    exact removedIn_eq hM hslot (hat.data_length (hd.2 c hc)) hlive hj
  · intro q hq
    obtain ⟨h1, h2⟩ := placed_start hlive hq
    unfold removedIn
    rw [if_neg (not_or.mpr ⟨h1, h2⟩)]

/-- Renaming an entry rewrites the sequence. -/
theorem rewritten_renamed {V' : Volume} {c i : Nat} {newName : List UInt8} (hc : c ∈ l)
    (hlive : M.LiveAt V c i)
    (hwalk : V.walk (scanOrdered M name) l [] = .inl (c, i, pieces (V.data c) [] i))
    (hdata : V'.data c = renamedCluster (V.data c) i (pieces (V.data c) [] i) newName)
    {p : Nat × List Nat} (hsel : selectIn name (M.slots V l) M.slotCount = some p) :
    M.Rewritten V' l (M.slots V l) (renamedIn (M.slots V l) newName p) := by
  apply rewritten_of_data hwalk hsel
  rintro k rfl hslot
  constructor
  · intro j hj
    show slotAt (V'.data c) j = _
    rw [hdata]
    exact renamedIn_eq hM hslot (hat.data_length (hd.2 c hc)) hlive newName hj
  · intro q hq
    obtain ⟨h1, h2⟩ := placed_start hlive hq
    unfold renamedIn
    simp only [if_neg h1, if_neg h2]

omit hM hat hd in
/-- What is selected when the walk stops at an entry. -/
theorem selectIn_of_walk {hit : Nat × Nat × List Nat}
    (hwalk : V.walk (scanOrdered M name) l [] = .inl hit) :
    ∃ p, selectIn name (M.slots V l) M.slotCount = some p := by
  rcases walk_selectIn M V name l with ⟨k, c, i, lfn, -, -, hsel⟩ | ⟨⟨x, hnone⟩, -⟩
  · exact ⟨_, hsel⟩
  · rw [hwalk] at hnone
    cases hnone

end Sound

/-- The volume of `smallMount` with clusters of two sectors. -/
def wideMount (disk : AtaDisk) : Mount where
  disk
  part := { startingLba := 2 }
  info := { (smallMount disk).info with sectorsPerCluster := 2, totalClusters := 6 }

theorem wideMount_sound (disk : AtaDisk) : (wideMount disk).Sound where
  bytes := rfl
  sectors := by simp [wideMount, smallMount]
  fats := by simp [wideMount, smallMount]
  layout := by simp [wideMount, smallMount]
  region := by simp [wideMount, smallMount]
  table := by simp [wideMount, smallMount]
  clusters := by simp [wideMount, smallMount]
  address := by simp [wideMount, smallMount]

/-- A slot of deleted bytes. -/
def deletedSlot : Slot := ⟨List.replicate 32 0xE5, rfl⟩

/-- A directory of 32 slots, all deleted but two: slot `i` is a piece with the long name
"longname.html", and the slot behind it the short entry "LONGNA~1.HTM". -/
def runSlots (i : Nat) : List Slot :=
  let sfn : Name83 := ⟨[76, 79, 78, 71, 78, 65, 126, 49, 72, 84, 77], rfl⟩
  List.replicate i deletedSlot ++
    makeLfnEntries [108, 111, 110, 103, 110, 97, 109, 101, 46, 104, 116, 109, 108]
      (fat32LfnChecksum sfn) ++
    [mkSfn sfn attrArchive
      { second := 0, minute := 0, hour := 0, day := 1, month := 1, year := 0 } 0] ++
    List.replicate (30 - i) deletedSlot

/-- The directory in the clusters 2 and 3 of `smallMount`. -/
def runSmall (i : Nat) : FsState :=
  smallState [0x0FFFFFF8, 0x0FFFFFF8, 3, 0x0FFFFFF8] (fun c =>
    if c = 2 then ((runSlots i).take 16).flatMap (·.1)
    else if c = 3 then ((runSlots i).drop 16).flatMap (·.1) else [])

/-- The directory in the cluster 2 of `wideMount`. -/
def runWide (i : Nat) : FsState :=
  smallState [0x0FFFFFF8, 0x0FFFFFF8, 0x0FFFFFF8] (fun c =>
    if c = 2 then ((runSlots i).take 16).flatMap (·.1)
    else if c = 3 then ((runSlots i).drop 16).flatMap (·.1) else [])

/-- The sectors behind the table of a small volume hold its clusters. -/
theorem readBytes_smallState {fat : List Nat} {clusters : Nat → List UInt8} {k : Nat} (m : Bool)
    (hk : k ≠ 1) (hlen : (clusters k).length = 512) :
    readBytes ((smallState fat clusters).drive m) (512 * (k + 3)) 512 = clusters k := by
  apply ext_getD
  · rw [readBytes_length, hlen]
  · intro i hi
    rw [readBytes_length] at hi
    rw [getD_readBytes _ _ _ _ hi]
    show (if (512 * (k + 3) + i) / 512 = 4 then _ else
      (clusters ((512 * (k + 3) + i) / 512 - 3)).getD ((512 * (k + 3) + i) % 512) 0) = _
    rw [show (512 * (k + 3) + i) / 512 = k + 3 by omega, if_neg (by omega),
      show (512 * (k + 3) + i) % 512 = i by omega, Nat.add_sub_cancel]

/-- The slots of a buffer that was put together from slots. -/
theorem slotAt_flatMap {ss : List Slot} {i : Nat} (hi : i < ss.length) :
    slotAt (ss.flatMap (·.1)) i = slotIn ss i := by
  induction ss generalizing i with
  | nil => exact absurd hi (Nat.not_lt_zero i)
  | cons e ss ih =>
      apply Slot.ext_bytes
      intro j hj
      rw [getD_slotAt _ _ _ hj, List.flatMap_cons]
      cases i with
      | zero =>
          rw [Nat.mul_zero, Nat.zero_add, List.getD_append _ _ _ _ (by rw [e.2]; exact hj)]
          rfl
      | succ i =>
          have hrest := congrArg (fun e : Slot => e.1.getD j 0) (ih (Nat.lt_of_succ_lt_succ hi))
          simp only [getD_slotAt _ _ _ hj] at hrest
          rw [List.getD_append_right _ _ _ _ (by rw [e.2]; omega), e.2,
            show 32 * (i + 1) + j - 32 = 32 * i + j by omega]
          exact hrest

theorem map_slotAt_flatMap (ss : List Slot) :
    (List.range ss.length).map (slotAt (ss.flatMap (·.1))) = ss := by
  apply List.ext_getElem
  · simp
  · intro i h1 h2
    rw [List.getElem_map, List.getElem_range, slotAt_flatMap h2]
    exact List.getD_eq_getElem _ _ h2

theorem flatMap_slot_length (ss : List Slot) : (ss.flatMap (·.1)).length = 32 * ss.length := by
  induction ss with
  | nil => rfl
  | cons e ss ih =>
      rw [List.flatMap_cons, List.length_append, ih, e.2, List.length_cons]
      omega

theorem Mount.view_data {M : Mount} (s : FsState) {c : Nat} (hc : M.InRange c) :
    (M.view s).data c = readBytes (s.drive M.disk.isMaster) (M.dataBase c) M.clusterSize :=
  if_pos hc

/-- A cluster of a small volume is the sector it is put in. -/
theorem data_smallState {fat : List Nat} {clusters : Nat → List UInt8} {k : Nat} (disk : AtaDisk)
    (hk : (smallMount disk).InRange k) (hlen : (clusters k).length = 512) :
    ((smallMount disk).view (smallState fat clusters)).data k = clusters k := by
  have hbase : (smallMount disk).dataBase k = 512 * (k + 3) := by
    have h2 := hk.1
    show 512 * (2 + 3 + (k - 2) * 1) = _
    omega
  have h2 := hk.1
  calc ((smallMount disk).view (smallState fat clusters)).data k
      = readBytes ((smallState fat clusters).drive disk.isMaster) ((smallMount disk).dataBase k) 512 :=
        Mount.view_data _ hk
    _ = clusters k := by rw [hbase, readBytes_smallState _ (by omega) hlen]

theorem runSlots_length {i : Nat} (hi : i ≤ 30) :
    ((runSlots i).take 16).length = 16 ∧ ((runSlots i).drop 16).length = 16 := by
  have hlen : (runSlots i).length = 32 := by
    simp [runSlots, makeLfnEntries_length]
    omega
  constructor
  · rw [List.length_take, hlen]
    rfl
  · rw [List.length_drop, hlen]

theorem slots_runSmall {i : Nat} (hi : i ≤ 30) :
    (smallMount ⟨true, true⟩).slots ((smallMount ⟨true, true⟩).view (runSmall i)) [2, 3] =
      runSlots i := by
  obtain ⟨hlen1, hlen2⟩ := runSlots_length hi
  have h2 : ((smallMount ⟨true, true⟩).view (runSmall i)).data 2 =
      ((runSlots i).take 16).flatMap (·.1) :=
    data_smallState (k := 2) _ (by decide) ((flatMap_slot_length _).trans (by rw [hlen1]))
  have h3 : ((smallMount ⟨true, true⟩).view (runSmall i)).data 3 =
      ((runSlots i).drop 16).flatMap (·.1) :=
    data_smallState (k := 3) _ (by decide) ((flatMap_slot_length _).trans (by rw [hlen2]))
  have hfirst := map_slotAt_flatMap ((runSlots i).take 16)
  have hsecond := map_slotAt_flatMap ((runSlots i).drop 16)
  rw [hlen1] at hfirst
  rw [hlen2] at hsecond
  calc (smallMount ⟨true, true⟩).slots ((smallMount ⟨true, true⟩).view (runSmall i)) [2, 3]
      = (List.range 16).map (slotAt (((runSlots i).take 16).flatMap (·.1))) ++
          ((List.range 16).map (slotAt (((runSlots i).drop 16).flatMap (·.1))) ++ []) := by
        rw [← h2, ← h3]
        rfl
    _ = (runSlots i).take 16 ++ ((runSlots i).drop 16 ++ []) := by rw [hfirst, hsecond]
    _ = runSlots i := by rw [List.append_nil, List.take_append_drop]

theorem slots_runWide {i : Nat} (hi : i ≤ 30) :
    (wideMount ⟨true, true⟩).slots ((wideMount ⟨true, true⟩).view (runWide i)) [2] =
      runSlots i := by
  obtain ⟨hlen1, hlen2⟩ := runSlots_length hi
  have hlen : (runSlots i).length = 32 := by
    rw [← List.take_append_drop 16 (runSlots i), List.length_append, hlen1, hlen2]
  have h2 : ((wideMount ⟨true, true⟩).view (runWide i)).data 2 = (runSlots i).flatMap (·.1) := by
    have hin : (wideMount ⟨true, true⟩).InRange 2 := by decide
    have hbase : (wideMount ⟨true, true⟩).dataBase 2 = 512 * (2 + 3) := by decide
    have hsize : (wideMount ⟨true, true⟩).clusterSize = 512 + 512 := by decide
    calc ((wideMount ⟨true, true⟩).view (runWide i)).data 2
        = readBytes ((runWide i).drive true) ((wideMount ⟨true, true⟩).dataBase 2)
            (wideMount ⟨true, true⟩).clusterSize := Mount.view_data _ hin
      _ = readBytes ((runWide i).drive true) (512 * (2 + 3)) (512 + 512) := by rw [hbase, hsize]
      _ = readBytes ((runWide i).drive true) (512 * (2 + 3)) 512 ++
            readBytes ((runWide i).drive true) (512 * (3 + 3)) 512 := readBytes_add _ _ _ _
      _ = ((runSlots i).take 16).flatMap (·.1) ++ ((runSlots i).drop 16).flatMap (·.1) := by
          unfold runWide
          rw [readBytes_smallState (k := 2) true (by decide)
              ((flatMap_slot_length _).trans (by rw [hlen1])),
            readBytes_smallState (k := 3) true (by decide)
              ((flatMap_slot_length _).trans (by rw [hlen2]))]
          rfl
      _ = (runSlots i).flatMap (·.1) := by rw [← List.flatMap_append, List.take_append_drop]
  have hslots := map_slotAt_flatMap (runSlots i)
  rw [hlen] at hslots
  calc (wideMount ⟨true, true⟩).slots ((wideMount ⟨true, true⟩).view (runWide i)) [2]
      = (List.range 32).map (slotAt ((runSlots i).flatMap (·.1))) ++ [] := by
        rw [← h2]
        rfl
    _ = runSlots i := by rw [hslots, List.append_nil]

end Os003
