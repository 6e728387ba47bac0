import Os003.Fs.Lookup

set_option autoImplicit false

/-! # The long-name codec

`make_lfn_entries` cuts a name into pieces of 13 characters, and `rebuild_lfn_name` joins the
texts of the pieces it is given, the last one first. The buffers of the source bound the result;
without the bounds, the text of a piece is `Slot.text`, and what is rebuilt is the concatenation
of the texts, cut off at the size of the buffer (`rebuildLfnName_eq`).
-/

namespace Os003

open Bytes

/-! ## The text of a piece -/

/-- The characters of a segment up to the first null, without padding. -/
def segmentText (units : List Nat) : List UInt8 :=
  ((units.takeWhile (· ≠ 0)).filter (· ≠ 0xFFFF)).map (fun ch => UInt8.ofNat (ch &&& 0xFF))

/-- The characters of a long-name piece. -/
def Slot.text (e : Slot) : List UInt8 :=
  segmentText e.name1 ++ segmentText e.name2 ++ segmentText e.name3

theorem segmentText_cons (ch : Nat) (rest : List Nat) : segmentText (ch :: rest) =
    if ch = 0 then []
    else if ch = 0xFFFF then segmentText rest
    else UInt8.ofNat (ch &&& 0xFF) :: segmentText rest := by
  by_cases h0 : ch = 0
  · simp [segmentText, h0]
  · by_cases hpad : ch = 0xFFFF
    · simp [segmentText, hpad]
    · simp [segmentText, h0, hpad]

/-- Copying a segment stops one byte before the end of the buffer. -/
theorem lfnCopyNameSegment_eq (outMax : Nat) (units : List Nat) :
    lfnCopyNameSegment outMax units = (segmentText units).take (outMax - 1) := by
  induction units generalizing outMax with
  | nil => simp [lfnCopyNameSegment, segmentText]
  | cons ch rest ih =>
      rw [lfnCopyNameSegment, segmentText_cons]
      by_cases hroom : outMax ≤ 1
      · rw [if_pos hroom, show outMax - 1 = 0 by omega, List.take_zero]
      · rw [if_neg hroom]
        by_cases h0 : ch = 0
        · rw [if_pos h0, if_pos h0, List.take_nil]
        · rw [if_neg h0, if_neg h0]
          by_cases hpad : ch = 0xFFFF
          · rw [if_pos hpad, if_pos hpad, ih]
          · rw [if_neg hpad, if_neg hpad, ih]
            obtain ⟨k, hk⟩ : ∃ k, outMax - 1 = k + 1 := ⟨outMax - 2, by omega⟩
            rw [hk, List.take_succ_cons, Nat.add_sub_cancel]

/-! ## What is rebuilt -/

/-- Cutting off twice. -/
theorem take_append_take {α : Type} (l r : List α) (m : Nat) :
    (l.take m ++ r).take m = (l ++ r).take m := by
  rcases Nat.le_total l.length m with h | h
  · rw [List.take_of_length_le h]
  · rw [List.take_append_of_le_length h, List.take_append_of_le_length (by simp [h]),
      List.take_take, min_self]

/-- Appending a segment to what is in the buffer. -/
theorem append_segment {outMax : Nat} {out : List UInt8} (h : out.length ≤ outMax - 1)
    (units : List Nat) : out ++ lfnCopyNameSegment (outMax - out.length) units =
      (out ++ segmentText units).take (outMax - 1) := by
  rw [lfnCopyNameSegment_eq, List.take_append, List.take_of_length_le h]
  congr 2
  omega

theorem rebuildStep_eq {outMax : Nat} {out : List UInt8} (h : out.length ≤ outMax - 1) (e : Slot) :
    rebuildStep outMax out e = (out ++ e.text).take (outMax - 1) := by
  have hcut : ∀ l : List UInt8, (l.take (outMax - 1)).length ≤ outMax - 1 := by
    intro l
    rw [List.length_take]
    omega
  calc rebuildStep outMax out e
      = ((((out ++ segmentText e.name1).take (outMax - 1)) ++ segmentText e.name2).take
          (outMax - 1) ++ segmentText e.name3).take (outMax - 1) := by
        unfold rebuildStep
        simp only []
        rw [append_segment h, append_segment (hcut _), append_segment (hcut _)]
    _ = (out ++ e.text).take (outMax - 1) := by
        rw [take_append_take, List.append_assoc, take_append_take, Slot.text]
        simp only [List.append_assoc]

/-- `rebuild_lfn_name` joins the texts, the last one of the array first. -/
theorem rebuildLfnName_eq (entries : List Slot) (outMax : Nat) :
    rebuildLfnName entries outMax = (entries.reverse.flatMap Slot.text).take (outMax - 1) := by
  have key : ∀ (es : List Slot) (out : List UInt8), out.length ≤ outMax - 1 →
      es.foldl (rebuildStep outMax) out = (out ++ es.flatMap Slot.text).take (outMax - 1) := by
    intro es
    induction es with
    | nil =>
        intro out h
        rw [List.foldl_nil, List.flatMap_nil, List.append_nil, List.take_of_length_le h]
    | cons e es ih =>
        intro out h
        rw [List.foldl_cons, rebuildStep_eq h, ih, take_append_take, List.flatMap_cons,
          List.append_assoc]
        rw [List.length_take]
        omega
  unfold rebuildLfnName
  rw [key _ _ (by simp), List.nil_append]

/-- The two readings of the pieces at the given places: in reverse slot order, and in slot
order. -/
theorem foundLongName_eq (buf : List UInt8) (lfn : List Nat) : foundLongName buf lfn =
    (lfn.reverse.flatMap (fun j => (slotAt buf j).text)).take (fat32MaxName - 1) := by
  rw [foundLongName, rebuildLfnName_eq, ← List.map_reverse, List.flatMap_map]

theorem orderedLongName_eq (buf : List UInt8) (lfn : List Nat) : orderedLongName buf lfn =
    (lfn.flatMap (fun j => (slotAt buf j).text)).take (fat32MaxName - 1) := by
  rw [orderedLongName, rebuildLfnName_eq, ← List.map_reverse, List.reverse_reverse,
    List.flatMap_map]

/-! ## The text of the pieces of a name -/

theorem name1_mkLfn (order : Nat) (checksum : UInt8) {units : List Nat} (h : units.length = 13)
    (hlt : ∀ u ∈ units, u < 2 ^ 16) : (mkLfn order checksum units h).name1 = units.take 5 ∧
      (mkLfn order checksum units h).name2 = (units.drop 5).take 6 ∧
      (mkLfn order checksum units h).name3 = units.drop 11 := by
  match units, h with
  | [u0, u1, u2, u3, u4, u5, u6, u7, u8, u9, u10, u11, u12], _ =>
      simp only [List.mem_cons, List.not_mem_nil, or_false, forall_eq_or_imp, forall_eq] at hlt
      obtain ⟨h0, h1, h2, h3, h4, h5, h6, h7, h8, h9, h10, h11, h12⟩ := hlt
      have hword : ∀ (u : Nat) (l : List UInt8) (off : Nat), u < 2 ^ 16 →
          l.getD off 0 = (le16 u).getD 0 0 → l.getD (off + 1) 0 = (le16 u).getD 1 0 →
          readLe16 l off = u := by
        intro u l off hu hlow hhigh
        have hread := readLe16_le16 u
        rw [Nat.mod_eq_of_lt hu] at hread
        rw [readLe16_eq] at hread ⊢
        rw [hlow, hhigh]
        exact hread
      refine ⟨?_, ?_, ?_⟩
      · simp only [Slot.name1, List.map_cons, List.map_nil]
        rw [hword u0 _ 1 h0 rfl rfl, hword u1 _ 3 h1 rfl rfl, hword u2 _ 5 h2 rfl rfl,
          hword u3 _ 7 h3 rfl rfl, hword u4 _ 9 h4 rfl rfl]
        rfl
      · simp only [Slot.name2, List.map_cons, List.map_nil]
        rw [hword u5 _ 14 h5 rfl rfl, hword u6 _ 16 h6 rfl rfl, hword u7 _ 18 h7 rfl rfl,
          hword u8 _ 20 h8 rfl rfl, hword u9 _ 22 h9 rfl rfl, hword u10 _ 24 h10 rfl rfl]
        rfl
      · simp only [Slot.name3, List.map_cons, List.map_nil]
        rw [hword u11 _ 28 h11 rfl rfl, hword u12 _ 30 h12 rfl rfl]
        rfl

theorem lfnUnits_lt (n : Nat) (l : List UInt8) : ∀ u ∈ lfnUnits n l, u < 2 ^ 16 := by
  induction n generalizing l with
  | zero => simp [lfnUnits]
  | succ n ih =>
      intro u hu
      cases l with
      | nil =>
          simp only [lfnUnits, List.mem_cons, List.mem_replicate] at hu
          omega
      | cons c rest =>
          rcases List.mem_cons.mp hu with rfl | h
          · have := c.toNat_lt
            omega
          · exact ih rest u h

theorem lfnUnits_take {n b : Nat} (h : b ≤ n) (l : List UInt8) :
    (lfnUnits n l).take b = lfnUnits b l := by
  induction n generalizing b l with
  | zero =>
      obtain rfl : b = 0 := by omega
      rfl
  | succ n ih =>
      cases b with
      | zero => rfl
      | succ b =>
          cases l with
          | nil =>
              simp only [lfnUnits, List.take_succ_cons, List.take_replicate]
              rw [min_eq_left (by omega)]
          | cons c rest =>
              simp only [lfnUnits, List.take_succ_cons]
              rw [ih (by omega)]

/-- Behind the end of the name there is padding. -/
theorem lfnUnits_drop (n a : Nat) (l : List UInt8) : (lfnUnits n l).drop a =
    if a ≤ l.length then lfnUnits (n - a) (l.drop a) else List.replicate (n - a) 0xFFFF := by
  induction n generalizing a l with
  | zero => simp [lfnUnits]
  | succ n ih =>
      cases a with
      | zero => simp
      | succ a =>
          cases l with
          | nil => simp [lfnUnits]
          | cons c rest =>
              simp only [lfnUnits, List.drop_succ_cons, ih, List.length_cons, Nat.add_le_add_iff_right,
                Nat.add_sub_add_right]

theorem segmentText_lfnUnits {l : List UInt8} (h : 0 ∉ l) (n : Nat) :
    segmentText (lfnUnits n l) = l.take n := by
  induction n generalizing l with
  | zero => rfl
  | succ n ih =>
      cases l with
      | nil => rw [lfnUnits, segmentText_cons, if_pos rfl, List.take_nil]
      | cons c rest =>
          have hc : c.toNat ≠ 0 := by
            intro h0
            have : c = 0 := UInt8.toNat_inj.mp h0
            exact h (by rw [this]; exact List.mem_cons_self)
          have hlt := c.toNat_lt
          have hbyte : UInt8.ofNat (c.toNat &&& 0xFF) = c := by
            rw [show 0xFF = 2 ^ 8 - 1 from rfl, Nat.and_two_pow_sub_one_eq_mod, Nat.mod_eq_of_lt hlt,
              UInt8.ofNat_toNat]
          rw [lfnUnits, segmentText_cons, if_neg hc, if_neg (by omega), hbyte,
            ih (fun h0 => h (List.mem_cons_of_mem _ h0)), List.take_succ_cons]

theorem segmentText_padding (n : Nat) : segmentText (List.replicate n 0xFFFF) = [] := by
  induction n with
  | zero => rfl
  | succ n ih => rw [List.replicate_succ, segmentText_cons, if_neg (by decide), if_pos rfl, ih]

/-- A segment of a piece holds its part of the name. -/
theorem segmentText_part {l : List UInt8} (h : 0 ∉ l) {n a b : Nat} (hab : a + b ≤ n) :
    segmentText (((lfnUnits n l).drop a).take b) = (l.drop a).take b := by
  rw [lfnUnits_drop]
  by_cases ha : a ≤ l.length
  · rw [if_pos ha, lfnUnits_take (by omega), segmentText_lfnUnits]
    exact fun h0 => h (List.mem_of_mem_drop h0)
  · rw [if_neg ha, List.take_replicate, segmentText_padding, List.drop_of_length_le (by omega),
      List.take_nil]

/-- A piece holds the next 13 characters of the name. -/
theorem text_mkLfn {l : List UInt8} (h : 0 ∉ l) (order : Nat) (checksum : UInt8) :
    (mkLfn order checksum (lfnUnits 13 l) (lfnUnits_length 13 l)).text = l.take 13 := by
  obtain ⟨h1, h2, h3⟩ := name1_mkLfn order checksum
    (lfnUnits_length 13 l) (lfnUnits_lt 13 l)
  have hlast : (lfnUnits 13 l).drop 11 = ((lfnUnits 13 l).drop 11).take 2 := by
    rw [List.take_of_length_le]
    rw [List.length_drop, lfnUnits_length]
  have hfirst : (lfnUnits 13 l).take 5 = ((lfnUnits 13 l).drop 0).take 5 := rfl
  calc (mkLfn order checksum (lfnUnits 13 l) (lfnUnits_length 13 l)).text
      = l.take 5 ++ (l.drop 5).take 6 ++ (l.drop 11).take 2 := by
        rw [Slot.text, h1, h2, h3, hlast, hfirst, segmentText_part h (by decide),
          segmentText_part h (by decide), segmentText_part h (by decide), List.drop_zero]
    _ = l.take 13 := by
        rw [← List.take_add, ← List.take_add]

/-! ## The pieces of a name -/

/-- The name in pieces of 13 characters. -/
def namePieces (name : List UInt8) : List (List UInt8) :=
  (List.range ((name.length + 12) / 13)).map fun i => (name.drop (i * 13)).take 13

theorem namePieces_flatten (name : List UInt8) : (namePieces name).flatten = name := by
  have key : ∀ n, ((List.range n).map fun i => (name.drop (i * 13)).take 13).flatten =
      name.take (n * 13) := by
    intro n
    induction n with
    | zero => simp
    | succ n ih =>
        rw [List.range_succ, List.map_append, List.flatten_append, ih, Nat.succ_mul, List.take_add]
        simp
  rw [namePieces, key, List.take_of_length_le (by omega)]

theorem text_makeLfnEntries {name : List UInt8} (h : 0 ∉ name) (checksum : UInt8) :
    (makeLfnEntries name checksum).map Slot.text = namePieces name := by
  unfold makeLfnEntries namePieces
  simp only [List.map_map]
  refine List.map_congr_left (fun i _ => ?_)
  exact text_mkLfn (fun h0 => h (List.mem_of_mem_drop h0)) _ _

theorem cstr_of_not_mem {l : List UInt8} (h : 0 ∉ l) : cstr l = l := by
  unfold cstr
  rw [List.takeWhile_eq_self_iff]
  intro c hc
  simp only [ne_eq, decide_eq_true_eq]
  rintro rfl
  exact h hc

/-! ## Runs of long-name slots -/

/-- A slot that the scanners collect as a piece of a long name. -/
structure IsPiece (e : Slot) : Prop where
  attr : e.attr = attrLfn
  notEnd : e.name0 ≠ 0x00
  notDeleted : e.name0 ≠ 0xE5

theorem pushPiece_eq {lfn : List Nat} (h : lfn.length ≤ lfnMaxPieces) (i : Nat) :
    pushPiece lfn i = (lfn ++ [i]).take lfnMaxPieces := by
  unfold pushPiece
  by_cases hroom : lfn.length < lfnMaxPieces
  · rw [if_pos hroom, List.take_of_length_le]
    rw [List.length_append, List.length_singleton]
    omega
  · have hlen : lfn.length = lfnMaxPieces := by omega
    rw [if_neg hroom, ← hlen, List.take_left]

/-- The slot loop collects the slots of a run, up to the bound. -/
theorem scanLfn_run {buf : List UInt8} (matched : List Nat → Nat → Bool) {lfn : List Nat}
    {m i : Nat} (n : Nat) (hlfn : lfn.length ≤ lfnMaxPieces)
    (hrun : ∀ j, i ≤ j → j < i + m → IsPiece (slotAt buf j)) :
    scanLfn buf matched (m + n) i lfn =
      scanLfn buf matched n (i + m) ((lfn ++ List.range' i m).take lfnMaxPieces) := by
  induction m generalizing i lfn with
  | zero =>
      rw [Nat.zero_add, Nat.add_zero, List.range'_zero, List.append_nil,
        List.take_of_length_le hlfn]
  | succ m ih =>
      obtain ⟨hattr, h0, he5⟩ := hrun i (Nat.le_refl i) (by omega)
      rw [show m + 1 + n = m + n + 1 by omega, scanLfn]
      rw [if_neg h0, if_neg he5, if_pos hattr, pushPiece_eq hlfn,
        ih (by rw [List.length_take]; omega) (fun j h1 h2 => hrun j (by omega) (by omega)),
        take_append_take, List.range'_succ, List.append_assoc, List.singleton_append]
      congr 1
      omega

theorem setSlots_length {buf : List UInt8} {i : Nat} {es : List Slot}
    (h : 32 * (i + es.length) ≤ buf.length) : (setSlots buf i es).length = buf.length := by
  induction es generalizing buf i with
  | nil => rfl
  | cons e es ih =>
      rw [List.length_cons] at h
      have hset := setSlot_length buf i e (by omega)
      show (setSlots (setSlot buf i e) (i + 1) es).length = _
      rw [ih (by rw [hset]; omega), hset]

/-- Slots apart from the overwritten ones. -/
theorem slotAt_setSlots_of_not_mem {buf : List UInt8} {i k : Nat} {es : List Slot}
    (h : 32 * (i + es.length) ≤ buf.length) (hk : k < i ∨ i + es.length ≤ k) :
    slotAt (setSlots buf i es) k = slotAt buf k := by
  induction es generalizing buf i with
  | nil => rfl
  | cons e es ih =>
      rw [List.length_cons] at h hk
      have hset := setSlot_length buf i e (by omega)
      show slotAt (setSlots (setSlot buf i e) (i + 1) es) k = _
      rw [ih (by rw [hset]; omega) (by omega), slotAt_setSlot _ _ _ _ (by omega), if_neg (by omega)]

theorem slotAt_setSlots {buf : List UInt8} {i j : Nat} {es : List Slot}
    (h : 32 * (i + es.length) ≤ buf.length) (hj : j < es.length) :
    slotAt (setSlots buf i es) (i + j) = es[j] := by
  induction es generalizing buf i j with
  | nil => cases hj
  | cons e es ih =>
      rw [List.length_cons] at h hj
      have hset := setSlot_length buf i e (by omega)
      show slotAt (setSlots (setSlot buf i e) (i + 1) es) (i + j) = _
      cases j with
      | zero =>
          rw [slotAt_setSlots_of_not_mem (by rw [hset]; omega) (by omega),
            slotAt_setSlot _ _ _ _ (by omega), if_pos (by omega)]
          rfl
      | succ j =>
          rw [show i + (j + 1) = i + 1 + j by omega, ih (by rw [hset]; omega) (by omega)]
          rfl

theorem map_slotAt_setSlots {buf : List UInt8} {i : Nat} {es : List Slot}
    (h : 32 * (i + es.length) ≤ buf.length) :
    (List.range' i es.length).map (slotAt (setSlots buf i es)) = es := by
  apply List.ext_getElem
  · simp
  · intro j h1 h2
    rw [List.getElem_map, List.getElem_range', Nat.one_mul]
    exact slotAt_setSlots h h2

@[simp] theorem makeLfnEntries_length (name : List UInt8) (checksum : UInt8) :
    (makeLfnEntries name checksum).length = (name.length + 12) / 13 := by
  simp [makeLfnEntries]

theorem name0_mkLfn (order : Nat) (checksum : UInt8) (units : List Nat) (h : units.length = 13) :
    (mkLfn order checksum units h).name0 = UInt8.ofNat order := rfl

/-- The entries of a name of at most 255 bytes are pieces, and their order bytes are no special
marks. -/
theorem makeLfnEntries_isPiece {name : List UInt8} (hlen : name.length ≤ 255) {checksum : UInt8}
    {e : Slot} (h : e ∈ makeLfnEntries name checksum) : IsPiece e ∧ e.name0 ≠ 0x2E := by
  have hattr := attr_makeLfnEntries h
  simp only [makeLfnEntries, List.mem_map, List.mem_range] at h
  obtain ⟨i, hi, rfl⟩ := h
  have horder : ∀ t, t < 21 → t ≠ 0 → ∀ b : Bool,
      UInt8.ofNat (t ||| if b = true then 0x40 else 0x00) ≠ 0 ∧
        UInt8.ofNat (t ||| if b = true then 0x40 else 0x00) ≠ 0xE5 ∧
        UInt8.ofNat (t ||| if b = true then 0x40 else 0x00) ≠ 0x2E := by decide +kernel
  obtain ⟨h0, h1, h2⟩ := horder ((name.length + 12) / 13 - i) (by omega) (by omega)
    (decide (i = 0))
  simp only [decide_eq_true_eq] at h0 h1 h2
  exact ⟨⟨hattr, by rw [name0_mkLfn]; exact h0, by rw [name0_mkLfn]; exact h1⟩,
    by rw [name0_mkLfn]; exact h2⟩

/-! ## The round trip -/

/-- The entries that `make_lfn_entries` makes of `name` are written to consecutive slots from `i`
on, and a slot loop goes over them with no piece pending: then the name that
`FAT32_FindEntryAny` rebuilds from what the loop has collected is `name`. -/
def LfnRoundTrip (name : List UInt8) (checksum : UInt8) (buf : List UInt8) (i : Nat) : Prop :=
  ∀ matched, ∃ lfn,
    scanLfn (setSlots buf i (makeLfnEntries name checksum)) matched
      (makeLfnEntries name checksum).length i [] = .inl lfn ∧
    cstr (foundLongName (setSlots buf i (makeLfnEntries name checksum)) lfn) = name

/-- The loop collects all entries of a name. -/
theorem scanLfn_makeLfnEntries {name : List UInt8} (hlen : name.length ≤ 255) {checksum : UInt8}
    {buf : List UInt8} {i : Nat}
    (hroom : 32 * (i + (makeLfnEntries name checksum).length) ≤ buf.length)
    (matched : List Nat → Nat → Bool) :
    scanLfn (setSlots buf i (makeLfnEntries name checksum)) matched
      (makeLfnEntries name checksum).length i [] =
        .inl (List.range' i (makeLfnEntries name checksum).length) := by
  have hpiece : ∀ j, i ≤ j → j < i + (makeLfnEntries name checksum).length →
      IsPiece (slotAt (setSlots buf i (makeLfnEntries name checksum)) j) := by
    intro j h1 h2
    obtain ⟨k, rfl⟩ : ∃ k, j = i + k := ⟨j - i, by omega⟩
    rw [slotAt_setSlots hroom (by omega)]
    exact (makeLfnEntries_isPiece hlen (List.getElem_mem _)).1
  have hrun := scanLfn_run matched 0 (List.length_nil.trans_le (Nat.zero_le _)) hpiece
  rw [Nat.add_zero, List.nil_append, List.take_of_length_le] at hrun
  · exact hrun
  · rw [List.length_range', makeLfnEntries_length, show lfnMaxPieces = 20 from rfl]
    omega

/-- The name comes back exactly if its pieces, joined in reverse order, are the name. -/
theorem lfnRoundTrip_iff {name : List UInt8} (h0 : 0 ∉ name) (hlen : name.length ≤ 255)
    (checksum : UInt8) {buf : List UInt8} {i : Nat}
    (hroom : 32 * (i + (makeLfnEntries name checksum).length) ≤ buf.length) :
    LfnRoundTrip name checksum buf i ↔ (namePieces name).reverse.flatten = name := by
  have hperm : (namePieces name).reverse.flatten.length = name.length := by
    conv_rhs => rw [← namePieces_flatten name]
    rw [List.length_flatten, List.length_flatten, List.map_reverse, List.sum_reverse]
  have hmem : (0 : UInt8) ∉ (namePieces name).reverse.flatten := by
    intro h
    apply h0
    rw [← namePieces_flatten name]
    simpa using h
  -- what is rebuilt
  have hname : cstr (foundLongName (setSlots buf i (makeLfnEntries name checksum))
      (List.range' i (makeLfnEntries name checksum).length)) = (namePieces name).reverse.flatten := by
    have htexts : (List.range' i (makeLfnEntries name checksum).length).map
        (fun j => (slotAt (setSlots buf i (makeLfnEntries name checksum)) j).text) =
          namePieces name := by
      rw [← text_makeLfnEntries h0 checksum]
      conv_rhs => rw [← map_slotAt_setSlots hroom]
      rw [List.map_map]
      rfl
    rw [foundLongName_eq, List.flatMap_def, List.map_reverse, htexts,
      List.take_of_length_le, cstr_of_not_mem hmem]
    rw [hperm, show fat32MaxName = 260 from rfl]
    omega
  constructor
  · intro h
    obtain ⟨lfn, hscan, hback⟩ := h (fun _ _ => false)
    rw [scanLfn_makeLfnEntries hlen hroom] at hscan
    cases hscan
    rw [← hname]
    exact hback
  · intro h matched
    exact ⟨_, scanLfn_makeLfnEntries hlen hroom matched, hname.trans h⟩

/-- A name of at most 13 characters is one piece. -/
theorem namePieces_reverse {name : List UInt8} (h : name.length ≤ 13) :
    (namePieces name).reverse.flatten = name := by
  have hone : (namePieces name).reverse = namePieces name := by
    have hlen : (namePieces name).length ≤ 1 := by
      unfold namePieces
      rw [List.length_map, List.length_range]
      omega
    match namePieces name, hlen with
    | [], _ => rfl
    | [p], _ => rfl
  rw [hone, namePieces_flatten]

/-- "README.TXT". -/
theorem lfnRoundTrip_short : LfnRoundTrip [82, 69, 65, 68, 77, 69, 46, 84, 88, 84] 0
    (List.replicate 512 0) 0 :=
  (lfnRoundTrip_iff (by decide) (by decide) 0 (by decide +kernel)).mpr (namePieces_reverse (by decide))

/-- A name of two pieces comes back with the second piece first. -/
theorem lfnRoundTrip_fails : ¬ LfnRoundTrip (List.replicate 13 65 ++ [66]) 0
    (List.replicate 512 0) 0 := by
  intro h
  obtain ⟨lfn, hscan, hname⟩ := h (fun _ _ => false)
  have hval : (match scanLfn (setSlots (List.replicate 512 0) 0
      (makeLfnEntries (List.replicate 13 65 ++ [66]) 0)) (fun _ _ => false)
      (makeLfnEntries (List.replicate 13 65 ++ [66]) 0).length 0 [] with
    | .inl l => cstr (foundLongName (setSlots (List.replicate 512 0) 0
        (makeLfnEntries (List.replicate 13 65 ++ [66]) 0)) l)
    | .inr _ => []) = 66 :: List.replicate 13 65 := by decide +kernel
  simp only [hscan, hname] at hval
  exact absurd hval (by decide)

/-! ## The decoders -/

/-- A run of long-name slots `i`, ..., `k - 1` in a cluster of `n` slots, with the live short entry
it belongs to behind it, whose checksum fits. The order bytes are any but the marks for an end and
for a deleted slot. -/
structure LfnRun (buf : List UInt8) (n i k : Nat) : Prop where
  nonempty : i < k
  first : 0 < i → ¬ IsPiece (slotAt buf (i - 1))
  piece : ∀ j, i ≤ j → j < k → IsPiece (slotAt buf j)
  live : SlotLive buf n k
  checksum : lfnValid buf ((List.range' i (k - i)).take lfnMaxPieces) k = true

/-- The pieces that the slot loop of `FAT32_FindEntryAny`, `FAT32_RenameFile`, `FAT32_RemoveDir`
and `FAT32_DeleteFile` has collected when it comes to the entry in slot `k`. -/
def collected (buf : List UInt8) (n k : Nat) (lfn : List Nat) : List Nat :=
  match scanLfn buf (fun _ j => j == k) n 0 lfn with
  | .inr (_, lfn') => lfn'
  | .inl _ => []

theorem collected_eq {buf : List UInt8} {n k : Nat} (h : SlotLive buf n k) (lfn : List Nat) :
    collected buf n k lfn = pieces buf lfn k := by
  unfold collected
  cases hscan : scanLfn buf (fun _ j => j == k) n 0 lfn with
  | inl x =>
      have hscan' : scanLfn buf (fun _ j => j == k) n 0 (pieces buf lfn 0) = .inl x := hscan
      have hmiss := scanLfn_inl hscan' (by rw [Nat.zero_add]; exact h) (Nat.zero_le k)
      simp at hmiss
  | inr hit =>
      obtain ⟨j, lfn'⟩ := hit
      have hscan' : scanLfn buf (fun _ j => j == k) n 0 (pieces buf lfn 0) = .inr (j, lfn') := hscan
      obtain ⟨-, -, hlfn, hmatch, -⟩ := scanLfn_inr hscan' (fun x hx => absurd hx (Nat.not_lt_zero x))
      have hjk : j = k := by simpa using hmatch
      rw [← hjk]
      exact hlfn

/-- The pieces pending behind a run. -/
theorem pieces_run {buf : List UInt8} {lfn : List Nat} {i m : Nat} (hnil : pieces buf lfn i = [])
    (hrun : ∀ j, i ≤ j → j < i + m → IsPiece (slotAt buf j)) :
    pieces buf lfn (i + m) = (List.range' i m).take lfnMaxPieces := by
  induction m with
  | zero => rw [Nat.add_zero, hnil, List.range'_zero, List.take_nil]
  | succ m ih =>
      obtain ⟨hattr, h0, he5⟩ := hrun (i + m) (by omega) (by omega)
      rw [← Nat.add_assoc, pieces, if_neg he5, if_pos hattr,
        ih (fun j h1 h2 => hrun j h1 (by omega)), pushPiece_eq (by rw [List.length_take]; omega),
        take_append_take, List.range'_concat, Nat.one_mul]

/-- Nothing is pending behind a slot that is no piece. -/
theorem pieces_of_not_isPiece {buf : List UInt8} {lfn : List Nat} {i : Nat}
    (h0 : (slotAt buf i).name0 ≠ 0) (h : ¬ IsPiece (slotAt buf i)) : pieces buf lfn (i + 1) = [] := by
  rw [pieces]
  by_cases he5 : (slotAt buf i).name0 = 0xE5
  · rw [if_pos he5]
  · rw [if_neg he5, if_neg (fun hattr => h ⟨hattr, h0, he5⟩)]

theorem LfnRun.collected {buf : List UInt8} {n i k : Nat} (h : LfnRun buf n i k) {lfn : List Nat}
    (hlfn : i = 0 → lfn = []) :
    collected buf n k lfn = (List.range' i (k - i)).take lfnMaxPieces := by
  have hnil : pieces buf lfn i = [] := by
    cases i with
    | zero => exact hlfn rfl
    | succ i =>
        have hi := h.nonempty
        exact pieces_of_not_isPiece (h.live.reached i (by omega)) (h.first (by omega))
  have hlt := h.nonempty
  have hrun := pieces_run (m := k - i) hnil (fun j h1 h2 => h.piece j h1 (by omega))
  rw [collected_eq h.live, ← hrun, show i + (k - i) = k by omega]

/-! `FAT32_ListDirectory` has a slot loop of its own. -/

/-- One turn of the loop over a slot that is not the end: it goes on with at most one more entry
listed, and drops the pieces unless the slot is one. -/
theorem scanList_turn {buf : List UInt8} {capacity i : Nat} (lfn : List Nat) {r : List ListEntry}
    (h0 : (slotAt buf i).name0 ≠ 0) (hroom : r.length < capacity) :
    ∃ lfn' r', r'.length ≤ r.length + 1 ∧
      (∀ n, scanList buf capacity (n + 1) i (lfn, r) = scanList buf capacity n (i + 1) (lfn', r')) ∧
      (¬ IsPiece (slotAt buf i) → lfn' = []) := by
  by_cases he5 : (slotAt buf i).name0 = 0xE5
  · refine ⟨[], r, by omega, ?_, fun _ => rfl⟩
    intro n
    rw [scanList, if_neg h0, if_pos he5]
  · by_cases hdot : (slotAt buf i).name0 = 0x2E
    · refine ⟨[], r, by omega, ?_, fun _ => rfl⟩
      intro n
      rw [scanList, if_neg h0, if_neg he5, if_pos hdot]
    · by_cases hlfn : (slotAt buf i).attr = attrLfn
      · refine ⟨pushPiece lfn i, r, by omega, ?_, fun h => absurd ⟨hlfn, h0, he5⟩ h⟩
        intro n
        rw [scanList, if_neg h0, if_neg he5, if_neg hdot, if_pos hlfn]
      · by_cases hvol : (slotAt buf i).attr &&& attrVolumeId ≠ 0
        · refine ⟨[], r, by omega, ?_, fun _ => rfl⟩
          intro n
          rw [scanList, if_neg h0, if_neg he5, if_neg hdot, if_neg hlfn, if_pos hvol]
        · refine ⟨[], r ++ [⟨slotAt buf i, if lfnValid buf lfn i then orderedLongName buf lfn
            else sfnDisplayName (slotAt buf i).name⟩], by simp, ?_, fun _ => rfl⟩
          intro n
          rw [scanList, if_neg h0, if_neg he5, if_neg hdot, if_neg hlfn, if_neg hvol,
            if_neg (by omega)]

/-- The loop up to slot `m`, when none of the slots before is the end. -/
theorem scanList_prefix {buf : List UInt8} {capacity m : Nat} (lfn : List Nat) {r : List ListEntry}
    (h0 : ∀ j, j < m → (slotAt buf j).name0 ≠ 0) (hroom : r.length + m ≤ capacity) :
    ∃ lfn' r', r'.length ≤ r.length + m ∧
      (∀ n, scanList buf capacity (m + n) 0 (lfn, r) = scanList buf capacity n m (lfn', r')) ∧
      (m = 0 → lfn' = lfn) ∧ (0 < m → ¬ IsPiece (slotAt buf (m - 1)) → lfn' = []) := by
  induction m with
  | zero =>
      refine ⟨lfn, r, Nat.le_refl _, ?_, fun _ => rfl, fun h => absurd h (Nat.lt_irrefl 0)⟩
      intro n
      rw [Nat.zero_add]
  | succ m ih =>
      obtain ⟨lfn1, r1, hr1, hscan1, -, -⟩ := ih (fun j hj => h0 j (by omega)) (by omega)
      obtain ⟨lfn2, r2, hr2, hscan2, hnil⟩ :=
        scanList_turn lfn1 (h0 m (by omega)) (show r1.length < capacity by omega)
      refine ⟨lfn2, r2, by omega, ?_, fun h => absurd h (Nat.succ_ne_zero m), fun _ hp => hnil hp⟩
      intro n
      rw [show m + 1 + n = m + (n + 1) by omega, hscan1, hscan2]

/-- Where `FAT32_ListDirectory` begins to collect anew among the `m` slots from `i` on: it tests the
order byte for the mark of "." and ".." before it looks whether the slot is a piece. -/
def behindDot (buf : List UInt8) (i : Nat) : Nat → Nat
  | 0 => i
  | m + 1 => if (slotAt buf (i + m)).name0 = 0x2E then i + m + 1 else behindDot buf i m

theorem behindDot_bounds (buf : List UInt8) (i m : Nat) :
    i ≤ behindDot buf i m ∧ behindDot buf i m ≤ i + m := by
  induction m with
  | zero => exact ⟨Nat.le_refl i, Nat.le_refl i⟩
  | succ m ih =>
      rw [behindDot]
      split <;> omega

theorem behindDot_of_ne {buf : List UInt8} {i m : Nat}
    (h : ∀ j, i ≤ j → j < i + m → (slotAt buf j).name0 ≠ 0x2E) : behindDot buf i m = i := by
  induction m with
  | zero => rfl
  | succ m ih =>
      rw [behindDot, if_neg (h (i + m) (by omega) (by omega))]
      exact ih (fun j h1 h2 => h j h1 (by omega))

/-- The pieces that `FAT32_ListDirectory` has collected behind the run `i`, ..., `k - 1`. -/
def listedPieces (buf : List UInt8) (i k : Nat) : List Nat :=
  (List.range' (behindDot buf i (k - i)) (k - behindDot buf i (k - i))).take lfnMaxPieces

theorem scanList_run {buf : List UInt8} {capacity m n i : Nat} {r : List ListEntry}
    (hrun : ∀ j, i ≤ j → j < i + m → IsPiece (slotAt buf j)) :
    scanList buf capacity (m + n) i ([], r) =
      scanList buf capacity n (i + m) (listedPieces buf i (i + m), r) := by
  rw [listedPieces, Nat.add_sub_cancel_left]
  induction m generalizing n with
  | zero => simp [behindDot]
  | succ m ih =>
      obtain ⟨hattr, h0, he5⟩ := hrun (i + m) (by omega) (by omega)
      obtain ⟨hle, hge⟩ := behindDot_bounds buf i m
      rw [show m + 1 + n = m + (n + 1) by omega, ih (fun j h1 h2 => hrun j h1 (by omega)), scanList,
        if_neg h0, if_neg he5, behindDot, ← Nat.add_assoc]
      by_cases hdot : (slotAt buf (i + m)).name0 = 0x2E
      · rw [if_pos hdot, if_pos hdot, Nat.sub_self, List.range'_zero, List.take_nil]
      · have hcount : i + m + 1 - behindDot buf i m = i + m - behindDot buf i m + 1 := by omega
        have hlast : behindDot buf i m + (i + m - behindDot buf i m) = i + m := by omega
        rw [if_neg hdot, if_pos hattr, if_neg hdot, pushPiece_eq (by rw [List.length_take]; omega),
          take_append_take, hcount, List.range'_concat, Nat.one_mul, hlast]

/-- The name `FAT32_ListDirectory` reports for the entry behind the run: the text of the pieces it has
collected, or the short name when it has none or their checksum does not fit. -/
def listedName (buf : List UInt8) (i k : Nat) : List UInt8 :=
  if lfnValid buf (listedPieces buf i k) k then orderedLongName buf (listedPieces buf i k)
  else sfnDisplayName (slotAt buf k).name

/-- Behind a run the loop lists the entry. -/
theorem LfnRun.listed {buf : List UInt8} {n i k : Nat} (h : LfnRun buf n i k) (capacity : Nat)
    {lfn : List Nat} {r : List ListEntry} (hlfn : i = 0 → lfn = [])
    (hroom : r.length + n ≤ capacity) :
    ∃ r', scanList buf capacity (k + 1) 0 (lfn, r) =
      .inl ([], r' ++ [⟨slotAt buf k, listedName buf i k⟩]) := by
  have hik := h.nonempty
  have hkn := h.live.lt
  obtain ⟨lfn', r', hr', hscan, hzero, hnil⟩ := scanList_prefix lfn
    (fun j hj => h.live.reached j (by omega)) (show r.length + i ≤ capacity by omega)
  have hlfn' : lfn' = [] := by
    rcases Nat.eq_zero_or_pos i with h0 | hpos
    · rw [hzero h0, hlfn h0]
    · exact hnil hpos (h.first hpos)
  subst hlfn'
  obtain ⟨h0, he5, hdot, hattr, hvol⟩ := (isValidSfnEntry_iff _).mp h.live.valid
  refine ⟨r', ?_⟩
  rw [show k + 1 = i + ((k - i) + 1) by omega, hscan,
    scanList_run (fun j h1 h2 => h.piece j h1 (by omega)), show i + (k - i) = k by omega, scanList,
    if_neg h0, if_neg he5, if_neg hdot, if_neg hattr, if_neg (not_not.mpr hvol), if_neg (by omega),
    scanList, listedName]

/-- The three readings of the long name of the entry in slot `k` are the same: the name
`FAT32_FindEntryAny` compares, the name `FAT32_RenameFile`, `FAT32_RemoveDir` and
`FAT32_DeleteFile` compare, and the name `FAT32_ListDirectory` reports. `lfn` and `r` are what
the loops bring along from the clusters before. -/
structure NamesAgree (buf : List UInt8) (n k : Nat) (lfn : List Nat) (r : List ListEntry) :
    Prop where
  removed : cstr (foundLongName buf (collected buf n k lfn)) =
    cstr (orderedLongName buf (collected buf n k []))
  listed : ∃ lfn' r' e, scanList buf (n * 8) (k + 1) 0 (lfn, r) = .inl (lfn', r' ++ [e]) ∧
    e.entry = slotAt buf k ∧
    cstr e.displayName = cstr (foundLongName buf (collected buf n k lfn))

/-- The texts of the pieces of a run, in slot order; from the 21st on they do not count. -/
def runTexts (buf : List UInt8) (i k : Nat) : List (List UInt8) :=
  ((List.range' i (k - i)).take lfnMaxPieces).map fun j => (slotAt buf j).text

/-- Without an order byte 0x2E among its slots, a run is listed under the text of all its pieces. -/
theorem LfnRun.listedName_eq {buf : List UInt8} {n i k : Nat} (h : LfnRun buf n i k)
    (hdot : ∀ j, i ≤ j → j < k → (slotAt buf j).name0 ≠ 0x2E) :
    listedName buf i k = (runTexts buf i k).flatten.take (fat32MaxName - 1) := by
  have hik := h.nonempty
  have hpieces : listedPieces buf i k = (List.range' i (k - i)).take lfnMaxPieces := by
    rw [listedPieces, behindDot_of_ne (fun j h1 h2 => hdot j h1 (by omega))]
  rw [listedName, hpieces, if_pos h.checksum, orderedLongName_eq, List.flatMap_def, runTexts]

/-- The decoders agree on a run exactly if its texts spell the same in slot order and in reverse
slot order, and `FAT32_ListDirectory`, which starts anew behind an order byte 0x2E, is left with
what spells the same. -/
theorem namesAgree_iff {buf : List UInt8} {n i k : Nat} (h : LfnRun buf n i k) {lfn : List Nat}
    {r : List ListEntry} (hlfn : i = 0 → lfn = []) (hroom : r.length + n ≤ n * 8) :
    NamesAgree buf n k lfn r ↔
      cstr ((runTexts buf i k).reverse.flatten.take (fat32MaxName - 1)) =
          cstr ((runTexts buf i k).flatten.take (fat32MaxName - 1)) ∧
        cstr (listedName buf i k) =
          cstr ((runTexts buf i k).flatten.take (fat32MaxName - 1)) := by
  have hfound : foundLongName buf (collected buf n k lfn) =
      (runTexts buf i k).reverse.flatten.take (fat32MaxName - 1) := by
    rw [h.collected hlfn, foundLongName_eq, List.flatMap_def, List.map_reverse, runTexts]
  have hremoved : orderedLongName buf (collected buf n k []) =
      (runTexts buf i k).flatten.take (fat32MaxName - 1) := by
    rw [h.collected (fun _ => rfl), orderedLongName_eq, List.flatMap_def, runTexts]
  obtain ⟨r0, hscan⟩ := h.listed (n * 8) hlfn hroom
  constructor
  · intro hagree
    have hr := hagree.removed
    rw [hfound, hremoved] at hr
    obtain ⟨lfn', r', e, hlist, -, hname⟩ := hagree.listed
    rw [hscan] at hlist
    -- what is listed last is the entry behind the run
    have he : [(⟨slotAt buf k, listedName buf i k⟩ : ListEntry)] = [e] :=
      (List.append_inj' (Prod.mk.inj (Sum.inl.inj hlist)).2 rfl).2
    rw [← (List.cons.inj he).1, hfound] at hname
    exact ⟨hr, hname.trans hr⟩
  · rintro ⟨hsame, hlisted⟩
    constructor
    · rw [hfound, hremoved, hsame]
    · refine ⟨[], r0, _, hscan, rfl, ?_⟩
      show cstr (listedName buf i k) = _
      rw [hlisted, hfound, hsame]

/-- The root cluster after a file has been created in it: the pieces of the name and the short
entry. -/
def namedCluster (name : List UInt8) : List UInt8 :=
  setSlots (List.replicate 512 0) 0 (newSlots name attrArchive
    { second := 0, minute := 0, hour := 0, day := 1, month := 1, year := 0 } 0)

theorem namesAgree_short :
    LfnRun (namedCluster [82, 69, 65, 68, 77, 69]) 16 0 1 ∧
      NamesAgree (namedCluster [82, 69, 65, 68, 77, 69]) 16 1 [] [] := by
  have hrun : LfnRun (namedCluster [82, 69, 65, 68, 77, 69]) 16 0 1 := by
    refine ⟨by decide, fun h => absurd h (by decide), ?_, by decide +kernel, by decide +kernel⟩
    intro j _ hj
    obtain rfl : j = 0 := by omega
    exact ⟨by decide +kernel, by decide +kernel, by decide +kernel⟩
  have hlisted := hrun.listedName_eq fun j _ hj => by
    obtain rfl : j = 0 := by omega
    decide +kernel
  exact ⟨hrun, (namesAgree_iff hrun (fun _ => rfl) (by decide)).mpr
    ⟨by decide +kernel, congrArg cstr hlisted⟩⟩

/-- A run of two pieces, as `FAT32_CreateFile` writes it for a name of 14 characters. -/
theorem namesAgree_fails :
    LfnRun (namedCluster (List.replicate 13 65 ++ [66])) 16 0 2 ∧
      ¬ NamesAgree (namedCluster (List.replicate 13 65 ++ [66])) 16 2 [] [] := by
  constructor
  · refine ⟨by decide, fun h => absurd h (by decide), ?_, by decide +kernel, by decide +kernel⟩
    intro j _ hj
    obtain rfl | rfl : j = 0 ∨ j = 1 := by omega
    · exact ⟨by decide +kernel, by decide +kernel, by decide +kernel⟩
    · exact ⟨by decide +kernel, by decide +kernel, by decide +kernel⟩
  · intro h
    exact absurd h.removed (by decide +kernel)

end Os003
