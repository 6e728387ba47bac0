import Os003.Fs.Rename

set_option autoImplicit false

/-! # Listed names

`FAT32_ListDirectory` prints a name for each entry, `FAT32_FindEntryAny` is asked for an entry by
that name. The one puts the text of the long-name pieces together in slot order, the other in
reverse slot order; the one prints the 11 bytes of a short name without a dot, the other looks for
one. Both go through the same entries: `Volume.shown` is that sequence, with the pieces each of the
two has collected for an entry.
-/

namespace Os003

open Bytes

/-! ## What a listing collects -/

/-- The pieces `FAT32_ListDirectory` has pending when it reaches slot `i`: other than the searches
it takes a long-name slot whose order byte is 0x2E for an entry "." and drops them. -/
def listPieces (buf : List UInt8) (lfn : List Nat) : Nat → List Nat
  | 0 => lfn
  | i + 1 =>
      if (slotAt buf i).name0 = 0xE5 ∨ (slotAt buf i).name0 = 0x2E then []
      else if (slotAt buf i).attr = attrLfn then pushPiece (listPieces buf lfn i) i
      else []

/-- The pieces pending at the end mark, or at the end of the cluster, from slot `i` on. -/
def listPending (buf : List UInt8) (lfn : List Nat) : Nat → Nat → List Nat
  | 0, i => listPieces buf lfn i
  | n + 1, i =>
      if (slotAt buf i).name0 = 0 then listPieces buf lfn i else listPending buf lfn n (i + 1)

/-- The element of a listing for slot `i`. -/
def listEntry (buf : List UInt8) (lfn : List Nat) (i : Nat) : ListEntry where
  entry := slotAt buf i
  displayName := if lfnValid buf lfn i then orderedLongName buf lfn
    else sfnDisplayName (slotAt buf i).name

/-- A turn of the slot loop. -/
theorem scanList_step {buf : List UInt8} {capacity : Nat} (lfn : List Nat) (r : List ListEntry)
    (n i : Nat) : scanList buf capacity (n + 1) i (listPieces buf lfn i, r) =
      if (slotAt buf i).name0 = 0 then .inl (listPieces buf lfn i, r)
      else if isValidSfnEntry (slotAt buf i) = true then
        if r.length ≥ capacity then .inr r
        else scanList buf capacity n (i + 1) (listPieces buf lfn (i + 1),
          r ++ [listEntry buf (listPieces buf lfn i) i])
      else scanList buf capacity n (i + 1) (listPieces buf lfn (i + 1), r) := by
  have hvalid := isValidSfnEntry_iff (slotAt buf i)
  rw [scanList]
  simp only []
  by_cases h0 : (slotAt buf i).name0 = 0
  · rw [if_pos h0, if_pos h0]
  rw [if_neg h0, if_neg h0]
  by_cases he5 : (slotAt buf i).name0 = 0xE5
  · rw [if_pos he5, if_neg (fun h => (hvalid.mp h).2.1 he5), listPieces, if_pos (Or.inl he5)]
  rw [if_neg he5]
  by_cases hdot : (slotAt buf i).name0 = 0x2E
  · rw [if_pos hdot, if_neg (fun h => (hvalid.mp h).2.2.1 hdot), listPieces, if_pos (Or.inr hdot)]
  rw [if_neg hdot]
  by_cases hlfn : (slotAt buf i).attr = attrLfn
  · rw [if_pos hlfn, if_neg (fun h => (hvalid.mp h).2.2.2.1 hlfn), listPieces,
      if_neg (by tauto), if_pos hlfn]
  have hnext : listPieces buf lfn (i + 1) = [] := by
    rw [listPieces, if_neg (by tauto), if_neg hlfn]
  rw [if_neg hlfn, hnext]
  by_cases hvol : (slotAt buf i).attr &&& attrVolumeId ≠ 0
  · rw [if_pos hvol, if_neg (fun h => hvol (hvalid.mp h).2.2.2.2)]
  · rw [if_neg hvol, if_pos (hvalid.mpr ⟨h0, he5, hdot, hlfn, not_not.mp hvol⟩)]
    by_cases hfull : r.length ≥ capacity
    · rw [if_pos hfull, if_pos hfull]
    · rw [if_neg hfull, if_neg hfull, listEntry]

/-- The slot loop lists the live slots from `i` on as far as there is room. -/
theorem scanList_live {buf : List UInt8} {capacity : Nat} (lfn : List Nat) {r : List ListEntry}
    {n i : Nat} (hi : ∀ j, j < i → (slotAt buf j).name0 ≠ 0) (hr : r.length ≤ capacity) :
    scanList buf capacity n i (listPieces buf lfn i, r) =
      if r.length + (liveFrom buf n i).length ≤ capacity then
        .inl (listPending buf lfn n i,
          r ++ (liveFrom buf n i).map fun j => listEntry buf (listPieces buf lfn j) j)
      else .inr ((r ++ (liveFrom buf n i).map
        fun j => listEntry buf (listPieces buf lfn j) j).take capacity) := by
  induction n generalizing i r with
  | zero => simp [scanList, listPending, liveFrom, hr]
  | succ n ih =>
      rw [scanList_step, liveFrom_succ n hi, listPending]
      by_cases h0 : (slotAt buf i).name0 = 0
      · rw [if_pos h0, if_pos h0, if_pos h0]
        simp [hr]
      have hi' := not_end_succ h0 hi
      rw [if_neg h0, if_neg h0, if_neg h0]
      by_cases hvalid : isValidSfnEntry (slotAt buf i) = true
      · rw [if_pos hvalid, if_pos hvalid]
        by_cases hfull : r.length ≥ capacity
        · -- the element after the last one that fits
          rw [if_pos hfull, if_neg (by rw [List.length_cons]; omega),
            List.take_append_of_le_length (by omega), List.take_of_length_le hr]
        · rw [if_neg hfull, ih hi' (by simp; omega), List.map_cons, List.length_append,
            List.length_singleton, List.length_cons, List.append_assoc, List.singleton_append,
            Nat.add_assoc, Nat.add_comm 1]
      · rw [if_neg hvalid, if_neg hvalid, ih hi' hr]

/-! ## The entries in order -/

/-- A live slot in the order of the walks, with the pieces that a search and that a listing has
collected for it. -/
structure Shown where
  cluster : Nat
  index : Nat
  found : List Nat
  listed : List Nat
deriving DecidableEq

namespace Shown

variable (V : Volume) (x : Shown)

/-- The 32 bytes of the slot. -/
def slot : Slot := V.slot x.cluster x.index

/-- The element of a listing. -/
def element : ListEntry := listEntry (V.data x.cluster) x.listed x.index

/-- The name printed for the entry. -/
def printed : List UInt8 := cstr (x.element V).displayName

/-- A search for `name` stops at the entry. -/
def Answers (name : List UInt8) : Prop :=
  (lfnValid (V.data x.cluster) x.found x.index = true ∧
    cstr (foundLongName (V.data x.cluster) x.found) = name) ∨
  (x.slot V).name = nameTo83 name

instance (name : List UInt8) : Decidable (x.Answers V name) := inferInstanceAs (Decidable (_ ∨ _))

end Shown

/-- The live slots of one cluster. -/
def shownIn (c : Nat) (buf : List UInt8) (n : Nat) (found listed : List Nat) : List Shown :=
  (liveFrom buf n 0).map fun i => ⟨c, i, pieces buf found i, listPieces buf listed i⟩

/-- The live slots of the clusters `l`, with pieces carried from cluster to cluster. -/
def Volume.shown (V : Volume) (n : Nat) : List Nat → List Nat → List Nat → List Shown
  | [], _, _ => []
  | c :: l, found, listed =>
      shownIn c (V.data c) n found listed ++
        V.shown n l (carried (V.data c) n found) (listPending (V.data c) listed n 0)

/-- The searches go through the same entries. -/
theorem Volume.looks_shown (V : Volume) (n : Nat) (l found listed : List Nat) :
    V.looks n true l found = (V.shown n l found listed).map fun x => (x.cluster, x.index, x.found) := by
  induction l generalizing found listed with
  | nil => rfl
  | cons c l ih =>
      rw [Volume.looks, Volume.shown, List.map_append, ← ih, if_pos rfl, shownIn, candidates,
        liveFrom_zero, List.map_map, List.map_map]
      rfl

/-- What a listing has gathered when its walk is over, at the end or at a full result. -/
def gathered : (Nat × List ListEntry) ⊕ (List Nat × List ListEntry) → List ListEntry :=
  Sum.elim Prod.snd Prod.snd

/-- A listing prints the entries in order, as many as there is room for. -/
theorem Volume.walk_scanList (V : Volume) (n capacity : Nat) (l found listed : List Nat)
    {r : List ListEntry} (hr : r.length ≤ capacity) :
    gathered (V.walk (fun buf acc => scanList buf capacity n 0 acc) l (listed, r)) =
      (r ++ (V.shown n l found listed).map (Shown.element V)).take capacity := by
  induction l generalizing found listed r with
  | nil =>
      rw [Volume.walk, Volume.shown, List.map_nil, List.append_nil, List.take_of_length_le hr]
      rfl
  | cons c l ih =>
      have hstart : ∀ j, j < 0 → (slotAt (V.data c) j).name0 ≠ 0 :=
        fun j hj => absurd hj (Nat.not_lt_zero j)
      have hhere : (shownIn c (V.data c) n found listed).map (Shown.element V) =
          (liveFrom (V.data c) n 0).map
            fun j => listEntry (V.data c) (listPieces (V.data c) listed j) j := by
        rw [shownIn, List.map_map]
        rfl
      have hscan := scanList_live listed hstart hr (n := n)
      rw [show listPieces (V.data c) listed 0 = listed from rfl] at hscan
      rw [Volume.shown, List.map_append, hhere, ← List.append_assoc]
      by_cases hfits : r.length + (liveFrom (V.data c) n 0).length ≤ capacity
      · rw [if_pos hfits] at hscan
        rw [Volume.walk, hscan]
        exact ih _ _ (by simpa using hfits)
      · have hlong : capacity ≤ (r ++ (liveFrom (V.data c) n 0).map
            fun j => listEntry (V.data c) (listPieces (V.data c) listed j) j).length := by
          rw [List.length_append, List.length_map]
          omega
        rw [if_neg hfits] at hscan
        rw [Volume.walk, hscan, List.take_append_of_le_length hlong]
        rfl

/-! ## Short names -/

/-- A short name that its printed form leads back to: no extension, no dot, no lower-case letter
and no null byte. -/
def Plain (n : Name83) : Prop :=
  n.1.drop 8 = List.replicate 3 0x20 ∧ ∀ b ∈ n.1, b ≠ 0 ∧ b ≠ 0x2E ∧ toUpper b = b

instance (n : Name83) : Decidable (Plain n) := inferInstanceAs (Decidable (_ ∧ _))

theorem sfnDisplayName_spaces (n : Name83) :
    n.1 = sfnDisplayName n ++ List.replicate (11 - (sfnDisplayName n).length) 0x20 := by
  have hsplit := List.takeWhile_append_dropWhile (p := fun b : UInt8 => b = 0x20) (l := n.1.reverse)
  have hrev : n.1 = (n.1.reverse.dropWhile (fun b => b = 0x20)).reverse ++
      (n.1.reverse.takeWhile (fun b => b = 0x20)).reverse := by
    rw [← List.reverse_append, hsplit, List.reverse_reverse]
  have hspaces : (n.1.reverse.takeWhile (fun b => b = 0x20)).reverse =
      List.replicate (n.1.reverse.takeWhile (fun b => b = 0x20)).length 0x20 := by
    rw [List.eq_replicate_iff]
    refine ⟨List.length_reverse, ?_⟩
    intro b hb
    simpa using List.mem_takeWhile_imp (List.mem_reverse.mp hb)
  have hlen := congrArg List.length hrev
  rw [List.length_append, List.length_reverse, List.length_reverse, n.2] at hlen
  have hcount : (n.1.reverse.takeWhile (fun b => b = 0x20)).length =
      11 - (sfnDisplayName n).length := by
    rw [sfnDisplayName, List.length_reverse]
    omega
  rw [hspaces, hcount] at hrev
  exact hrev

/-- The 8.3 form of a name without a dot. -/
theorem nameTo83_no_dot {t : List UInt8} (h : 0x2E ∉ t) :
    (nameTo83 t).1 = (padTo 8 t ++ List.replicate 3 0x20).map toUpper := by
  have hsplit : splitDot t = (t, none) := by
    rw [splitDot, if_neg h]
  show (padTo 8 (splitDot t).1 ++ padTo 3 ((splitDot t).2.getD [])).map toUpper = _
  rw [hsplit]
  rfl

theorem splitDot_dot {t : List UInt8} (h : 0x2E ∈ t) :
    ∃ base ext, splitDot t = (base, some ext) ∧ t = base ++ 0x2E :: ext ∧ 0x2E ∉ ext := by
  have hsplit := List.takeWhile_append_dropWhile (p := fun b : UInt8 => b ≠ 0x2E) (l := t.reverse)
  cases hdrop : t.reverse.dropWhile (fun b => b ≠ 0x2E) with
  | nil =>
      exfalso
      rw [hdrop, List.append_nil] at hsplit
      have hmem : (0x2E : UInt8) ∈ t.reverse.takeWhile (fun b => b ≠ 0x2E) := by
        rw [hsplit]
        exact List.mem_reverse.mpr h
      simpa using List.mem_takeWhile_imp hmem
  | cons b rest =>
      have hb : b = 0x2E := by
        have hhead := List.head?_dropWhile_not (fun b : UInt8 => decide (b ≠ 0x2E)) t.reverse
        rw [hdrop] at hhead
        simpa using hhead
      subst hb
      rw [hdrop] at hsplit
      have ht : t = rest.reverse ++ 0x2E :: (t.reverse.takeWhile (fun b => b ≠ 0x2E)).reverse := by
        have hrev := congrArg List.reverse hsplit
        simpa using hrev.symm
      have hlen : t.length = rest.length + (t.reverse.takeWhile (fun b => b ≠ 0x2E)).length + 1 := by
        have := congrArg List.length ht
        simp only [List.length_append, List.length_cons, List.length_reverse] at this
        omega
      refine ⟨rest.reverse, (t.reverse.takeWhile (fun b => b ≠ 0x2E)).reverse, ?_, ht, ?_⟩
      · have htake : t.take (t.length - (t.reverse.takeWhile (fun b => b ≠ 0x2E)).length - 1) =
            rest.reverse := by
          have hcount : t.length - (t.reverse.takeWhile (fun b => b ≠ 0x2E)).length - 1 =
              rest.reverse.length := by
            rw [List.length_reverse]
            omega
          rw [hcount]
          conv_lhs => rw [ht]
          exact List.take_left
        rw [splitDot, if_pos h]
        simp only []
        rw [htake]
      · intro hmem
        simpa using List.mem_takeWhile_imp (List.mem_reverse.mp hmem)

/-- The printed form of a short name leads back to it exactly if it is plain. -/
theorem nameTo83_printed_iff (n : Name83) :
    nameTo83 (cstr (sfnDisplayName n)) = n ↔ Plain n := by
  have hn := sfnDisplayName_spaces n
  have hsub : sfnDisplayName n ⊆ n.1 := by
    intro b hb
    rw [hn]
    exact List.mem_append_left _ hb
  generalize ht : sfnDisplayName n = t at hn hsub
  have hupper : ∀ b : UInt8, toUpper (toUpper b) = toUpper b := by decide +kernel
  have hdot : ∀ b : UInt8, toUpper b = 0x2E ↔ b = 0x2E := by decide +kernel
  constructor
  · intro h
    have h0 : 0 ∉ cstr t := by
      intro hmem
      simpa using List.mem_takeWhile_imp hmem
    have hnull : ∀ b ∈ n.1, b ≠ 0 := by
      rw [← h]
      exact nameTo83_ne_zero h0
    have hcstr : cstr t = t := cstr_of_not_mem fun hmem => hnull 0 (hsub hmem) rfl
    rw [hcstr] at h
    have hbytes := congrArg Subtype.val h
    -- a dot would be counted once more in the printed form than in its 8.3 form
    have hnodot : 0x2E ∉ t := by
      intro hmem
      obtain ⟨base, ext, hsplit, hsum, hext⟩ := splitDot_dot hmem
      have hcount : ∀ m (x : List UInt8), ((padTo m x).map toUpper).count 0x2E ≤ x.count 0x2E := by
        intro m x
        have hmap : ((padTo m x).map toUpper).count 0x2E = (padTo m x).count 0x2E := by
          rw [List.count_eq_countP, List.countP_map, List.count_eq_countP]
          congr 1
          funext b
          rw [Bool.eq_iff_iff]
          simpa using hdot b
        have hspaces : (List.replicate (m - x.length) (0x20 : UInt8)).count 0x2E = 0 := by
          simp [List.count_replicate]
        rw [hmap, padTo, List.count_append, hspaces, Nat.add_zero]
        exact (List.take_sublist m x).count_le _
      have hleft : n.1.count 0x2E = base.count 0x2E + 1 := by
        rw [hn, hsum]
        simp [List.count_replicate, List.count_eq_zero_of_not_mem hext]
      have hright : n.1.count 0x2E ≤ base.count 0x2E := by
        rw [← hbytes]
        show ((padTo 8 (splitDot t).1 ++ padTo 3 ((splitDot t).2.getD [])).map toUpper).count 0x2E ≤ _
        rw [hsplit, List.map_append, List.count_append]
        have h8 := hcount 8 base
        have h3 := hcount 3 ext
        rw [List.count_eq_zero_of_not_mem hext] at h3
        simp only [Option.getD_some]
        omega
      omega
    rw [nameTo83_no_dot hnodot] at hbytes
    refine ⟨?_, ?_⟩
    · rw [← hbytes, List.map_append, List.drop_append_of_le_length (by simp [padTo_length]),
        List.drop_of_length_le (by simp [padTo_length])]
      rfl
    · intro b hb
      refine ⟨hnull b hb, ?_, ?_⟩
      · rintro rfl
        rw [hn] at hb
        rcases List.mem_append.mp hb with hb | hb
        · exact hnodot hb
        · simp [List.mem_replicate] at hb
      · rw [← hbytes] at hb
        obtain ⟨a, -, rfl⟩ := List.mem_map.mp hb
        exact hupper a
  · rintro ⟨hext, hbytes⟩
    have hcstr : cstr t = t := cstr_of_not_mem fun hmem => (hbytes 0 (hsub hmem)).1 rfl
    have hnodot : 0x2E ∉ t := fun hmem => (hbytes 0x2E (hsub hmem)).2.1 rfl
    -- the spaces of the extension are not printed
    have hlen : t.length ≤ 8 := by
      have hrev : n.1.reverse = List.replicate 3 0x20 ++ (n.1.take 8).reverse := by
        conv_lhs => rw [← List.take_append_drop 8 n.1, hext]
        rw [List.reverse_append, List.reverse_replicate]
      have hdrop : t = ((n.1.take 8).reverse.dropWhile (fun b => b = 0x20)).reverse := by
        rw [← ht, sfnDisplayName, hrev]
        simp [List.replicate_succ]
      have hle := (List.dropWhile_sublist (fun b : UInt8 => decide (b = 0x20))
        (l := (n.1.take 8).reverse)).length_le
      rw [hdrop, List.length_reverse]
      refine hle.trans ?_
      rw [List.length_reverse, List.length_take]
      exact Nat.min_le_left _ _
    rw [hcstr]
    apply Subtype.ext
    have hspaces : padTo 8 t ++ List.replicate 3 0x20 = n.1 := by
      rw [hn, padTo, List.take_of_length_le hlen, List.append_assoc,
        List.replicate_append_replicate]
      congr 2
      omega
    rw [nameTo83_no_dot hnodot, hspaces]
    conv_rhs => rw [← List.map_id n.1]
    exact List.map_congr_left fun b hb => (hbytes b hb).2.2

/-! ## Asking for a listed name -/

/-- The entry answers to its own printed name: the text of its pieces in slot order is their text in
reverse slot order, or the 8.3 form of that text is its short name; without pieces that belong to it
the short name is plain. -/
def Shown.NamesItself (V : Volume) (x : Shown) : Prop :=
  if lfnValid (V.data x.cluster) x.listed x.index = true then
    (lfnValid (V.data x.cluster) x.found x.index = true ∧
      cstr (foundLongName (V.data x.cluster) x.found) =
        cstr (orderedLongName (V.data x.cluster) x.listed)) ∨
    (x.slot V).name = nameTo83 (cstr (orderedLongName (V.data x.cluster) x.listed))
  else
    (lfnValid (V.data x.cluster) x.found x.index = true ∧
      cstr (foundLongName (V.data x.cluster) x.found) = cstr (sfnDisplayName (x.slot V).name)) ∨
    Plain (x.slot V).name

instance (V : Volume) (x : Shown) : Decidable (x.NamesItself V) := by
  unfold Shown.NamesItself
  infer_instance

theorem Shown.namesItself_iff (V : Volume) (x : Shown) :
    x.NamesItself V ↔ x.Answers V (x.printed V) := by
  have hslot : x.slot V = slotAt (V.data x.cluster) x.index := rfl
  rw [Shown.NamesItself, Shown.Answers, Shown.printed, Shown.element, listEntry]
  by_cases hvalid : lfnValid (V.data x.cluster) x.listed x.index = true
  · simp only [hvalid, if_true]
  · simp only [hvalid, if_false, Bool.false_eq_true]
    rw [← hslot, eq_comm (a := (x.slot V).name), nameTo83_printed_iff]

/-- Every element of a listing can be looked up by the name printed for it. -/
def Mount.ListedOpen (M : Mount) (s : FsState) (d : Nat) : Prop :=
  ∀ fuel r s', fat32ListDirectory M fuel d s = some (some r, s') → ∀ e ∈ r,
    ∃ fuel' s'', fat32FindEntryAny M fuel' d (cstr e.displayName) s' = some ((0, some e.entry), s'')

section Sound

variable {M : Mount} (hM : M.Sound) {s : FsState} {V : Volume} {A : List Nat} {d : Nat} {l : List Nat}
  (hat : M.At s V A) (hd : M.DirOn V d l)
include hM hat hd

/-- The result of a listing. -/
theorem listDirectory_result : ∃ s', s.Reads s' ∧ ∀ fuel,
    fat32ListDirectory M fuel d s = some (some
        (((V.shown M.slotCount l [] []).take (M.slotCount * 8)).map (Shown.element V)), s') ∨
      (fat32ListDirectory M fuel d s = none ∧ fuel < l.length) := by
  obtain ⟨s', hr, hw⟩ := walkDir_chain hM hat none none
    (fun buf acc => scanList buf (M.slotCount * 8) M.slotCount 0 acc)
    (fun _ _ result => pure (some result)) (fun _ _ acc => pure (some acc.2)) hd.1 hd.2 ([], [])
  have hgathered := V.walk_scanList M.slotCount (M.slotCount * 8) l [] [] (r := []) (Nat.zero_le _)
  rw [List.nil_append, ← List.map_take] at hgathered
  refine ⟨s', hr, ?_⟩
  intro fuel
  rcases hw fuel with h | h
  · left
    rw [fat32ListDirectory, h, ← hgathered]
    cases V.walk (fun buf acc => scanList buf (M.slotCount * 8) M.slotCount 0 acc) l ([], []) with
    | inl hit => rfl
    | inr acc => rfl
  · exact Or.inr h

/-- A search by a name yields the first entry that answers to it. -/
theorem findEntryAny_yields (name : List UInt8) (e : Slot) :
    (∃ fuel s', fat32FindEntryAny M fuel d name s = some ((0, some e), s')) ↔
      ∃ p y q, V.shown M.slotCount l [] [] = p ++ y :: q ∧ y.slot V = e ∧ y.Answers V name ∧
        ∀ z ∈ p, ¬ z.Answers V name := by
  -- the walk stops at the first entry shown that answers to the name
  have hselects : ∀ hit, V.walk (scanFound M name) l [] = .inl hit ↔
      ∃ y, (V.shown M.slotCount l [] []).find? (fun x => decide (x.Answers V name)) = some y ∧
        (y.cluster, y.index, y.found) = hit := by
    intro hit
    have hiff := V.walk_eq_inl_iff M.slotCount true (matchedBy foundLongName name) l [] hit
    rw [V.looks_shown M.slotCount l [] [], List.find?_map, Option.map_eq_some_iff] at hiff
    refine hiff.trans (exists_congr fun y => and_congr_left fun _ => ?_)
    have hmatch : (fun p : Nat × Nat × List Nat =>
        matchedBy foundLongName name (V.data p.1) p.2.2 p.2.1) ∘
          (fun x : Shown => (x.cluster, x.index, x.found)) =
        fun x => decide (x.Answers V name) := by
      funext x
      show matchedBy foundLongName name (V.data x.cluster) x.found x.index = _
      exact matchedBy_eq_true foundLongName V name (x.cluster, x.index, x.found)
    rw [hmatch]
  constructor
  · rintro ⟨fuel, s', hrun⟩
    obtain ⟨-, ⟨c, i, lfn, hwalk, -, he⟩ | ⟨-, h, -⟩⟩ := findEntryAny_selects hM hat hd hrun
    · obtain ⟨y, hfind, hy⟩ := (hselects _).mp hwalk
      obtain ⟨hanswers, p, q, hsplit, hfirst⟩ := List.find?_eq_some_iff_append.mp hfind
      cases hy
      refine ⟨p, y, q, hsplit, (Option.some.inj he).symm, of_decide_eq_true hanswers, ?_⟩
      intro z hz
      simpa using hfirst z hz
    · cases h
  · rintro ⟨p, y, q, hsplit, rfl, hanswers, hfirst⟩
    have hfind : (V.shown M.slotCount l [] []).find? (fun x => decide (x.Answers V name)) =
        some y := by
      rw [List.find?_eq_some_iff_append]
      refine ⟨decide_eq_true hanswers, p, q, hsplit, ?_⟩
      intro z hz
      simpa using hfirst z hz
    -- enough fuel for the whole chain
    have hwalk := (hselects (y.cluster, y.index, y.found)).mpr ⟨y, hfind, rfl⟩
    obtain ⟨s', -, hw⟩ := walkDir_chain hM hat (2, (none : Option Slot)) (3, none)
      (scanFound M name) (fun _ buf hit => pure (0, some (slotAt buf hit.1)))
      (fun _ _ _ => pure (1, none)) hd.1 hd.2 []
    refine ⟨l.length, s', ?_⟩
    rcases hw l.length with h | ⟨-, h⟩
    · rw [hwalk] at h
      exact h
    · omega

end Sound

/-- Listed names can be opened exactly if, for each of them, the first entry that answers to it has
the listed 32 bytes. Where the entries are pairwise different this says that every listed entry
answers to its own printed name and no entry before it does. -/
theorem listed_open_iff {M : Mount} (hM : M.Sound) {s : FsState} (hq : s.faults = []) {d : Nat}
    {l : List Nat} (hd : M.DirOn (M.view s) d l) :
    (M.ListedOpen s d ↔
      ∀ x ∈ ((M.view s).shown M.slotCount l [] []).take (M.slotCount * 8),
        ∃ p y q, (M.view s).shown M.slotCount l [] [] = p ++ y :: q ∧
          y.slot (M.view s) = x.slot (M.view s) ∧
          y.Answers (M.view s) (x.printed (M.view s)) ∧
          ∀ z ∈ p, ¬ z.Answers (M.view s) (x.printed (M.view s))) ∧
    ((((M.view s).shown M.slotCount l [] []).map (Shown.slot (M.view s))).Nodup →
      (M.ListedOpen s d ↔
        ∀ p x q, (M.view s).shown M.slotCount l [] [] = p ++ x :: q → p.length < M.slotCount * 8 →
          x.NamesItself (M.view s) ∧
          ∀ z ∈ p, ¬ z.Answers (M.view s) (x.printed (M.view s)))) := by
  have hat : M.At s (M.view s) s.allocs := ⟨hq, rfl, rfl⟩
  obtain ⟨s', hr, hlist⟩ := listDirectory_result hM hat hd
  have hat' := hr.stays hat
  have hopen : M.ListedOpen s d ↔
      ∀ x ∈ ((M.view s).shown M.slotCount l [] []).take (M.slotCount * 8),
        ∃ p y q, (M.view s).shown M.slotCount l [] [] = p ++ y :: q ∧
          y.slot (M.view s) = x.slot (M.view s) ∧
          y.Answers (M.view s) (x.printed (M.view s)) ∧
          ∀ z ∈ p, ¬ z.Answers (M.view s) (x.printed (M.view s)) := by
    constructor
    · intro h x hx
      rcases hlist l.length with hrun | ⟨-, hlt⟩
      · exact (findEntryAny_yields hM hat' hd _ _).mp
          (h l.length _ s' hrun (x.element (M.view s)) (List.mem_map_of_mem hx))
      · omega
    · intro h fuel r t hrun e he
      rcases hlist fuel with h' | ⟨h', -⟩
      · cases h'.symm.trans hrun
        obtain ⟨x, hx, rfl⟩ := List.mem_map.mp he
        exact (findEntryAny_yields hM hat' hd _ _).mpr (h x hx)
      · cases h'.symm.trans hrun
  refine ⟨hopen, ?_⟩
  intro hnodup
  generalize hshown : (M.view s).shown M.slotCount l [] [] = xs at *
  rw [hopen]
  have hinj := List.inj_on_of_nodup_map hnodup
  have hxs : xs.Nodup := List.Nodup.of_map _ hnodup
  constructor
  · intro h p x q hsplit hlt
    have hx : x ∈ xs.take (M.slotCount * 8) := by
      rw [hsplit, List.take_append]
      apply List.mem_append_right
      obtain ⟨k, hk⟩ : ∃ k, M.slotCount * 8 - p.length = k + 1 :=
        ⟨M.slotCount * 8 - p.length - 1, by omega⟩
      rw [hk, List.take_succ_cons]
      exact List.mem_cons_self
    obtain ⟨p', y, q', hsplit', hslot, hanswers, hfirst⟩ := h x hx
    obtain rfl : y = x := hinj (by rw [hsplit']; simp) (by rw [hsplit]; simp) hslot
    -- an entry occurs once, so what is before it is the same
    have honce := hxs
    rw [hsplit] at honce
    obtain ⟨-, htail, hbefore⟩ := List.nodup_append.mp honce
    have hyp : y ∉ p := fun hmem => hbefore y hmem y List.mem_cons_self rfl
    have hyq : y ∉ q := (List.nodup_cons.mp htail).1
    obtain ⟨rfl, -, -⟩ :=
      (List.append_cons_inj_of_notMem hyp hyq).mp (hsplit.symm.trans hsplit')
    exact ⟨(y.namesItself_iff (M.view s)).mpr hanswers, hfirst⟩
  · intro h x hx
    obtain ⟨p, q, hsplit⟩ := List.append_of_mem hx
    have hcut : xs = p ++ x :: (q ++ xs.drop (M.slotCount * 8)) := by
      conv_lhs => rw [← List.take_append_drop (M.slotCount * 8) xs, hsplit]
      simp
    have hlt : p.length < M.slotCount * 8 := by
      have hlen := congrArg List.length hsplit
      rw [List.length_take, List.length_append, List.length_cons] at hlen
      omega
    obtain ⟨hown, hfirst⟩ := h p x _ hcut hlt
    exact ⟨p, x, _, hcut, rfl, (x.namesItself_iff (M.view s)).mp hown, hfirst⟩

/-- The directory of one short entry. -/
def shortState (name : Name83) : FsState :=
  smallState [0x0FFFFFF8, 0x0FFFFFF8, 0x0FFFFFF8] fun _ =>
    setSlots (List.replicate 512 0) 0 [mkSfn name attrArchive
      { second := 0, minute := 0, hour := 0, day := 1, month := 1, year := 0 } 0]

/-- "README" is printed and found. -/
theorem listed_open_readme :
    (smallMount ⟨true, true⟩).ListedOpen (shortState (nameTo83 [82, 69, 65, 68, 77, 69])) 2 := by
  refine ((listed_open_iff (smallMount_sound _) rfl (l := [2]) (by decide +kernel)).2
    (by decide +kernel)).mpr ?_
  have hshown : ((smallMount ⟨true, true⟩).view (shortState (nameTo83 [82, 69, 65, 68, 77, 69]))).shown
      (smallMount ⟨true, true⟩).slotCount [2] [] [] = [⟨2, 0, [], []⟩] := by
    decide +kernel
  intro p x q hsplit hlt
  rw [hshown, List.singleton_eq_append_iff] at hsplit
  rcases hsplit with ⟨rfl, h⟩ | ⟨-, h⟩
  · obtain ⟨rfl, -⟩ := List.cons.inj h
    exact ⟨by decide +kernel, by simp⟩
  · cases h

/-- "README.TXT" is printed as "README  TXT", and nothing is found by that name. -/
theorem listed_not_open : ¬ (smallMount ⟨true, true⟩).ListedOpen
    (shortState (nameTo83 [82, 69, 65, 68, 77, 69, 46, 84, 88, 84])) 2 := by
  have hd : (smallMount ⟨true, true⟩).DirOn ((smallMount ⟨true, true⟩).view
      (shortState (nameTo83 [82, 69, 65, 68, 77, 69, 46, 84, 88, 84]))) 2 [2] := by
    decide +kernel
  have hshown : ((smallMount ⟨true, true⟩).view
      (shortState (nameTo83 [82, 69, 65, 68, 77, 69, 46, 84, 88, 84]))).shown
      (smallMount ⟨true, true⟩).slotCount [2] [] [] = [⟨2, 0, [], []⟩] := by
    decide +kernel
  obtain ⟨s', hr, hlist⟩ := listDirectory_result (smallMount_sound ⟨true, true⟩) ⟨rfl, rfl, rfl⟩ hd
  have hrun := (hlist 1).resolve_right fun h => absurd h.2 (by decide)
  intro h
  have hfind := h 1 _ s' hrun
  rw [hshown] at hfind
  obtain ⟨p, y, q, hsplit, -, hanswers, -⟩ :=
    (findEntryAny_yields (smallMount_sound ⟨true, true⟩) (hr.stays ⟨rfl, rfl, rfl⟩) hd _ _).mp
      (hfind _ (List.mem_singleton.mpr rfl))
  have hy : y ∈ [(⟨2, 0, [], []⟩ : Shown)] := by
    rw [← hshown, hsplit]
    simp
  obtain rfl := List.mem_singleton.mp hy
  revert hanswers
  decide +kernel

end Os003
