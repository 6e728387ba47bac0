import Os003.Fs.LongName

set_option autoImplicit false

/-! # Which entry a name selects

To a scanner a directory is the list of its live entries in the order of the walk, each with the
pieces pending in front of it (`Volume.looks`). The scanners select the first one of the list that
matches, by its long name or by the 8.3 form of the name searched for. The 8.3 form is cut to
eight and three characters, so it may be that of another name; and the long name that a scanner reads
need not be the one that is stored (`Volume.storedName`).
-/

namespace Os003

open Bytes Linked

/-! ## The first match -/

section First

variable {α : Type} {l : List α} {x : α}

/-- The first element with `A` always has `R` exactly if before each element with `A` but without `R`
there is one with both. -/
theorem find_right_iff (l : List α) (A R : α → Prop) [DecidablePred A] :
    (∀ x, l.find? (fun y => decide (A y)) = some x → R x) ↔
      ∀ p x q, l = p ++ x :: q → A x → R x ∨ ∃ y ∈ p, A y ∧ R y := by
  constructor
  · rintro h p x q rfl hx
    cases hfirst : p.find? (fun y => decide (A y)) with
    | some y =>
        have hy : (p ++ x :: q).find? (fun y => decide (A y)) = some y := by
          rw [List.find?_append, hfirst, Option.some_or]
        have hA : A y := by simpa using List.find?_some hfirst
        exact Or.inr ⟨y, List.mem_of_find?_eq_some hfirst, hA, h y hy⟩
    | none =>
        have hx' : (p ++ x :: q).find? (fun y => decide (A y)) = some x := by
          rw [List.find?_append, hfirst, Option.none_or, List.find?_cons_of_pos (by simpa using hx)]
        exact Or.inl (h x hx')
  · intro h x hx
    obtain ⟨hmatch, p, q, rfl, hnone⟩ := List.find?_eq_some_iff_append.mp hx
    rcases h p x q rfl (by simpa using hmatch) with hR | ⟨y, hy, hA, -⟩
    · exact hR
    · have := hnone y hy
      simp [hA] at this

end First

/-! ## The entries a scanner sees -/

/-- The live entries of a cluster of `n` slots in their order, each with the pieces pending in front
of it when the scanner has brought along the pieces `lfn`. -/
def candidates (buf : List UInt8) (n : Nat) (lfn : List Nat) : List (Nat × List Nat) :=
  ((List.range n).filter (fun i => SlotLive buf n i)).map fun i => (i, pieces buf lfn i)

/-- The pieces a scanner takes along to the next cluster. -/
def carried (buf : List UInt8) (n : Nat) (lfn : List Nat) : List Nat :=
  match scanLfn buf (fun _ _ => false) n 0 lfn with
  | .inl lfn' => lfn'
  | .inr _ => []

/-- The live ones of the `n` slots from `i` on. -/
def liveFrom (buf : List UInt8) (n i : Nat) : List Nat :=
  (List.range' i n).filter (fun j => SlotLive buf (i + n) j)

theorem mem_liveFrom {buf : List UInt8} {n i k : Nat} :
    k ∈ liveFrom buf n i ↔ i ≤ k ∧ SlotLive buf (i + n) k := by
  unfold liveFrom
  rw [List.mem_filter, List.mem_range'_1, decide_eq_true_eq]
  constructor
  · intro h
    exact ⟨h.1.1, h.2⟩
  · intro h
    exact ⟨⟨h.1, h.2.lt⟩, h.2⟩

theorem liveFrom_zero (buf : List UInt8) (n : Nat) :
    liveFrom buf n 0 = (List.range n).filter (fun j => SlotLive buf n j) := by
  unfold liveFrom
  rw [Nat.zero_add, ← List.range_eq_range']

/-- All slot loops look at the live slots in turn, and stop at an end mark. -/
theorem liveFrom_succ {buf : List UInt8} {i : Nat} (n : Nat)
    (hi : ∀ j, j < i → (slotAt buf j).name0 ≠ 0) :
    liveFrom buf (n + 1) i = if (slotAt buf i).name0 = 0 then []
      else if isValidSfnEntry (slotAt buf i) = true then i :: liveFrom buf n (i + 1)
      else liveFrom buf n (i + 1) := by
  by_cases h0 : (slotAt buf i).name0 = 0
  · -- no slot from an end mark on is live
    rw [if_pos h0, List.eq_nil_iff_forall_not_mem]
    intro j hj
    have hlive := (mem_liveFrom.mp hj).2
    rcases Nat.eq_or_lt_of_le (mem_liveFrom.mp hj).1 with rfl | hlt
    · exact ((isValidSfnEntry_iff _).mp hlive.valid).1 h0
    · exact hlive.reached i hlt h0
  · have hn : i + (n + 1) = i + 1 + n := by omega
    unfold liveFrom
    rw [if_neg h0, hn, List.range'_succ, List.filter_cons]
    by_cases hvalid : isValidSfnEntry (slotAt buf i) = true
    · have hlive : SlotLive buf (i + 1 + n) i := ⟨by omega, hvalid, hi⟩
      rw [if_pos hvalid, if_pos (decide_eq_true hlive)]
    · have hdead : ¬ SlotLive buf (i + 1 + n) i := fun h => hvalid h.valid
      rw [if_neg hvalid, if_neg (by rw [decide_eq_true_eq]; exact hdead)]

/-- No end mark up to a slot that is none itself. -/
theorem not_end_succ {buf : List UInt8} {i : Nat} (h0 : (slotAt buf i).name0 ≠ 0)
    (hi : ∀ j, j < i → (slotAt buf j).name0 ≠ 0) : ∀ j, j < i + 1 → (slotAt buf j).name0 ≠ 0 := by
  intro j hj
  rcases Nat.lt_succ_iff_lt_or_eq.mp hj with hlt | rfl
  · exact hi j hlt
  · exact h0

/-- The slots from `i` on. -/
theorem scanLfn_find_from (buf : List UInt8) (matched : List Nat → Nat → Bool) (lfn : List Nat)
    {i : Nat} (n : Nat) (hi : ∀ j, j < i → (slotAt buf j).name0 ≠ 0) :
    scanLfn buf matched n i (pieces buf lfn i) =
      match ((liveFrom buf n i).map fun j => (j, pieces buf lfn j)).find?
          (fun p => matched p.2 p.1) with
      | some hit => .inr hit
      | none => scanLfn buf (fun _ _ => false) n i (pieces buf lfn i) := by
  induction n generalizing i with
  | zero => rfl
  | succ n ih =>
      rw [scanLfn_turn buf matched, scanLfn_turn buf (fun _ _ => false), liveFrom_succ n hi]
      by_cases h0 : (slotAt buf i).name0 = 0
      · rw [if_pos h0, if_pos h0, if_pos h0]
        rfl
      · have hi' := not_end_succ h0 hi
        rw [if_neg h0, if_neg h0, if_neg h0]
        by_cases hvalid : isValidSfnEntry (slotAt buf i) = true
        · rw [if_pos hvalid, List.map_cons, List.find?_cons]
          by_cases hm : matched (pieces buf lfn i) i = true
          · rw [if_pos ⟨hvalid, hm⟩]
            simp only [hm]
          · have hmiss : ¬ (isValidSfnEntry (slotAt buf i) = true ∧
                matched (pieces buf lfn i) i = true) := fun h => hm h.2
            rw [if_neg hmiss, if_neg (by simp), ih hi']
            simp only [Bool.not_eq_true] at hm
            simp only [hm]
        · have hmiss : ¬ (isValidSfnEntry (slotAt buf i) = true ∧
              matched (pieces buf lfn i) i = true) := fun h => hvalid h.1
          rw [if_neg hvalid, if_neg hmiss, if_neg (fun h => hvalid h.1), ih hi']

/-- The slot loop selects the first candidate that matches. -/
theorem scanLfn_find (buf : List UInt8) (matched : List Nat → Nat → Bool) (n : Nat)
    (lfn : List Nat) : scanLfn buf matched n 0 lfn =
      match (candidates buf n lfn).find? (fun p => matched p.2 p.1) with
      | some hit => .inr hit
      | none => .inl (carried buf n lfn) := by
  have h := scanLfn_find_from buf matched lfn n
    (fun j hj => absurd hj (Nat.not_lt_zero j))
  have hcarried : scanLfn buf (fun _ _ => false) n 0 lfn = .inl (carried buf n lfn) := by
    unfold carried
    cases hscan : scanLfn buf (fun _ _ => false) n 0 lfn with
    | inl x => rfl
    | inr hit =>
        obtain ⟨k, lfn'⟩ := hit
        have hscan' : scanLfn buf (fun _ _ => false) n 0 (pieces buf lfn 0) = .inr (k, lfn') := hscan
        obtain ⟨-, -, -, hm, -⟩ := scanLfn_inr hscan' (fun j hj => absurd hj (Nat.not_lt_zero j))
        cases hm
  rw [liveFrom_zero] at h
  show scanLfn buf matched n 0 (pieces buf lfn 0) = _
  rw [h]
  show (match (candidates buf n lfn).find? (fun p => matched p.2 p.1) with
      | some hit => Sum.inr hit
      | none => scanLfn buf (fun _ _ => false) n 0 lfn) = _
  rw [hcarried]

/-- The live entries of a directory in the order of the walk: cluster, slot and pending pieces. The
scanner of `FAT32_FindEntryAny` keeps the pieces from one cluster to the next, the others drop
them. -/
def Volume.looks (V : Volume) (n : Nat) (keep : Bool) : List Nat → List Nat →
    List (Nat × Nat × List Nat)
  | [], _ => []
  | c :: l, lfn =>
      (candidates (V.data c) n (if keep then lfn else [])).map (fun p => (c, p)) ++
        V.looks n keep l (carried (V.data c) n (if keep then lfn else []))

/-- The walk over the clusters selects the first entry that matches. -/
theorem Volume.walk_eq_inl_iff (V : Volume) (n : Nat) (keep : Bool)
    (matched : List UInt8 → List Nat → Nat → Bool) (l : List Nat) (lfn : List Nat)
    (hit : Nat × Nat × List Nat) :
    V.walk (fun buf lfn => scanLfn buf (matched buf) n 0 (if keep then lfn else [])) l lfn =
        .inl hit ↔
      (V.looks n keep l lfn).find? (fun p => matched (V.data p.1) p.2.2 p.2.1) = some hit := by
  induction l generalizing lfn with
  | nil =>
      constructor
      · intro h
        cases h
      · intro h
        cases h
  | cons c l ih =>
      have hscan := scanLfn_find (V.data c) (matched (V.data c)) n (if keep then lfn else [])
      have hfirst : ((candidates (V.data c) n (if keep then lfn else [])).map
          (fun p => (c, p))).find? (fun p => matched (V.data p.1) p.2.2 p.2.1) =
          ((candidates (V.data c) n (if keep then lfn else [])).find?
            (fun p => matched (V.data c) p.2 p.1)).map (fun p => (c, p)) := by
        rw [List.find?_map]
        rfl
      unfold Volume.walk Volume.looks
      rw [List.find?_append, hfirst]
      simp only [hscan]
      cases hfind : (candidates (V.data c) n (if keep then lfn else [])).find?
          (fun p => matched (V.data c) p.2 p.1) with
      | some first =>
          simp only [Option.map_some, Option.some_or, Option.some.injEq]
          constructor
          · intro h
            cases h
            rfl
          · rintro rfl
            rfl
      | none =>
          simp only [Option.map_none, Option.none_or]
          exact ih _

/-! ## What the functions select -/

/-- The look at a cluster of `FAT32_FindEntryAny`. -/
def scanFound (M : Mount) (name : List UInt8) (buf : List UInt8) (lfn : List Nat) :
    List Nat ⊕ (Nat × List Nat) :=
  scanLfn buf (matchedBy foundLongName name buf) M.slotCount 0 lfn

/-- The loop over a directory with the given look, run only for the place where it stops: the
cluster, the slot and the pieces before it. -/
def Mount.selects (M : Mount) (scan : List UInt8 → List Nat → List Nat ⊕ (Nat × List Nat))
    (fuel d : Nat) : Prog FsState (Option (Nat × Nat × List Nat)) :=
  walkDir M none none scan (fun c _ hit => return some (c, hit)) (fun _ _ _ => return none) fuel d []

/-- The entry at a place has the long name `name`, as `longName` reads the pieces before it. -/
def LongIs (longName : List UInt8 → List Nat → List UInt8) (V : Volume) (name : List UInt8)
    (p : Nat × Nat × List Nat) : Prop :=
  lfnValid (V.data p.1) p.2.2 p.2.1 = true ∧ cstr (longName (V.data p.1) p.2.2) = name

/-- The entry at a place has the 8.3 form of `name`. -/
def ShortIs (V : Volume) (name : List UInt8) (p : Nat × Nat × List Nat) : Prop :=
  (V.slot p.1 p.2.1).name = nameTo83 name

/-- The 8.3 form of `name` is the whole name: at most eight characters, and at most three behind
the dot. -/
def FitsSfn (name : List UInt8) : Prop :=
  (splitDot name).1.length ≤ 8 ∧ ((splitDot name).2.getD []).length ≤ 3

instance (longName : List UInt8 → List Nat → List UInt8) (V : Volume) (name : List UInt8) :
    DecidablePred (LongIs longName V name) := fun _ => inferInstanceAs (Decidable (_ ∧ _))

instance (V : Volume) (name : List UInt8) : DecidablePred (ShortIs V name) :=
  fun _ => inferInstanceAs (Decidable (_ = _))

instance (name : List UInt8) : Decidable (FitsSfn name) := inferInstanceAs (Decidable (_ ∧ _))

theorem matchedBy_eq_true (longName : List UInt8 → List Nat → List UInt8) (V : Volume)
    (name : List UInt8) (p : Nat × Nat × List Nat) :
    matchedBy longName name (V.data p.1) p.2.2 p.2.1 =
      decide (LongIs longName V name p ∨ ShortIs V name p) := by
  rw [Bool.eq_iff_iff, decide_eq_true_eq, matchedBy, Bool.or_eq_true, Bool.and_eq_true, beq_iff_eq,
    beq_iff_eq]
  rfl

/-! ## The name that is stored -/

/-- The 16-bit characters of the long name in the slots that lead up to an entry, the nearest one first;
`none` if they do not hold one. The pieces are numbered as `make_lfn_entries` numbers them: up from 1 with
the distance from the entry, the one that begins the name with the mark 0x40, and all carry the checksum of
the short name. -/
def storedUnits (checksum : UInt8) : Nat → List Slot → Option (List Nat)
  | _, [] => none
  | k, e :: before =>
      let units := e.name1 ++ e.name2 ++ e.name3
      if e.attr ≠ attrLfn ∨ e.checksum ≠ checksum ∨ lfnMaxPieces < k then none
      else if e.name0.toNat = k + 0x40 then some units
      else if e.name0.toNat = k then (storedUnits checksum (k + 1) before).map (· ++ units)
      else none

/-- The characters of a piece and of the pieces behind it, up to the terminator. -/
theorem takeWhile_lfnUnits {l : List UInt8} (h : 0 ∉ l) (n : Nat) (rest : List Nat) :
    (lfnUnits n l ++ rest).takeWhile (· ≠ 0) =
      (l.take n).map UInt8.toNat ++ if l.length < n then [] else rest.takeWhile (· ≠ 0) := by
  induction n generalizing l with
  | zero => simp [lfnUnits]
  | succ n ih =>
      cases l with
      | nil => simp [lfnUnits]
      | cons c l =>
          have hc : c.toNat ≠ 0 := by
            intro h0
            have hc0 : c = 0 := UInt8.toNat_inj.mp h0
            exact h (by rw [hc0]; exact List.mem_cons_self)
          rw [lfnUnits, List.cons_append, List.takeWhile_cons_of_pos (by simpa using hc),
            ih (fun h0 => h (List.mem_cons_of_mem c h0))]
          simp

/-- The characters of the pieces from the `i`-th one on. -/
theorem takeWhile_pieces {name : List UInt8} (h : 0 ∉ name) (m i : Nat)
    (hm : (name.length + 12) / 13 = i + m) :
    ((List.range' i m).flatMap fun j => lfnUnits 13 (name.drop (j * 13))).takeWhile (· ≠ 0) =
      (name.drop (i * 13)).map UInt8.toNat := by
  induction m generalizing i with
  | zero =>
      rw [List.range'_zero, List.flatMap_nil, List.takeWhile_nil, List.drop_of_length_le (by omega),
        List.map_nil]
  | succ m ih =>
      rw [List.range'_succ, List.flatMap_cons, takeWhile_lfnUnits (fun h0 => h (List.mem_of_mem_drop h0)),
        ih (i + 1) (by omega), List.length_drop]
      by_cases hlast : name.length - i * 13 < 13
      · rw [if_pos hlast, List.append_nil, List.take_of_length_le (by rw [List.length_drop]; omega)]
      · rw [if_neg hlast, ← List.map_append, Nat.succ_mul, ← List.drop_drop, List.take_append_drop]

theorem checksum_mkLfn (order : Nat) (checksum : UInt8) (units : List Nat) (h : units.length = 13) :
    (mkLfn order checksum units h).checksum = checksum := by
  obtain ⟨a, b, c, d, e, r, rfl⟩ : ∃ a b c d e r, units = a :: b :: c :: d :: e :: r := by
    match units, h with
    | a :: b :: c :: d :: e :: r, _ => exact ⟨a, b, c, d, e, r, rfl⟩
  rfl

theorem units_mkLfn (order : Nat) (checksum : UInt8) {units : List Nat} (h : units.length = 13)
    (hlt : ∀ u ∈ units, u < 2 ^ 16) :
    (mkLfn order checksum units h).name1 ++ (mkLfn order checksum units h).name2 ++
      (mkLfn order checksum units h).name3 = units := by
  obtain ⟨h1, h2, h3⟩ := name1_mkLfn order checksum h hlt
  calc _ = units.take 5 ++ (units.drop 5).take 6 ++ units.drop 11 := by rw [h1, h2, h3]
    _ = units.take 11 ++ units.drop 11 := by rw [← List.take_add]
    _ = units := List.take_append_drop 11 units

/-- A piece of the own name is added in front of what is behind it. -/
theorem storedUnits_mkLfn (checksum : UInt8) (before : List Slot) {k : Nat} (hk : k ≠ 0 ∧ k ≤ 20)
    {units : List Nat} (h : units.length = 13) (hlt : ∀ u ∈ units, u < 2 ^ 16) (first : Prop)
    [Decidable first] :
    storedUnits checksum k (mkLfn (k ||| if first then 0x40 else 0x00) checksum units h :: before) =
      if first then some units else (storedUnits checksum (k + 1) before).map (· ++ units) := by
  have horder : ∀ k ≤ 20, k ≠ 0 → (UInt8.ofNat (k ||| 0x40)).toNat = k + 0x40 ∧
      (UInt8.ofNat (k ||| 0x00)).toNat = k := by decide
  obtain ⟨hfirst, hother⟩ := horder k hk.2 hk.1
  have hroom : ¬ lfnMaxPieces < k := by
    rw [show lfnMaxPieces = 20 from rfl]
    omega
  rw [storedUnits, if_neg (by rw [attr_mkLfn, checksum_mkLfn]; simp [hroom]), units_mkLfn _ _ h hlt]
  by_cases hf : first
  · simp only [if_pos hf, name0_mkLfn, hfirst]
    rw [if_pos trivial]
  · simp only [if_neg hf, name0_mkLfn, hother]
    rw [if_neg (by omega), if_pos trivial]

/-- The first pieces that `make_lfn_entries` makes, read from the last one of them on. -/
theorem storedUnits_take {name : List UInt8} (hlen : name.length ≤ 255) (checksum : UInt8)
    (before : List Slot) {m : Nat} (hm : m + 1 ≤ (name.length + 12) / 13) :
    storedUnits checksum ((name.length + 12) / 13 - m)
      (((makeLfnEntries name checksum).take (m + 1)).reverse ++ before) =
        some ((List.range (m + 1)).flatMap fun j => lfnUnits 13 (name.drop (j * 13))) := by
  have hentry : ∀ i < (name.length + 12) / 13, (makeLfnEntries name checksum)[i]? = some (mkLfn
      (((name.length + 12) / 13 - i) ||| (if i = 0 then 0x40 else 0x00)) checksum
      (lfnUnits 13 (name.drop (i * 13))) (lfnUnits_length _ _)) := by
    intro i hi
    simp [makeLfnEntries, hi]
  induction m with
  | zero =>
      rw [List.take_add_one, hentry 0 hm, List.take_zero, Option.toList_some, List.nil_append,
        List.reverse_singleton, List.singleton_append, Nat.sub_zero,
        storedUnits_mkLfn checksum before (by omega) _ (lfnUnits_lt _ _), if_pos rfl]
      simp
  | succ m ih =>
      have hrest := ih (by omega)
      rw [show (name.length + 12) / 13 - m = (name.length + 12) / 13 - (m + 1) + 1 by omega] at hrest
      rw [List.take_add_one, hentry (m + 1) hm, Option.toList_some, List.reverse_append,
        List.reverse_singleton, List.singleton_append, List.cons_append,
        storedUnits_mkLfn checksum _ (by omega) _ (lfnUnits_lt _ _), if_neg (Nat.succ_ne_zero m), hrest,
        Option.map_some, List.range_succ (n := m + 1), List.flatMap_append, List.flatMap_singleton]

/-- What `make_lfn_entries` makes of a name is stored under that name. -/
theorem storedUnits_makeLfnEntries {name : List UInt8} (h0 : 0 ∉ name) (hne : name ≠ [])
    (hlen : name.length ≤ 255) (checksum : UInt8) (before : List Slot) :
    (storedUnits checksum 1 ((makeLfnEntries name checksum).reverse ++ before)).map (·.takeWhile (· ≠ 0)) =
      some (name.map UInt8.toNat) := by
  have hpos := List.length_pos_iff.mpr hne
  obtain ⟨m, hm⟩ : ∃ m, (name.length + 12) / 13 = m + 1 := ⟨(name.length + 12) / 13 - 1, by omega⟩
  have hstored := storedUnits_take hlen checksum before (m := m) (by omega)
  rw [show (name.length + 12) / 13 - m = 1 by omega, List.take_of_length_le (by simp [hm])] at hstored
  rw [hstored, Option.map_some, List.range_eq_range', takeWhile_pieces h0 (m + 1) 0 (by omega),
    Nat.zero_mul, List.drop_zero]

/-- The slots in front of slot `i` of the cluster `c`, the nearest one first, in a directory with the
clusters `l` of `n` slots each. -/
def Volume.slotsBefore (V : Volume) (n : Nat) (l : List Nat) (c i : Nat) : List Slot :=
  ((l.takeWhile (· ≠ c)).flatMap (fun x => (List.range n).map (V.slot x)) ++
    (List.range i).map (V.slot c)).reverse

/-- The long name stored for the entry in slot `i` of the cluster `c`, up to its terminator. -/
def Volume.storedName (V : Volume) (n : Nat) (l : List Nat) (c i : Nat) : Option (List Nat) :=
  (storedUnits (fat32LfnChecksum (V.slot c i).name) 1 (V.slotsBefore n l c i)).map
    (·.takeWhile (· ≠ 0))

/-- The entry at a place is stored under the long name `name`, or `name` spells its 8.3 name without
loss. -/
def Rightful (M : Mount) (V : Volume) (l : List Nat) (name : List UInt8) (p : Nat × Nat × List Nat) :
    Prop :=
  V.storedName M.slotCount l p.1 p.2.1 = some (name.map UInt8.toNat) ∨ (FitsSfn name ∧ ShortIs V name p)

instance (M : Mount) (V : Volume) (l : List Nat) (name : List UInt8) :
    DecidablePred (Rightful M V l name) := fun _ => inferInstanceAs (Decidable (_ ∨ _))

/-- What the lookups of `name` in the directory at `d`, with the clusters `l`, may select and act on:
entries that `name` is the name of. -/
structure LookupsRight (M : Mount) (s : FsState) (d : Nat) (l : List Nat) (name : List UInt8) : Prop where
  found : ∀ fuel p s', M.selects (scanFound M name) fuel d s = some (some p, s') →
    Rightful M (M.view s) l name p
  ordered : ∀ fuel p s', M.selects (scanOrdered M name) fuel d s = some (some p, s') →
    Rightful M (M.view s) l name p
  reported : ∀ fuel rtc s', fat32CreateFile M fuel d name rtc s = some (1, s') →
    ∃ fuel' p s1, M.selects (scanFound M name) fuel' d s = some (some p, s1) ∧
      Rightful M (M.view s) l name p
  deletes : ∀ fuel s', fat32DeleteFile M fuel d name s = some (0, s') →
    ∃ fuel' p s1, M.selects (scanOrdered M name) fuel' d s = some (some p, s1) ∧
      ((M.view s').slot p.1 p.2.1).name0 = 0xE5 ∧ Rightful M (M.view s) l name p

/-- The entries of the list that the 8.3 form of `name` is that of, or in front of which `longName` reads
`name`, have that name, or stand behind such an entry that has. -/
def OwnNameFirst (longName : List UInt8 → List Nat → List UInt8) (M : Mount) (V : Volume) (l : List Nat)
    (name : List UInt8) (looks : List (Nat × Nat × List Nat)) : Prop :=
  ∀ p x q, looks = p ++ x :: q → LongIs longName V name x ∨ ShortIs V name x →
    Rightful M V l name x ∨
      ∃ y ∈ p, (LongIs longName V name y ∨ ShortIs V name y) ∧ Rightful M V l name y

/-- In a directory without strangers the own name is first. -/
theorem OwnNameFirst.of_all {longName : List UInt8 → List Nat → List UInt8} {M : Mount} {V : Volume}
    {l : List Nat} {name : List UInt8} {looks : List (Nat × Nat × List Nat)}
    (h : ∀ x ∈ looks, LongIs longName V name x ∨ ShortIs V name x → Rightful M V l name x) :
    OwnNameFirst longName M V l name looks := by
  rintro p x q rfl hx
  exact Or.inl (h x (by simp) hx)

section Sound

variable {M : Mount} (hM : M.Sound) {s s' : FsState} {V : Volume} {A : List Nat}
include hM

/-- On a chain, the loop with its action stops where the loop alone does. -/
theorem walkDir_selects {β : Type} (hat : M.At s V A) {d : Nat} {l : List Nat}
    (hd : M.DirOn V d l) (scan : List UInt8 → List Nat → List Nat ⊕ (Nat × List Nat))
    (readErr nextErr : β) (onHit : Nat → List UInt8 → Nat × List Nat → Prog FsState β)
    (onEnd : Nat → List UInt8 → List Nat → Prog FsState β) {fuel : Nat} {b : β}
    (hrun : walkDir M readErr nextErr scan onHit onEnd fuel d [] s = some (b, s')) :
    ∃ s1, s.Reads s1 ∧ ((∃ c i lfn, V.walk scan l [] = .inl (c, i, lfn) ∧
        onHit c (V.data c) (i, lfn) s1 = some (b, s')) ∨
      ((∃ lfn, V.walk scan l [] = .inr lfn) ∧ ∃ x buf lfn, onEnd x buf lfn s1 = some (b, s'))) := by
  obtain ⟨s1, hr1, hw⟩ := walkDir_chain hM hat readErr nextErr scan onHit onEnd hd.1 hd.2 []
  refine ⟨s1, hr1, ?_⟩
  have hfin : V.finish onHit onEnd (l.getLastD 0) (V.walk scan l []) s1 = some (b, s') := by
    rcases hw fuel with h | ⟨h, -⟩
    · exact h.symm.trans hrun
    · cases h.symm.trans hrun
  cases hwalk : V.walk scan l [] with
  | inl hit =>
      obtain ⟨c, i, lfn⟩ := hit
      rw [hwalk, Volume.finish] at hfin
      exact Or.inl ⟨c, i, lfn, rfl, hfin⟩
  | inr lfn =>
      rw [hwalk, Volume.finish] at hfin
      exact Or.inr ⟨⟨lfn, rfl⟩, _, _, _, hfin⟩

theorem selects_iff (hat : M.At s V A) {d : Nat} {l : List Nat} (hd : M.DirOn V d l)
    (scan : List UInt8 → List Nat → List Nat ⊕ (Nat × List Nat)) (p : Nat × Nat × List Nat) :
    (∃ fuel s', M.selects scan fuel d s = some (some p, s')) ↔ V.walk scan l [] = .inl p := by
  constructor
  · rintro ⟨fuel, s', hrun⟩
    obtain ⟨s1, -, ⟨c, i, lfn, hwalk, hhit⟩ | ⟨-, x, buf, lfn, hend⟩⟩ :=
      walkDir_selects hM hat hd scan _ _ _ _ hrun
    · cases hhit
      exact hwalk
    · cases hend
  · intro hwalk
    obtain ⟨s1, -, hw⟩ := walkDir_chain hM hat (none : Option (Nat × Nat × List Nat)) none scan
      (fun c _ hit => pure (some (c, hit))) (fun _ _ _ => pure none) hd.1 hd.2 []
    refine ⟨l.length, s1, ?_⟩
    rcases hw l.length with h | ⟨-, hlt⟩
    · rw [hwalk] at h
      exact h
    · exact absurd hlt (Nat.lt_irrefl _)

/-- `FAT32_FindEntryAny` finds the entry it selects. -/
theorem findEntryAny_selects {fuel d st : Nat} {l : List Nat} {name : List UInt8} {o : Option Slot}
    (hat : M.At s V A) (hd : M.DirOn V d l)
    (hrun : fat32FindEntryAny M fuel d name s = some ((st, o), s')) :
    s.Reads s' ∧ ((∃ c i lfn, V.walk (scanFound M name) l [] = .inl (c, i, lfn) ∧ st = 0 ∧
        o = some (V.slot c i)) ∨
      ((∃ lfn, V.walk (scanFound M name) l [] = .inr lfn) ∧ st = 1 ∧ o = none)) := by
  obtain ⟨s1, hr1, ⟨c, i, lfn, hwalk, hhit⟩ | ⟨hwalk, x, buf, lfn, hend⟩⟩ :=
    walkDir_selects hM hat hd _ _ _ _ _ hrun
  · cases hhit
    exact ⟨hr1, Or.inl ⟨c, i, lfn, hwalk, rfl, rfl⟩⟩
  · cases hend
    exact ⟨hr1, Or.inr ⟨hwalk, rfl, rfl⟩⟩

omit hM in
/-- What holds of the error codes of a walk and of the results of its actions holds of its
result. -/
theorem walkDir_result {Acc γ β : Type} {P : β → Prop} {readErr nextErr : β}
    {scan : List UInt8 → Acc → Acc ⊕ γ} {onHit : Nat → List UInt8 → γ → Prog FsState β}
    {onEnd : Nat → List UInt8 → Acc → Prog FsState β} (hread : P readErr) (hnext : P nextErr)
    (hhit : ∀ c buf g t b t', onHit c buf g t = some (b, t') → P b)
    (hend : ∀ c buf acc t b t', onEnd c buf acc t = some (b, t') → P b) {fuel d : Nat} {acc : Acc}
    {b : β} (hrun : walkDir M readErr nextErr scan onHit onEnd fuel d acc s = some (b, s')) :
    P b := by
  induction fuel generalizing d acc s with
  | zero => cases hrun
  | succ fuel ih =>
      rw [walkDir] at hrun
      obtain ⟨⟨st, buf⟩, s1, -, hrest⟩ := Prog.bind_eq_some.mp hrun
      simp only [] at hrest
      split at hrest
      · cases hrest
        exact hread
      · cases hs : scan buf acc with
        | inr hit =>
            simp only [hs] at hrest
            exact hhit _ _ _ _ _ _ hrest
        | inl acc' =>
            simp only [hs] at hrest
            obtain ⟨next, s2, -, hrest⟩ := Prog.bind_eq_some.mp hrest
            cases next with
            | none =>
                cases hrest
                exact hnext
            | some next =>
                simp only [] at hrest
                split at hrest
                · exact hend _ _ _ _ _ _ hrest
                · exact ih hrest

omit hM in
theorem writeNewSlots_ne_one {c pos r : Nat} {buf : List UInt8} {slots : List Slot}
    (hrun : writeNewSlots M c buf pos slots s = some (r, s')) : r ≠ 1 := by
  obtain ⟨st, s1, -, hrest⟩ := Prog.bind_eq_some.mp hrun
  split at hrest
  · cases hrest
    decide
  · obtain ⟨-, s2, -, hrest⟩ := Prog.bind_eq_some.mp hrest
    cases hrest
    decide

omit hM in
/-- Only the check at the start of `FAT32_CreateFile` reports an existing name. -/
theorem addSlots_ne_one {fuel d full r : Nat} {slots : List Slot} (hfull : full ≠ 1)
    (hrun : addSlots M fuel d full slots s = some (r, s')) : r ≠ 1 := by
  have hsplit : (2 : Nat) ≠ 1 ∧ (3 : Nat) ≠ 1 := by decide
  unfold addSlots at hrun
  apply walkDir_result (P := fun r => r ≠ 1) hsplit.1 hsplit.1 ?_ ?_ hrun
  · intro c buf pos t b t' h
    exact writeNewSlots_ne_one h
  · intro c buf acc t b t' h
    obtain ⟨nc, t1, -, h⟩ := Prog.bind_eq_some.mp h
    split at h
    · cases h
      exact hfull
    · obtain ⟨st, t2, -, h⟩ := Prog.bind_eq_some.mp h
      split at h
      · cases h
        exact hsplit.2
      · obtain ⟨st, t3, -, h⟩ := Prog.bind_eq_some.mp h
        split at h
        · cases h
          exact hsplit.2
        · exact writeNewSlots_ne_one h

/-- A removal that returns 0 has marked the slot. -/
theorem removeSlots_marks {c i : Nat} {buf : List UInt8} {lfn : List Nat} (hq : s.faults = [])
    (hc : M.InRange c) (hlen : (markDeleted buf (lfn ++ [i])).length = M.clusterSize)
    (hrun : removeSlots M c buf i lfn s = some (0, s')) :
    (M.view s').data c = markDeleted buf (lfn ++ [i]) := by
  have hwrite := fat32WriteCluster_run hM hq hc hlen
  rw [removeSlots, Prog.bind_run hwrite, if_neg (by simp), Prog.bind_run (ata_flush_run _ _),
    Prog.pure_run] at hrun
  cases hrun
  rw [Mount.view_note, view_putCluster hM hc hlen, Volume.setData_data, Function.update_self]

/-- `FAT32_DeleteFile` that returns 0 has removed the entry it selects. -/
theorem deleteFile_selects {fuel d : Nat} {l : List Nat} {name : List UInt8}
    (hat : M.At s V A) (hd : M.DirOn V d l)
    (hrun : fat32DeleteFile M fuel d name s = some (0, s')) :
    ∃ c i, c ∈ l ∧ M.LiveAt V c i ∧
      V.walk (scanOrdered M name) l [] = .inl (c, i, pieces (V.data c) [] i) ∧
      (M.view s').data c = markDeleted (V.data c) (pieces (V.data c) [] i ++ [i]) := by
  obtain ⟨s1, hr1, ⟨c, i, lfn, hwalk, hhit⟩ | ⟨-, x, buf, lfn, hend⟩⟩ :=
    walkDir_selects hM hat hd _ _ _ _ _ hrun
  · obtain ⟨hc, a, hs⟩ := Volume.walk_inl hwalk
    obtain ⟨-, hlive, rfl, -, -⟩ := scanLfn_inr hs (fun j hj => absurd hj (Nat.not_lt_zero j))
    rw [Nat.zero_add] at hlive
    have hat1 := hr1.stays hat
    have hlen := (removed_spec hM (hat.data_length (hd.2 c hc)) hlive).1
    refine ⟨c, i, hc, hlive, hwalk, ?_⟩
    simp only [] at hhit
    split at hhit
    · cases hhit
    · split at hhit
      · obtain ⟨st, s2, hfree, hrest⟩ := Prog.bind_eq_some.mp hhit
        have hq2 := fat32FreeClusterChain_steps M.keeps_quiet _ _ _ _ _ hfree hat1.quiet
        split at hrest
        · cases hrest
        · exact removeSlots_marks hM hq2 (hd.2 c hc) hlen hrest
      · exact removeSlots_marks hM hat1.quiet (hd.2 c hc) hlen hhit
  · cases hend

/-- The lookups of a name are right exactly if, in the order of the walk, no entry that it matches and
that has another name comes first: neither one with the same 8.3 form, nor one with pieces in front that
spell the name when they are joined in the order of the scanner. -/
theorem lookupsRight_iff {d : Nat} {l : List Nat} (hq : s.faults = []) (hd : M.DirOn (M.view s) d l)
    (name : List UInt8) : LookupsRight M s d l name ↔
      OwnNameFirst foundLongName M (M.view s) l name ((M.view s).looks M.slotCount true l []) ∧
        OwnNameFirst orderedLongName M (M.view s) l name
          ((M.view s).looks M.slotCount false l []) := by
  have hat : M.At s (M.view s) s.allocs := ⟨hq, rfl, rfl⟩
  have hfound : ∀ p, (M.view s).walk (scanFound M name) l [] = .inl p ↔
      ((M.view s).looks M.slotCount true l []).find? (fun p =>
        decide (LongIs foundLongName (M.view s) name p ∨ ShortIs (M.view s) name p)) = some p := by
    intro p
    have h := (M.view s).walk_eq_inl_iff M.slotCount true (matchedBy foundLongName name) l [] p
    simp only [matchedBy_eq_true] at h
    exact h
  have hordered : ∀ p, (M.view s).walk (scanOrdered M name) l [] = .inl p ↔
      ((M.view s).looks M.slotCount false l []).find? (fun p =>
        decide (LongIs orderedLongName (M.view s) name p ∨ ShortIs (M.view s) name p)) = some p := by
    intro p
    have h := (M.view s).walk_eq_inl_iff M.slotCount false (matchedBy orderedLongName name) l [] p
    simp only [matchedBy_eq_true] at h
    exact h
  have hown := find_right_iff ((M.view s).looks M.slotCount true l [])
    (fun p => LongIs foundLongName (M.view s) name p ∨ ShortIs (M.view s) name p)
    (Rightful M (M.view s) l name)
  have hown' := find_right_iff ((M.view s).looks M.slotCount false l [])
    (fun p => LongIs orderedLongName (M.view s) name p ∨ ShortIs (M.view s) name p)
    (Rightful M (M.view s) l name)
  constructor
  · intro h
    constructor
    · refine hown.mp fun p hp => ?_
      obtain ⟨fuel, s1, hsel⟩ := (selects_iff hM hat hd (scanFound M name) p).mpr ((hfound p).mpr hp)
      exact h.found fuel p s1 hsel
    · refine hown'.mp fun p hp => ?_
      obtain ⟨fuel, s1, hsel⟩ := (selects_iff hM hat hd (scanOrdered M name) p).mpr ((hordered p).mpr hp)
      exact h.ordered fuel p s1 hsel
  · rintro ⟨h, h'⟩
    have h1 := hown.mpr h
    have h2 := hown'.mpr h'
    constructor
    · intro fuel p s1 hsel
      exact h1 p ((hfound p).mp ((selects_iff hM hat hd _ p).mp ⟨fuel, s1, hsel⟩))
    · intro fuel p s1 hsel
      exact h2 p ((hordered p).mp ((selects_iff hM hat hd _ p).mp ⟨fuel, s1, hsel⟩))
    · intro fuel rtc s1 hcreate
      rw [fat32CreateFile] at hcreate
      obtain ⟨⟨st, o⟩, s2, hfind, hrest⟩ := Prog.bind_eq_some.mp hcreate
      obtain ⟨-, ⟨c, i, lfn, hwalk, -⟩ | ⟨-, rfl, -⟩⟩ := findEntryAny_selects hM hat hd hfind
      · obtain ⟨fuel', s3, hsel⟩ := (selects_iff hM hat hd (scanFound M name) _).mpr hwalk
        exact ⟨fuel', _, s3, hsel, h1 _ ((hfound _).mp hwalk)⟩
      · simp only [] at hrest
        rw [if_neg (by decide)] at hrest
        exact absurd rfl (addSlots_ne_one (by decide) hrest)
    · intro fuel s1 hdelete
      obtain ⟨c, i, hc, hlive, hwalk, hdata⟩ := deleteFile_selects hM hat hd hdelete
      obtain ⟨fuel', s3, hsel⟩ := (selects_iff hM hat hd (scanOrdered M name) _).mpr hwalk
      refine ⟨fuel', _, s3, hsel, ?_, h2 _ ((hordered _).mp hwalk)⟩
      show (slotAt ((M.view s1).data c) i).name0 = 0xE5
      rw [hdata]
      exact (removed_spec hM (hat.data_length (hd.2 c hc)) hlive).2.1

end Sound

/-! ## Files with other names -/

/-- A volume whose root directory holds one file, with this name. -/
def namedState (name : List UInt8) : FsState :=
  smallState [0x0FFFFFF8, 0x0FFFFFF8, 0x0FFFFFF8] (fun c => if c = 2 then namedCluster name else [])

/-- The file "ABCDEFGHIJ" is found under its name. -/
theorem lookupsRight_own :
    LookupsRight (smallMount ⟨true, true⟩) (namedState [65, 66, 67, 68, 69, 70, 71, 72, 73, 74]) 2 [2]
      [65, 66, 67, 68, 69, 70, 71, 72, 73, 74] :=
  (lookupsRight_iff (smallMount_sound _) rfl (by decide +kernel) _).mpr
    ⟨.of_all (by decide +kernel), .of_all (by decide +kernel)⟩

/-- What the lookup of a name selects in the directory of one file. -/
def selectedIn (file name : List UInt8) : Option (Option (Nat × Nat × List Nat)) :=
  ((smallMount ⟨true, true⟩).selects (scanFound (smallMount ⟨true, true⟩) name) 2 2
    (namedState file)).map Prod.fst

theorem not_lookupsRight {file name : List UInt8} {p : Nat × Nat × List Nat}
    (hsel : selectedIn file name = some (some p))
    (hp : ¬ Rightful (smallMount ⟨true, true⟩) ((smallMount ⟨true, true⟩).view (namedState file)) [2] name p) :
    ¬ LookupsRight (smallMount ⟨true, true⟩) (namedState file) 2 [2] name := by
  intro h
  obtain ⟨⟨_, s'⟩, hrun, rfl⟩ := Option.map_eq_some_iff.mp hsel
  exact hp (h.found 2 p s' hrun)

/-- "ABCDEFGHXY" selects the file "ABCDEFGHIJ", and "BAAAAAAAAAAAAA" the file "AAAAAAAAAAAAAB". -/
theorem lookupsRight_fails :
    ¬ LookupsRight (smallMount ⟨true, true⟩)
        (namedState [65, 66, 67, 68, 69, 70, 71, 72, 73, 74]) 2 [2]
        [65, 66, 67, 68, 69, 70, 71, 72, 88, 89] ∧
      ¬ LookupsRight (smallMount ⟨true, true⟩) (namedState (List.replicate 13 65 ++ [66])) 2 [2]
        (66 :: List.replicate 13 65) :=
  ⟨not_lookupsRight (p := (2, 1, [0])) (by decide +kernel) (by decide +kernel),
    not_lookupsRight (p := (2, 2, [0, 1])) (by decide +kernel) (by decide +kernel)⟩

end Os003
