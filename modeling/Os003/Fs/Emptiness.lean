import Os003.Fs.Selection

set_option autoImplicit false

/-! # Empty directories

`is_dir_empty` and `FAT32_ListDirectory` go through the same slots. The first one takes an end mark
for the end of the directory, the second one for the end of the cluster, as all other scanners
do. So the two disagree on a directory that goes on behind a cluster with an end mark.
-/

namespace Os003

open Bytes Linked

/-! ## The slots of a cluster -/

/-- Cluster `c` holds a live entry. -/
def Mount.Holds (M : Mount) (V : Volume) (c : Nat) : Prop := ∃ i, M.LiveAt V c i

/-- Some slot of cluster `c` is an end mark. -/
def Mount.EndMarked (M : Mount) (V : Volume) (c : Nat) : Prop :=
  ∃ i, i < M.slotCount ∧ (V.slot c i).name0 = 0

theorem isValidSfnEntry_false_iff (e : Slot) (h0 : e.name0 ≠ 0) : isValidSfnEntry e = false ↔
    e.name0 = 0xE5 ∨ e.name0 = 0x2E ∨ e.attr = attrLfn ∨ e.attr &&& attrVolumeId ≠ 0 := by
  have hvalid := isValidSfnEntry_iff e
  constructor
  · intro h
    by_contra hnone
    push Not at hnone
    obtain ⟨h1, h2, h3, h4⟩ := hnone
    rw [hvalid.mpr ⟨h0, h1, h2, h3, h4⟩] at h
    cases h
  · intro h
    rw [← Bool.not_eq_true]
    intro htrue
    obtain ⟨-, h1, h2, h3, h4⟩ := hvalid.mp htrue
    rcases h with h | h | h | h
    · exact h1 h
    · exact h2 h
    · exact h3 h
    · exact h h4

/-- One turn of the slot loop of `is_dir_empty`. -/
theorem scanEmpty_turn (buf : List UInt8) (n i : Nat) : scanEmpty buf (n + 1) i =
    if (slotAt buf i).name0 = 0 then .inr true
    else if isValidSfnEntry (slotAt buf i) = true then .inr false
    else scanEmpty buf n (i + 1) := by
  rw [scanEmpty]
  by_cases h0 : (slotAt buf i).name0 = 0
  · rw [if_pos h0, if_pos h0]
  · rw [if_neg h0, if_neg h0]
    by_cases hvalid : isValidSfnEntry (slotAt buf i) = true
    · obtain ⟨-, h1, h2, h3, h4⟩ := (isValidSfnEntry_iff _).mp hvalid
      rw [if_pos hvalid, if_neg h1, if_neg h3, if_neg h2, if_neg (not_not_intro h4)]
    · rw [if_neg hvalid]
      rw [Bool.not_eq_true] at hvalid
      rcases (isValidSfnEntry_false_iff _ h0).mp hvalid with h | h | h | h
      · rw [if_pos h]
      · by_cases h1 : (slotAt buf i).name0 = 0xE5
        · rw [if_pos h1]
        · rw [if_neg h1, if_pos h, ite_self]
      · rw [if_pos h, ite_self]
      · rw [if_pos h, ite_self, ite_self, ite_self]

/-- What `is_dir_empty` finds in the slots from `i` on. -/
theorem scanEmpty_spec (buf : List UInt8) (n : Nat) {i : Nat}
    (hi : ∀ j, j < i → (slotAt buf j).name0 ≠ 0) :
    (scanEmpty buf n i = .inr false ∧ liveFrom buf n i ≠ []) ∨
      (scanEmpty buf n i = .inr true ∧ liveFrom buf n i = [] ∧
        ∃ k, k < i + n ∧ (slotAt buf k).name0 = 0) ∨
      (scanEmpty buf n i = .inl () ∧ liveFrom buf n i = [] ∧
        ∀ k, k < i + n → (slotAt buf k).name0 ≠ 0) := by
  induction n generalizing i with
  | zero => exact Or.inr (Or.inr ⟨rfl, rfl, hi⟩)
  | succ n ih =>
      rw [scanEmpty_turn, liveFrom_succ n hi]
      by_cases h0 : (slotAt buf i).name0 = 0
      · rw [if_pos h0, if_pos h0]
        exact Or.inr (Or.inl ⟨rfl, rfl, i, by omega, h0⟩)
      · rw [if_neg h0, if_neg h0]
        by_cases hvalid : isValidSfnEntry (slotAt buf i) = true
        · rw [if_pos hvalid, if_pos hvalid]
          exact Or.inl ⟨rfl, List.cons_ne_nil _ _⟩
        · rw [if_neg hvalid, if_neg hvalid]
          have hrest := ih (not_end_succ h0 hi)
          rw [show i + 1 + n = i + (n + 1) by omega] at hrest
          exact hrest

/-- The slot loop of `FAT32_ListDirectory` lists every live slot, until the result is full. -/
theorem scanList_count (buf : List UInt8) {capacity i : Nat} (n : Nat) (lfn : List Nat)
    {r : List ListEntry} (hi : ∀ j, j < i → (slotAt buf j).name0 ≠ 0)
    (hr : r.length ≤ capacity) :
    (r.length + (liveFrom buf n i).length ≤ capacity ∧ ∃ lfn' r',
        scanList buf capacity n i (lfn, r) = .inl (lfn', r') ∧
        r'.length = r.length + (liveFrom buf n i).length) ∨
      (capacity < r.length + (liveFrom buf n i).length ∧ ∃ r',
        scanList buf capacity n i (lfn, r) = .inr r' ∧ r'.length = capacity) := by
  -- by the slots left; the loop stops at the end mark, or when the table of the caller is full
  induction n generalizing i lfn r with
  | zero => exact Or.inl ⟨hr, lfn, r, rfl, rfl⟩
  | succ n ih =>
      rw [scanList, liveFrom_succ n hi]
      by_cases h0 : (slotAt buf i).name0 = 0
      · rw [if_pos h0, if_pos h0]
        exact Or.inl ⟨hr, lfn, r, rfl, rfl⟩
      · rw [if_neg h0, if_neg h0]
        have hi' := not_end_succ h0 hi
        by_cases hvalid : isValidSfnEntry (slotAt buf i) = true
        · obtain ⟨-, h1, h2, h3, h4⟩ := (isValidSfnEntry_iff _).mp hvalid
          rw [if_pos hvalid, if_neg h1, if_neg h2, if_neg h3, if_neg (not_not_intro h4),
            List.length_cons]
          by_cases hfull : r.length ≥ capacity
          · rw [if_pos hfull]
            exact Or.inr ⟨by omega, r, rfl, by omega⟩
          · -- one more entry is listed
            rw [if_neg hfull]
            have hlen : ∀ e : ListEntry, (r ++ [e]).length = r.length + 1 := fun e => by simp
            have hroom : ∀ e : ListEntry, (r ++ [e]).length ≤ capacity := by
              intro e
              rw [hlen]
              omega
            rcases ih [] hi' (hroom ⟨slotAt buf i, if lfnValid buf lfn i then
                orderedLongName buf lfn else sfnDisplayName (slotAt buf i).name⟩) with
              ⟨hle, lfn', r', hscan, hr'⟩ | ⟨hlt, r', hscan, hr'⟩
            · rw [hlen] at hle hr'
              exact Or.inl ⟨by omega, lfn', r', hscan, by omega⟩
            · rw [hlen] at hlt
              exact Or.inr ⟨by omega, r', hscan, hr'⟩
        · -- a deleted slot, a dot entry, a long-name slot or a volume label is not listed
          rw [if_neg hvalid]
          rw [Bool.not_eq_true] at hvalid
          by_cases h1 : (slotAt buf i).name0 = 0xE5
          · rw [if_pos h1]
            exact ih [] hi' hr
          · rw [if_neg h1]
            by_cases h2 : (slotAt buf i).name0 = 0x2E
            · rw [if_pos h2]
              exact ih [] hi' hr
            · rw [if_neg h2]
              by_cases h3 : (slotAt buf i).attr = attrLfn
              · rw [if_pos h3]
                exact ih _ hi' hr
              · have h4 : (slotAt buf i).attr &&& attrVolumeId ≠ 0 := by
                  rcases (isValidSfnEntry_false_iff _ h0).mp hvalid with h | h | h | h
                  · exact absurd h h1
                  · exact absurd h h2
                  · exact absurd h h3
                  · exact h
                rw [if_neg h3, if_pos h4]
                exact ih [] hi' hr

/-! ## The whole directory -/

/-- The number of live entries in the clusters of a directory. -/
def Mount.entryCount (M : Mount) (V : Volume) (l : List Nat) : Nat :=
  (l.map fun c => (liveFrom (V.data c) M.slotCount 0).length).sum

theorem Mount.holds_iff (M : Mount) (V : Volume) (c : Nat) :
    M.Holds V c ↔ liveFrom (V.data c) M.slotCount 0 ≠ [] := by
  constructor
  · rintro ⟨i, hi⟩
    have hlive : SlotLive (V.data c) (0 + M.slotCount) i := by
      rw [Nat.zero_add]
      exact hi
    exact List.ne_nil_of_mem (mem_liveFrom.mpr ⟨Nat.zero_le i, hlive⟩)
  · intro h
    obtain ⟨i, hi⟩ := List.exists_mem_of_ne_nil _ h
    have hlive := (mem_liveFrom.mp hi).2
    rw [Nat.zero_add] at hlive
    exact ⟨i, hlive⟩

theorem Mount.entryCount_eq_zero (M : Mount) (V : Volume) (l : List Nat) :
    M.entryCount V l = 0 ↔ ∀ c ∈ l, ¬ M.Holds V c := by
  unfold Mount.entryCount
  rw [List.sum_eq_zero_iff]
  simp only [List.mem_map, forall_exists_index, and_imp, forall_apply_eq_imp_iff₂,
    List.length_eq_zero_iff, M.holds_iff, not_not]

/-- The result of `is_dir_empty` on the clusters of a directory. -/
def Mount.seemsEmpty (M : Mount) (V : Volume) (l : List Nat) : Bool :=
  match V.walk (fun buf (_ : Unit) => scanEmpty buf M.slotCount 0) l () with
  | .inl (_, r) => r
  | .inr _ => true

/-- The splits of a list with one more element in front. -/
theorem forall_split_cons {α : Type} {a : α} {l : List α} {P : List α → α → Prop} :
    (∀ p c q, a :: l = p ++ c :: q → P p c) ↔
      P [] a ∧ ∀ p c q, l = p ++ c :: q → P (a :: p) c := by
  constructor
  · intro h
    refine ⟨h [] a l rfl, ?_⟩
    intro p c q hl
    exact h (a :: p) c q (by rw [hl]; rfl)
  · rintro ⟨hnil, hcons⟩ p c q hl
    cases p with
    | nil =>
        cases hl
        exact hnil
    | cons b p =>
        cases hl
        exact hcons p c q rfl

/-- The first element of a list with a property. -/
theorem exists_first {α : Type} {P : α → Prop} {l : List α} (h : ∃ x ∈ l, P x) :
    ∃ p c q, l = p ++ c :: q ∧ P c ∧ ∀ x ∈ p, ¬ P x := by
  induction l with
  | nil =>
      obtain ⟨x, hx, -⟩ := h
      exact absurd hx List.not_mem_nil
  | cons a l ih =>
      by_cases ha : P a
      · exact ⟨[], a, l, rfl, ha, fun x hx => absurd hx List.not_mem_nil⟩
      · obtain ⟨x, hx, hP⟩ := h
        rcases List.mem_cons.mp hx with rfl | hx
        · exact absurd hP ha
        · obtain ⟨p, c, q, rfl, hc, hp⟩ := ih ⟨x, hx, hP⟩
          refine ⟨a :: p, c, q, rfl, hc, ?_⟩
          intro y hy
          rcases List.mem_cons.mp hy with rfl | hy
          · exact ha
          · exact hp y hy

/-- A directory seems empty when before every cluster with an entry there is one with an end
mark. -/
theorem Mount.seemsEmpty_iff (M : Mount) (V : Volume) (l : List Nat) : M.seemsEmpty V l = true ↔
    ∀ p c q, l = p ++ c :: q → M.Holds V c → ∃ x ∈ p, M.EndMarked V x := by
  induction l with
  | nil =>
      constructor
      · intro _ p c q hl
        exact absurd hl (by simp)
      · intro _
        rfl
  | cons a l ih =>
      have hscan := scanEmpty_spec (V.data a) M.slotCount
        (fun j (hj : j < 0) => absurd hj (Nat.not_lt_zero j))
      rw [forall_split_cons]
      unfold Mount.seemsEmpty Volume.walk
      rcases hscan with ⟨hs, hlive⟩ | ⟨hs, hlive, k, hk, hend⟩ | ⟨hs, hlive, hend⟩
      · -- an entry comes first
        have hholds : M.Holds V a := (M.holds_iff V a).mpr hlive
        simp only [hs, Bool.false_eq_true, false_iff]
        intro h
        obtain ⟨x, hx, -⟩ := h.1 hholds
        exact absurd hx List.not_mem_nil
      · -- an end mark comes first: nothing behind it counts
        have hmarked : M.EndMarked V a := ⟨k, by omega, hend⟩
        have hnone : ¬ M.Holds V a := fun h => (M.holds_iff V a).mp h hlive
        simp only [hs, true_iff]
        refine ⟨fun h => absurd h hnone, ?_⟩
        intro p c q _ _
        exact ⟨a, List.mem_cons_self, hmarked⟩
      · -- neither of them: the scan goes on with the next cluster
        have hnone : ¬ M.Holds V a := fun h => (M.holds_iff V a).mp h hlive
        have hunmarked : ¬ M.EndMarked V a := by
          rintro ⟨i, hi, h0⟩
          exact hend i (by omega) h0
        simp only [hs]
        rw [show (match V.walk (fun buf (_ : Unit) => scanEmpty buf M.slotCount 0) l () with
            | .inl (_, r) => r
            | .inr _ => true) = M.seemsEmpty V l from rfl, ih]
        constructor
        · intro h
          refine ⟨fun hh => absurd hh hnone, ?_⟩
          intro p c q hl hc
          obtain ⟨x, hx, hm⟩ := h p c q hl hc
          exact ⟨x, List.mem_cons_of_mem a hx, hm⟩
        · intro h p c q hl hc
          obtain ⟨x, hx, hm⟩ := h.2 p c q hl hc
          rcases List.mem_cons.mp hx with rfl | hx
          · exact absurd hm hunmarked
          · exact ⟨x, hx, hm⟩

/-- The walk of `FAT32_ListDirectory` lists the live entries of all clusters, or fills the result. -/
theorem scanList_walk (M : Mount) (V : Volume) {capacity : Nat} (l : List Nat) (lfn : List Nat)
    {r : List ListEntry} (hr : r.length ≤ capacity) :
    (r.length + M.entryCount V l ≤ capacity ∧ ∃ lfn' r',
        V.walk (fun buf acc => scanList buf capacity M.slotCount 0 acc) l (lfn, r) =
          .inr (lfn', r') ∧ r'.length = r.length + M.entryCount V l) ∨
      (capacity < r.length + M.entryCount V l ∧ ∃ c r',
        V.walk (fun buf acc => scanList buf capacity M.slotCount 0 acc) l (lfn, r) =
          .inl (c, r') ∧ r'.length = capacity) := by
  induction l generalizing lfn r with
  | nil => exact Or.inl ⟨hr, lfn, r, rfl, rfl⟩
  | cons c l ih =>
      have hcount : M.entryCount V (c :: l) =
          (liveFrom (V.data c) M.slotCount 0).length + M.entryCount V l := by
        unfold Mount.entryCount
        rw [List.map_cons, List.sum_cons]
      unfold Volume.walk
      rcases scanList_count (V.data c) M.slotCount lfn
        (fun j (hj : j < 0) => absurd hj (Nat.not_lt_zero j)) hr with
        ⟨hle, lfn1, r1, hscan, hr1⟩ | ⟨hlt, r1, hscan, hr1⟩
      · simp only [hscan]
        rcases ih lfn1 (show r1.length ≤ capacity by omega) with
          ⟨hle', lfn2, r2, hwalk, hr2⟩ | ⟨hlt', x, r2, hwalk, hr2⟩
        · exact Or.inl ⟨by omega, lfn2, r2, hwalk, by omega⟩
        · exact Or.inr ⟨by omega, x, r2, hwalk, hr2⟩
      · simp only [hscan]
        exact Or.inr ⟨by omega, c, r1, rfl, hr1⟩

/-! ## The functions -/

/-- The two functions agree on the directory at `d`; and when `FAT32_RemoveDir` returns 0 for an
entry of it, `FAT32_FindEntryAny` finds no name in it. -/
structure EmptinessAgrees (M : Mount) (s : FsState) (d : Nat) : Prop where
  agrees : ∃ empty list t t', Prog.Ends (fun fuel => isDirEmpty M fuel d) s empty t ∧
    Prog.Ends (fun fuel => fat32ListDirectory M fuel d) s (some list) t' ∧
    (empty = true ↔ list.length = 0)
  removes : ∀ p lp fuel name s', M.DirOn (M.view s) p lp →
    fat32RemoveDir M fuel p name s = some (0, s') →
    ∀ fuel' q s1, M.selects (scanOrdered M name) fuel' p s = some (some q, s1) →
      ((M.view s).slot q.1 q.2.1).cluster = d →
      ∀ fuel'' n st o t, fat32FindEntryAny M fuel'' d n s = some ((st, o), t) → st ≠ 0

section Sound

variable {M : Mount} (hM : M.Sound) {s s' : FsState} {V : Volume} {A : List Nat}
include hM

theorem isDirEmpty_within (hat : M.At s V A) {d : Nat} {l : List Nat} (hd : M.DirOn V d l) :
    ∃ s', s.Reads s' ∧
      Prog.Within l.length (fun fuel => isDirEmpty M fuel d) s (M.seemsEmpty V l) s' := by
  have hd0 : d ≠ 0 := by
    have hin := (hd.2 d (Chain.mem_self hd.1)).1
    omega
  obtain ⟨s', hr, hwalk⟩ := walkDir_chain hM hat false false
    (fun buf (_ : Unit) => scanEmpty buf M.slotCount 0) (fun _ _ r => return r)
    (fun _ _ _ => return true) hd.1 hd.2 ()
  refine ⟨s', hr, ?_⟩
  intro fuel
  rcases hwalk fuel with h | ⟨h, hlt⟩
  · left
    show isDirEmpty M fuel d s = _
    rw [isDirEmpty, if_neg hd0, h]
    unfold Mount.seemsEmpty
    cases V.walk (fun buf (_ : Unit) => scanEmpty buf M.slotCount 0) l () with
    | inl hit => rfl
    | inr acc => rfl
  · right
    refine ⟨?_, hlt⟩
    show isDirEmpty M fuel d s = none
    rw [isDirEmpty, if_neg hd0]
    exact h

/-- `FAT32_ListDirectory` returns as many entries as the directory holds, or as many as fit. -/
theorem listDirectory_within (hat : M.At s V A) {d : Nat} {l : List Nat} (hd : M.DirOn V d l) :
    ∃ s' list, s.Reads s' ∧ list.length = min (M.slotCount * 8) (M.entryCount V l) ∧
      Prog.Within l.length (fun fuel => fat32ListDirectory M fuel d) s (some list) s' := by
  obtain ⟨s', hr, hwalk⟩ := walkDir_chain hM hat none none
    (fun buf acc => scanList buf (M.slotCount * 8) M.slotCount 0 acc)
    (fun _ _ result => return some result) (fun _ _ acc => return some acc.2) hd.1 hd.2 ([], [])
  rcases scanList_walk M V l [] (show ([] : List ListEntry).length ≤ M.slotCount * 8 from
    Nat.zero_le _) with ⟨hle, lfn, list, h, hlen⟩ | ⟨hlt, c, list, h, hlen⟩
  · rw [List.length_nil, Nat.zero_add] at hle hlen
    refine ⟨s', list, hr, by omega, ?_⟩
    intro fuel
    rcases hwalk fuel with hrun | hnone
    · exact Or.inl (hrun.trans (by rw [h]; rfl))
    · exact Or.inr hnone
  · rw [List.length_nil, Nat.zero_add] at hlt
    refine ⟨s', list, hr, by omega, ?_⟩
    intro fuel
    rcases hwalk fuel with hrun | hnone
    · exact Or.inl (hrun.trans (by rw [h]; rfl))
    · exact Or.inr hnone

/-- What `FAT32_RemoveDir` has checked when it returns 0. -/
theorem removeDir_checks (hat : M.At s V A) {fuel p : Nat} {lp : List Nat} {name : List UInt8}
    (hp : M.DirOn V p lp) (hrun : fat32RemoveDir M fuel p name s = some (0, s')) :
    ∃ c i lfn s1, V.walk (scanOrdered M name) lp [] = .inl (c, i, lfn) ∧ s.Reads s1 ∧
      ((V.slot c i).cluster ≠ 0 →
        ∃ s2, isDirEmpty M fuel (V.slot c i).cluster s1 = some (true, s2)) := by
  obtain ⟨s1, hr, ⟨c, i, lfn, hwalk, hhit⟩ | ⟨-, x, buf, lfn, hend⟩⟩ :=
    walkDir_selects hM hat hp _ _ _ _ _ hrun
  · refine ⟨c, i, lfn, s1, hwalk, hr, ?_⟩
    intro h0
    simp only [] at hhit
    split at hhit
    · cases hhit
    · have h0' : (slotAt (V.data c) i).cluster ≠ 0 := h0
      rw [if_pos h0'] at hhit
      obtain ⟨empty, s2, hempty, hrest⟩ := Prog.bind_eq_some.mp hhit
      cases empty with
      | false => cases hrest
      | true => exact ⟨s2, hempty⟩
  · cases hend

/-- `is_dir_empty` and `FAT32_ListDirectory` agree exactly on the directories in which no end mark
stands before the first cluster with an entry. -/
theorem emptinessAgrees_iff {d : Nat} {l : List Nat} (hq : s.faults = [])
    (hd : M.DirOn (M.view s) d l) : EmptinessAgrees M s d ↔
      ∀ p c q, l = p ++ c :: q → M.Holds (M.view s) c → (∀ x ∈ p, ¬ M.Holds (M.view s) x) →
        ∀ x ∈ p, ¬ M.EndMarked (M.view s) x := by
  have hat : M.At s (M.view s) s.allocs := ⟨hq, rfl, rfl⟩
  obtain ⟨t, -, hempty⟩ := isDirEmpty_within hM hat hd
  obtain ⟨t', list, -, hlen, hlist⟩ := listDirectory_within hM hat hd
  have hcapacity : 0 < M.slotCount * 8 := by
    have hslots := hM.slotCount_eq
    have hsectors := hM.sectors.1
    omega
  have hzero : list.length = 0 ↔ ∀ c ∈ l, ¬ M.Holds (M.view s) c := by
    rw [← M.entryCount_eq_zero, hlen]
    omega
  constructor
  · intro h p c q hl hc hp x hx hmark
    obtain ⟨empty, list', u, u', hends, hends', hiff⟩ := h.agrees
    have hval := Prog.Ends.unique hempty.ends hends
    have hval' := Prog.Ends.unique hlist.ends hends'
    have hlist' : list = list' := Option.some.inj hval'.1
    rw [← hval.1, ← hlist'] at hiff
    -- the directory holds an entry, so it must not seem empty
    have hne : ¬ list.length = 0 := by
      rw [hzero]
      intro hall
      exact hall c (by rw [hl]; simp) hc
    apply hne
    rw [← hiff, M.seemsEmpty_iff]
    intro p' c' q' hl' hc'
    refine ⟨x, ?_, hmark⟩
    -- `c'` holds an entry and `p` does not, so `p` comes before `c'`
    rw [hl] at hl'
    rcases List.append_eq_append_iff.mp hl' with ⟨r, hp', -⟩ | ⟨r, hp', hq'⟩
    · rw [hp']
      exact List.mem_append_left r hx
    · cases r with
      | nil =>
          rw [List.append_nil] at hp'
          rw [← hp']
          exact hx
      | cons y r =>
          cases hq'
          exact absurd hc' (hp c' (by rw [hp']; simp))
  · intro h
    have hsound : M.seemsEmpty (M.view s) l = true → ∀ c ∈ l, ¬ M.Holds (M.view s) c := by
      intro hseems
      rw [M.seemsEmpty_iff] at hseems
      by_contra hsome
      push Not at hsome
      obtain ⟨p, c, q, hl, hc, hp⟩ := exists_first hsome
      obtain ⟨x, hx, hmark⟩ := hseems p c q hl hc
      exact h p c q hl hc hp x hx hmark
    constructor
    · refine ⟨_, list, t, t', hempty.ends, hlist.ends, ?_⟩
      rw [hzero]
      constructor
      · exact hsound
      · intro hnone
        rw [M.seemsEmpty_iff]
        intro p c q hl hc
        exact absurd hc (hnone c (by rw [hl]; simp))
    · intro p lp fuel name s' hp hrun fuel' q s1 hsel hcluster fuel'' n st o u hfind
      obtain ⟨c, i, lfn, s2, hwalk, hr, hchecked⟩ := removeDir_checks hM hat hp hrun
      have hsel' := (selects_iff hM hat hp _ q).mp ⟨fuel', s1, hsel⟩
      rw [hwalk] at hsel'
      cases hsel'
      have hd0 : ((M.view s).slot c i).cluster ≠ 0 := by
        rw [hcluster]
        have hin := (hd.2 d (Chain.mem_self hd.1)).1
        omega
      obtain ⟨s3, hrun'⟩ := hchecked hd0
      rw [hcluster] at hrun'
      obtain ⟨t2, -, hempty'⟩ := isDirEmpty_within hM (hr.stays hat) hd
      have hseems := (hempty'.result hrun').1
      obtain ⟨-, ⟨rfl, x, hx, j, hlive, -⟩ | ⟨hst, -⟩⟩ := findEntryAny_spec hM hat hd hfind
      · exact absurd ⟨j, hlive⟩ (hsound hseems.symm x hx)
      · exact hst

end Sound

/-- A directory of one cluster. -/
theorem emptinessAgrees_root : EmptinessAgrees (smallMount ⟨true, true⟩) (namedState [65]) 2 := by
  apply (emptinessAgrees_iff (smallMount_sound _) rfl (l := [2]) (by decide +kernel)).mpr
  intro p c q hl _ _ x hx
  cases p with
  | nil => exact absurd hx List.not_mem_nil
  | cons y p => simp at hl

/-- A directory in the clusters 3 and 4. The first one holds ".", "..", 13 deleted slots and an end
mark, which leaves no room for a file with a long name; so the file "A" is in the second one. -/
def splitState : FsState :=
  smallState [0x0FFFFFF8, 0x0FFFFFF8, 0x0FFFFFF8, 4, 0x0FFFFFF8] (fun c =>
    if c = 3 then setSlots (List.replicate 512 0) 0
      ([mkSfn dotName attrDirectory
          { second := 0, minute := 0, hour := 0, day := 1, month := 1, year := 0 } 3,
        mkSfn dotdotName attrDirectory
          { second := 0, minute := 0, hour := 0, day := 1, month := 1, year := 0 } 0] ++
        List.replicate 13 ((mkSfn (nameTo83 [66]) attrArchive
          { second := 0, minute := 0, hour := 0, day := 1, month := 1, year := 0 } 0).setName0 0xE5))
    else if c = 4 then namedCluster [65] else [])

theorem emptinessAgrees_fails : ¬ EmptinessAgrees (smallMount ⟨true, true⟩) splitState 3 := by
  intro h
  obtain ⟨empty, list, t, t', ⟨n, hn⟩, ⟨m, hm⟩, hiff⟩ := h.agrees
  have hat : (smallMount ⟨true, true⟩).At splitState ((smallMount ⟨true, true⟩).view splitState) [] :=
    ⟨rfl, rfl, rfl⟩
  have hd : (smallMount ⟨true, true⟩).DirOn ((smallMount ⟨true, true⟩).view splitState) 3 [3, 4] := by
    decide +kernel
  obtain ⟨u, -, hempty⟩ := isDirEmpty_within (smallMount_sound _) hat hd
  obtain ⟨u', list', -, hlen, hlist⟩ := listDirectory_within (smallMount_sound _) hat hd
  have hval := Prog.Ends.unique hempty.ends ⟨n, hn⟩
  have hval' := Prog.Ends.unique hlist.ends ⟨m, hm⟩
  have hone : list'.length = 1 := hlen.trans (by decide +kernel)
  rw [← hval.1, ← Option.some.inj hval'.1, hone] at hiff
  have hseems : (smallMount ⟨true, true⟩).seemsEmpty
      ((smallMount ⟨true, true⟩).view splitState) [3, 4] = true := by decide +kernel
  exact absurd (hiff.mp hseems) (by decide)

end Os003
