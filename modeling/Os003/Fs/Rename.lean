import Os003.Fs.Selection

set_option autoImplicit false

/-! # What a rename changes

`FAT32_RenameFile` writes the 11 bytes of a short name and takes or overwrites the long-name slots
before it. Everything else stays, and the new name leads to the entry afterwards: nothing before it
matched the new name, or the call had been refused.
-/

namespace Os003

open Bytes

/-! ## Runs -/

/-- Slot `j` is one of the run of long-name slots directly before slot `i`. -/
def InRunBefore (buf : List UInt8) (i j : Nat) : Prop :=
  j < i ∧ ∀ m, j ≤ m → m < i → IsPiece (slotAt buf m)

/-- Each run of long-name slots that a scanner reaches is followed by a short entry in the same
cluster. -/
def RunsClosed (buf : List UInt8) (n : Nat) : Prop :=
  ∀ j, j < n → (∀ m, m < j → (slotAt buf m).name0 ≠ 0) → IsPiece (slotAt buf j) →
    ∃ k, j < k ∧ k < n ∧ (∀ m, j < m → m < k → IsPiece (slotAt buf m)) ∧
      (slotAt buf k).name0 ≠ 0x00 ∧ (slotAt buf k).name0 ≠ 0xE5 ∧ (slotAt buf k).attr ≠ attrLfn

/-- The pieces a scanner has pending are of the run directly before. -/
theorem pieces_inRun {buf : List UInt8} {i j : Nat}
    (hi : ∀ m, m < i → (slotAt buf m).name0 ≠ 0) (h : j ∈ pieces buf [] i) :
    InRunBefore buf i j := by
  induction i with
  | zero => cases h
  | succ i ih =>
      rw [pieces] at h
      by_cases he5 : (slotAt buf i).name0 = 0xE5
      · rw [if_pos he5] at h
        cases h
      · rw [if_neg he5] at h
        by_cases hlfn : (slotAt buf i).attr = attrLfn
        · rw [if_pos hlfn] at h
          have hpiece : IsPiece (slotAt buf i) := ⟨hlfn, hi i (Nat.lt_succ_self i), he5⟩
          have hmem : j ∈ pieces buf [] i ∨ j = i := by
            unfold pushPiece at h
            split at h
            · simpa using h
            · exact Or.inl h
          rcases hmem with hj | rfl
          · obtain ⟨hlt, hrun⟩ := ih (fun m hm => hi m (by omega)) hj
            refine ⟨by omega, ?_⟩
            intro m hjm hm
            by_cases hmi : m = i
            · rw [hmi]
              exact hpiece
            · exact hrun m hjm (by omega)
          · refine ⟨by omega, ?_⟩
            intro m hjm hm
            obtain rfl : m = j := by omega
            exact hpiece
        · rw [if_neg hlfn] at h
          cases h

/-- Where the runs are closed, no piece is pending at the end mark or at the end of the cluster. -/
theorem RunsClosed.pieces_end {buf : List UInt8} {n i : Nat} (h : RunsClosed buf n)
    (hi : ∀ m, m < i → (slotAt buf m).name0 ≠ 0) (hin : i ≤ n)
    (hend : i = n ∨ (slotAt buf i).name0 = 0) : pieces buf [] i = [] := by
  cases i with
  | zero => rfl
  | succ i =>
      by_cases hpiece : IsPiece (slotAt buf i)
      · exfalso
        obtain ⟨k, hik, hkn, hrun, hk0, -, hk⟩ := h i (by omega) (fun m hm => hi m (by omega)) hpiece
        by_cases hki : k = i + 1
        · rcases hend with h | h
          · omega
          · rw [hki] at hk0
            exact hk0 h
        · rcases hend with h | h
          · omega
          · exact (hrun (i + 1) (by omega) (by omega)).notEnd h
      · exact pieces_of_not_isPiece (hi i (Nat.lt_succ_self i)) hpiece

/-- A scan without a hit in a cluster with closed runs hands no piece on. -/
theorem RunsClosed.scan {buf : List UInt8} {matched : List Nat → Nat → Bool} {lfn : List Nat}
    {n i : Nat} (h : RunsClosed buf (i + n)) (hi : ∀ m, m < i → (slotAt buf m).name0 ≠ 0)
    (hscan : scanLfn buf matched n i (pieces buf [] i) = .inl lfn) : lfn = [] := by
  induction n generalizing i with
  | zero =>
      cases hscan
      exact h.pieces_end hi (Nat.le_refl _) (Or.inl rfl)
  | succ n ih =>
      rw [scanLfn_turn] at hscan
      by_cases h0 : (slotAt buf i).name0 = 0
      · rw [if_pos h0] at hscan
        cases hscan
        exact h.pieces_end hi (by omega) (Or.inr h0)
      · rw [if_neg h0] at hscan
        split at hscan
        · cases hscan
        · exact ih (by rwa [show i + (n + 1) = i + 1 + n by omega] at h) (not_end_succ h0 hi) hscan

/-! ## The first match -/

/-- A scan hits the first live slot that matches. -/
theorem scanLfn_hit {buf : List UInt8} {matched : List Nat → Nat → Bool} {lfn : List Nat}
    {n i : Nat} (hi : SlotLive buf n i) (hm : matched (pieces buf lfn i) i = true)
    (hbefore : ∀ j, j < i → SlotLive buf n j → matched (pieces buf lfn j) j = false) :
    scanLfn buf matched n 0 lfn = .inr (i, pieces buf lfn i) := by
  have hstart : ∀ j, j < 0 → (slotAt buf j).name0 ≠ 0 := fun j hj => absurd hj (Nat.not_lt_zero j)
  cases hscan : scanLfn buf matched n 0 lfn with
  | inl lfn' =>
      have hmiss := scanLfn_inl hscan (by rw [Nat.zero_add]; exact hi) (Nat.zero_le i)
      rw [hm] at hmiss
      cases hmiss
  | inr hit =>
      obtain ⟨k, lfn'⟩ := hit
      obtain ⟨-, hk, rfl, hkm, hmiss⟩ := scanLfn_inr hscan hstart
      rw [Nat.zero_add] at hk hmiss
      rcases Nat.lt_trichotomy k i with hlt | rfl | hgt
      · rw [hbefore k hlt hk] at hkm
        cases hkm
      · rfl
      · rw [hmiss i (Nat.zero_le i) hgt hi] at hm
        cases hm

/-- The pieces before a slot depend on the slots before it only. -/
theorem pieces_congr {buf buf' : List UInt8} {lfn : List Nat} {i : Nat}
    (h : ∀ j, j < i → slotAt buf' j = slotAt buf j) : pieces buf' lfn i = pieces buf lfn i := by
  induction i with
  | zero => rfl
  | succ i ih =>
      rw [pieces, pieces, h i (Nat.lt_succ_self i), ih (fun j hj => h j (by omega))]

/-- The match of a slot depends on it and the slots before it only. -/
theorem matchedBy_congr {buf buf' : List UInt8} {name : List UInt8} {i : Nat}
    (h : ∀ j, j ≤ i → slotAt buf' j = slotAt buf j) :
    matchedBy foundLongName name buf' (pieces buf' [] i) i =
      matchedBy foundLongName name buf (pieces buf [] i) i := by
  have hpieces : pieces buf' [] i = pieces buf [] i := pieces_congr fun j hj => h j (by omega)
  have hslots : (pieces buf [] i).map (slotAt buf') = (pieces buf [] i).map (slotAt buf) := by
    apply List.map_congr_left
    intro j hj
    exact h j (pieces_spec hj).1.le
  have hvalid : lfnValid buf' (pieces buf [] i) i = lfnValid buf (pieces buf [] i) i := by
    rw [lfnValid, lfnValid]
    cases hlast : (pieces buf [] i).getLast? with
    | none => rfl
    | some j =>
        have hj := (pieces_spec (List.mem_of_getLast? hlast)).1.le
        simp only [h j hj, h i (Nat.le_refl i)]
  rw [matchedBy, matchedBy, hpieces, hvalid, foundLongName, foundLongName, hslots,
    h i (Nat.le_refl i)]

/-! ## The 8.3 form of a name -/

theorem splitDot_subset (name : List UInt8) : (splitDot name).1 ⊆ name ∧
    ((splitDot name).2.getD []) ⊆ name := by
  unfold splitDot
  split
  · refine ⟨List.take_subset _ _, ?_⟩
    intro b hb
    simp only [Option.getD_some, List.mem_reverse] at hb
    exact List.mem_reverse.mp ((List.takeWhile_sublist _).subset hb)
  · exact ⟨fun _ h => h, by simp⟩

/-- An 8.3 form has no null byte. -/
theorem nameTo83_ne_zero {name : List UInt8} (h : 0 ∉ name) : ∀ b ∈ (nameTo83 name).1, b ≠ 0 := by
  have hpad : ∀ n, ∀ l ⊆ name, ∀ b ∈ padTo n l, b ≠ 0 := by
    intro n l hl b hb
    rcases List.mem_append.mp hb with hb | hb
    · rintro rfl
      exact h (hl (List.mem_of_mem_take hb))
    · rw [(List.mem_replicate.mp hb).2]
      decide
  have hupper : ∀ b : UInt8, b ≠ 0 → toUpper b ≠ 0 := by decide +kernel
  intro b hb
  obtain ⟨a, ha, rfl⟩ := List.mem_map.mp hb
  apply hupper
  rcases List.mem_append.mp ha with ha | ha
  · exact hpad 8 _ (splitDot_subset name).1 a ha
  · exact hpad 3 _ (splitDot_subset name).2 a ha

theorem Slot.name0_eq (e : Slot) : e.name0 = e.name.1.getD 0 0 := by
  rw [Slot.name0, Slot.name]
  simp [List.getD_eq_getElem?_getD]

/-! ## The renamed cluster -/

section Cluster

variable {M : Mount} (hM : M.Sound) {buf : List UInt8} {i : Nat}
  (hlen : buf.length = M.clusterSize) (hi : SlotLive buf M.slotCount i)
include hM hlen hi

/-- A slot that is neither the entry nor one of its pieces stays, and no piece becomes an end
mark. -/
theorem renamedCluster_slots {name : List UInt8} (hname : name.length ≤ 255) (k : Nat) (hk : k ≠ i) :
    (k ∉ pieces buf [] i →
      slotAt (renamedCluster buf i (pieces buf [] i) name) k = slotAt buf k) ∧
    (k ∈ pieces buf [] i →
      (slotAt (renamedCluster buf i (pieces buf [] i) name) k).name0 ≠ 0) := by
  have hroom := hi.room hM hlen
  have hpieces : ∀ j ∈ pieces buf [] i, SlotRoom buf j := fun j hj => (hi.piece hM hlen hj).1
  -- naming the entry touches no other slot
  have key : ∀ b : List UInt8, b.length = buf.length →
      slotAt (setSlotName b i (nameTo83 name)) k = slotAt b k := by
    intro b hb
    have hroomb : SlotRoom b i := by
      unfold SlotRoom at hroom ⊢
      omega
    rw [slotAt_setSlotName hroomb, if_neg hk]
  unfold renamedCluster
  simp only []
  split
  · rename_i hsame
    obtain ⟨hlenb, hin, hout⟩ := slotAt_setPieces hsame.2.2 hpieces k
    rw [key _ hlenb]
    refine ⟨hout, ?_⟩
    intro hkp
    exact (makeLfnEntries_isPiece hname (hin hkp)).1.notEnd
  · obtain ⟨hin, hout⟩ := slotAt_markDeleted hpieces k
    rw [key _ (markDeleted_length hpieces)]
    refine ⟨hout, ?_⟩
    intro hkp
    rw [hin hkp]
    decide

/-- A slot that has changed is one of the run before the entry. -/
theorem renamedCluster_run {name : List UInt8} (hname : name.length ≤ 255) {k : Nat} (hk : k ≠ i)
    (hne : slotAt (renamedCluster buf i (pieces buf [] i) name) k ≠ slotAt buf k) :
    InRunBefore buf i k := by
  apply pieces_inRun hi.reached
  by_contra h
  exact hne ((renamedCluster_slots hM hlen hi hname k hk).1 h)

/-- The entry is live under its new name. -/
theorem renamedCluster_live {name : List UInt8} (hname : name.length ≤ 255) (h0 : 0 ∉ name)
    (hdeleted : (nameTo83 name).1.getD 0 0 ≠ 0xE5) (hdot : (nameTo83 name).1.getD 0 0 ≠ 0x2E) :
    SlotLive (renamedCluster buf i (pieces buf [] i) name) M.slotCount i := by
  obtain ⟨-, hnamed, -⟩ := renamedCluster_spec hM hlen hi name
  refine ⟨hi.lt, ?_, ?_⟩
  · have hvalid := (isValidSfnEntry_iff _).mp hi.valid
    rw [isValidSfnEntry_iff, hnamed, Slot.name0_eq, Slot.name_setName, Slot.attr_setName]
    refine ⟨?_, hdeleted, hdot, hvalid.2.2.2⟩
    have hlen11 := (nameTo83 name).2
    have hmem : (nameTo83 name).1.getD 0 0 ∈ (nameTo83 name).1 := by
      rw [List.getD_eq_getElem _ _ (by omega)]
      exact List.getElem_mem _
    exact nameTo83_ne_zero h0 _ hmem
  · intro j hj
    obtain ⟨hsame, hpiece⟩ := renamedCluster_slots hM hlen hi hname j (by omega)
    by_cases h : j ∈ pieces buf [] i
    · exact hpiece h
    · rw [hsame h]
      exact hi.reached j hj

/-- Before the entry nothing has come to match. -/
theorem renamedCluster_before {name : List UInt8} (hname : name.length ≤ 255) {j : Nat} (hj : j < i)
    (hlive : SlotLive (renamedCluster buf i (pieces buf [] i) name) M.slotCount j)
    (hmiss : ∀ k, SlotLive buf M.slotCount k →
      matchedBy foundLongName name buf (pieces buf [] k) k = false) :
    matchedBy foundLongName name (renamedCluster buf i (pieces buf [] i) name)
      (pieces (renamedCluster buf i (pieces buf [] i) name) [] j) j = false := by
  obtain ⟨-, -, hslots⟩ := renamedCluster_spec hM hlen hi name
  obtain ⟨hlive', hsame⟩ := SlotLive.before hi hslots hlive
  -- a slot that has changed lies in the run before the entry, so behind the short entry `j`
  have hbefore : ∀ k, k ≤ j → slotAt (renamedCluster buf i (pieces buf [] i) name) k =
      slotAt buf k := by
    intro k hk
    by_contra hne
    have hrun := (renamedCluster_run hM hlen hi hname (by omega) hne).2 j hk hj
    exact ((isValidSfnEntry_iff _).mp hlive'.valid).2.2.2.1 hrun.attr
  rw [matchedBy_congr hbefore]
  exact hmiss j hlive'

end Cluster

/-! ## The search over the clusters -/

section Walk

variable {M : Mount} {V V' : Volume} {name : List UInt8}

/-- Where the runs are closed, a search without a hit comes to every cluster with no piece. -/
theorem walk_misses {l : List Nat} {lfn : List Nat}
    (hruns : ∀ c ∈ l, RunsClosed (V.data c) M.slotCount)
    (h : V.walk (scanFound M name) l [] = .inr lfn) :
    ∀ c ∈ l, scanFound M name (V.data c) [] = .inl [] := by
  induction l with
  | nil => simp
  | cons c l ih =>
      have hstart : ∀ j, j < 0 → (slotAt (V.data c) j).name0 ≠ 0 :=
        fun j hj => absurd hj (Nat.not_lt_zero j)
      cases hscan : scanFound M name (V.data c) [] with
      | inr hit =>
          rw [Volume.walk, hscan] at h
          cases h
      | inl lfn' =>
          have hclosed := hruns c List.mem_cons_self
          obtain rfl : lfn' = [] := RunsClosed.scan (by rwa [Nat.zero_add]) hstart hscan
          rw [Volume.walk, hscan] at h
          intro x hx
          rcases List.mem_cons.mp hx with rfl | hx
          · exact hscan
          · exact ih (fun c hc => hruns c (List.mem_cons_of_mem _ hc)) h x hx

/-- A search that passes the clusters before `c` without a piece and hits in `c`. -/
theorem walk_hits {p q : List Nat} {c : Nat} {hit : Nat × List Nat}
    (hp : ∀ x ∈ p, scanFound M name (V.data x) [] = .inl [])
    (hc : scanFound M name (V.data c) [] = .inr hit) :
    V.walk (scanFound M name) (p ++ c :: q) [] = .inl (c, hit) := by
  induction p with
  | nil =>
      show V.walk (scanFound M name) (c :: q) [] = _
      rw [Volume.walk, hc]
  | cons x p ih =>
      show V.walk (scanFound M name) (x :: (p ++ c :: q)) [] = _
      rw [Volume.walk, hp x List.mem_cons_self]
      exact ih fun y hy => hp y (List.mem_cons_of_mem _ hy)

end Walk

/-! ## The theorem -/

/-- Only the name of the entry in slot `i` of cluster `c` has changed, and the new name leads to
it. -/
structure Mount.Renamed (M : Mount) (s s' : FsState) (d : Nat) (l : List Nat) (newName : List UInt8)
    (c i : Nat) : Prop where
  cluster : c ∈ l
  live : M.LiveAt (M.view s) c i
  changed : ((M.view s).slot c i).name ≠ nameTo83 newName
  named : ((M.view s').slot c i).name = nameTo83 newName
  kept : ∀ j, 11 ≤ j → ((M.view s').slot c i).1.getD j 0 = ((M.view s).slot c i).1.getD j 0
  run : ∀ j, j ≠ i → (M.view s').slot c j ≠ (M.view s).slot c j →
    InRunBefore ((M.view s).data c) i j
  clusters : ∀ x, x ≠ c → (M.view s').data x = (M.view s).data x
  table : (M.view s').fat = (M.view s).fat
  drive : ∀ m x, (m = M.disk.isMaster → x < M.dataBase c ∨ M.dataBase c + M.clusterSize ≤ x) →
    s'.drive m x = s.drive m x
  found : (nameTo83 newName).1.getD 0 0 ≠ 0xE5 → (nameTo83 newName).1.getD 0 0 ≠ 0x2E →
    ∃ s'', ∀ fuel, l.length ≤ fuel →
      fat32FindEntryAny M fuel d newName s' = some ((0, some ((M.view s').slot c i)), s'')

/-- A rename that succeeds has not found the new name, and rewrites the cluster of a live entry. -/
theorem renameFile_run {M : Mount} (hM : M.Sound) {s s' : FsState} (hq : s.faults = []) {fuel d : Nat}
    {l : List Nat} (hd : M.DirOn (M.view s) d l) {oldName newName : List UInt8}
    (hrun : fat32RenameFile M fuel d oldName newName s = some (0, s')) :
    (∃ lfn, (M.view s).walk (scanFound M newName) l [] = .inr lfn) ∧
      ∃ s2, s.Reads s2 ∧ ∃ c ∈ l, ∃ i, M.LiveAt (M.view s) c i ∧
        s' = (M.putCluster s2 c (renamedCluster ((M.view s).data c) i
          (pieces ((M.view s).data c) [] i) newName)).note (.flush (refAsBool M.disk.isMaster)) := by
  have hat : M.At s (M.view s) s.allocs := ⟨hq, rfl, rfl⟩
  obtain ⟨⟨st, o⟩, s1, hfind, hrest⟩ := Prog.bind_eq_some.mp hrun
  obtain ⟨hr1, ⟨c, i, lfn, -, rfl, -⟩ | ⟨hwalk, rfl, -⟩⟩ := findEntryAny_selects hM hat hd hfind
  · cases hrest
  refine ⟨hwalk, ?_⟩
  simp only [] at hrest
  rw [if_neg (by decide)] at hrest
  have hat1 := hr1.stays hat
  obtain ⟨s2, hr2, ⟨c, hc, i, hlive, -, hhit⟩ | ⟨-, x, buf, lfn', hend⟩⟩ :=
    scanOrdered_walk hM hat1 hd oldName _ _ _ _ hrest
  swap
  · cases hend
  have hcin := hd.2 c hc
  have hat2 := hr2.stays hat1
  obtain ⟨hlen', -, -⟩ := renamedCluster_spec hM (hat.data_length hcin) hlive newName
  have hwrite := fat32WriteCluster_run hM hat2.quiet hcin hlen'
  simp only [] at hhit
  rw [Prog.bind_run hwrite, if_neg (by decide), Prog.bind_run (ata_flush_run _ _),
    Prog.pure_run] at hhit
  exact ⟨s2, hr1.trans hr2, c, hc, i, hlive, (Prod.mk.inj (Option.some.inj hhit)).2.symm⟩

/-- The renamed entry is found under the new name: nothing before it matches, and it does by its 8.3
form. -/
theorem renamed_found {M : Mount} (hM : M.Sound) {s : FsState} {V : Volume} {A l : List Nat} {d c i : Nat}
    {newName : List UInt8}
    (hat : M.At s (V.setData c (renamedCluster (V.data c) i (pieces (V.data c) [] i) newName)) A)
    (hd : M.DirOn V d l) (hc : c ∈ l) (hlen : (V.data c).length = M.clusterSize) (hlive : M.LiveAt V c i)
    (hnew : newName.length ≤ 255) (h0 : 0 ∉ newName)
    (hmiss : ∀ x ∈ l, scanFound M newName (V.data x) [] = .inl [])
    (hdeleted : (nameTo83 newName).1.getD 0 0 ≠ 0xE5) (hdot : (nameTo83 newName).1.getD 0 0 ≠ 0x2E) :
    ∃ s', ∀ fuel, l.length ≤ fuel → fat32FindEntryAny M fuel d newName s = some ((0, some
      (slotAt (renamedCluster (V.data c) i (pieces (V.data c) [] i) newName) i)), s') := by
  obtain ⟨-, hnamed, -⟩ := renamedCluster_spec hM hlen hlive newName
  have hnone : ∀ k, M.LiveAt V c k → matchedBy foundLongName newName (V.data c)
      (pieces (V.data c) [] k) k = false := by
    intro k hk
    exact scanLfn_inl (hmiss c hc) (by rw [Nat.zero_add]; exact hk) (Nat.zero_le k)
  have hscan : scanFound M newName (renamedCluster (V.data c) i (pieces (V.data c) [] i) newName) [] =
      .inr (i, pieces (renamedCluster (V.data c) i (pieces (V.data c) [] i) newName) [] i) := by
    refine scanLfn_hit (renamedCluster_live hM hlen hlive hnew h0 hdeleted hdot) ?_ ?_
    · rw [matchedBy, hnamed, Slot.name_setName]
      simp
    · intro j hj hjlive
      exact renamedCluster_before hM hlen hlive hnew hj hjlive hnone
  generalize renamedCluster (V.data c) i (pieces (V.data c) [] i) newName = buf at *
  have hdata : (V.setData c buf).data c = buf := Function.update_self _ _ _
  obtain ⟨p, q, hl⟩ := List.append_of_mem hc
  have hcp : c ∉ p := by
    have hnodup := hd.1.nodup
    rw [hl] at hnodup
    exact fun h => (List.nodup_append.mp hnodup).2.2 c h c List.mem_cons_self rfl
  have hwalk : (V.setData c buf).walk (scanFound M newName) l [] = .inl (c, i, pieces buf [] i) := by
    rw [hl]
    refine walk_hits ?_ (by rw [hdata]; exact hscan)
    intro x hx
    have hxc : x ≠ c := fun h => hcp (h ▸ hx)
    rw [Volume.setData_data, Function.update_of_ne hxc]
    exact hmiss x (by rw [hl]; exact List.mem_append_left _ hx)
  have hd' : (V.setData c buf).ChainOf d l := hd.1
  obtain ⟨s', -, hw⟩ := walkDir_chain hM hat (2, (none : Option Slot)) (3, none)
    (scanFound M newName) (fun _ b hit => pure (0, some (slotAt b hit.1)))
    (fun _ _ _ => pure (1, none)) hd' hd.2 []
  refine ⟨s', fun fuel hfuel => ?_⟩
  rcases hw fuel with h | ⟨-, h⟩
  · rw [hwalk, Volume.finish, hdata] at h
    exact h
  · omega

end Os003
