import Os003.Fs.Emptiness

set_option autoImplicit false

/-! # Walks on damaged volumes

The loops over a chain of clusters check a link for an end mark and for nothing else: it may lead
outside the volume, and back to a cluster already visited. `Mount.raw` is the volume they see, with
an entry and a cluster for every number. A walk along it returns when its links come to an end mark
or when the loop finds what it looks for; if neither happens, the links run into a cycle and the
loop never returns.
-/

namespace Os003

open Bytes Linked

/-! ## Clusters of any number -/

/-- The geometry that lets every read of an entry or a cluster go to a 48-bit address. It does not
say where the table and the clusters lie. -/
structure Mount.Addressable (M : Mount) : Prop where
  bytes : M.info.bytesPerSector = 512
  sectors : M.info.sectorsPerCluster < 2 ^ 8
  table : M.info.fatRegionLba < 2 ^ 32
  region : M.info.dataRegionLba < 2 ^ 32
  address : M.part.startingLba ≤ 2 ^ 47

theorem Mount.Sound.addressable {M : Mount} (hM : M.Sound) : M.Addressable where
  bytes := hM.bytes
  sectors := hM.sectors.2
  table := by
    have hlayout := hM.layout
    have hregion := hM.region
    omega
  region := hM.region
  address := hM.address

/-- What `FAT32_NextCluster` and `FAT32_ReadCluster` read for a number, whether it is the number of
a cluster or not. -/
def Mount.raw (M : Mount) (s : FsState) : Volume where
  fat c := readLe32 (readBytes (s.drive (refAsBool M.disk.isMaster)) (512 * M.fatLba c) 512)
    (c * 4 % M.info.bytesPerSector) &&& 0x0FFFFFFF
  data c := readBytes (s.drive M.disk.isMaster) (512 * M.clusterLba c)
    (512 * M.info.sectorsPerCluster)

theorem Mount.raw_fat_lt (M : Mount) (s : FsState) (c : Nat) : (M.raw s).fat c < 2 ^ 32 := by
  have h := Nat.and_le_right (n := readLe32
    (readBytes (s.drive (refAsBool M.disk.isMaster)) (512 * M.fatLba c) 512)
    (c * 4 % M.info.bytesPerSector)) (m := 0x0FFFFFFF)
  exact lt_of_le_of_lt h (by decide)

/-- The links take finitely many values. -/
theorem Mount.raw_fat_finite (M : Mount) (s : FsState) : (Set.range (M.raw s).fat).Finite := by
  apply (Set.finite_lt_nat (2 ^ 32)).subset
  rintro _ ⟨c, rfl⟩
  exact M.raw_fat_lt s c

theorem FsState.Reads.raw {M : Mount} {s s' : FsState} (h : s.Reads s') : M.raw s' = M.raw s := by
  unfold Mount.raw
  rw [h.drive]

theorem Mount.Addressable.clusterLba_lt {M : Mount} (hA : M.Addressable) (c : Nat) :
    M.clusterLba c < 2 ^ 48 := by
  have h1 := hA.region
  have h2 := hA.address
  have h3 : u32 (c + (2 ^ 32 - 2)) * M.info.sectorsPerCluster ≤ 2 ^ 32 * 2 ^ 8 :=
    Nat.mul_le_mul (Nat.mod_lt _ (by decide)).le hA.sectors.le
  have h4 : fat32ClusterToLba M.info c ≤ 2 ^ 32 + 2 ^ 40 := by
    rw [fat32ClusterToLba, u64]
    refine (Nat.mod_le _ _).trans ?_
    omega
  have h5 := Nat.mod_le (M.part.startingLba + fat32ClusterToLba M.info c) (2 ^ 64)
  rw [Mount.clusterLba, u64]
  omega

section Addressable

variable {M : Mount} (hA : M.Addressable) {s : FsState} (hq : s.faults = [])
include hA hq

theorem nextCluster_raw {c : Nat} (hc : c < 2 ^ 32) :
    ∃ s', fat32NextCluster M c s = some (some ((M.raw s).fat c), s') ∧ s.Reads s' := by
  have hlba : M.fatLba c < 2 ^ 48 := by
    have h1 := hA.table
    have h2 := hA.address
    have h3 := Nat.mod_le (M.part.startingLba + M.info.fatRegionLba + c * 4 / 512) (2 ^ 64)
    rw [Mount.fatLba, hA.bytes, u64]
    omega
  refine ⟨_, ?_, FsState.Reads.note s (.read (refAsBool M.disk.isMaster) (M.fatLba c) 1)⟩
  rw [fat32NextCluster, Prog.bind_run (ata_read_run hq hlba)]
  simp only [Mount.raw]
  rw [if_neg (by omega), Prog.pure_run]

theorem readCluster_raw (c : Nat) :
    ∃ s', fat32ReadCluster M c s = some ((0, (M.raw s).data c), s') ∧ s.Reads s' := by
  have hlba := hA.clusterLba_lt c
  refine ⟨_, ?_, FsState.Reads.note s
    (.read M.disk.isMaster (M.clusterLba c) M.info.sectorsPerCluster)⟩
  rw [fat32ReadCluster, Prog.bind_run (ata_read_run hq hlba)]
  simp only [Mount.raw]
  rw [if_neg (by omega), Prog.pure_run]

/-! ## The loops -/

/-- A turn of `walkDir`. -/
theorem walkDir_turn {Acc γ β : Type} (readErr nextErr : β) (scan : List UInt8 → Acc → Acc ⊕ γ)
    (onHit : Nat → List UInt8 → γ → Prog FsState β)
    (onEnd : Nat → List UInt8 → Acc → Prog FsState β) {d : Nat} (hd : d < 2 ^ 32) (acc : Acc) :
    (∃ hit s', s.Reads s' ∧ scan ((M.raw s).data d) acc = .inr hit ∧ ∀ fuel,
        walkDir M readErr nextErr scan onHit onEnd (fuel + 1) d acc s =
          onHit d ((M.raw s).data d) hit s') ∨
      ∃ acc' s', s.Reads s' ∧ scan ((M.raw s).data d) acc = .inl acc' ∧ ∀ fuel,
        walkDir M readErr nextErr scan onHit onEnd (fuel + 1) d acc s =
          if IsEof ((M.raw s).fat d) then onEnd ((M.raw s).fat d) ((M.raw s).data d) acc' s'
          else walkDir M readErr nextErr scan onHit onEnd fuel ((M.raw s).fat d) acc' s' := by
  obtain ⟨s1, hread, hr1⟩ := readCluster_raw hA hq d
  cases hs : scan ((M.raw s).data d) acc with
  | inr hit =>
      left
      refine ⟨hit, s1, hr1, rfl, ?_⟩
      intro fuel
      rw [walkDir, Prog.bind_run hread]
      simp only [hs]
      rw [if_neg (by simp)]
  | inl acc' =>
      right
      have hq1 : s1.faults = [] := by
        obtain ⟨log, rfl⟩ := hr1
        exact hq
      obtain ⟨s2, hnext, hr2⟩ := nextCluster_raw hA hq1 hd
      rw [hr1.raw] at hnext
      refine ⟨acc', s2, hr1.trans hr2, rfl, ?_⟩
      intro fuel
      rw [walkDir, Prog.bind_run hread]
      simp only [hs]
      rw [if_neg (by simp), Prog.bind_run hnext]
      simp only []
      by_cases heof : (M.raw s).fat d ≥ fat32EntryEof
      · rw [if_pos heof, if_pos (show IsEof ((M.raw s).fat d) from heof)]
      · rw [if_neg heof, if_neg (show ¬ IsEof ((M.raw s).fat d) from heof)]

/-- A loop that only looks returns when the links come to an end mark or when there is a hit on the
way, and only then. -/
theorem walkDir_halts_iff {Acc γ β : Type} (readErr nextErr : β)
    (scan : List UInt8 → Acc → Acc ⊕ γ) (f : Nat → List UInt8 → γ → β)
    (g : Nat → List UInt8 → Acc → β) {d : Nat} (hd : d < 2 ^ 32) (acc : Acc) :
    Prog.Halts (fun fuel => walkDir M readErr nextErr scan (fun c buf hit => return f c buf hit)
        (fun c buf acc => return g c buf acc) fuel d acc) s ↔
      (∃ l, (M.raw s).ChainOf d l) ∨
        ∃ k hit, (M.raw s).walk scan (trail (M.raw s).fat d k) acc = .inl hit := by
  constructor
  · rintro ⟨fuel, r, hrun⟩
    -- by the number of turns the call takes: each one is at a hit, at an end mark, or one cluster on
    induction fuel generalizing d acc s with
    | zero => cases hrun
    | succ fuel ih =>
        rcases walkDir_turn hA hq readErr nextErr scan (fun c buf hit => return f c buf hit)
            (fun c buf acc => return g c buf acc) hd acc with
          ⟨hit, s', -, hs, -⟩ | ⟨acc', s', hr, hs, hturn⟩
        · refine Or.inr ⟨0, (d, hit), ?_⟩
          show (M.raw s).walk scan [d] acc = _
          rw [Volume.walk, hs]
        · have hrun' := (hturn fuel).symm.trans hrun
          by_cases heof : IsEof ((M.raw s).fat d)
          · exact Or.inl ⟨[d], Chain.last heof⟩
          · -- neither: the rest of the walk halts from the next cluster
            rw [if_neg heof] at hrun'
            have hq' : s'.faults = [] := by
              obtain ⟨log, rfl⟩ := hr
              exact hq
            have hrest := ih hq' (M.raw_fat_lt s d) acc' hrun'
            rw [hr.raw] at hrest
            rcases hrest with ⟨l, hl⟩ | ⟨k, hit, hwalk⟩
            · exact Or.inl ⟨d :: l, Chain.step heof hl⟩
            · refine Or.inr ⟨k + 1, hit, ?_⟩
              show (M.raw s).walk scan (d :: trail (M.raw s).fat ((M.raw s).fat d) k) acc = _
              rw [Volume.walk, hs]
              exact hwalk
  · -- the number of steps to the end mark or the hit
    intro h
    have hsteps : ∃ k, IsEof ((M.raw s).fat^[k + 1] d) ∨
        ∃ hit, (M.raw s).walk scan (trail (M.raw s).fat d k) acc = .inl hit := by
      rcases h with hl | ⟨k, hit, hwalk⟩
      · obtain ⟨k, hk⟩ := exists_chain_iff.mp hl
        exact ⟨k, Or.inl hk⟩
      · exact ⟨k, Or.inr ⟨hit, hwalk⟩⟩
    obtain ⟨k, hk⟩ := hsteps
    clear h
    induction k generalizing d acc s with
    | zero =>
        rcases walkDir_turn hA hq readErr nextErr scan (fun c buf hit => return f c buf hit)
            (fun c buf acc => return g c buf acc) hd acc with
          ⟨hit, s', -, hs, hturn⟩ | ⟨acc', s', hr, hs, hturn⟩
        · exact ⟨1, _, hturn 0⟩
        · have heof : IsEof ((M.raw s).fat d) := by
            rcases hk with heof | ⟨hit, hwalk⟩
            · exact heof
            · exfalso
              have hwalk' : (M.raw s).walk scan [d] acc = .inl hit := hwalk
              rw [Volume.walk, hs] at hwalk'
              cases hwalk'
          exact ⟨1, _, (hturn 0).trans (if_pos heof)⟩
    | succ k ih =>
        rcases walkDir_turn hA hq readErr nextErr scan (fun c buf hit => return f c buf hit)
            (fun c buf acc => return g c buf acc) hd acc with
          ⟨hit, s', -, hs, hturn⟩ | ⟨acc', s', hr, hs, hturn⟩
        · exact ⟨1, _, hturn 0⟩
        · by_cases heof : IsEof ((M.raw s).fat d)
          · exact ⟨1, _, (hturn 0).trans (if_pos heof)⟩
          · have hq' : s'.faults = [] := by
              obtain ⟨log, rfl⟩ := hr
              exact hq
            have hk' : IsEof ((M.raw s').fat^[k + 1] ((M.raw s).fat d)) ∨
                ∃ hit, (M.raw s').walk scan (trail (M.raw s').fat ((M.raw s).fat d) k) acc' =
                  .inl hit := by
              rw [hr.raw]
              rcases hk with hk | ⟨hit, hwalk⟩
              · exact Or.inl hk
              · have hwalk' : (M.raw s).walk scan
                    (d :: trail (M.raw s).fat ((M.raw s).fat d) k) acc = .inl hit := hwalk
                rw [Volume.walk, hs] at hwalk'
                exact Or.inr ⟨hit, hwalk'⟩
            obtain ⟨fuel, r, hrun⟩ := ih hq' (M.raw_fat_lt s d) acc' hk'
            exact ⟨fuel + 1, r, ((hturn fuel).trans (if_neg heof)).trans hrun⟩

theorem lastCluster_halts_iff {c : Nat} (hc : c < 2 ^ 32) :
    Prog.Halts (fun fuel => lastCluster M fuel c) s ↔ ∃ l, (M.raw s).ChainOf c l := by
  -- one turn reads the entry of `c`, and changes nothing
  have hturn : ∀ {s : FsState}, s.faults = [] → ∀ {c : Nat}, c < 2 ^ 32 →
      ∃ s', s.Reads s' ∧ s'.faults = [] ∧ ∀ fuel, lastCluster M (fuel + 1) c s =
        if (M.raw s).fat c ≥ fat32EntryEof then some (some c, s')
        else lastCluster M fuel ((M.raw s).fat c) s' := by
    intro s hq c hc
    obtain ⟨s', hnext, hr⟩ := nextCluster_raw hA hq hc
    have hq' : s'.faults = [] := by
      obtain ⟨log, rfl⟩ := hr
      exact hq
    refine ⟨s', hr, hq', ?_⟩
    intro fuel
    rw [lastCluster, Prog.bind_run hnext]
    simp only []
    split
    · rfl
    · rfl
  constructor
  · rintro ⟨fuel, r, hrun⟩
    induction fuel generalizing c s with
    | zero => cases hrun
    | succ fuel ih =>
        obtain ⟨s', hr, hq', hstep⟩ := hturn hq hc
        have hrun' := (hstep fuel).symm.trans hrun
        by_cases heof : IsEof ((M.raw s).fat c)
        · exact ⟨[c], Chain.last heof⟩
        · -- the rest of the walk halts, so the chain goes on from the next cluster
          rw [if_neg (show ¬ (M.raw s).fat c ≥ fat32EntryEof from heof)] at hrun'
          obtain ⟨l, hl⟩ := ih hq' (M.raw_fat_lt s c) hrun'
          rw [hr.raw] at hl
          exact ⟨c :: l, Chain.step heof hl⟩
  · rintro ⟨l, hl⟩
    induction l generalizing c s with
    | nil =>
        obtain ⟨t, ht⟩ := Chain.eq_cons hl
        cases ht
    | cons b l ih =>
        obtain ⟨s', hr, hq', hstep⟩ := hturn hq hc
        by_cases heof : IsEof ((M.raw s).fat c)
        · refine ⟨1, (some c, s'), ?_⟩
          exact (hstep 0).trans (if_pos (show (M.raw s).fat c ≥ fat32EntryEof from heof))
        · have htail : (M.raw s').ChainOf ((M.raw s).fat c) l := by
            rw [hr.raw]
            cases hl with
            | last h => exact absurd h heof
            | step _ t => exact t
          obtain ⟨fuel, r, hrun⟩ := ih hq' (M.raw_fat_lt s c) htail
          refine ⟨fuel + 1, r, ?_⟩
          exact ((hstep fuel).trans
            (if_neg (show ¬ (M.raw s).fat c ≥ fat32EntryEof from heof))).trans hrun

end Addressable

/-- The walk of `is_dir_empty` stops in the first cluster with an entry or an end mark. -/
theorem scanEmpty_walk (M : Mount) (V : Volume) (l : List Nat) :
    (∃ hit, V.walk (fun buf (_ : Unit) => scanEmpty buf M.slotCount 0) l () = .inl hit) ↔
      ∃ c ∈ l, M.Holds V c ∨ M.EndMarked V c := by
  induction l with
  | nil => simp [Volume.walk]
  | cons a l ih =>
      have hscan := scanEmpty_spec (V.data a) M.slotCount
        (fun j (hj : j < 0) => absurd hj (Nat.not_lt_zero j))
      unfold Volume.walk
      rcases hscan with ⟨hs, hlive⟩ | ⟨hs, hlive, k, hk, hend⟩ | ⟨hs, hlive, hend⟩
      · simp only [hs]
        have hholds : M.Holds V a := (M.holds_iff V a).mpr hlive
        exact iff_of_true ⟨_, rfl⟩ ⟨a, List.mem_cons_self, Or.inl hholds⟩
      · simp only [hs]
        have hmarked : M.EndMarked V a := ⟨k, by omega, hend⟩
        exact iff_of_true ⟨_, rfl⟩ ⟨a, List.mem_cons_self, Or.inr hmarked⟩
      · simp only [hs, ih]
        constructor
        · rintro ⟨c, hc, h⟩
          exact ⟨c, List.mem_cons_of_mem a hc, h⟩
        · rintro ⟨c, hc, h⟩
          rcases List.mem_cons.mp hc with rfl | hc
          · rcases h with h | ⟨i, hi, h0⟩
            · exact absurd hlive ((M.holds_iff V c).mp h)
            · exact absurd h0 (hend i (by omega))
          · exact ⟨c, hc, h⟩

/-! ## When the four walks return -/

section Addressable

variable {M : Mount} (hA : M.Addressable) {s : FsState} (hq : s.faults = []) {d : Nat}
  (hd : d < 2 ^ 32)
include hA hq hd

theorem findEntryAny_halts_iff (name : List UInt8) :
    Prog.Halts (fun fuel => fat32FindEntryAny M fuel d name) s ↔
      (∃ l, (M.raw s).ChainOf d l) ∨
        ∃ k, ∃ p ∈ (M.raw s).looks M.slotCount true (trail (M.raw s).fat d k) [],
          LongIs foundLongName (M.raw s) name p ∨ ShortIs (M.raw s) name p := by
  refine (walkDir_halts_iff hA hq (2, none) (3, none) (scanFound M name)
    (fun _ buf hit => (0, some (slotAt buf hit.1))) (fun _ _ _ => (1, none)) hd []).trans ?_
  apply or_congr_right
  apply exists_congr
  intro k
  have hiff := (M.raw s).walk_eq_inl_iff M.slotCount true (matchedBy foundLongName name)
    (trail (M.raw s).fat d k) []
  simp only [matchedBy_eq_true] at hiff
  constructor
  · rintro ⟨hit, hwalk⟩
    have hfind := (hiff hit).mp hwalk
    have hmatch := List.find?_some hfind
    simp only [decide_eq_true_eq] at hmatch
    exact ⟨hit, List.mem_of_find?_eq_some hfind, hmatch⟩
  · rintro ⟨p, hp, hmatch⟩
    have hsome : ((M.raw s).looks M.slotCount true (trail (M.raw s).fat d k) []).find? (fun p =>
        decide (LongIs foundLongName (M.raw s) name p ∨ ShortIs (M.raw s) name p)) |>.isSome := by
      rw [List.find?_isSome]
      exact ⟨p, hp, decide_eq_true hmatch⟩
    obtain ⟨hit, hfind⟩ := Option.isSome_iff_exists.mp hsome
    exact ⟨hit, (hiff hit).mpr hfind⟩

theorem listDirectory_halts_iff : Prog.Halts (fun fuel => fat32ListDirectory M fuel d) s ↔
    (∃ l, (M.raw s).ChainOf d l) ∨
      ∃ k, M.slotCount * 8 < M.entryCount (M.raw s) (trail (M.raw s).fat d k) := by
  refine (walkDir_halts_iff hA hq none none
    (fun buf acc => scanList buf (M.slotCount * 8) M.slotCount 0 acc)
    (fun _ _ result => some result) (fun _ _ acc => some acc.2) hd ([], [])).trans ?_
  apply or_congr_right
  apply exists_congr
  intro k
  rcases scanList_walk M (M.raw s) (trail (M.raw s).fat d k) []
    (show ([] : List ListEntry).length ≤ M.slotCount * 8 from Nat.zero_le _) with
    ⟨hle, lfn, list, hwalk, -⟩ | ⟨hlt, c, list, hwalk, -⟩
  · rw [List.length_nil, Nat.zero_add] at hle
    rw [hwalk]
    exact iff_of_false (fun ⟨_, h⟩ => by cases h) (by omega)
  · rw [List.length_nil, Nat.zero_add] at hlt
    exact iff_of_true ⟨_, hwalk⟩ hlt

theorem isDirEmpty_halts_iff : Prog.Halts (fun fuel => isDirEmpty M fuel d) s ↔
    d = 0 ∨ (∃ l, (M.raw s).ChainOf d l) ∨
      ∃ k, ∃ c ∈ trail (M.raw s).fat d k, M.Holds (M.raw s) c ∨ M.EndMarked (M.raw s) c := by
  by_cases h0 : d = 0
  · subst h0
    exact iff_of_true ⟨0, (true, s), rfl⟩ (Or.inl rfl)
  · have hrun : (fun fuel => isDirEmpty M fuel d) = fun fuel => walkDir M false false
        (fun buf (_ : Unit) => scanEmpty buf M.slotCount 0) (fun _ _ r => return r)
        (fun _ _ _ => return true) fuel d () := by
      funext fuel
      rw [isDirEmpty, if_neg h0]
    rw [hrun, or_iff_right h0]
    refine (walkDir_halts_iff hA hq false false
      (fun buf (_ : Unit) => scanEmpty buf M.slotCount 0) (fun _ _ r => r) (fun _ _ _ => true)
      hd ()).trans ?_
    apply or_congr_right
    apply exists_congr
    intro k
    exact scanEmpty_walk M (M.raw s) _

end Addressable

/-- Of the walks from cluster `d`: each returns unless the links from `d` run into a cycle and it
does not find what it looks for in one of the clusters on the way: a matching entry, more entries
than the result holds, an entry or an end mark. -/
structure WalksReturn (M : Mount) (s : FsState) (d : Nat) : Prop where
  found : ∀ name, Prog.Halts (fun fuel => fat32FindEntryAny M fuel d name) s ↔
    ¬ Cyclic (M.raw s).fat IsEof d ∨
      ∃ k, ∃ p ∈ (M.raw s).looks M.slotCount true (trail (M.raw s).fat d k) [],
        LongIs foundLongName (M.raw s) name p ∨ ShortIs (M.raw s) name p
  listed : Prog.Halts (fun fuel => fat32ListDirectory M fuel d) s ↔
    ¬ Cyclic (M.raw s).fat IsEof d ∨
      ∃ k, M.slotCount * 8 < M.entryCount (M.raw s) (trail (M.raw s).fat d k)
  emptied : Prog.Halts (fun fuel => isDirEmpty M fuel d) s ↔
    d = 0 ∨ ¬ Cyclic (M.raw s).fat IsEof d ∨
      ∃ k, ∃ c ∈ trail (M.raw s).fat d k, M.Holds (M.raw s) c ∨ M.EndMarked (M.raw s) c
  last : Prog.Halts (fun fuel => lastCluster M fuel d) s ↔ ¬ Cyclic (M.raw s).fat IsEof d

/-- The chain from a cluster comes to an end unless the links run into a cycle. -/
theorem Mount.exists_chainOf_iff (M : Mount) (s : FsState) (d : Nat) :
    (∃ l, (M.raw s).ChainOf d l) ↔ ¬ Cyclic (M.raw s).fat IsEof d := by
  rw [← not_exists_chain_iff (M.raw_fat_finite s), not_not]
  rfl

/-- The four walks over a table and clusters of any contents. -/
theorem walksReturn {M : Mount} (hA : M.Addressable) {s : FsState} (hq : s.faults = []) {d : Nat}
    (hd : d < 2 ^ 32) : WalksReturn M s d where
  found name := by rw [findEntryAny_halts_iff hA hq hd, M.exists_chainOf_iff]
  listed := by rw [listDirectory_halts_iff hA hq hd, M.exists_chainOf_iff]
  emptied := by rw [isDirEmpty_halts_iff hA hq hd, M.exists_chainOf_iff]
  last := by rw [lastCluster_halts_iff hA hq hd, M.exists_chainOf_iff]

theorem walksReturn_named : WalksReturn (smallMount ⟨true, true⟩) (namedState [65]) 2 :=
  walksReturn (smallMount_sound _).addressable rfl (by decide)

/-! ## A directory linked to itself -/

theorem mem_trail_fixed {next : Nat → Nat} {a c k : Nat} (h : next a = a)
    (hc : c ∈ trail next a k) : c = a := by
  induction k with
  | zero => exact List.mem_singleton.mp hc
  | succ k ih =>
      rcases List.mem_cons.mp hc with rfl | hc
      · rfl
      · rw [h] at hc
        exact ih hc

/-- What a scanner sees are live slots of the clusters it walks through. -/
theorem Volume.mem_looks {V : Volume} {n : Nat} {keep : Bool} {l lfn : List Nat}
    {p : Nat × Nat × List Nat} (h : p ∈ V.looks n keep l lfn) :
    p.1 ∈ l ∧ SlotLive (V.data p.1) n p.2.1 := by
  induction l generalizing lfn with
  | nil => exact absurd h List.not_mem_nil
  | cons c l ih =>
      rcases List.mem_append.mp h with h | h
      · obtain ⟨⟨i, lfn'⟩, hi, rfl⟩ := List.mem_map.mp h
        obtain ⟨j, hj, heq⟩ := List.mem_map.mp hi
        cases heq
        exact ⟨List.mem_cons_self, of_decide_eq_true (List.mem_filter.mp hj).2⟩
      · exact ⟨List.mem_cons_of_mem c (ih h).1, (ih h).2⟩

/-- A directory in cluster 2, which is linked to itself and in which every slot is deleted. -/
def loopState : FsState :=
  smallState [0x0FFFFFF8, 0x0FFFFFF8, 2] (fun c => if c = 2 then List.replicate 512 0xE5 else [])

/-- None of the four walks returns. -/
theorem walks_endless :
    ¬ Prog.Halts (fun fuel => fat32FindEntryAny (smallMount ⟨true, true⟩) fuel 2 [65]) loopState ∧
    ¬ Prog.Halts (fun fuel => fat32ListDirectory (smallMount ⟨true, true⟩) fuel 2) loopState ∧
    ¬ Prog.Halts (fun fuel => isDirEmpty (smallMount ⟨true, true⟩) fuel 2) loopState ∧
    ¬ Prog.Halts (fun fuel => lastCluster (smallMount ⟨true, true⟩) fuel 2) loopState := by
  have hA := (smallMount_sound ⟨true, true⟩).addressable
  have hfat : ((smallMount ⟨true, true⟩).raw loopState).fat 2 = 2 := by decide +kernel
  have hchain : ¬ ∃ l, ((smallMount ⟨true, true⟩).raw loopState).ChainOf 2 l := by
    rw [Mount.exists_chainOf_iff, not_not]
    refine ⟨0, 1, by decide, hfat.symm, ?_⟩
    intro k hk hs
    have hk0 : k = 0 := by omega
    subst hk0
    have heof : IsEof (((smallMount ⟨true, true⟩).raw loopState).fat 2) := hs
    rw [hfat] at heof
    exact absurd heof (by decide)
  have hslots : ∀ i, i < 16 →
      (((smallMount ⟨true, true⟩).raw loopState).slot 2 i).name0 = 0xE5 := by decide +kernel
  have hlive : ∀ i, ¬ (smallMount ⟨true, true⟩).LiveAt ((smallMount ⟨true, true⟩).raw loopState) 2 i :=
    fun i h => ((isValidSfnEntry_iff _).mp h.valid).2.1 (hslots i h.lt)
  have hholds : ∀ k, ∀ c ∈ trail ((smallMount ⟨true, true⟩).raw loopState).fat 2 k,
      ¬ (smallMount ⟨true, true⟩).Holds ((smallMount ⟨true, true⟩).raw loopState) c := by
    rintro k c hc ⟨i, hi⟩
    rw [mem_trail_fixed hfat hc] at hi
    exact hlive i hi
  refine ⟨?_, ?_, ?_, ?_⟩
  · rw [findEntryAny_halts_iff hA rfl (by decide), or_iff_right hchain]
    rintro ⟨k, p, hp, -⟩
    exact hholds k p.1 (Volume.mem_looks hp).1 ⟨p.2.1, (Volume.mem_looks hp).2⟩
  · rw [listDirectory_halts_iff hA rfl (by decide), or_iff_right hchain]
    rintro ⟨k, hk⟩
    rw [((smallMount ⟨true, true⟩).entryCount_eq_zero _ _).mpr (hholds k)] at hk
    exact absurd hk (Nat.not_lt_zero _)
  · rw [isDirEmpty_halts_iff hA rfl (by decide), or_iff_right (by decide), or_iff_right hchain]
    rintro ⟨k, c, hc, h | ⟨i, hi, h0⟩⟩
    · exact hholds k c hc h
    · rw [mem_trail_fixed hfat hc, hslots i hi] at h0
      exact absurd h0 (by decide)
  · rw [lastCluster_halts_iff hA rfl (by decide)]
    exact hchain

end Os003
