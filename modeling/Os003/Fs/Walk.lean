import Os003.Fs.Alloc
import Os003.Fs.Commands

set_option autoImplicit false

/-! # Walking a directory

On the abstract volume a directory is the list of clusters of its chain, and the loop `walkDir` is
a search through that list (`Volume.walk`). Below it are the slots of one cluster: a slot is
live when the search for short entries sees it, that is when it holds a valid short entry and no
slot before it in the cluster marks the end.
-/

namespace Os003

open Bytes Linked

/-! ## The loop over the clusters -/

section Walk

variable {Acc γ β : Type}

/-- The search of `walkDir` through the clusters of a directory. -/
def Volume.walk (V : Volume) (scan : List UInt8 → Acc → Acc ⊕ γ) :
    List Nat → Acc → (Nat × γ) ⊕ Acc
  | [], acc => .inr acc
  | c :: l, acc =>
      match scan (V.data c) acc with
      | .inr hit => .inl (c, hit)
      | .inl acc => V.walk scan l acc

/-- What `walkDir` does with the outcome of the search; `last` is the last cluster. -/
def Volume.finish (V : Volume) (onHit : Nat → List UInt8 → γ → Prog FsState β)
    (onEnd : Nat → List UInt8 → Acc → Prog FsState β) (last : Nat) :
    (Nat × γ) ⊕ Acc → Prog FsState β
  | .inl (c, hit) => onHit c (V.data c) hit
  | .inr acc => onEnd (V.fat last) (V.data last) acc

/-- A hit is a hit in some cluster of the list. -/
theorem Volume.walk_inl {V : Volume} {scan : List UInt8 → Acc → Acc ⊕ γ} {l : List Nat}
    {acc : Acc} {c : Nat} {hit : γ} (h : V.walk scan l acc = .inl (c, hit)) :
    c ∈ l ∧ ∃ acc', scan (V.data c) acc' = .inr hit := by
  induction l generalizing acc with
  | nil => cases h
  | cons b l ih =>
      cases hs : scan (V.data b) acc with
      | inl acc' =>
          simp only [Volume.walk, hs] at h
          obtain ⟨hc, hhit⟩ := ih h
          exact ⟨List.mem_cons_of_mem _ hc, hhit⟩
      | inr hit' =>
          simp only [Volume.walk, hs] at h
          cases h
          exact ⟨List.mem_cons_self, acc, hs⟩

/-- A search without a hit has gone through every cluster of the list. -/
theorem Volume.walk_inr {V : Volume} {scan : List UInt8 → Acc → Acc ⊕ γ} {l : List Nat}
    {acc acc' : Acc} (h : V.walk scan l acc = .inr acc') :
    ∀ c ∈ l, ∃ a a', scan (V.data c) a = .inl a' := by
  induction l generalizing acc with
  | nil => simp
  | cons b l ih =>
      cases hs : scan (V.data b) acc with
      | inl a' =>
          simp only [Volume.walk, hs] at h
          intro c hc
          rcases List.mem_cons.mp hc with rfl | hc
          · exact ⟨acc, a', hs⟩
          · exact ih h c hc
      | inr hit' =>
          simp only [Volume.walk, hs] at h
          cases h

theorem Volume.ChainOf.head {V : Volume} {d c : Nat} {l : List Nat} (h : V.ChainOf d (c :: l)) :
    c = d := by
  obtain ⟨t, ht⟩ := h.eq_cons
  exact (List.cons.inj ht).1

/-- `walkDir` on a chain: reads, then the outcome of the search. -/
theorem walkDir_chain {M : Mount} (hM : M.Sound) {s : FsState} {V : Volume} {A : List Nat}
    (hat : M.At s V A) (readErr nextErr : β) (scan : List UInt8 → Acc → Acc ⊕ γ)
    (onHit : Nat → List UInt8 → γ → Prog FsState β)
    (onEnd : Nat → List UInt8 → Acc → Prog FsState β) {d : Nat} {l : List Nat}
    (hl : V.ChainOf d l) (hin : ∀ c ∈ l, M.InRange c) (acc : Acc) :
    ∃ s', s.Reads s' ∧ ∀ fuel,
      walkDir M readErr nextErr scan onHit onEnd fuel d acc s =
          V.finish onHit onEnd (l.getLastD 0) (V.walk scan l acc) s' ∨
        (walkDir M readErr nextErr scan onHit onEnd fuel d acc s = none ∧ fuel < l.length) := by
  induction l generalizing d s acc with
  | nil =>
      obtain ⟨t, ht⟩ := hl.eq_cons
      cases ht
  | cons c l ih =>
      have hc := hl.head
      subst hc
      have hcin := hin c List.mem_cons_self
      obtain ⟨s1, hread, hr1⟩ := readCluster_at hM hat hcin
      have hat1 := hr1.stays hat
      cases hs : scan (V.data c) acc with
      | inr hit =>
          refine ⟨s1, hr1, ?_⟩
          intro fuel
          cases fuel with
          | zero => exact Or.inr ⟨rfl, by simp⟩
          | succ fuel =>
              left
              rw [walkDir, Prog.bind_run hread]
              simp only [hs, Volume.walk, Volume.finish]
              rw [if_neg (by simp)]
      | inl acc' =>
          obtain ⟨s2, hnext, hr2⟩ := nextCluster_at hM hat1 hcin.hasEntry
          have hat2 := hr2.stays hat1
          -- what a turn without a hit does
          have hturn : ∀ fuel,
              walkDir M readErr nextErr scan onHit onEnd (fuel + 1) c acc s =
                if V.fat c ≥ fat32EntryEof then onEnd (V.fat c) (V.data c) acc' s2
                else walkDir M readErr nextErr scan onHit onEnd fuel (V.fat c) acc' s2 := by
            intro fuel
            rw [walkDir, Prog.bind_run hread]
            simp only [hs]
            rw [if_neg (by simp), Prog.bind_run hnext]
            simp only []
            by_cases heof : V.fat c ≥ fat32EntryEof
            · rw [if_pos heof, if_pos heof]
            · rw [if_neg heof, if_neg heof]
          have hwalk : V.walk scan (c :: l) acc = V.walk scan l acc' := by
            rw [Volume.walk, hs]
          by_cases hlast : l = []
          · subst hlast
            have heof : V.fat c ≥ fat32EntryEof := Chain.stop_last (p := []) hl
            refine ⟨s2, hr1.trans hr2, ?_⟩
            intro fuel
            cases fuel with
            | zero => exact Or.inr ⟨rfl, by simp⟩
            | succ fuel =>
                left
                rw [hturn, if_pos heof, hwalk]
                rfl
          · obtain ⟨-, hstop, htail⟩ := hl.of_cons hlast
            obtain ⟨s', hr', hw⟩ := ih hat2 htail (fun x hx => hin x (List.mem_cons_of_mem _ hx))
              acc'
            refine ⟨s', (hr1.trans hr2).trans hr', ?_⟩
            intro fuel
            have hlastD : (c :: l).getLastD 0 = l.getLastD 0 := by
              obtain ⟨b, t, rfl⟩ := List.exists_cons_of_ne_nil hlast
              rfl
            cases fuel with
            | zero => exact Or.inr ⟨rfl, by simp⟩
            | succ fuel =>
                have hgo : ¬ V.fat c ≥ fat32EntryEof := hstop
                rw [hturn, if_neg hgo, hwalk, hlastD, List.length_cons]
                rcases hw fuel with h | ⟨h, hlt⟩
                · exact Or.inl h
                · exact Or.inr ⟨h, by omega⟩

end Walk

/-! ## Live slots -/

/-- Slot `i` of a cluster of `n` slots holds a short entry that the scanners reach. -/
structure SlotLive (buf : List UInt8) (n i : Nat) : Prop where
  lt : i < n
  valid : isValidSfnEntry (slotAt buf i) = true
  reached : ∀ j, j < i → (slotAt buf j).name0 ≠ 0

instance (buf : List UInt8) (n i : Nat) : Decidable (SlotLive buf n i) :=
  decidable_of_iff (i < n ∧ isValidSfnEntry (slotAt buf i) = true ∧
      ∀ j, j < i → (slotAt buf j).name0 ≠ 0)
    ⟨fun h => ⟨h.1, h.2.1, h.2.2⟩, fun h => ⟨h.lt, h.valid, h.reached⟩⟩

theorem isValidSfnEntry_iff (e : Slot) : isValidSfnEntry e = true ↔
    e.name0 ≠ 0x00 ∧ e.name0 ≠ 0xE5 ∧ e.name0 ≠ 0x2E ∧ e.attr ≠ attrLfn ∧
      e.attr &&& attrVolumeId = 0 := by
  unfold isValidSfnEntry
  split
  · rename_i h
    constructor
    · intro hf
      cases hf
    · rintro ⟨h1, h2, h3, -⟩
      rcases h with h | h | h <;> contradiction
  · rename_i h
    push Not at h
    split
    · rename_i ha
      constructor
      · intro hf
        cases hf
      · rintro ⟨-, -, -, h4, -⟩
        exact absurd ha h4
    · rename_i ha
      split
      · rename_i hv
        constructor
        · intro hf
          cases hf
        · rintro ⟨-, -, -, -, h5⟩
          exact absurd h5 hv
      · rename_i hv
        push Not at hv
        exact ⟨fun _ => ⟨h.1, h.2.1, h.2.2, ha, hv⟩, fun _ => rfl⟩

/-- Liveness looks at the slots up to the one in question. -/
theorem SlotLive.congr {buf buf' : List UInt8} {n i : Nat} (h : SlotLive buf n i)
    (hi : isValidSfnEntry (slotAt buf' i) = true)
    (hj : ∀ j, j < i → (slotAt buf j).name0 ≠ 0 → (slotAt buf' j).name0 ≠ 0) :
    SlotLive buf' n i :=
  ⟨h.lt, hi, fun j hji => hj j hji (h.reached j hji)⟩

/-- A hit of the search for a short name is a live slot with that name. -/
theorem scanSfn_inr {buf : List UInt8} {sfn : Name83} {n i k : Nat}
    (h : scanSfn buf sfn n i = .inr k) (hi : ∀ j, j < i → (slotAt buf j).name0 ≠ 0) :
    SlotLive buf (i + n) k ∧ (slotAt buf k).name = sfn := by
  induction n generalizing i with
  | zero => cases h
  | succ n ih =>
      rw [scanSfn] at h
      by_cases h0 : (slotAt buf i).name0 = 0x00
      · simp only [h0, if_true] at h
        cases h
      · simp only [h0, if_false] at h
        by_cases hm : isValidSfnEntry (slotAt buf i) = true ∧ (slotAt buf i).name = sfn
        · rw [if_pos hm] at h
          cases h
          exact ⟨⟨by omega, hm.1, hi⟩, hm.2⟩
        · rw [if_neg hm] at h
          have hi' : ∀ j, j < i + 1 → (slotAt buf j).name0 ≠ 0 := by
            intro j hj
            rcases Nat.lt_or_ge j i with hlt | hge
            · exact hi j hlt
            · have : j = i := by omega
              subst this
              exact h0
          obtain ⟨hlive, hname⟩ := ih h hi'
          refine ⟨?_, hname⟩
          rw [show i + (n + 1) = i + 1 + n by omega]
          exact hlive

/-- A search without a hit has seen no live slot with that name. -/
theorem scanSfn_inl {buf : List UInt8} {sfn : Name83} {n i : Nat}
    (h : scanSfn buf sfn n i = .inl ()) {k : Nat} (hk : SlotLive buf (i + n) k) (hik : i ≤ k) :
    (slotAt buf k).name ≠ sfn := by
  induction n generalizing i with
  | zero =>
      have := hk.lt
      omega
  | succ n ih =>
      rw [scanSfn] at h
      by_cases h0 : (slotAt buf i).name0 = 0x00
      · -- the end mark hides the slots behind it
        rcases Nat.lt_or_ge i k with hlt | hge
        · exact absurd h0 (hk.reached i hlt)
        · have : i = k := by omega
          subst this
          exact absurd h0 ((isValidSfnEntry_iff _).mp hk.valid).1
      · simp only [h0, if_false] at h
        by_cases hm : isValidSfnEntry (slotAt buf i) = true ∧ (slotAt buf i).name = sfn
        · rw [if_pos hm] at h
          cases h
        · rw [if_neg hm] at h
          rcases Nat.lt_or_ge i k with hlt | hge
          · refine ih h ?_ hlt
            rw [show i + 1 + n = i + (n + 1) by omega]
            exact hk
          · have : i = k := by omega
            subst this
            intro hname
            exact hm ⟨hk.valid, hname⟩

/-! ## Live entries of a directory -/

/-- Slot `i` of cluster `c` is live. -/
def Mount.LiveAt (M : Mount) (V : Volume) (c i : Nat) : Prop := SlotLive (V.data c) M.slotCount i

instance (M : Mount) (V : Volume) (c i : Nat) : Decidable (M.LiveAt V c i) :=
  inferInstanceAs (Decidable (SlotLive _ _ _))

/-- The slot `i` of cluster `c`. -/
def Volume.slot (V : Volume) (c i : Nat) : Slot := slotAt (V.data c) i

section Sound

variable {M : Mount} (hM : M.Sound) {s s' : FsState} {V : Volume} {A : List Nat}
include hM

theorem Mount.Sound.slotCount_eq : M.slotCount = 16 * M.info.sectorsPerCluster := by
  rw [Mount.slotCount, hM.clusterSize_eq]
  omega

/-- The slots of a cluster fill it. -/
theorem Mount.Sound.slot_room {i : Nat} (hi : i < M.slotCount) : 32 * i + 32 ≤ M.clusterSize := by
  have h1 := hM.slotCount_eq
  have h2 := hM.clusterSize_eq
  omega

/-- `FAT32_WriteDirEntry` replaces the first live entry with the name of the new one. -/
theorem writeDirEntry_within (hat : M.At s V A) {d : Nat} {l : List Nat} (hl : V.ChainOf d l)
    (hin : ∀ c ∈ l, M.InRange c) (e : Slot) :
    ∃ r s' V', M.At s' V' A ∧
      Prog.Within l.length (fun fuel => fat32WriteDirEntry M fuel d e) s r s' ∧
      ((V' = V ∧ ∀ c ∈ l, ∀ i, M.LiveAt V c i → (V.slot c i).name ≠ e.name) ∨
        ∃ c ∈ l, ∃ i, M.LiveAt V c i ∧ (V.slot c i).name = e.name ∧
          V' = V.setData c (setSlot (V.data c) i e)) := by
  obtain ⟨s1, hr1, hw⟩ := walkDir_chain hM hat 2 3
    (fun buf (_ : Unit) => scanSfn buf e.name M.slotCount 0)
    (fun current buf i => fat32WriteCluster M current (setSlot buf i e))
    (fun _ _ _ => pure 1) hl hin ()
  have hat1 := hr1.stays hat
  cases hwalk : V.walk (fun buf (_ : Unit) => scanSfn buf e.name M.slotCount 0) l () with
  | inr u =>
      refine ⟨1, s1, V, hat1, ?_, Or.inl ⟨rfl, ?_⟩⟩
      · intro fuel
        rw [hwalk, Volume.finish, Prog.pure_run] at hw
        exact hw fuel
      · intro c hc i hlive
        obtain ⟨a, a', hs⟩ := Volume.walk_inr hwalk c hc
        refine scanSfn_inl hs ?_ (Nat.zero_le i)
        rw [Nat.zero_add]
        exact hlive
  | inl hit =>
      obtain ⟨c, i⟩ := hit
      obtain ⟨hc, a, hs⟩ := Volume.walk_inl hwalk
      obtain ⟨hlive, hname⟩ := scanSfn_inr hs (fun j hj => absurd hj (Nat.not_lt_zero j))
      rw [Nat.zero_add] at hlive
      have hcin := hin c hc
      have hlen : (setSlot (V.data c) i e).length = M.clusterSize := by
        rw [setSlot_length, hat.data_length hcin]
        rw [hat.data_length hcin]
        exact hM.slot_room hlive.lt
      obtain ⟨s2, hwrite, hat2⟩ := writeCluster_at hM hat1 hcin hlen
      refine ⟨0, s2, _, hat2, ?_, Or.inr ⟨c, hc, i, hlive, hname, rfl⟩⟩
      intro fuel
      rw [hwalk, Volume.finish, hwrite] at hw
      exact hw fuel

end Sound

end Os003
