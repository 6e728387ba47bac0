import Os003.Mm.Paging

set_option autoImplicit false

/-! # The page table as a map

A page table that is a tree stands for a map from pages of addresses to base addresses, and `map_page` and
`unmap_page` are updates of that map (`virt_to_phys_refines`).

That the tables are a tree is kept by every walk, since a walk attaches pages only that are none of the
tables yet.
-/

namespace Os003

namespace Paging

variable {s s' : State} {t i v : Nat} {w : Word}

/-- The tables below a root are different pages, and no page is huge. -/
structure IsTree (mem : Mem) (root : Nat) : Prop where
  distinct : ∀ π π' t, Within 3 π → Within 3 π' → pageAt mem root π = some t →
    pageAt mem root π' = some t → π = π'
  noHuge : ∀ π t i, Within 2 π → pageAt mem root π = some t → i < 512 →
    present (mem t i) = true → huge (mem t i) = false

/-- The pages for the tables of a call: they are different, and none of them is in use. -/
structure FreshPages (s : State) (pages : List Nat) : Prop where
  nodup : pages.Nodup
  fresh : ∀ p ∈ pages, p ≠ 0 ∧ p < 2 ^ 52 ∧ ∀ π, Within 3 π → pageAt s.mem s.cr3 π ≠ some p

/-- A call of `map_page`, with the pages that `malloc_page` gets, or of `unmap_page`. -/
inductive PageOp
  | map (v phys flags : Nat) (pages : List Nat)
  | unmap (v : Nat)

namespace PageOp

def run (s : State) : PageOp → State
  | map v phys flags pages =>
      mapPage v (BitVec.ofNat 64 phys) (BitVec.ofNat 64 flags)
        { s with supply := pages, failed := false }
  | unmap v => unmapPage v s

def Valid (s : State) : PageOp → Prop
  | map v phys flags pages => Canonical v ∧ v % pageSize = 0 ∧ 0 < phys ∧ phys < 2 ^ 64 ∧
      phys % pageSize = 0 ∧ flags < pageSize ∧ FreshPages s pages ∧
      (mapPage v (BitVec.ofNat 64 phys) (BitVec.ofNat 64 flags)
        { s with supply := pages, failed := false }).failed = false
  | unmap v => Canonical v ∧ v % pageSize = 0

end PageOp

def runOps (s : State) (ops : List PageOp) : State := ops.foldl PageOp.run s

/-- Each call of the run is valid in the state it is made in. -/
def ValidRun : State → List PageOp → Prop
  | _, [] => True
  | s, op :: ops => op.Valid s ∧ ValidRun (op.run s) ops

/-! ## The map -/

/-- From pages of addresses to the physical addresses they start at. -/
abbrev PageMap := Nat → Option Nat

def PageMap.lookup (M : PageMap) (v : Nat) : Nat :=
  match M (v / pageSize) with
  | some base => base + v % pageSize
  | none => 0

def PageMap.apply (M : PageMap) : PageOp → PageMap
  | .map v phys _ _ => Function.update M (v / pageSize) (some phys)
  | .unmap v => Function.update M (v / pageSize) none

/-- The map that the tables hold. -/
def mapOf (mem : Mem) (root : Nat) : PageMap := fun q =>
  (pageAt mem root (indices (q * pageSize))).map fun p => p * pageSize

/-! ## Where the tables end -/

/-- Without huge pages an address is translated by a leaf table or not at all. -/
theorem leafOf_none {mem : Mem} {l : Nat} {is : List Nat} (hl : l + is.length = 4)
    (hhuge : ∀ σ i ρ x, is = σ ++ i :: ρ → l + σ.length < 3 →
      Forest.follow (next mem) l t σ = some x → present (mem x i) = true → huge (mem x i) = false)
    (h : Forest.follow (next mem) l t is = none) : leafOf mem l t is = none := by
  induction is generalizing l t with
  | nil => cases h
  | cons i is ih =>
      rw [Forest.follow_cons] at h
      cases hn : next mem l t i with
      | none =>
          -- the entry is not present, since it is not huge
          have hpres : present (mem t i) = false := by
            rcases next_eq_none.mp hn with hp | ⟨hl3, hh⟩
            · exact hp
            · cases hp : present (mem t i) with
              | false => rfl
              | true =>
                  have := hhuge [] i is t rfl (by simpa using hl3) rfl hp
                  rw [this] at hh
                  cases hh
          simp [leafOf, hpres]
      | some c =>
          rw [hn, Option.bind_some] at h
          have hlt : l < 3 := by
            rw [List.length_cons] at hl
            have hne : is ≠ [] := by
              rintro rfl
              cases h
            have := List.length_pos_iff.mpr hne
            omega
          rw [leafOf_next hn hlt]
          refine ih (by rw [List.length_cons] at hl; omega) ?_ h
          intro σ j ρ x his hσ hx hp
          refine hhuge (i :: σ) j ρ x (by rw [his]; rfl) ?_ ?_ hp
          · rw [List.length_cons]
            omega
          · rw [Forest.follow_cons, hn]
            exact hx

theorem IsTree.leafOf_none {mem : Mem} {root : Nat} (h : IsTree mem root)
    (hnone : pageAt mem root (indices v) = none) : leafOf mem 0 root (indices v) = none := by
  refine Paging.leafOf_none (t := root) rfl ?_ hnone
  intro σ i ρ x his hσ hx hp
  have hw := within_indices v
  rw [his] at hw
  exact h.noHuge σ x i ⟨by omega, hw.initial.2⟩ hx (hw.2 i (by simp)) hp

/-- `virt_to_phys` reads the map. -/
theorem IsTree.virtToPhys {mem : Mem} {root : Nat} (h : IsTree mem root) (v : Nat) :
    (virtToPhysOn mem root v).toNat = (mapOf mem root).lookup v := by
  have hindices : indices (v / pageSize * pageSize) = indices v :=
    indices_congr (Nat.mul_div_cancel _ (by decide))
  unfold PageMap.lookup mapOf
  rw [hindices]
  cases hp : pageAt mem root (indices v) with
  | some p => exact virtToPhysOn_pageAt hp
  | none =>
      rw [virtToPhysOn_eq, h.leafOf_none hp]
      rfl

/-! ## The walk keeps the map -/

/-- The tables of the state as trees. -/
abbrev Sound (root : Nat) (s : State) : Prop :=
  Trees s (fun _ : Unit => root) (fun _ => Within 3) (fun _ => Within 3)

/-- Tables that are different pages are trees, and fresh pages can be attached to them. -/
theorem sound_of_distinct (h : ∀ π π' t, Within 3 π → Within 3 π' → pageAt s.mem s.cr3 π = some t →
      pageAt s.mem s.cr3 π' = some t → π = π') (hp : FreshPages s s.supply) : Sound s.cr3 s where
  apart _ π _ π' x hπ hπ' hx hx' := ⟨rfl, h π π' x hπ hπ' hx hx'⟩
  closed _ _ _ hw := hw.initial
  sub _ _ hw := hw
  nodup := hp.nodup
  fresh p hmem := ⟨(hp.fresh p hmem).1, (hp.fresh p hmem).2.1, fun _ => (hp.fresh p hmem).2.2⟩

theorem IsTree.sound {pages : List Nat} (h : IsTree s.mem s.cr3) (hp : FreshPages s pages) :
    Sound s.cr3 { s with supply := pages, failed := false } :=
  sound_of_distinct h.distinct ⟨hp.nodup, hp.fresh⟩

theorem inner_of_within {π : List Nat} (h : Within 4 π) :
    Forest.Inner (fun _ : Unit => Within 3) () π := by
  rintro σ j ρ rfl
  refine ⟨?_, h.initial.2⟩
  have := h.1
  rw [List.length_append, List.length_cons] at this
  omega

theorem within_take {is : List Nat} {l : Nat} (h : Within 4 is) (hl : l ≤ 3) :
    Within 3 (is.take l) :=
  ⟨by rw [List.length_take]; omega, fun i hi => h.2 i (List.mem_of_mem_take hi)⟩

/-- A state from which the leaf table of an address is reached, with a map. -/
structure AtLeaf (mem : Mem) (root v t : Nat) (s : State) : Prop where
  sound : Sound root s
  noHuge : ∀ π t i, Within 2 π → pageAt s.mem root π = some t → i < 512 →
    present (s.mem t i) = true → huge (s.mem t i) = false
  here : pageAt s.mem root (upper v) = some t
  same : ∀ v', pageAt s.mem root (indices v') = pageAt mem root (indices v')

/-- The walk leaves the map as it is. -/
theorem IsTree.walked {s₀ : State} {root : Nat} (h : IsTree s₀.mem root)
    (hw : Walked (fun _ : Unit => root) (fun _ => Within 3) (fun _ => Within 3) () (indices v) s₀ 3 t
      s) : AtLeaf s₀.mem root v t s := by
  refine ⟨hw.trees, ?_, hw.here, ?_⟩
  · intro π x i hπ hx hi hp
    have hπ3 : Within 3 π := hπ.mono (by decide)
    rcases hw.slot x i with ⟨hsame, hmem⟩ | ⟨hzero, -⟩ | ⟨m, p, -, -, -, -, hlink⟩
    · rcases hw.follow () π (inner_of_within (hπ3.mono (by decide))) with hold |
        ⟨-, -, -, -, p, hp', hnew⟩
      · rw [hsame] at hp ⊢
        exact h.noHuge π x i hπ (hold ▸ hx) hi hp
      · -- a table that is new has been cleared
        obtain rfl := Option.some.inj (hx.symm.trans hnew)
        exact absurd hx ((hw.trees.fresh x (hmem hp')).2.2 () π hπ3)
    · rw [hzero, present_zero] at hp
      cases hp
    · rw [hlink]
      exact huge_link p
  · intro v'
    rcases hw.follow () (indices v') (inner_of_within (within_indices v')) with hold |
      ⟨-, -, hle, -⟩
    · exact hold
    · simp [indices] at hle

/-! ## One slot of a leaf table -/

/-- A write to the slot of an address changes the page that the address is mapped to, and nothing else. -/
theorem AtLeaf.write {mem : Mem} {root : Nat} (h : AtLeaf mem root v t s) (w : Word) :
    IsTree (s.write t (ptIndex v) w).mem root ∧ ∀ v', pageAt (s.write t (ptIndex v) w).mem root
      (indices v') = if indices v' = indices v then
        if present w then some (tableOf w) else none
      else pageAt mem root (indices v') := by
  have hnode := h.here
  have hfollow : ∀ π, Within 4 π → pageAt (s.write t (ptIndex v) w).mem root π =
      if π = indices v then next (s.write t (ptIndex v) w).mem 3 t (ptIndex v)
      else pageAt s.mem root π := by
    intro π hπ
    have hset := h.sound.follow_write (k := ()) (i := ptIndex v) (w := w)
      (within_upper v) hnode hπ.1 (inner_of_within hπ)
    by_cases hv : π = indices v
    · rw [if_pos hv, ← show (upper v).length = 3 from rfl, hset, if_pos ⟨rfl, hv⟩]
    · rw [if_neg hv, hset, if_neg (fun heq => hv heq.2)]
  have hshort : ∀ π, Within 3 π →
      pageAt (s.write t (ptIndex v) w).mem root π = pageAt s.mem root π := by
    intro π hπ
    rw [hfollow π (hπ.mono (by decide)), if_neg]
    rintro rfl
    have := hπ.1
    simp [indices] at this
  refine ⟨⟨?_, ?_⟩, ?_⟩
  · intro π π' x hπ hπ' hx hx'
    rw [hshort π hπ] at hx
    rw [hshort π' hπ'] at hx'
    exact (h.sound.apart () π () π' x hπ hπ' hx hx').2
  · intro π x i hπ hx hi hp
    rw [hshort π (hπ.mono (by decide))] at hx
    -- the leaf table is not one of the upper tables
    have hxt : x ≠ t := by
      rintro rfl
      obtain ⟨-, hπv⟩ := h.sound.apart () π () (upper v) x (hπ.mono (by decide)) (within_upper v)
        hx hnode
      have := hπ.1
      rw [hπv] at this
      simp [upper] at this
    rw [State.write_page hxt] at hp ⊢
    exact h.noHuge π x i hπ hx hi hp
  · intro v'
    rw [hfollow _ (within_indices v'), h.same]
    congr 1
    unfold next
    simp

theorem IsTree.map {pages : List Nat} (h : IsTree s.mem s.cr3) (hp : FreshPages s pages)
    (phys flags : Word)
    (hok : (mapPage v phys flags { s with supply := pages, failed := false }).failed = false) :
    (mapPage v phys flags { s with supply := pages, failed := false }).cr3 = s.cr3 ∧
    IsTree (mapPage v phys flags { s with supply := pages, failed := false }).mem s.cr3 ∧
    ∀ v', pageAt (mapPage v phys flags { s with supply := pages, failed := false }).mem s.cr3
        (indices v') =
      if indices v' = indices v then some (tableOf (phys ||| flags ||| ptePresent))
      else pageAt s.mem s.cr3 (indices v') := by
  obtain ⟨t, s', hw, hmap⟩ := (h.sound hp).mapPage (k := ())
    (fun l hl => within_take (within_indices v) hl) rfl hok
  have htree : IsTree { s with supply := pages, failed := false }.mem s.cr3 := h
  obtain ⟨htree', hfollow⟩ := (htree.walked hw).write (phys ||| flags ||| ptePresent)
  rw [hmap]
  refine ⟨hw.globals.cr3, htree', fun v' => ?_⟩
  rw [hfollow v', present_mapped, if_pos rfl]

/-- The slot of an address in a tree is written when no pages are needed. -/
theorem IsTree.write (h : IsTree s.mem s.cr3) (hnode : pageAt s.mem s.cr3 (upper v) = some t)
    (w : Word) : IsTree (s.write t (ptIndex v) w).mem s.cr3 ∧ ∀ v',
      pageAt (s.write t (ptIndex v) w).mem s.cr3 (indices v') = if indices v' = indices v then
        if present w then some (tableOf w) else none
      else pageAt s.mem s.cr3 (indices v') := by
  have hsound : Sound s.cr3 { s with supply := [] } :=
    { apart := fun _ π _ π' x hπ hπ' hx hx' => ⟨rfl, h.distinct π π' x hπ hπ' hx hx'⟩
      closed := fun _ _ _ hw => hw.initial
      sub := fun _ _ hw => hw
      nodup := List.nodup_nil
      fresh := fun p hp => absurd hp List.not_mem_nil }
  have hleaf : AtLeaf s.mem s.cr3 v t { s with supply := [] } :=
    { sound := hsound
      noHuge := h.noHuge
      here := hnode
      same := fun _ => rfl }
  exact hleaf.write w

theorem IsTree.unmap (h : IsTree s.mem s.cr3) (v : Nat) :
    (unmapPage v s).cr3 = s.cr3 ∧ IsTree (unmapPage v s).mem s.cr3 ∧
    ∀ v', pageAt (unmapPage v s).mem s.cr3 (indices v') =
      if indices v' = indices v then none else pageAt s.mem s.cr3 (indices v') := by
  -- nothing to do for a page that is not mapped
  have hnone : pageAt s.mem s.cr3 (indices v) = none → ∀ v', pageAt s.mem s.cr3 (indices v') =
      if indices v' = indices v then none else pageAt s.mem s.cr3 (indices v') := by
    intro hv v'
    split
    · rename_i heq
      rw [heq, hv]
    · rfl
  rw [unmapPage_eq]
  cases hnode : pageAt s.mem s.cr3 (upper v) with
  | none =>
      refine ⟨rfl, h, hnone ?_⟩
      rw [indices_eq, pageAt, Forest.follow_append]
      exact Option.bind_eq_none_iff.mpr fun x hx => absurd (hnode.symm.trans hx) (by simp)
  | some t =>
      dsimp only
      split
      · exact ⟨rfl, h.write hnode 0⟩
      · rename_i hpres
        refine ⟨rfl, h, hnone ?_⟩
        rw [indices_eq, pageAt, Forest.follow_concat hnode]
        exact next_eq_none.mpr (.inl (by simpa using hpres))

/-! ## The refinement -/

/-- The tables are a tree and hold the map. -/
structure Refines (s : State) (M : PageMap) : Prop where
  tree : IsTree s.mem s.cr3
  holds : ∀ v, Canonical v →
    M (v / pageSize) = (pageAt s.mem s.cr3 (indices v)).map fun p => p * pageSize

theorem IsTree.refines (h : IsTree s.mem s.cr3) : Refines s (mapOf s.mem s.cr3) := by
  refine ⟨h, fun v _ => ?_⟩
  unfold mapOf
  rw [indices_congr (Nat.mul_div_cancel _ (by decide) : v / pageSize * pageSize / pageSize = _)]

theorem Refines.lookup {M : PageMap} (h : Refines s M) (hv : Canonical v) :
    (s.virtToPhys v).toNat = M.lookup v := by
  calc (s.virtToPhys v).toNat = (mapOf s.mem s.cr3).lookup v := h.tree.virtToPhys v
    _ = M.lookup v := by
      unfold PageMap.lookup
      rw [h.holds v hv, h.tree.refines.holds v hv]

/-- The base of an entry that `map_page` writes. -/
theorem tableOf_mapped {phys flags : Nat} (hlt : phys < 2 ^ 64) (halign : phys % pageSize = 0)
    (hflags : flags < pageSize) :
    tableOf (BitVec.ofNat 64 phys ||| BitVec.ofNat 64 flags ||| ptePresent) * pageSize = phys := by
  obtain ⟨q, rfl⟩ : ∃ q, phys = q * pageSize := ⟨phys / pageSize, by unfold pageSize at *; omega⟩
  have hq : q < 2 ^ 52 := by unfold pageSize at hlt; omega
  have hbits : (BitVec.ofNat 64 flags ||| ptePresent).toNat < pageSize := by
    have h1 : ptePresent.toNat < 2 ^ 12 := by decide
    rw [BitVec.toNat_or, BitVec.toNat_ofNat]
    refine Nat.or_lt_two_pow (n := 12) ?_ h1
    exact lt_of_le_of_lt (Nat.mod_le _ _) hflags
  rw [BitVec.or_assoc]
  exact congrArg (fun p => p * pageSize) (tableOf_addr_or hq hbits)

/-- A call is the update of the map. -/
theorem Refines.step {M : PageMap} {op : PageOp} (h : Refines s M) (hop : op.Valid s) :
    Refines (op.run s) (M.apply op) := by
  cases op with
  | map v phys flags pages =>
      obtain ⟨hv, -, -, hlt, halign, hflags, hpages, hok⟩ := hop
      obtain ⟨hcr3, htree, hfollow⟩ := h.tree.map (v := v) hpages (BitVec.ofNat 64 phys)
        (BitVec.ofNat 64 flags) hok
      refine ⟨by rw [PageOp.run, hcr3]; exact htree, fun v' hv' => ?_⟩
      rw [PageOp.run, hcr3, hfollow v', PageMap.apply]
      by_cases hpage : v' / pageSize = v / pageSize
      · rw [hpage, Function.update_self, if_pos (indices_congr hpage), Option.map_some,
          tableOf_mapped hlt halign hflags]
      · rw [Function.update_of_ne hpage, if_neg (fun hi => hpage (indices_inj hv' hv hi)),
          h.holds v' hv']
  | unmap v =>
      obtain ⟨hcr3, htree, hfollow⟩ := h.tree.unmap v
      refine ⟨by rw [PageOp.run, hcr3]; exact htree, fun v' hv' => ?_⟩
      rw [PageOp.run, hcr3, hfollow v', PageMap.apply]
      by_cases hpage : v' / pageSize = v / pageSize
      · rw [hpage, Function.update_self, if_pos (indices_congr hpage)]
        rfl
      · rw [Function.update_of_ne hpage, if_neg (fun hi => hpage (indices_inj hv' hop.1 hi)),
          h.holds v' hv']

theorem Refines.run {M : PageMap} {ops : List PageOp} (h : Refines s M) (hops : ValidRun s ops) :
    Refines (runOps s ops) (ops.foldl PageMap.apply M) := by
  induction ops generalizing s M with
  | nil => exact h
  | cons op ops ih => exact ih (h.step hops.1) hops.2

/-- After any calls of `map_page` and `unmap_page`, `virt_to_phys` gives what the map gives that the
tables held at first, updated by the same calls. -/
theorem virt_to_phys_refines {ops : List PageOp} (h : IsTree s.mem s.cr3) (hops : ValidRun s ops)
    (hv : Canonical v) : ((runOps s ops).virtToPhys v).toNat =
      (ops.foldl PageMap.apply (mapOf s.mem s.cr3)).lookup v :=
  (h.refines.run hops).lookup hv

/-- Memory without a bit set, and a table without an entry. -/
def blankState : State where
  mem := fun _ _ => 0
  cr3 := 1
  supply := []
  taken := ∅
  failed := false
  current := 0
  uefiPml4 := 0

theorem pageAt_blank {i : Nat} {π : List Nat} : pageAt blankState.mem 1 (i :: π) = none := by
  rw [pageAt, Forest.follow_cons, next_of_zero rfl]
  rfl

theorem blankState_tree : IsTree blankState.mem 1 where
  distinct π π' t hπ hπ' hx hx' := by
    cases π with
    | nil =>
        cases π' with
        | nil => rfl
        | cons i π' => rw [pageAt_blank] at hx'; cases hx'
    | cons i π => rw [pageAt_blank] at hx; cases hx
  noHuge _ _ _ _ _ _ _ := by
    show huge 0 = false
    rfl

theorem virt_to_phys_mapped : ((runOps blankState [.map 0x1000 0x5000 0x3 [2, 3, 4, 5],
    .unmap 0x2000]).virtToPhys 0x1234).toNat = 0x5234 := by
  have hfresh : FreshPages blankState [2, 3, 4, 5] := by
    refine ⟨by decide, fun p hp => ⟨?_, ?_, ?_⟩⟩
    · rintro rfl
      simp at hp
    · simp only [List.mem_cons, List.not_mem_nil, or_false] at hp
      omega
    · intro π _ hx
      cases π with
      | nil =>
          obtain rfl : 1 = p := Option.some.inj hx
          simp at hp
      | cons i π =>
          have hnone : pageAt blankState.mem 1 (i :: π) = none := pageAt_blank
          exact absurd (hnone.symm.trans hx) (by simp)
  have hvalid : ValidRun blankState [.map 0x1000 0x5000 0x3 [2, 3, 4, 5], .unmap 0x2000] :=
    ⟨⟨.inl (by decide), rfl, by decide, by decide, rfl, by decide, hfresh, by decide +kernel⟩,
      ⟨.inl (by decide), rfl⟩, trivial⟩
  exact (virt_to_phys_refines blankState_tree hvalid (.inl (by decide))).trans rfl

end Paging

end Os003
