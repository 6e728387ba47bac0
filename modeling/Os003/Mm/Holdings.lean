import Os003.Mm.Spaces

set_option autoImplicit false

/-! # Who holds which page

The pages that are in use: single pages, and the trees of the address spaces. Of an address space
those paths are looked at that start in its own half of the addresses (`Vmm.Region`), since the
other entries of its PML4 are copies.

As long as no page is used twice, a call under one address space touches the tables of that address
space and pages that it gets, and nothing else (`Acts`).
-/

namespace Os003

namespace Paging

/-- What `Init_Virtual_Memory_Manager` has made: the page of the `VMM_T`, and what stands there for good. -/
structure Vmm where
  page : Nat
  isUser : Bool
  flag : Word
  pml4 : Nat
  deriving DecidableEq

inductive Holder
  | page (p : Nat)
  | space (v : Vmm)
  deriving DecidableEq

def rootOf : Holder → Nat
  | .page p => p
  | .space v => v.pml4

/-- The entries of the PML4 below which the tables are its own. -/
def Vmm.Region (v : Vmm) (i : Nat) : Prop := if v.isUser then i < 256 else i = 0 ∨ 256 ≤ i

/-- The addresses of its half. -/
def Vmm.Has (v : Vmm) (a : Nat) : Prop :=
  if v.isUser then a < 2 ^ 47 else 2 ^ 64 - 2 ^ 47 ≤ a ∧ a < 2 ^ 64

/-- The paths to pages in use, of at most `n` indices in an address space. -/
def Used (n : Nat) (vmms : List Vmm) (S : Set Nat) : Holder → List Nat → Prop
  | .page p, π => p ∈ S ∧ π = []
  | .space v, π => v ∈ vmms ∧ Within n π ∧ ∀ i ρ, π = i :: ρ → v.Region i

/-- No page is used twice, and the pages that are given next are not in use. -/
abbrev Core (n : Nat) (vmms : List Vmm) (S : Set Nat) (s : State) : Prop :=
  Trees s rootOf (Used n vmms S) (Used n vmms S)

/-- A page that is neither in use nor given next. -/
def Loose (n : Nat) (vmms : List Vmm) (S : Set Nat) (s : State) (p : Nat) : Prop :=
  p ∉ s.supply ∧ Forest.Unreached (next s.mem) rootOf (Used n vmms S) p

variable {n a p x : Nat} {vmms : List Vmm} {S D : Set Nat} {s s' s'' : State} {v v' : Vmm}
  {w flags : Word} {π : List Nat} {ps : List Nat}

theorem Vmm.Has.canonical (h : v.Has a) : Canonical a := by
  unfold Vmm.Has at h
  unfold Canonical
  split at h
  · exact .inl h
  · exact .inr h

theorem Vmm.Has.lt (h : v.Has a) : a < 2 ^ 64 := by
  rcases h.canonical with hc | hc <;> omega

theorem Vmm.Has.region (h : v.Has a) : v.Region (pml4Index a) := by
  unfold Vmm.Has at h
  unfold Vmm.Region pml4Index
  split at h
  · rename_i hu
    rw [if_pos hu]
    omega
  · rename_i hu
    rw [if_neg hu]
    omega

theorem Vmm.Has.congr {a' : Nat} (h : v.Has a) (hpage : a / pageSize = a' / pageSize) : v.Has a' := by
  unfold Vmm.Has at *
  unfold pageSize at hpage
  split at h
  · rename_i hu
    rw [if_pos hu]
    omega
  · rename_i hu
    rw [if_neg hu]
    omega

theorem used_closed : Forest.PrefixClosed (Used n vmms S) := by
  rintro (p | v) π ρ h
  · exact ⟨h.1, (List.append_eq_nil_iff.mp h.2).1⟩
  · refine ⟨h.1, h.2.1.initial, fun i σ hσ => h.2.2 i (σ ++ ρ) ?_⟩
    rw [hσ]
    rfl

/-- The way to the leaf table of an address. -/
theorem used_take (hn : 3 ≤ n) (hv : v ∈ vmms) (ha : v.Has a) {l : Nat} (hl : l ≤ 3) :
    Used n vmms S (.space v) ((indices a).take l) := by
  refine ⟨hv, ⟨?_, ?_⟩, ?_⟩
  · rw [List.length_take]
    omega
  · exact fun i hi => (within_indices a).2 i (List.mem_of_mem_take hi)
  · intro i ρ hπ
    cases l with
    | zero => simp at hπ
    | succ l =>
        rw [indices, List.take_succ_cons] at hπ
        rw [← (List.cons.inj hπ).1]
        exact ha.region

theorem used_upper (hn : 3 ≤ n) (hv : v ∈ vmms) (ha : v.Has a) :
    Used n vmms S (.space v) (upper a) :=
  used_take hn hv ha le_rfl

theorem inner_indices (hn : 3 ≤ n) (hv : v ∈ vmms) (ha : v.Has a) :
    Forest.Inner (Used n vmms S) (.space v) (indices a) := by
  intro σ j ρ hσ
  have hlen : σ.length ≤ 3 := by
    have := congrArg List.length hσ
    simp [indices] at this
    omega
  have htake : σ = (indices a).take σ.length := by rw [hσ]; simp
  rw [htake]
  exact used_take hn hv ha hlen

/-! ## What a call under an address space does -/

/-- A page is one of the tables of an address space. -/
def Own (n : Nat) (vmms : List Vmm) (S : Set Nat) (s : State) (v : Vmm) (x : Nat) : Prop :=
  ∃ π, Used n vmms S (.space v) π ∧ π.length ≤ 3 ∧ pageAt s.mem v.pml4 π = some x

/-- A call under the address space `v`, which maps pages of `D`. -/
structure Acts (n : Nat) (vmms : List Vmm) (S : Set Nat) (v : Vmm) (D : Set Nat) (s s' : State) :
    Prop where
  core : Core n vmms S s'
  frame : ∀ x, x ∉ s.supply → ¬ Own n vmms S s v x → s'.mem x = s.mem x
  top : ∀ i, ¬ v.Region i → s'.mem v.pml4 i = s.mem v.pml4 i
  tables : ∀ π x, Used n vmms S (.space v) π → π.length ≤ 3 → pageAt s'.mem v.pml4 π = some x →
    pageAt s.mem v.pml4 π = some x ∨ x ∈ s.supply ∧ x ∉ s'.supply
  kept : ∀ π x, Used n vmms S (.space v) π → π.length ≤ 3 → pageAt s.mem v.pml4 π = some x →
    pageAt s'.mem v.pml4 π = some x
  reach : ∀ k π x, Used n vmms S k π → pageAt s'.mem (rootOf k) π = some x →
    pageAt s.mem (rootOf k) π = some x ∨ x ∈ s.supply ∧ x ∉ s'.supply ∨ x ∈ D
  /-- Only entries that stood there before are huge. -/
  huge : ∀ π x j, Used n vmms S (.space v) π → π.length ≤ 2 → pageAt s'.mem v.pml4 π = some x →
    huge (s'.mem x j) = true → pageAt s.mem v.pml4 π = some x ∧ s'.mem x j = s.mem x j
  supply : s'.supply <:+ s.supply
  globals : s.SameGlobals s'

/-- What is no longer given next has been taken. -/
def Takes (s s' : State) : Prop :=
  ∀ x, x ∈ s'.taken ↔ x ∈ s.taken ∨ x ∈ s.supply ∧ x ∉ s'.supply

theorem Takes.trans (h : Takes s s') (h' : Takes s' s'') (hs : s'.supply <:+ s.supply)
    (hs' : s''.supply <:+ s'.supply) : Takes s s'' := by
  intro x
  rw [h' x, h x]
  have h₁ : x ∈ s'.supply → x ∈ s.supply := fun hx => hs.subset hx
  have h₂ : x ∈ s''.supply → x ∈ s'.supply := fun hx => hs'.subset hx
  tauto

theorem takes_refl (hs : s'.supply = s.supply) (ht : s'.taken = s.taken) : Takes s s' := by
  intro x
  rw [hs, ht]
  tauto

/-- A call that leaves memory alone, and gives no page. -/
theorem Core.acts_mem (h : Core n vmms S s) (v : Vmm) (hmem : s'.mem = s.mem)
    (hsupply : s'.supply = s.supply) (hglobals : s.SameGlobals s') : Acts n vmms S v D s s' where
  core :=
    { apart := hmem ▸ h.apart
      closed := h.closed
      sub := h.sub
      nodup := hsupply ▸ h.nodup
      fresh := by rw [hsupply, hmem]; exact h.fresh }
  frame _ _ _ := by rw [hmem]
  top _ _ := by rw [hmem]
  tables _ _ _ _ hx := .inl (hmem ▸ hx)
  kept _ _ _ _ hx := by rw [hmem]; exact hx
  reach _ _ _ _ hx := .inl (hmem ▸ hx)
  huge _ _ _ _ _ hx _ := ⟨hmem ▸ hx, by rw [hmem]⟩
  supply := by rw [hsupply]
  globals := hglobals

theorem Core.acts_refl (h : Core n vmms S s) (v : Vmm) : Acts n vmms S v D s s :=
  h.acts_mem v rfl rfl ⟨rfl, rfl, rfl⟩

theorem Acts.trans (h : Acts n vmms S v D s s') (h' : Acts n vmms S v D s' s'') :
    Acts n vmms S v D s s'' := by
  have hsupply := h.supply.subset
  refine ⟨h'.core, ?_, ?_, ?_, ?_, ?_, ?_, h'.supply.trans h.supply,
    h.globals.trans h'.globals⟩
  · intro x hx hown
    rw [h'.frame x (fun hx' => hx (hsupply hx')), h.frame x hx hown]
    rintro ⟨π, hπ, hlen, hxπ⟩
    rcases h.tables π x hπ hlen hxπ with hold | hnew
    · exact hown ⟨π, hπ, hlen, hold⟩
    · exact hx hnew.1
  · intro i hi
    rw [h'.top i hi, h.top i hi]
  · intro π x hπ hlen hx
    rcases h'.tables π x hπ hlen hx with hold | hnew
    · rcases h.tables π x hπ hlen hold with hold | hnew
      · exact .inl hold
      · exact .inr ⟨hnew.1, fun hx' => hnew.2 (h'.supply.subset hx')⟩
    · exact .inr ⟨hsupply hnew.1, hnew.2⟩
  · exact fun π x hπ hlen hx => h'.kept π x hπ hlen (h.kept π x hπ hlen hx)
  · intro k π x hπ hx
    rcases h'.reach k π x hπ hx with hold | hnew | hD
    · rcases h.reach k π x hπ hold with hold | hnew | hD
      · exact .inl hold
      · exact .inr (.inl ⟨hnew.1, fun hx' => hnew.2 (h'.supply.subset hx')⟩)
      · exact .inr (.inr hD)
    · exact .inr (.inl ⟨hsupply hnew.1, hnew.2⟩)
    · exact .inr (.inr hD)
  · intro π x j hπ hlen hx hh
    obtain ⟨hx', hsame⟩ := h'.huge π x j hπ hlen hx hh
    obtain ⟨hx'', hsame'⟩ := h.huge π x j hπ hlen hx' (hsame ▸ hh)
    exact ⟨hx'', hsame.trans hsame'⟩

theorem Acts.mono {D' : Set Nat} (h : Acts n vmms S v D s s') (hD : D ⊆ D') :
    Acts n vmms S v D' s s' :=
  { h with
    reach := fun k π x hπ hx => (h.reach k π x hπ hx).imp_right (Or.imp_right fun hx => hD hx) }

/-- A page that the call does not map stays loose. -/
theorem Loose.acts (h : Loose n vmms S s p) (ha : Acts n vmms S v D s s') (hp : p ∉ D) :
    Loose n vmms S s' p := by
  refine ⟨fun hs => h.1 (ha.supply.subset hs), fun k π hπ hx => ?_⟩
  rcases ha.reach k π p hπ hx with hold | hnew | hD
  · exact h.2 k π hπ hold
  · exact h.1 hnew.1
  · exact hp hD

/-- The tables of the other address spaces are left alone. -/
theorem Acts.other (h : Acts n vmms S v D s s') (hc : Core n vmms S s) (hne : v' ≠ v)
    (hπ : Forest.Inner (Used n vmms S) (.space v') π) :
    pageAt s'.mem v'.pml4 π = pageAt s.mem v'.pml4 π := by
  refine Forest.follow_congr fun σ j ρ x hσ hx => next_congr (congrFun (h.frame x ?_ ?_) j)
  · exact fun hmem => (hc.fresh x hmem).2.2 (.space v') σ (hπ σ j ρ hσ) hx
  · rintro ⟨τ, hτ, -, hxτ⟩
    obtain ⟨heq, -⟩ := hc.apart (.space v) τ (.space v') σ x hτ (hπ σ j ρ hσ) hxτ hx
    exact hne (Holder.space.inj heq).symm

/-- New tables are pages that were given. -/
theorem Acts.own (h : Acts n vmms S v D s s') (hc : Core n vmms S s) (hx : Own n vmms S s' v' x) :
    Own n vmms S s v' x ∨ x ∈ s.supply ∧ x ∉ s'.supply := by
  obtain ⟨π, hπ, hlen, hxπ⟩ := hx
  by_cases hvv : v' = v
  · subst hvv
    rcases h.tables π x hπ hlen hxπ with hold | hnew
    · exact .inl ⟨π, hπ, hlen, hold⟩
    · exact .inr hnew
  · exact .inl ⟨π, hπ, hlen, (h.other hc hvv (used_closed.inner hπ)).symm.trans hxπ⟩

theorem Loose.not_own (h : Loose n vmms S s p) (v : Vmm) : ¬ Own n vmms S s v p := by
  rintro ⟨π, hπ, -, hx⟩
  exact h.2 (.space v) π hπ hx

theorem Loose.not_single (h : Loose n vmms S s p) : p ∉ S :=
  fun hp => h.2 (.page p) [] ⟨hp, rfl⟩ rfl

/-- The single pages are left alone. -/
theorem Acts.single (h : Acts n vmms S v D s s') (hc : Core n vmms S s) (hx : x ∈ S) :
    s'.mem x = s.mem x := by
  refine h.frame x ?_ ?_
  · exact fun hmem => (hc.fresh x hmem).2.2 (.page x) [] ⟨hx, rfl⟩ rfl
  · rintro ⟨τ, hτ, -, hxτ⟩
    have := (hc.apart (.space v) τ (.page x) [] x hτ ⟨hx, rfl⟩ hxτ rfl).1
    cases this

/-- The pages that are mapped, but for the one at an address. -/
def Mapped (v : Vmm) (vmms : List Vmm) (a : Nat) (c : Option Nat) (s s' : State) : Prop :=
  ∀ v' ∈ vmms, ∀ a', v'.Has a' → pageAt s'.mem v'.pml4 (indices a') =
    if v' = v ∧ a' / pageSize = a / pageSize then c else pageAt s.mem v'.pml4 (indices a')

theorem Core.not_fresh {k : Holder} (h : Core n vmms S s) (hπ : Used n vmms S k π)
    (hx : pageAt s.mem (rootOf k) π = some x) : x ∉ s.supply :=
  fun hmem => (h.fresh x hmem).2.2 k π hπ hx

/-- A walk under the address space `v`. -/
theorem Core.acts_walked {l t : Nat} (h : Core n vmms S s) (hn : 3 ≤ n) (hv : v ∈ vmms) (ha : v.Has a)
    (hl : l ≤ 3) (hw : Walked rootOf (Used n vmms S) (Used n vmms S) (.space v) (indices a) s l t s') :
    Acts n vmms S v D s s' := by
  -- what is reached now was reached before, or is a page just taken
  have hreach : ∀ k π x, Used n vmms S k π → pageAt s'.mem (rootOf k) π = some x →
      pageAt s.mem (rootOf k) π = some x ∨ x ∈ s.supply ∧ x ∉ s'.supply := by
    intro k π x hπ hx
    rcases hw.follow k π (used_closed.inner hπ) with hold | ⟨-, -, -, -, q, hq, hq'⟩
    · exact .inl (hold.symm.trans hx)
    · obtain rfl := Option.some.inj (hx.symm.trans hq')
      exact .inr ⟨hq, Core.not_fresh hw.trees hπ hx⟩
  have hway : ∀ m, m < 3 → ∀ x, pageAt s'.mem v.pml4 ((indices a).take m) = some x →
      Own n vmms S s v x ∨ x ∈ s.supply := by
    intro m hm x hx
    have hused := used_take (S := S) hn hv ha (show m ≤ 3 by omega)
    rcases hreach (.space v) _ x hused hx with hold | hnew
    · refine .inl ⟨_, hused, ?_, hold⟩
      rw [List.length_take]
      omega
    · exact .inr hnew.1
  refine ⟨hw.trees, ?_, ?_, ?_, ?_, ?_, ?_, hw.supply, hw.globals⟩
  · -- tables of other spaces are frame
    intro x hx hown
    funext j
    rcases hw.slot x j with hold | hzero | ⟨m, p, hm, -, -, hxm, -⟩
    · exact hold.1
    · exact absurd hzero.2 hx
    · exact absurd (hway m (by omega) x hxm) (by tauto)
  · -- the entries of the PML4 outside the region
    intro i hi
    have hroot : Used n vmms S (.space v) [] := used_take hn hv ha (l := 0) (by decide)
    rcases hw.slot v.pml4 i with hold | hzero | ⟨m, p, hm, -, hj, hxm, -⟩
    · exact hold.1
    · exact absurd hzero.2 (h.not_fresh hroot rfl)
    · -- the PML4 is met at the first level only
      have hused := used_take (S := S) hn hv ha (show m ≤ 3 by omega)
      obtain ⟨-, hnil⟩ := hw.trees.apart (.space v) [] (.space v) _ v.pml4 hroot hused rfl hxm
      have hm0 : m = 0 := by
        have := congrArg List.length hnil
        rw [List.length_take] at this
        simp [indices] at this
        omega
      subst hm0
      exact absurd (Option.some.inj hj ▸ ha.region) hi
  · exact fun π x hπ _ hx => hreach (.space v) π x hπ hx
  · intro π x hπ _ hx
    rcases hw.follow (.space v) π (used_closed.inner hπ) with hold | ⟨-, -, -, hnone, -⟩
    · exact hold.trans hx
    · exact absurd (hnone.symm.trans hx) (by simp)
  · exact fun k π x hπ hx => (hreach k π x hπ hx).imp_right .inl
  · -- a huge entry is an old one: an empty table has none, and a link is not huge
    intro π x j hπ _ hx hh
    rcases hw.slot x j with ⟨hsame, hmem⟩ | ⟨hzero, -⟩ | ⟨m, q, -, -, -, -, hlink⟩
    · rcases hreach (.space v) π x hπ hx with hold | hnew
      · exact ⟨hold, hsame⟩
      · exact absurd (hmem hnew.1) hnew.2
    · rw [hzero] at hh
      cases hh
    · rw [hlink, huge_link] at hh
      cases hh

/-- Depth of the paths. -/
theorem used_length {k : Holder} (hn : n ≤ 4) (h : Used n vmms S k π) : π.length ≤ 4 := by
  cases k with
  | page p => rw [h.2]; simp
  | space v => exact h.2.1.1.trans hn

/-- A slot of a leaf table of the address space `v` is written. -/
theorem Core.write_leaf {t : Nat} (h : Core n vmms S s) (hn : 3 ≤ n) (hn4 : n ≤ 4) (hv : v ∈ vmms)
    (ha : v.Has a) (ht : pageAt s.mem v.pml4 (upper a) = some t)
    (hnew : n = 4 → present w = true → Loose n vmms S s (tableOf w))
    (hD : n = 4 → present w = true → tableOf w ∈ D) :
    Acts n vmms S v D s (s.write t (ptIndex a) w) ∧
    Mapped v vmms a (if present w then some (tableOf w) else none) s (s.write t (ptIndex a) w) := by
  have hused : Used n vmms S (.space v) (upper a) := used_upper hn hv ha
  have hnode : pageAt s.mem (rootOf (.space v)) (upper a) = some t := ht
  have hentry : next (s.write t (ptIndex a) w).mem 3 t (ptIndex a) =
      if present w then some (tableOf w) else none := by
    unfold next
    simp
  -- the walk of any space changes at the one address, the walks to tables not at all
  have hfollow : ∀ k π, π.length ≤ 4 → Forest.Inner (Used n vmms S) k π →
      pageAt (s.write t (ptIndex a) w).mem (rootOf k) π =
        if k = .space v ∧ π = indices a then if present w then some (tableOf w) else none
        else pageAt s.mem (rootOf k) π := by
    intro k π hlen hπ
    rw [h.follow_write hused hnode hlen hπ, ← hentry, indices_eq]
    rfl
  have hshort : ∀ π, Used n vmms S (.space v) π → π.length ≤ 3 →
      pageAt (s.write t (ptIndex a) w).mem v.pml4 π = pageAt s.mem v.pml4 π := by
    intro π hπ hlen
    refine (hfollow (.space v) π (by omega) (used_closed.inner hπ)).trans (if_neg ?_)
    rintro ⟨-, rfl⟩
    simp [indices] at hlen
  have hcore : Core n vmms S (s.write t (ptIndex a) w) := by
    refine h.write hused hnode (fun k π hπ => used_length hn4 hπ) ?_
    -- a last-level entry leads to a page only in the view of four levels
    intro hin c hc
    have hn4 : n = 4 := by
      have := hin.2.1.1
      simp [upper] at this
      omega
    have hc' : (if present w then some (tableOf w) else none) = some c := hentry.symm.trans hc
    cases hp : present w with
    | false => simp [hp] at hc'
    | true =>
        obtain rfl : tableOf w = c := by simpa [hp] using hc'
        exact hnew hn4 hp
  refine ⟨⟨hcore, ?_, ?_, ?_, ?_, ?_, ?_, List.suffix_refl _, ⟨rfl, rfl, rfl⟩⟩, ?_⟩
  · -- frame: only the table page is written
    intro x _ hown
    refine State.write_page ?_
    rintro rfl
    exact hown ⟨_, hused, le_rfl, ht⟩
  · -- the descriptor is no table
    intro i hi
    refine State.write_other (.inl ?_)
    intro heq
    obtain ⟨-, hnil⟩ := h.apart (.space v) [] (.space v) (upper a) t
      (used_take hn hv ha (l := 0) (by decide)) hused (congrArg some heq) ht
    -- tables above the last level stay what they are
    cases hnil
  · intro π x hπ hlen hx
    exact .inl ((hshort π hπ hlen).symm.trans hx)
  · intro π x hπ hlen hx
    exact (hshort π hπ hlen).trans hx
  · -- whatever is reached now was reached before, or is the new page
    intro k π x hπ hx
    rw [hfollow k π (used_length hn4 hπ) (used_closed.inner hπ)] at hx
    split at hx
    · rename_i heq
      obtain ⟨rfl, rfl⟩ := heq
      have hn4 : n = 4 := le_antisymm hn4 hπ.2.1.1
      split at hx
      · rename_i hp
        exact .inr (.inr (Option.some.inj hx ▸ hD hn4 hp))
      · cases hx
    · exact .inl hx
  · -- entries above the last level
    intro π x j hπ hlen hx _
    have hold : pageAt s.mem v.pml4 π = some x := (hshort π hπ (by omega)).symm.trans hx
    have hxt : x ≠ t := by
      rintro rfl
      obtain ⟨-, rfl⟩ := h.apart (.space v) π (.space v) (upper a) x hπ hused hold hnode
      simp [upper] at hlen
    exact ⟨hold, congrFun (State.write_page hxt) j⟩
  · intro v' hv' a' ha'
    refine (hfollow (.space v') (indices a') le_rfl (inner_indices hn hv' ha')).trans ?_
    by_cases heq : v' = v ∧ a' / pageSize = a / pageSize
    · rw [if_pos heq, if_pos ⟨congrArg _ heq.1, indices_congr heq.2⟩]
    · rw [if_neg heq, if_neg]
      · rfl
      · rintro ⟨hk, hind⟩
        obtain rfl := Holder.space.inj hk
        exact heq ⟨rfl, indices_inj ha'.canonical ha.canonical hind⟩

/-- `map_page` under the address space `v`. -/
theorem Core.mapPage (h : Core n vmms S s) (hn : 3 ≤ n) (hn4 : n ≤ 4) (hv : v ∈ vmms)
    (hcr3 : s.cr3 = v.pml4) (ha : v.Has a) (hok : (mapPage a w flags s).failed = false)
    (hnew : n = 4 → Loose n vmms S s (tableOf (w ||| flags ||| ptePresent)))
    (hD : n = 4 → tableOf (w ||| flags ||| ptePresent) ∈ D) :
    Acts n vmms S v D s (Paging.mapPage a w flags s) ∧
    Mapped v vmms a (some (tableOf (w ||| flags ||| ptePresent))) s (Paging.mapPage a w flags s) ∧
    Takes s (Paging.mapPage a w flags s) := by
  have hroot : rootOf (.space v) = s.cr3 := hcr3.symm
  obtain ⟨t, s', hw, hmap⟩ := Trees.mapPage h (fun l hl => used_take hn hv ha hl) hroot hok
  have hacts : Acts n vmms S v ∅ s s' := h.acts_walked hn hv ha le_rfl hw
  obtain ⟨hwrite, hmapped⟩ := hacts.core.write_leaf hn hn4 hv ha
    (w := w ||| flags ||| ptePresent) hw.here
    (fun h4 _ => (hnew h4).acts hacts (Set.notMem_empty _)) fun h4 _ => hD h4
  rw [hmap]
  refine ⟨(hacts.mono (Set.empty_subset D)).trans hwrite, fun v' hv' a' ha' => ?_, hw.taken⟩
  rw [hmapped v' hv' a' ha', present_mapped, if_pos rfl]
  split
  · rfl
  · rcases hw.follow (.space v') (indices a') (inner_indices hn hv' ha') with hold | ⟨-, -, hle, -⟩
    · exact hold
    · simp [indices] at hle

/-- `unmap_page` under the address space `v`. -/
theorem Core.unmapPage (h : Core n vmms S s) (hn : 3 ≤ n) (hn4 : n ≤ 4) (hv : v ∈ vmms)
    (hcr3 : s.cr3 = v.pml4) (ha : v.Has a) :
    Acts n vmms S v D s (unmapPage a s) ∧ Mapped v vmms a none s (Paging.unmapPage a s) := by
  -- nothing to do for a page that is not mapped
  have hnone : pageAt s.mem v.pml4 (indices a) = none → Mapped v vmms a none s s := by
    intro hv' v' _ a' ha'
    split
    · rename_i heq
      rw [heq.1, indices_congr heq.2, hv']
    · rfl
  rw [unmapPage_eq, hcr3]
  cases hnode : pageAt s.mem v.pml4 (upper a) with
  | none =>
      refine ⟨h.acts_refl v, hnone ?_⟩
      rw [indices_eq, pageAt, Forest.follow_append]
      exact Option.bind_eq_none_iff.mpr fun x hx => absurd (hnode.symm.trans hx) (by simp)
  | some t =>
      dsimp only
      split
      · exact h.write_leaf hn hn4 hv ha (w := 0) hnode (fun _ hp => by cases hp)
          (fun _ hp => by cases hp)
      · rename_i hpres
        refine ⟨h.acts_refl v, hnone ?_⟩
        rw [indices_eq, pageAt, Forest.follow_concat hnode]
        exact next_eq_none.mpr (.inl (by simpa using hpres))

end Paging

end Os003
