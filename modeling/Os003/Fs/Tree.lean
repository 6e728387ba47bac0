import Os003.Fs.Contents
import Os003.Fs.Walk

set_option autoImplicit false

/-! # The tree of directories

A volume holds a tree: the root directory, the live entries of its clusters, the live entries of
the directories among them, and so on. `Mount.Tidy` says that the chains of this tree are proper
and do not share a cluster, and that no directory has two entries of one name.

`Mount.Tidy.update` is the rule for the operations: a change of one entry and of the clusters of
its own chain keeps a volume tidy.
-/

namespace Os003

open Bytes Linked

/-- What may own a chain of clusters: the root directory (`none`), or the entry in a slot of a
cluster. -/
abbrev Owner : Type := Option (Nat × Nat)

/-- The start cluster of an owner. -/
def Mount.startOf (M : Mount) (V : Volume) : Owner → Nat
  | none => M.info.rootCluster
  | some (c, i) => (V.slot c i).cluster

/-- The root and the entries of directories. -/
def Volume.isDirOf (V : Volume) : Owner → Bool
  | none => true
  | some (c, i) => (V.slot c i).isDirectory

/-- The owners that a volume has: the root, and with a directory the live entries in it. -/
inductive Mount.Present (M : Mount) (V : Volume) : Owner → Prop
  | root : M.Present V none
  | entry {o : Owner} {l : List Nat} {c i : Nat} (parent : M.Present V o)
      (dir : V.isDirOf o = true) (chain : M.FileOn V (M.startOf V o) l) (mem : c ∈ l)
      (live : M.LiveAt V c i) : M.Present V (some (c, i))

/-- No cross-linked clusters. An entry without a cluster is empty, or the entry 0 of the table
ends a chain, as it does on a formatted volume. -/
structure Mount.Tidy (M : Mount) (V : Volume) : Prop where
  chain : ∀ o, M.Present V o → ∃ l, M.FileOn V (M.startOf V o) l
  empty : ∀ c i, M.Present V (some (c, i)) → (V.slot c i).cluster = 0 →
    (V.slot c i).fileSize = 0 ∨ IsEof (V.fat 0)
  disjoint : ∀ o o' l l', M.Present V o → M.Present V o' → M.FileOn V (M.startOf V o) l →
    M.FileOn V (M.startOf V o') l' → ∀ c ∈ l, c ∈ l' → o = o'
  unique : ∀ o l, M.Present V o → V.isDirOf o = true → M.FileOn V (M.startOf V o) l →
    ∀ c ∈ l, ∀ c' ∈ l, ∀ i i', M.LiveAt V c i → M.LiveAt V c' i' →
      (V.slot c i).name = (V.slot c' i').name → c = c' ∧ i = i'

/-- A live entry with its place: it stands in slot `i` of the cluster `c` of the directory of
`o`, which has the clusters `dl`, and its own clusters are `l`. -/
structure Mount.EntryAt (M : Mount) (V : Volume) (o : Owner) (dl : List Nat) (c i : Nat)
    (l : List Nat) : Prop where
  parent : M.Present V o
  dir : V.isDirOf o = true
  dirChain : M.FileOn V (M.startOf V o) dl
  mem : c ∈ dl
  live : M.LiveAt V c i
  chain : M.FileOn V (V.slot c i).cluster l

/-- A change of the entry in slot `i` of the cluster `c` of a directory with the clusters `dl`:
the chain of the entry goes from `l` to `l'`. The chain of a directory stays as it is. -/
structure Mount.Changes (M : Mount) (V V' : Volume) (dl : List Nat) (c i : Nat)
    (l l' : List Nat) : Prop where
  fresh : ∀ x ∈ l', x ∈ l ∨ V.fat x = fat32EntryFree
  frame : ∀ x, (x ∈ l → (V.slot c i).isDirectory = true) → V.fat x ≠ fat32EntryFree →
    V'.fat x = V.fat x ∧ (x ≠ c → V'.data x = V.data x)
  live : ∀ j, M.LiveAt V' c j → M.LiveAt V c j
  others : ∀ j, j ≠ i → M.LiveAt V' c j → V'.slot c j = V.slot c j
  chain : M.LiveAt V' c i → M.FileOn V' (V'.slot c i).cluster l'
  attr : M.LiveAt V' c i → (V'.slot c i).isDirectory = (V.slot c i).isDirectory
  dir : (V.slot c i).isDirectory = true → M.LiveAt V' c i →
    (V'.slot c i).cluster = (V.slot c i).cluster
  empty : M.LiveAt V' c i → (V'.slot c i).cluster = 0 →
    (V'.slot c i).fileSize = 0 ∨ IsEof (V'.fat 0)
  name : M.LiveAt V' c i → ∀ x ∈ dl, ∀ j, M.LiveAt V x j →
    (V.slot x j).name = (V'.slot c i).name → x = c ∧ j = i

section Tidy

variable {M : Mount} {V V' : Volume} {o o' : Owner} {dl l l' : List Nat} {c i : Nat}

theorem Mount.EntryAt.present (h : M.EntryAt V o dl c i l) : M.Present V (some (c, i)) :=
  Mount.Present.entry h.parent h.dir h.dirChain h.mem h.live

/-- An entry stands in a cluster that is not its own. -/
theorem Mount.Tidy.not_self (ht : M.Tidy V) {c i : Nat} (hp : M.Present V (some (c, i)))
    {l : List Nat} (hl : M.FileOn V (V.slot c i).cluster l) : c ∉ l := by
  generalize ho : (some (c, i) : Owner) = o at hp
  induction hp generalizing c i l with
  | root => cases ho
  | @entry o' l' c' i' parent dir chain mem live ih =>
      cases ho
      intro hc
      have heq : o' = some (c', i') := ht.disjoint o' (some (c', i')) l' l parent
        (Mount.Present.entry parent dir chain mem live) chain hl c' mem hc
      -- the directory would be the entry itself, at an earlier stage
      subst heq
      exact ih chain rfl mem

theorem Mount.Tidy.not_own (ht : M.Tidy V) (h : M.EntryAt V o dl c i l) : o ≠ some (c, i) := by
  rintro rfl
  exact ht.not_self h.present h.dirChain h.mem

/-- The clusters of a directory are apart from those of its entries. -/
theorem Mount.Tidy.apart (ht : M.Tidy V) (h : M.EntryAt V o dl c i l) : ∀ x ∈ dl, x ∉ l := by
  intro x hx hl
  exact ht.not_own h (ht.disjoint o (some (c, i)) dl l h.parent h.present h.dirChain h.chain x hx hl)

end Tidy

/-! ## A change of one entry -/

section Update

variable {M : Mount} {V V' : Volume} {o : Owner} {dl l l' : List Nat} {c i : Nat}
  (ht : M.Tidy V) (hat : M.EntryAt V o dl c i l) (hch : M.Changes V V' dl c i l l')

include ht hat hch

/-- The chain of another owner is left alone. -/
theorem Mount.Tidy.other_chain {q : Owner} {k : List Nat} (hq : M.Present V q)
    (hne : q ≠ some (c, i)) (hk : M.FileOn V (M.startOf V q) k) :
    M.FileOn V' (M.startOf V q) k ∧ (∀ x ∈ k, x ∉ l') ∧ ∀ x ∈ k, x ≠ c → V'.data x = V.data x := by
  have hapart : ∀ x ∈ k, x ∉ l := by
    intro x hx hl
    exact hne (ht.disjoint q (some (c, i)) k l hq hat.present hk hat.chain x hx hl)
  have hframe : ∀ x ∈ k, V'.fat x = V.fat x ∧ (x ≠ c → V'.data x = V.data x) := by
    intro x hx
    exact hch.frame x (fun h => absurd h (hapart x hx)) (hk.fat_ne_free hx)
  refine ⟨hk.congr (fun x hx => (hframe x hx).1), ?_, fun x hx => (hframe x hx).2⟩
  intro x hx hl'
  rcases hch.fresh x hl' with h | h
  · exact hapart x hx h
  · exact hk.fat_ne_free hx h

/-- A live slot of the changed volume, other than the changed one, was live with the same bytes,
if it stands in a directory that was there. -/
theorem Mount.Tidy.other_slot {q : Owner} {k : List Nat} (hq : M.Present V q)
    (hdir : V.isDirOf q = true) (hk : M.FileOn V (M.startOf V q) k) {x j : Nat} (hx : x ∈ k)
    (hlive : M.LiveAt V' x j) :
    M.LiveAt V x j ∧ ((x, j) ≠ (c, i) → V'.slot x j = V.slot x j) := by
  by_cases hxc : x = c
  · subst hxc
    refine ⟨hch.live j hlive, ?_⟩
    intro hne
    exact hch.others j (fun h => hne (by rw [h])) hlive
  · have hdata : V'.data x = V.data x := by
      by_cases hq' : q = some (c, i)
      · -- the clusters of a directory are not changed with its entry
        subst hq'
        exact (hch.frame x (fun _ => hdir) (hk.fat_ne_free hx)).2 hxc
      · exact (ht.other_chain hat hch hq hq' hk).2.2 x hx hxc
    have hslot : V'.slot x j = V.slot x j := by
      rw [Volume.slot, Volume.slot, hdata]
    rw [Mount.LiveAt, hdata] at hlive
    exact ⟨hlive, fun _ => hslot⟩

/-- What is there after the change was there before, with the same chain if it is not the changed
entry itself; and if it is the changed entry, that is still live. -/
theorem Mount.Tidy.present_before {q : Owner} (hq : M.Present V' q) :
    M.Present V q ∧ (q ≠ some (c, i) → M.startOf V' q = M.startOf V q ∧
      V'.isDirOf q = V.isDirOf q) ∧ (q = some (c, i) → M.LiveAt V' c i) := by
  induction hq with
  | root => exact ⟨Mount.Present.root, fun _ => ⟨rfl, rfl⟩, fun h => by cases h⟩
  | @entry q k x j parent dir chain mem live ih =>
      obtain ⟨hq, hother, hself⟩ := ih
      -- the directory and its clusters were there
      have hdirq : V.isDirOf q = true ∧ M.startOf V' q = M.startOf V q := by
        by_cases hqc : q = some (c, i)
        · subst hqc
          have hlive' := hself rfl
          have hd : (V.slot c i).isDirectory = true := by
            rw [← hch.attr hlive']
            exact dir
          exact ⟨hd, hch.dir hd hlive'⟩
        · obtain ⟨h1, h2⟩ := hother hqc
          rw [h2] at dir
          exact ⟨dir, h1⟩
      obtain ⟨k0, hk0⟩ := ht.chain q hq
      have hk' : M.FileOn V' (M.startOf V' q) k0 := by
        rw [hdirq.2]
        by_cases hqc : q = some (c, i)
        · subst hqc
          refine hk0.congr (fun y hy => ?_)
          exact (hch.frame y (fun _ => hdirq.1) (hk0.fat_ne_free hy)).1
        · exact (ht.other_chain hat hch hq hqc hk0).1
      obtain rfl := chain.unique hk'
      obtain ⟨hlive, hslot⟩ := ht.other_slot hat hch hq hdirq.1 hk0 mem live
      refine ⟨Mount.Present.entry hq hdirq.1 hk0 mem hlive, ?_, ?_⟩
      · intro hne
        have hs := hslot (fun h => hne (by rw [h]))
        exact ⟨by rw [Mount.startOf, Mount.startOf, hs], by rw [Volume.isDirOf, Volume.isDirOf, hs]⟩
      · intro h
        cases h
        exact live

/-- The chain of what is there after the change. -/
theorem Mount.Tidy.chain_after {q : Owner} (hq : M.Present V' q) :
    ∃ k, M.FileOn V' (M.startOf V' q) k ∧ ((q = some (c, i) ∧ k = l') ∨
      (q ≠ some (c, i) ∧ M.FileOn V (M.startOf V q) k ∧ ∀ x ∈ k, x ∉ l')) := by
  obtain ⟨hq0, hother, hself⟩ := ht.present_before hat hch hq
  by_cases hqc : q = some (c, i)
  · refine ⟨l', ?_, Or.inl ⟨hqc, rfl⟩⟩
    subst hqc
    exact hch.chain (hself rfl)
  · obtain ⟨k, hk⟩ := ht.chain q hq0
    obtain ⟨h1, h2, -⟩ := ht.other_chain hat hch hq0 hqc hk
    refine ⟨k, ?_, Or.inr ⟨hqc, hk, h2⟩⟩
    rw [(hother hqc).1]
    exact h1

/-- A file without a cluster is still empty, or the first entry of the table still ends a chain. -/
theorem Mount.Tidy.empty_after {x j : Nat} (hq : M.Present V' (some (x, j)))
    (h0 : (V'.slot x j).cluster = 0) : (V'.slot x j).fileSize = 0 ∨ IsEof (V'.fat 0) := by
  obtain ⟨hq0, hother, hself⟩ := ht.present_before hat hch hq
  by_cases hqc : (some (x, j) : Owner) = some (c, i)
  · obtain ⟨rfl, rfl⟩ : x = c ∧ j = i := by
      cases hqc
      exact ⟨rfl, rfl⟩
    exact hch.empty (hself rfl) h0
  · -- the entry was there with the same bytes
    have hslot : V'.slot x j = V.slot x j := by
      cases hq with
      | @entry q k _ _ parent dir chain mem live =>
          obtain ⟨hp0, -⟩ := ht.present_before hat hch parent
          cases hq0 with
          | @entry q' k' _ _ parent' dir' chain' mem' live' =>
              exact (ht.other_slot hat hch parent' dir' chain' mem' live).2
                (fun h => hqc (by rw [h]))
    rw [hslot] at h0 ⊢
    rcases ht.empty x j hq0 h0 with h | heof
    · exact Or.inl h
    · right
      have hfree : V.fat 0 ≠ fat32EntryFree := by
        intro h
        rw [h] at heof
        exact absurd heof (by decide)
      have hl0 : 0 ∉ l := by
        intro h
        have := (hat.chain.1 0 h).1
        omega
      rw [(hch.frame 0 (fun h => absurd h hl0) hfree).1]
      exact heof

/-- A directory was one before the change, on the same clusters. -/
theorem Mount.Tidy.dir_before {q : Owner} {k : List Nat} (hq : M.Present V' q)
    (hdir : V'.isDirOf q = true) (hk : M.FileOn V' (M.startOf V' q) k) :
    V.isDirOf q = true ∧ M.FileOn V (M.startOf V q) k := by
  obtain ⟨hq0, hother, hself⟩ := ht.present_before hat hch hq
  by_cases hqc : q = some (c, i)
  · subst hqc
    have hlivec := hself rfl
    have hd : (V.slot c i).isDirectory = true := by
      rw [← hch.attr hlivec]
      exact hdir
    refine ⟨hd, ?_⟩
    obtain ⟨k0, hk0⟩ := ht.chain _ hq0
    have hk0' : M.FileOn V' (M.startOf V' (some (c, i))) k0 := by
      show M.FileOn V' (V'.slot c i).cluster k0
      rw [hch.dir hd hlivec]
      refine hk0.congr (fun z hz => ?_)
      exact (hch.frame z (fun _ => hd) (hk0.fat_ne_free hz)).1
    obtain rfl := hk.unique hk0'
    exact hk0
  · obtain ⟨h1, h2⟩ := hother hqc
    obtain ⟨k0, hk0⟩ := ht.chain q hq0
    have hk0' := (ht.other_chain hat hch hq0 hqc hk0).1
    rw [← h1] at hk0'
    obtain rfl := hk.unique hk0'
    exact ⟨by rw [← h2]; exact hdir, hk0⟩

/-- A change of one entry and its own chain keeps a volume tidy. -/
theorem Mount.Tidy.update : M.Tidy V' := by
  constructor
  · intro q hq
    obtain ⟨k, hk, -⟩ := ht.chain_after hat hch hq
    exact ⟨k, hk⟩
  · exact fun x j hq h0 => ht.empty_after hat hch hq h0
  · intro q q' k k' hq hq' hk hk' x hx hx'
    obtain ⟨m, hm, hcase⟩ := ht.chain_after hat hch hq
    obtain ⟨m', hm', hcase'⟩ := ht.chain_after hat hch hq'
    obtain rfl := hk.unique hm
    obtain rfl := hk'.unique hm'
    rcases hcase with ⟨rfl, rfl⟩ | ⟨hne, hold, hnew⟩
    · rcases hcase' with ⟨rfl, -⟩ | ⟨-, -, hnew'⟩
      · rfl
      · exact absurd hx (hnew' x hx')
    · rcases hcase' with ⟨rfl, rfl⟩ | ⟨-, hold', -⟩
      · exact absurd hx' (hnew x hx)
      · exact ht.disjoint q q' k k' (ht.present_before hat hch hq).1
          (ht.present_before hat hch hq').1 hold hold' x hx hx'
  · intro q k hq hdir hk x hx y hy j j' hlive hlive' hname
    have hq0 := (ht.present_before hat hch hq).1
    obtain ⟨hdir0, hk0⟩ := ht.dir_before hat hch hq hdir hk
    obtain ⟨hlx, hsx⟩ := ht.other_slot hat hch hq0 hdir0 hk0 hx hlive
    obtain ⟨hly, hsy⟩ := ht.other_slot hat hch hq0 hdir0 hk0 hy hlive'
    -- a directory that holds the changed entry is the one it stands in
    have hdirk : c ∈ k → k = dl := by
      intro hc
      have := ht.disjoint q o k dl hq0 hat.parent hk0 hat.dirChain c hc hat.mem
      subst this
      exact hk0.unique hat.dirChain
    by_cases hxc : (x, j) = (c, i)
    · cases hxc
      by_cases hyc : (y, j') = (c, i)
      · cases hyc
        exact ⟨rfl, rfl⟩
      · rw [hsy hyc] at hname
        obtain ⟨h1, h2⟩ := hch.name hlive y (by rw [← hdirk hx]; exact hy) j' hly hname.symm
        exact ⟨h1.symm, h2.symm⟩
    · rw [hsx hxc] at hname
      by_cases hyc : (y, j') = (c, i)
      · cases hyc
        exact hch.name hlive' x (by rw [← hdirk hy]; exact hx) j hlx hname
      · rw [hsy hyc] at hname
        exact ht.unique q k hq0 hdir0 hk0 x hx y hy j j' hlx hly hname

end Update

end Os003
