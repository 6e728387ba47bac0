import Os003.Fs.Edits
import Os003.Lib.Hierarchy

set_option autoImplicit false

/-! # The tree as it is meant

The entries of a volume as nodes: the directory of each, its short name, its kind, and the bytes of a
file. The slot that holds an entry is the identity of its node. Clusters and links do not show.

An edit of one slot changes this hierarchy at that slot and nowhere else (`tree_edited`, `tree_removed`).
-/

namespace Os003

open Bytes Linked

abbrev FsNode : Type := Hierarchy.Node (Nat × Nat) Name83 UInt8

abbrev FsTree : Type := Hierarchy (Nat × Nat) Name83 UInt8

/-- The bytes of an entry with the clusters `l`; a directory has none that are its own. -/
def Volume.contents (V : Volume) (c i : Nat) (l : List Nat) : List UInt8 :=
  if (V.slot c i).isDirectory = true then [] else (V.bytes l).take (V.slot c i).fileSize

/-- The node of the live entry in slot `i` of the cluster `c`. -/
structure Mount.IsNode (M : Mount) (V : Volume) (c i : Nat) (n : FsNode) : Prop where
  placed : ∃ dl l, M.EntryAt V n.parent dl c i l ∧ n.contents = V.contents c i l
  name : n.name = (V.slot c i).name
  isDir : n.isDir = (V.slot c i).isDirectory

open Classical in
/-- The hierarchy of a volume. -/
noncomputable def Mount.tree (M : Mount) (V : Volume) : FsTree := fun p =>
  if h : ∃ n, M.IsNode V p.1 p.2 n then some h.choose else none

section Tidy

variable {M : Mount} {V : Volume} {c i : Nat} {n : FsNode}

theorem Mount.Present.entryAt (ht : M.Tidy V) (h : M.Present V (some (c, i))) :
    ∃ o dl l, M.EntryAt V o dl c i l := by
  obtain ⟨l, hl⟩ := ht.chain _ h
  cases h with
  | entry parent dir chain mem live => exact ⟨_, _, l, parent, dir, chain, mem, live, hl⟩

theorem Mount.IsNode.present (h : M.IsNode V c i n) : M.Present V (some (c, i)) := by
  obtain ⟨dl, l, hat, -⟩ := h.placed
  exact hat.present

/-- An entry has one node. -/
theorem Mount.IsNode.unique (ht : M.Tidy V) {n' : FsNode} (h : M.IsNode V c i n)
    (h' : M.IsNode V c i n') : n = n' := by
  obtain ⟨dl, l, hat, hcontents⟩ := h.placed
  obtain ⟨dl', l', hat', hcontents'⟩ := h'.placed
  obtain rfl := hat.chain.unique hat'.chain
  have hparent : n.parent = n'.parent :=
    ht.disjoint _ _ dl dl' hat.parent hat'.parent hat.dirChain hat'.dirChain c hat.mem hat'.mem
  have hname := h.name.trans h'.name.symm
  have hdir := h.isDir.trans h'.isDir.symm
  have hbytes := hcontents.trans hcontents'.symm
  obtain ⟨p, a, d, b⟩ := n
  obtain ⟨p', a', d', b'⟩ := n'
  simp only at hparent hname hdir hbytes
  rw [hparent, hname, hdir, hbytes]

theorem Mount.Tidy.tree_eq_some (ht : M.Tidy V) :
    M.tree V (c, i) = some n ↔ M.IsNode V c i n := by
  unfold Mount.tree
  constructor
  · intro h
    split at h
    · rename_i hex
      cases h
      exact hex.choose_spec
    · cases h
  · intro h
    have hex : ∃ m, M.IsNode V c i m := ⟨n, h⟩
    rw [dif_pos hex, hex.choose_spec.unique ht h]

theorem Mount.EntryAt.node {o : Owner} {dl l : List Nat} (h : M.EntryAt V o dl c i l) :
    M.IsNode V c i ⟨o, (V.slot c i).name, (V.slot c i).isDirectory, V.contents c i l⟩ :=
  ⟨⟨dl, l, h, rfl⟩, rfl, rfl⟩

theorem Mount.Tidy.tree_eq_none (ht : M.Tidy V) :
    M.tree V (c, i) = none ↔ ¬ M.Present V (some (c, i)) := by
  constructor
  · intro h hp
    obtain ⟨o, dl, l, hat⟩ := hp.entryAt ht
    rw [ht.tree_eq_some.mpr hat.node] at h
    cases h
  · intro h
    cases htree : M.tree V (c, i) with
    | none => rfl
    | some n => exact absurd (ht.tree_eq_some.mp htree).present h

theorem Mount.Tidy.isDir_iff (ht : M.Tidy V) {o : Owner} :
    (M.tree V).IsDir o ↔ M.Present V o ∧ V.isDirOf o = true := by
  cases o with
  | none => exact ⟨fun _ => ⟨Mount.Present.root, rfl⟩, fun _ => trivial⟩
  | some p =>
      obtain ⟨c, i⟩ := p
      constructor
      · rintro ⟨n, hn, hdir⟩
        have hnode := ht.tree_eq_some.mp hn
        exact ⟨hnode.present, by rw [Volume.isDirOf, ← hnode.isDir]; exact hdir⟩
      · rintro ⟨hp, hdir⟩
        obtain ⟨o, dl, l, hat⟩ := hp.entryAt ht
        exact ⟨_, ht.tree_eq_some.mpr hat.node, hdir⟩

/-- A name that no live entry of a directory has is fresh in it. -/
theorem Mount.Tidy.fresh (ht : M.Tidy V) {o : Owner} {dl : List Nat} {name : Name83}
    (hdl : M.FileOn V (M.startOf V o) dl)
    (hnew : ∀ x ∈ dl, ∀ j, M.LiveAt V x j → (V.slot x j).name ≠ name) : (M.tree V).Fresh o name := by
  rintro ⟨x, j⟩ n hn hparent hname
  have hnode := ht.tree_eq_some.mp hn
  obtain ⟨dl', l, hat, -⟩ := hnode.placed
  rw [hparent] at hat
  obtain rfl := hdl.unique hat.dirChain
  exact hnew x hat.mem j hat.live (hnode.name.symm.trans hname)

/-- The node of an entry without a cluster in its directory. -/
theorem Mount.Tidy.no_children (ht : M.Tidy V) {o : Owner} {dl l : List Nat}
    (hat : M.EntryAt V o dl c i l)
    (hnone : (V.slot c i).isDirectory = true → ∀ x ∈ l, ¬ M.Holds V x) :
    ∀ p m, M.tree V p = some m → m.parent ≠ some (c, i) := by
  rintro ⟨x, j⟩ m hm hparent
  obtain ⟨dl', l', hat', -⟩ := (ht.tree_eq_some.mp hm).placed
  rw [hparent] at hat'
  obtain rfl := hat.chain.unique hat'.dirChain
  exact hnone hat'.dir x hat'.mem ⟨j, hat'.live⟩

end Tidy

section Edit

variable {M : Mount} {V V' : Volume} {o : Owner} {dl l l' : List Nat} {c i : Nat}
  (hn : M.Neat V) (hat : M.PlaceAt V o dl c i l) (he : M.EditsEntry V V' dl c i l l')
include hn hat he

/-- Another entry keeps its directory and its clusters. -/
theorem Mount.Neat.entry_kept {q : Owner} {k m : List Nat} {x j : Nat}
    (h : M.EntryAt V q k x j m) (hne : (x, j) ≠ (c, i)) :
    M.EntryAt V' q k x j m ∧ V'.slot x j = V.slot x j := by
  have hneq : (some (x, j) : Owner) ≠ some (c, i) := fun heq => hne (Option.some.inj heq)
  obtain ⟨hlive, hslot⟩ := hn.slot_kept hat he h.present hne
  have hchain : M.FileOn V' (V'.slot x j).cluster m := by
    rw [hslot]
    exact (hn.chain_kept hat he h.present hneq h.chain).1
  have hkeep := hat.keeps_of_live he h.dir h.dirChain h.mem h.live h.parent
  have hparent := hn.present_after hat he h.parent fun hqc => (hkeep hqc).after.1
  refine ⟨⟨hparent, ?_, ?_, h.mem, hlive, hchain⟩, hslot⟩
  · by_cases hqc : q = some (c, i)
    · subst hqc
      exact (hkeep rfl).after.2
    · rw [(hn.start_kept hat he h.parent hqc).2]
      exact h.dir
  · by_cases hqc : q = some (c, i)
    · subst hqc
      have hkeep := hkeep rfl
      show M.FileOn V' (V'.slot c i).cluster k
      rw [hkeep.start]
      obtain rfl := h.dirChain.unique (hat.entry hkeep.before.1).chain
      exact h.dirChain.congr fun y hy => (hkeep.frame y hy).1
    · rw [(hn.start_kept hat he h.parent hqc).1]
      exact (hn.chain_kept hat he h.parent hqc h.dirChain).1

theorem Mount.Neat.tree_others {x j : Nat} (hne : (x, j) ≠ (c, i)) :
    M.tree V' (x, j) = M.tree V (x, j) := by
  have hneq : (some (x, j) : Owner) ≠ some (c, i) := fun heq => hne (Option.some.inj heq)
  have ht' := (hn.edited hat he).tidy
  by_cases hp : M.Present V (some (x, j))
  · obtain ⟨q, k, m, hentry⟩ := hp.entryAt hn.tidy
    obtain ⟨hentry', hslot⟩ := hn.entry_kept hat he hentry hne
    have hcontents : V'.contents x j m = V.contents x j m := by
      rw [Volume.contents, Volume.contents, hslot]
      by_cases hdir : (V.slot x j).isDirectory = true
      · rw [if_pos hdir, if_pos hdir]
      · have hfile : V.isDirOf (some (x, j)) = false := by
          rw [Volume.isDirOf]
          simpa using hdir
        rw [if_neg hdir, if_neg hdir, hn.bytes_kept hat he hp hneq hfile hentry.chain]
    rw [hn.tidy.tree_eq_some.mpr hentry.node, ht'.tree_eq_some.mpr hentry'.node, hslot, hcontents]
  · rw [hn.tidy.tree_eq_none.mpr hp, ht'.tree_eq_none, hn.present_iff hat he]
    rintro (⟨-, h⟩ | ⟨h, -⟩)
    · exact hp h
    · exact hneq h

/-- The hierarchy after an edit that leaves a live entry. -/
theorem Mount.Neat.tree_edited (hlive : M.LiveAt V' c i) :
    M.tree V' = Function.update (M.tree V) (c, i)
      (some ⟨o, (V'.slot c i).name, (V'.slot c i).isDirectory, V'.contents c i l'⟩) := by
  have ht' := (hn.edited hat he).tidy
  have hne := hat.ne hn.tidy
  have hparent := hn.present_after hat he hat.parent fun h => absurd h hne
  obtain ⟨hstart, hdir⟩ := hn.start_kept hat he hat.parent hne
  have hentry : M.EntryAt V' o dl c i l' := by
    refine ⟨hparent, by rw [hdir]; exact hat.dir, ?_, hat.mem, hlive, he.chain hlive⟩
    rw [hstart]
    exact (hn.chain_kept hat he hat.parent hne hat.dirChain).1
  funext p
  by_cases hp : p = (c, i)
  · rw [hp, Function.update_self]
    exact ht'.tree_eq_some.mpr hentry.node
  · rw [Function.update_of_ne hp]
    exact hn.tree_others hat he hp

/-- The hierarchy after an edit that leaves none. -/
theorem Mount.Neat.tree_removed (hgone : ¬ M.LiveAt V' c i) :
    M.tree V' = Function.update (M.tree V) (c, i) none := by
  have ht' := (hn.edited hat he).tidy
  funext p
  by_cases hp : p = (c, i)
  · rw [hp, Function.update_self, ht'.tree_eq_none]
    intro h
    cases h with
    | entry _ _ _ _ live => exact hgone live
  · rw [Function.update_of_ne hp]
    exact hn.tree_others hat he hp

end Edit

end Os003
