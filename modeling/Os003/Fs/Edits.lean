import Os003.Fs.Emptiness
import Os003.Fs.Insertion
import Os003.Fs.Tidy

set_option autoImplicit false

/-! # One entry at a time

An operation on the tree touches one entry: it puts one into a free slot, takes one out, or changes
one. `Mount.EditsEntry` says what this means on the volume, for a file and for a directory, and
`Mount.Neat.edited` that such an edit keeps the tree in order. `Mount.Neat.present_iff` and
`Mount.Neat.kept` are the frame: whatever else stands in the tree still stands there, in the same
slot, with the same clusters, and a file with the same bytes.

Beside `Mount.Tidy` this needs the end marks in order: only the last cluster of a directory has one,
and behind it there are only end marks.
-/

namespace Os003

open Bytes Linked

/-- The end marks of a directory with the clusters `l` are in order. -/
structure Mount.Ended (M : Mount) (V : Volume) (l : List Nat) : Prop where
  clean : ∀ c ∈ l, EndsClean (V.data c) M.slotCount
  last : ∀ c ∈ l.dropLast, ¬ M.EndMarked V c

theorem Mount.Ended.congr {M : Mount} {V V' : Volume} {l : List Nat} (h : M.Ended V l)
    (hclean : ∀ c ∈ l, EndsClean (V.data c) M.slotCount → EndsClean (V'.data c) M.slotCount)
    (hmarks : ∀ c ∈ l, M.EndMarked V' c → M.EndMarked V c) : M.Ended V' l := by
  refine ⟨fun c hc => hclean c hc (h.clean c hc), fun c hc hmark => ?_⟩
  exact h.last c hc (hmarks c (List.dropLast_subset l hc) hmark)

/-- A tidy volume whose directories have their end marks in order. -/
structure Mount.Neat (M : Mount) (V : Volume) : Prop where
  tidy : M.Tidy V
  ended : ∀ o l, M.Present V o → V.isDirOf o = true → M.FileOn V (M.startOf V o) l → M.Ended V l

/-- A slot of a directory: slot `i` of the cluster `c` of the directory of `o`, which has the clusters
`dl`. A live entry in it has the clusters `l`, and without one `l` is empty. -/
structure Mount.PlaceAt (M : Mount) (V : Volume) (o : Owner) (dl : List Nat) (c i : Nat)
    (l : List Nat) : Prop where
  parent : M.Present V o
  dir : V.isDirOf o = true
  dirChain : M.FileOn V (M.startOf V o) dl
  mem : c ∈ dl
  old : (M.LiveAt V c i ∧ M.FileOn V (V.slot c i).cluster l) ∨ (¬ M.LiveAt V c i ∧ l = [])

theorem Mount.EntryAt.place {M : Mount} {V : Volume} {o : Owner} {dl l : List Nat} {c i : Nat}
    (h : M.EntryAt V o dl c i l) : M.PlaceAt V o dl c i l :=
  ⟨h.parent, h.dir, h.dirChain, h.mem, Or.inl ⟨h.live, h.chain⟩⟩

/-- The entry is a directory before and after, with the same clusters, and these are untouched. -/
structure Mount.KeepsDir (M : Mount) (V V' : Volume) (c i : Nat) (l l' : List Nat) : Prop where
  before : M.LiveAt V c i ∧ (V.slot c i).isDirectory = true
  after : M.LiveAt V' c i ∧ (V'.slot c i).isDirectory = true
  start : (V'.slot c i).cluster = (V.slot c i).cluster
  clusters : l' = l
  frame : ∀ x ∈ l, V'.fat x = V.fat x ∧ V'.data x = V.data x

/-- An edit of slot `i` of the cluster `c` in a directory with the clusters `dl`: the chain of the entry
goes from `l` to `l'`. A directory that comes or goes is empty. -/
structure Mount.EditsEntry (M : Mount) (V V' : Volume) (dl : List Nat) (c i : Nat)
    (l l' : List Nat) : Prop where
  fresh : ∀ x ∈ l', x ∈ l ∨ V.fat x = fat32EntryFree
  frame : ∀ x, x ∉ l → V.fat x ≠ fat32EntryFree →
    V'.fat x = V.fat x ∧ (x ≠ c → V'.data x = V.data x)
  others : ∀ j, j ≠ i → (M.LiveAt V' c j ↔ M.LiveAt V c j) ∧
    (M.LiveAt V c j → V'.slot c j = V.slot c j)
  clean : EndsClean (V'.data c) M.slotCount
  marks : M.EndMarked V' c → M.EndMarked V c
  chain : M.LiveAt V' c i → M.FileOn V' (V'.slot c i).cluster l'
  empty : M.LiveAt V' c i → (V'.slot c i).cluster = 0 →
    (V'.slot c i).fileSize = 0 ∨ IsEof (V'.fat 0)
  name : M.LiveAt V' c i → ∀ x ∈ dl, ∀ j, M.LiveAt V x j →
    (V.slot x j).name = (V'.slot c i).name → x = c ∧ j = i
  goes : M.LiveAt V c i → (V.slot c i).isDirectory = true →
    M.KeepsDir V V' c i l l' ∨ ∀ x ∈ l, ¬ M.Holds V x
  comes : M.LiveAt V' c i → (V'.slot c i).isDirectory = true →
    M.KeepsDir V V' c i l l' ∨ ((∀ x ∈ l', ¬ M.Holds V' x) ∧ M.Ended V' l')

section Neat

variable {M : Mount} {V V' : Volume} {o : Owner} {dl l l' : List Nat} {c i : Nat}

/-- A live entry in the place. -/
theorem Mount.PlaceAt.entry (h : M.PlaceAt V o dl c i l) (hlive : M.LiveAt V c i) :
    M.EntryAt V o dl c i l := by
  rcases h.old with ⟨-, hl⟩ | ⟨hnot, -⟩
  · exact ⟨h.parent, h.dir, h.dirChain, h.mem, hlive, hl⟩
  · exact absurd hlive hnot

/-- The clusters of another owner are not those of the entry. -/
theorem Mount.PlaceAt.apart (ht : M.Tidy V) (hat : M.PlaceAt V o dl c i l) {q : Owner} {k : List Nat}
    (hq : M.Present V q) (hne : q ≠ some (c, i)) (hk : M.FileOn V (M.startOf V q) k) :
    ∀ x ∈ k, x ∉ l := by
  intro x hx hxl
  rcases hat.old with ⟨hlive, hl⟩ | ⟨-, rfl⟩
  · exact hne (ht.disjoint q (some (c, i)) k l hq (hat.entry hlive).present hk hl x hx hxl)
  · cases hxl

/-- The place is not in the directory that it holds. -/
theorem Mount.PlaceAt.ne (ht : M.Tidy V) (hat : M.PlaceAt V o dl c i l) : o ≠ some (c, i) := by
  rintro rfl
  exact ht.not_self hat.parent hat.dirChain hat.mem

variable (hn : M.Neat V) (hat : M.PlaceAt V o dl c i l) (he : M.EditsEntry V V' dl c i l l')
include hn hat he

/-- The chain of another owner is left alone. -/
theorem Mount.Neat.chain_kept {q : Owner} {k : List Nat} (hq : M.Present V q)
    (hne : q ≠ some (c, i)) (hk : M.FileOn V (M.startOf V q) k) :
    M.FileOn V' (M.startOf V q) k ∧ (∀ x ∈ k, x ∉ l') ∧ ∀ x ∈ k, x ≠ c → V'.data x = V.data x := by
  have hapart := hat.apart hn.tidy hq hne hk
  have hframe : ∀ x ∈ k, V'.fat x = V.fat x ∧ (x ≠ c → V'.data x = V.data x) := fun x hx =>
    he.frame x (hapart x hx) (hk.fat_ne_free hx)
  refine ⟨hk.congr (fun x hx => (hframe x hx).1), ?_, fun x hx => (hframe x hx).2⟩
  intro x hx hxl'
  rcases he.fresh x hxl' with h | h
  · exact hapart x hx h
  · exact hk.fat_ne_free hx h

/-- The slots of a directory that stays, apart from the edited one. -/
theorem Mount.Neat.slots_kept {q : Owner} {k : List Nat} (hq : M.Present V q)
    (hk : M.FileOn V (M.startOf V q) k) (hkeep : q = some (c, i) → M.KeepsDir V V' c i l l') {x j : Nat}
    (hx : x ∈ k) (hne : (x, j) ≠ (c, i)) :
    (M.LiveAt V' x j ↔ M.LiveAt V x j) ∧ (M.LiveAt V x j → V'.slot x j = V.slot x j) := by
  by_cases hxc : x = c
  · subst hxc
    exact he.others j fun h => hne (by rw [h])
  · have hdata : V'.data x = V.data x := by
      by_cases hqc : q = some (c, i)
      · subst hqc
        have hkeep := hkeep rfl
        obtain rfl := hk.unique (hat.entry hkeep.before.1).chain
        exact (hkeep.frame x hx).2
      · exact (hn.chain_kept hat he hq hqc hk).2.2 x hx hxc
    rw [Mount.LiveAt, Mount.LiveAt, hdata, Volume.slot, Volume.slot, hdata]
    exact ⟨Iff.rfl, fun _ => rfl⟩

omit hn in
/-- A directory with a live entry is kept. -/
theorem Mount.PlaceAt.keeps_of_live {q : Owner} {k : List Nat} (hdir : V.isDirOf q = true)
    (hk : M.FileOn V (M.startOf V q) k) {x j : Nat} (hx : x ∈ k) (hlive : M.LiveAt V x j)
    (hq : M.Present V q) : q = some (c, i) → M.KeepsDir V V' c i l l' := by
  rintro rfl
  have hlivec : M.LiveAt V c i := by
    cases hq with
    | entry _ _ _ _ live => exact live
  obtain rfl := hk.unique (hat.entry hlivec).chain
  rcases he.goes hlivec hdir with h | h
  · exact h
  · exact absurd ⟨j, hlive⟩ (h x hx)

/-- What else is there keeps its slot. -/
theorem Mount.Neat.slot_kept {x j : Nat} (hq : M.Present V (some (x, j))) (hne : (x, j) ≠ (c, i)) :
    M.LiveAt V' x j ∧ V'.slot x j = V.slot x j := by
  cases hq with
  | @entry q k _ _ parent dir chain mem live =>
      have hkeep := hat.keeps_of_live he dir chain mem live parent
      obtain ⟨hiff, hslot⟩ := hn.slots_kept hat he parent chain hkeep mem hne
      exact ⟨hiff.mpr live, hslot live⟩

/-- What else is there keeps its kind and its start cluster. -/
theorem Mount.Neat.start_kept {q : Owner} (hq : M.Present V q) (hne : q ≠ some (c, i)) :
    M.startOf V' q = M.startOf V q ∧ V'.isDirOf q = V.isDirOf q := by
  cases q with
  | none => exact ⟨rfl, rfl⟩
  | some p =>
      obtain ⟨x, j⟩ := p
      have hslot := (hn.slot_kept hat he hq fun h => hne (by rw [h])).2
      exact ⟨by rw [Mount.startOf, Mount.startOf, hslot],
        by rw [Volume.isDirOf, Volume.isDirOf, hslot]⟩

/-- The place itself is in the tree when it is live. -/
theorem Mount.Neat.place_after (ho : M.Present V' o) (hlive : M.LiveAt V' c i) :
    M.Present V' (some (c, i)) := by
  have hne := hat.ne hn.tidy
  obtain ⟨hstart, hdir⟩ := hn.start_kept hat he hat.parent hne
  refine Mount.Present.entry ho (by rw [hdir]; exact hat.dir) ?_ hat.mem hlive
  rw [hstart]
  exact (hn.chain_kept hat he hat.parent hne hat.dirChain).1

omit he in
/-- A directory with the cluster of the place is the one that the place is in. -/
theorem Mount.PlaceAt.owner {q : Owner} {k : List Nat} (hq : M.Present V q)
    (hk : M.FileOn V (M.startOf V q) k) (hc : c ∈ k) : q = o ∧ k = dl := by
  have hqo := hn.tidy.disjoint q o k dl hq hat.parent hk hat.dirChain c hc hat.mem
  subst hqo
  exact ⟨rfl, hk.unique hat.dirChain⟩

/-- What was there is still there, the edited entry if it is live. -/
theorem Mount.Neat.present_after {q : Owner} (hq : M.Present V q)
    (hlive : q = some (c, i) → M.LiveAt V' c i) : M.Present V' q := by
  induction hq with
  | root => exact Mount.Present.root
  | @entry q k x j parent dir chain mem live ih =>
      have hkeep := hat.keeps_of_live he dir chain mem live parent
      have hparent : M.Present V' q := ih fun hqc => (hkeep hqc).after.1
      by_cases hxc : (x, j) = (c, i)
      · cases hxc
        obtain ⟨rfl, -⟩ := hat.owner hn parent chain mem
        exact hn.place_after hat he hparent (hlive rfl)
      · have hlive' := ((hn.slots_kept hat he parent chain hkeep mem hxc).1).mpr live
        by_cases hqc : q = some (c, i)
        · subst hqc
          have hkeep := hkeep rfl
          refine Mount.Present.entry hparent hkeep.after.2 ?_ mem hlive'
          show M.FileOn V' (V'.slot c i).cluster k
          rw [hkeep.start]
          obtain rfl := chain.unique (hat.entry hkeep.before.1).chain
          exact chain.congr fun y hy => (hkeep.frame y hy).1
        · obtain ⟨hstart, hdir⟩ := hn.start_kept hat he parent hqc
          refine Mount.Present.entry hparent (by rw [hdir]; exact dir) ?_ mem hlive'
          rw [hstart]
          exact (hn.chain_kept hat he parent hqc chain).1

/-- What is there afterwards was there before, or it is the edited entry. -/
theorem Mount.Neat.present_before {q : Owner} (hq : M.Present V' q) :
    (q ≠ some (c, i) ∧ M.Present V q) ∨ (q = some (c, i) ∧ M.LiveAt V' c i) := by
  induction hq with
  | root => exact Or.inl ⟨by simp, Mount.Present.root⟩
  | @entry q k x j parent dir chain mem live ih =>
      by_cases hxc : (x, j) = (c, i)
      · cases hxc
        exact Or.inr ⟨rfl, live⟩
      · refine Or.inl ⟨fun h => hxc (Option.some.inj h), ?_⟩
        rcases ih with ⟨hne, hq⟩ | ⟨rfl, hlivec⟩
        · obtain ⟨hstart, hdir⟩ := hn.start_kept hat he hq hne
          rw [hdir] at dir
          obtain ⟨k0, hk0⟩ := hn.tidy.chain q hq
          have hk0' := (hn.chain_kept hat he hq hne hk0).1
          rw [← hstart] at hk0'
          obtain rfl := chain.unique hk0'
          refine Mount.Present.entry hq dir hk0 mem ?_
          exact ((hn.slots_kept hat he hq hk0 (fun h => absurd h hne) mem hxc).1).mp live
        · -- the edited entry is a directory with an entry, so it was there before
          obtain rfl := chain.unique (he.chain hlivec)
          rcases he.comes hlivec dir with hkeep | ⟨hnone, -⟩
          · obtain rfl := hkeep.clusters
            have hentry := hat.entry hkeep.before.1
            refine Mount.Present.entry hentry.present hkeep.before.2 hentry.chain mem ?_
            exact ((hn.slots_kept hat he hentry.present hentry.chain (fun _ => hkeep) mem hxc).1).mp
              live
          · exact absurd ⟨j, live⟩ (hnone x mem)

/-- The tree afterwards: everything else, and the edited entry if it is live. -/
theorem Mount.Neat.present_iff (q : Owner) : M.Present V' q ↔
    (q ≠ some (c, i) ∧ M.Present V q) ∨ (q = some (c, i) ∧ M.LiveAt V' c i) := by
  constructor
  · exact hn.present_before hat he
  · rintro (⟨hne, hq⟩ | ⟨rfl, hlive⟩)
    · exact hn.present_after hat he hq fun h => absurd h hne
    · refine hn.place_after hat he (hn.present_after hat he hat.parent fun h => ?_) hlive
      exact absurd h (hat.ne hn.tidy)

/-- The chain of what is there afterwards. -/
theorem Mount.Neat.chain_after {q : Owner} (hq : M.Present V' q) :
    ∃ k, M.FileOn V' (M.startOf V' q) k ∧ ((q = some (c, i) ∧ k = l') ∨
      (q ≠ some (c, i) ∧ M.Present V q ∧ M.FileOn V (M.startOf V q) k ∧ ∀ x ∈ k, x ∉ l')) := by
  rcases hn.present_before hat he hq with ⟨hne, hq0⟩ | ⟨rfl, hlive⟩
  · obtain ⟨k, hk⟩ := hn.tidy.chain q hq0
    obtain ⟨h1, h2, -⟩ := hn.chain_kept hat he hq0 hne hk
    refine ⟨k, ?_, Or.inr ⟨hne, hq0, hk, h2⟩⟩
    rw [(hn.start_kept hat he hq0 hne).1]
    exact h1
  · exact ⟨l', he.chain hlive, Or.inl ⟨rfl, rfl⟩⟩

omit hn in
/-- The entry `0` of the table is none of an entry. -/
theorem Mount.PlaceAt.eof_kept (h : IsEof (V.fat 0)) : IsEof (V'.fat 0) := by
  have hfree : V.fat 0 ≠ fat32EntryFree := by
    intro h0
    rw [h0] at h
    exact absurd h (by decide)
  have hl0 : 0 ∉ l := by
    intro h0
    rcases hat.old with ⟨-, hl⟩ | ⟨-, rfl⟩
    · have := (hl.1 0 h0).1
      omega
    · cases h0
  rw [(he.frame 0 hl0 hfree).1]
  exact h

/-- The names of a directory are apart after the edit. -/
theorem Mount.Neat.unique_after {q : Owner} {k : List Nat} (hq : M.Present V' q)
    (hdir : V'.isDirOf q = true) (hk : M.FileOn V' (M.startOf V' q) k) {x y j j' : Nat} (hx : x ∈ k)
    (hy : y ∈ k) (hlive : M.LiveAt V' x j) (hlive' : M.LiveAt V' y j')
    (hname : (V'.slot x j).name = (V'.slot y j').name) : x = y ∧ j = j' := by
  -- the directory before the edit
  have hold : M.Present V q ∧ V.isDirOf q = true ∧ M.FileOn V (M.startOf V q) k ∧
      (q = some (c, i) → M.KeepsDir V V' c i l l') := by
    rcases hn.present_before hat he hq with ⟨hne, hq0⟩ | ⟨rfl, hlivec⟩
    · obtain ⟨hstart, hkind⟩ := hn.start_kept hat he hq0 hne
      obtain ⟨k0, hk0⟩ := hn.tidy.chain q hq0
      have hk0' := (hn.chain_kept hat he hq0 hne hk0).1
      rw [← hstart] at hk0'
      obtain rfl := hk.unique hk0'
      exact ⟨hq0, by rw [← hkind]; exact hdir, hk0, fun h => absurd h hne⟩
    · obtain rfl := hk.unique (he.chain hlivec)
      rcases he.comes hlivec hdir with hkeep | ⟨hnone, -⟩
      · obtain rfl := hkeep.clusters
        have hentry := hat.entry hkeep.before.1
        exact ⟨hentry.present, hkeep.before.2, hentry.chain, fun _ => hkeep⟩
      · exact absurd ⟨j, hlive⟩ (hnone x hx)
  obtain ⟨hq0, hdir0, hk0, hkeep⟩ := hold
  have hslots : ∀ z ∈ k, ∀ n, (z, n) ≠ (c, i) → M.LiveAt V' z n →
      M.LiveAt V z n ∧ V'.slot z n = V.slot z n := by
    intro z hz n hne h
    obtain ⟨hiff, hslot⟩ := hn.slots_kept hat he hq0 hk0 hkeep hz hne
    exact ⟨hiff.mp h, hslot (hiff.mp h)⟩
  have hdl : c ∈ k → k = dl := fun hc => (hat.owner hn hq0 hk0 hc).2
  by_cases hxc : (x, j) = (c, i)
  · cases hxc
    by_cases hyc : (y, j') = (c, i)
    · cases hyc
      exact ⟨rfl, rfl⟩
    · obtain ⟨hly, hsy⟩ := hslots y hy j' hyc hlive'
      rw [hsy] at hname
      obtain ⟨h1, h2⟩ := he.name hlive y (by rw [← hdl hx]; exact hy) j' hly hname.symm
      exact ⟨h1.symm, h2.symm⟩
  · obtain ⟨hlx, hsx⟩ := hslots x hx j hxc hlive
    rw [hsx] at hname
    by_cases hyc : (y, j') = (c, i)
    · cases hyc
      exact he.name hlive' x (by rw [← hdl hy]; exact hx) j hlx hname
    · obtain ⟨hly, hsy⟩ := hslots y hy j' hyc hlive'
      rw [hsy] at hname
      exact hn.tidy.unique q k hq0 hdir0 hk0 x hx y hy j j' hlx hly hname

theorem Mount.Neat.tidy_after : M.Tidy V' := by
  constructor
  · intro q hq
    obtain ⟨k, hk, -⟩ := hn.chain_after hat he hq
    exact ⟨k, hk⟩
  · intro x j hq h0
    rcases hn.present_before hat he hq with ⟨hne, hq0⟩ | ⟨hxc, hlive⟩
    · rw [(hn.slot_kept hat he hq0 fun h => hne (by rw [h])).2] at h0 ⊢
      exact (hn.tidy.empty x j hq0 h0).imp_right (hat.eof_kept he)
    · cases hxc
      exact he.empty hlive h0
  · intro q q' k k' hq hq' hk hk' x hx hx'
    obtain ⟨m, hm, hcase⟩ := hn.chain_after hat he hq
    obtain ⟨m', hm', hcase'⟩ := hn.chain_after hat he hq'
    obtain rfl := hk.unique hm
    obtain rfl := hk'.unique hm'
    rcases hcase with ⟨rfl, rfl⟩ | ⟨hne, hq0, hold, hnew⟩
    · rcases hcase' with ⟨rfl, -⟩ | ⟨-, -, -, hnew'⟩
      · rfl
      · exact absurd hx (hnew' x hx')
    · rcases hcase' with ⟨rfl, rfl⟩ | ⟨-, hq0', hold', -⟩
      · exact absurd hx' (hnew x hx)
      · exact hn.tidy.disjoint q q' k k' hq0 hq0' hold hold' x hx hx'
  · intro q k hq hdir hk x hx y hy j j' hlive hlive' hname
    exact hn.unique_after hat he hq hdir hk hx hy hlive hlive' hname

/-- An edit keeps the tree in order. -/
theorem Mount.Neat.edited : M.Neat V' := by
  refine ⟨hn.tidy_after hat he, ?_⟩
  intro q k hq hdir hk
  rcases hn.present_before hat he hq with ⟨hne, hq0⟩ | ⟨rfl, hlive⟩
  · obtain ⟨hstart, hkind⟩ := hn.start_kept hat he hq0 hne
    obtain ⟨k0, hk0⟩ := hn.tidy.chain q hq0
    obtain ⟨hk0', -, hdata⟩ := hn.chain_kept hat he hq0 hne hk0
    rw [← hstart] at hk0'
    obtain rfl := hk.unique hk0'
    have hended := hn.ended q k hq0 (by rw [← hkind]; exact hdir) hk0
    refine hended.congr (fun x hx h => ?_) (fun x hx h => ?_)
    · by_cases hxc : x = c
      · rw [hxc]
        exact he.clean
      · rw [hdata x hx hxc]
        exact h
    · by_cases hxc : x = c
      · rw [hxc] at h ⊢
        exact he.marks h
      · obtain ⟨n, hlt, h0⟩ := h
        rw [Volume.slot, hdata x hx hxc] at h0
        exact ⟨n, hlt, h0⟩
  · obtain rfl := hk.unique (he.chain hlive)
    rcases he.comes hlive hdir with hkeep | ⟨-, hended⟩
    · obtain rfl := hkeep.clusters
      have hentry := hat.entry hkeep.before.1
      refine (hn.ended _ k hentry.present hkeep.before.2 hentry.chain).congr (fun x hx h => ?_)
        (fun x hx h => ?_)
      · rw [(hkeep.frame x hx).2]
        exact h
      · obtain ⟨n, hlt, h0⟩ := h
        rw [Volume.slot, (hkeep.frame x hx).2] at h0
        exact ⟨n, hlt, h0⟩
    · exact hended

/-- A file apart from the edited one keeps its bytes. -/
theorem Mount.Neat.bytes_kept {q : Owner} {k : List Nat} (hq : M.Present V q)
    (hne : q ≠ some (c, i)) (hfile : V.isDirOf q = false) (hk : M.FileOn V (M.startOf V q) k) :
    V'.bytes k = V.bytes k := by
  refine Volume.bytes_congr fun x hx => (hn.chain_kept hat he hq hne hk).2.2 x hx ?_
  rintro rfl
  have hqo := (hat.owner hn hq hk hx).1
  rw [hqo, hat.dir] at hfile
  cases hfile

end Neat

end Os003
