import Os003.Fs.Directory
import Os003.Fs.View

set_option autoImplicit false

/-! # Paths

`OpenFile` takes a path apart and looks its components up, one directory after the other. The slash
behind a component makes it descend into the directory just found, whether another component
follows or not; a slash at the end of the path therefore changes the directory in which the result
says the entry stands, and the path of a file that ends in a slash is not found at all.

The loop of the source is compared with the walk along the components alone (`lookupPath`), which
knows no slashes.
-/

namespace Os003

open Bytes

/-! ## `OpenFile` -/

/-- The byte that separates the components of a path. -/
def slash : UInt8 := 0x2F

/-- `file_t`. The entry is a page from `Pmm_Malloc` that holds a copy of the directory entry, the
name a pointer into the path, given as the part of the path from there on. -/
structure FileT where
  entry : Option (Nat × Slot)
  dirCluster : Nat
  name : Option (List UInt8)
  status : Nat
deriving DecidableEq

/-- The zeroed `file_t` that a failed `OpenFile` returns. -/
def FileT.closed : FileT := { entry := none, dirCluster := 0, name := none, status := 0 }

/-- The entry `OpenFile` makes up for the root directory. -/
def rootEntry (rootCluster : Nat) : Slot :=
  (Slot.put ⟨List.replicate 32 0, rfl⟩ 11 [attrDirectory] (by simp)).setCluster rootCluster

section

variable (M : Mount) (fuel : Nat)

/-- The loop of `OpenFile` over the components from `p` on, with the directory reached and the
last entry found with its name; each of the at most `n` turns passes at least one byte of the
path. `none` is an early return. -/
def openLoop : Nat → List UInt8 → Nat → Option (Slot × List UInt8) →
    Prog FsState (Option (Nat × Option (Slot × List UInt8)))
  | 0, _, _, _ => Prog.diverge
  | n + 1, p, current, found => do
      if p = [] then return some (current, found)
      let component := (p.takeWhile (· ≠ slash)).take (fat32MaxName - 1)
      let rest := p.dropWhile (· ≠ slash)
      -- two slashes in a row, or one at the end
      if component = [] then
        match rest with
        | [] => return some (current, found)
        | _ :: rest => openLoop n rest current found
      else
        match ← fat32FindEntryAny M fuel current component with
        | (0, some e) =>
            match rest with
            | [] => openLoop n [] current (some (e, p))
            | _ :: rest =>
                -- a file in front of further components, or of a slash
                if !e.isDirectory then return none
                openLoop n rest e.cluster (some (e, p))
        | _ => return none

/-- `OpenFile`, with what `Pmm_Malloc(1)` returns as a parameter; it is called at most once. -/
def openFile (page : Option Nat) (path : List UInt8) (mode : Nat) : Prog FsState FileT := do
  if path = [] then return FileT.closed
  let p := path.dropWhile (· = slash)
  if p = [] then
    return { entry := page.map fun a => (a, rootEntry M.info.rootCluster)
             dirCluster := M.info.rootCluster, name := none, status := mode }
  match ← openLoop M fuel (p.length + 1) p M.info.rootCluster none with
  | none => return FileT.closed
  | some (_, none) => return FileT.closed
  | some (current, some (e, name)) =>
      match page with
      | none => return FileT.closed
      | some a =>
          return { entry := some (a, e), dirCluster := current, name := some name, status := mode }

end

/-! ## Components -/

/-- The non-empty components of a path. -/
def components (p : List UInt8) : List (List UInt8) := (p.splitOn slash).filter (· ≠ [])

/-- The path ends in a slash. -/
def trailing (p : List UInt8) : Bool := p.getLast? == some slash

@[simp] theorem components_nil : components [] = [] := rfl

theorem components_slash (p : List UInt8) : components (slash :: p) = components p := by
  have h := List.splitOn_append_cons_self_of_not_mem (a := slash) (List.not_mem_nil) p
  rw [List.nil_append] at h
  rw [components, components, h, List.filter_cons_of_neg (by simp)]

theorem components_cons {x : List UInt8} (hx : slash ∉ x) (hne : x ≠ []) (p : List UInt8) :
    components (x ++ slash :: p) = x :: components p := by
  rw [components, components, List.splitOn_append_cons_self_of_not_mem hx,
    List.filter_cons_of_pos (by simpa using hne)]

theorem components_single {x : List UInt8} (hx : slash ∉ x) (hne : x ≠ []) :
    components x = [x] := by
  rw [components, List.splitOn_eq_singleton hx, List.filter_cons_of_pos (by simpa using hne)]
  rfl

/-- The component at the front of a path. -/
theorem takeWhile_component {x : List UInt8} (hx : slash ∉ x) (p : List UInt8) :
    (x ++ p).takeWhile (· ≠ slash) = x ++ p.takeWhile (· ≠ slash) ∧
      (x ++ p).dropWhile (· ≠ slash) = p.dropWhile (· ≠ slash) := by
  have hall : ∀ c ∈ x, decide (c ≠ slash) = true := by
    intro c hc
    rw [decide_eq_true_eq]
    rintro rfl
    exact hx hc
  exact ⟨List.takeWhile_append_of_pos hall, List.dropWhile_append_of_pos hall⟩

/-- A path is empty, or it starts with a slash, or with a component that ends the path or has a
slash behind it. -/
theorem path_cases (p : List UInt8) : p = [] ∨ (∃ q, p = slash :: q) ∨
    ∃ x, slash ∉ x ∧ x ≠ [] ∧ (p = x ∨ ∃ q, p = x ++ slash :: q) := by
  cases p with
  | nil => exact Or.inl rfl
  | cons c q =>
      right
      by_cases hc : c = slash
      · exact Or.inl ⟨q, by rw [hc]⟩
      · right
        refine ⟨(c :: q).takeWhile (· ≠ slash), ?_, ?_, ?_⟩
        · intro h
          have := List.mem_takeWhile_imp h
          simp at this
        · rw [List.takeWhile_cons, if_pos (by simpa using hc)]
          simp
        · have hsplit := List.takeWhile_append_dropWhile (p := (· ≠ slash)) (l := c :: q)
          cases hd : (c :: q).dropWhile (· ≠ slash) with
          | nil =>
              left
              rw [hd, List.append_nil] at hsplit
              exact hsplit.symm
          | cons b r =>
              right
              have hb := List.head_dropWhile_not (p := (· ≠ slash)) (l := c :: q)
                (by rw [hd]; simp)
              simp only [hd, List.head_cons] at hb
              obtain rfl : b = slash := by simpa using hb
              rw [hd] at hsplit
              exact ⟨r, hsplit.symm⟩

/-- A path that does not start with a slash starts with a component. -/
theorem components_ne_nil {c : UInt8} (hc : c ≠ slash) (q : List UInt8) :
    components (c :: q) ≠ [] := by
  rcases path_cases (c :: q) with h | ⟨r, h⟩ | ⟨x, hx, hne, h | ⟨r, h⟩⟩
  · cases h
  · exact absurd (List.cons.inj h).1 hc
  · rw [h, components_single hx hne]
    simp
  · rw [h, components_cons hx hne]
    simp

/-- A path without a component has nothing but slashes, so it ends in one if it is not empty. -/
theorem trailing_of_components_nil {p : List UInt8} (h : components p = []) (hne : p ≠ []) :
    trailing p = true := by
  induction p with
  | nil => exact absurd rfl hne
  | cons c q ih =>
      obtain rfl : c = slash := by
        by_contra hc
        exact components_ne_nil hc q h
      rw [components_slash] at h
      cases q with
      | nil => rfl
      | cons b r =>
          have := ih h (by simp)
          rw [trailing] at this ⊢
          rw [List.getLast?_cons_cons]
          exact this

theorem trailing_append {x p : List UInt8} (hp : p ≠ []) : trailing (x ++ p) = trailing p := by
  rw [trailing, trailing, List.getLast?_append_of_ne_nil _ hp]

theorem trailing_of_not_mem {x : List UInt8} (hx : slash ∉ x) : trailing x = false := by
  by_contra h
  have hlast : x.getLast? = some slash := by simpa [trailing] using h
  exact hx (List.mem_of_getLast? hlast)

/-- The slashes at the front of a path do not count. -/
theorem dropWhile_slash (p : List UInt8) :
    components (p.dropWhile (· = slash)) = components p ∧
      (p.dropWhile (· = slash) ≠ [] → trailing (p.dropWhile (· = slash)) = trailing p) := by
  induction p with
  | nil => exact ⟨rfl, fun h => absurd rfl h⟩
  | cons c q ih =>
      by_cases hc : c = slash
      · subst hc
        rw [List.dropWhile_cons, if_pos (by simp), components_slash]
        refine ⟨ih.1, fun h => ?_⟩
        have hq : q ≠ [] := by
          rintro rfl
          exact h rfl
        rw [ih.2 h, ← List.singleton_append, trailing_append hq]
      · rw [List.dropWhile_cons, if_neg (by simpa using hc)]
        exact ⟨rfl, fun _ => rfl⟩

/-- Only slashes are left out of a path without a component. -/
theorem dropWhile_slash_eq_nil {p : List UInt8} :
    p.dropWhile (· = slash) = [] ↔ components p = [] := by
  constructor
  · intro h
    rw [← (dropWhile_slash p).1, h]
    rfl
  · intro h
    rw [← (dropWhile_slash p).1] at h
    cases hd : p.dropWhile (· = slash) with
    | nil => rfl
    | cons c q =>
        have hc := List.head_dropWhile_not (p := (· = slash)) (l := p) (by rw [hd]; simp)
        simp only [hd, List.head_cons] at hc
        rw [hd] at h
        exact absurd h (components_ne_nil (by simpa using hc) q)

/-! ## The walk along the components -/

section

variable (M : Mount) (fuel : Nat)

/-- Look the components up one after the other, from the directory `current` on: the directory of
the last one and its entry. -/
def lookupPath : List (List UInt8) → Nat → Prog FsState (Option (Nat × Slot))
  | [], _ => return none
  | c :: cs, current => do
      match ← fat32FindEntryAny M fuel current c with
      | (0, some e) =>
          if cs = [] then return some (current, e)
          if !e.isDirectory then return none
          lookupPath cs e.cluster
      | _ => return none

end

/-- What `OpenFile` keeps of a component. -/
def cut (c : List UInt8) : List UInt8 := c.take (fat32MaxName - 1)

/-- What becomes of the last entry and its directory: a slash behind it makes `OpenFile` descend
once more. -/
def settle (trailing : Bool) : Option (Nat × Slot) → Option (Nat × Option Slot)
  | none => none
  | some (current, e) =>
      if trailing then if e.isDirectory then some (e.cluster, some e) else none
      else some (current, some e)

/-- The result of the loop without the name. -/
def withoutName (r : Option (Nat × Option (Slot × List UInt8))) : Option (Nat × Option Slot) :=
  r.map fun x => (x.1, x.2.map Prod.fst)

/-- Two sequences with the same first part agree where their second parts do. -/
theorem Prog.map_bind_congr {σ α β γ δ : Type} {m : Prog σ α} {f : α → Prog σ β}
    {g : α → Prog σ γ} {u : β × σ → δ} {v : γ × σ → δ}
    (h : ∀ a t, (f a t).map u = (g a t).map v) (s : σ) :
    ((m >>= f) s).map u = ((m >>= g) s).map v := by
  cases hm : m s with
  | none => rw [Prog.bind_none hm, Prog.bind_none hm, Option.map_none, Option.map_none]
  | some r =>
      obtain ⟨a, t⟩ := r
      rw [Prog.bind_run hm, Prog.bind_run hm, h]

section Loop

variable {M : Mount} {fuel : Nat}

/-- A slash is passed over. -/
theorem openLoop_slash {n current : Nat} {q : List UInt8} {found : Option (Slot × List UInt8)} :
    openLoop M fuel (n + 1) (slash :: q) current found = openLoop M fuel n q current found := by
  rw [openLoop, if_neg (by simp)]
  rfl

/-- The slashes that are left are passed over. -/
theorem openLoop_slashes {n current : Nat} {p : List UInt8} {found : Option (Slot × List UInt8)}
    {s : FsState} (hn : p.length < n) (h : components p = []) :
    openLoop M fuel n p current found s = some (some (current, found), s) := by
  induction n generalizing p with
  | zero => omega
  | succ n ih =>
      cases p with
      | nil =>
          rw [openLoop, if_pos rfl]
          rfl
      | cons c q =>
          obtain rfl : c = slash := by
            by_contra hc
            exact components_ne_nil hc q h
          rw [components_slash] at h
          rw [openLoop_slash]
          exact ih (by simpa using hn) h

theorem cut_ne_nil {x : List UInt8} (hne : x ≠ []) : cut x ≠ [] := by
  rw [cut, Ne, List.take_eq_nil_iff]
  exact fun h => hne (h.resolve_left (by decide))

/-- The last component, without a slash behind it. -/
theorem openLoop_last {n current : Nat} {x : List UInt8} {found : Option (Slot × List UInt8)}
    (hx : slash ∉ x) (hne : x ≠ []) :
    openLoop M fuel (n + 2) x current found = (do
      match ← fat32FindEntryAny M fuel current (cut x) with
      | (0, some e) => return some (current, some (e, x))
      | _ => return none) := by
  obtain ⟨htake, hdrop⟩ := takeWhile_component hx []
  rw [List.append_nil] at htake hdrop
  rw [openLoop, if_neg hne]
  simp only [htake, hdrop, List.takeWhile_nil, List.append_nil]
  have hcut : x.take (fat32MaxName - 1) ≠ [] := cut_ne_nil hne
  rw [if_neg hcut]
  rfl

/-- A component with a slash behind it. -/
theorem openLoop_component {n current : Nat} {x q : List UInt8}
    {found : Option (Slot × List UInt8)} (hx : slash ∉ x) (hne : x ≠ []) :
    openLoop M fuel (n + 1) (x ++ slash :: q) current found = (do
      match ← fat32FindEntryAny M fuel current (cut x) with
      | (0, some e) =>
          if !e.isDirectory then return none
          openLoop M fuel n q e.cluster (some (e, x ++ slash :: q))
      | _ => return none) := by
  obtain ⟨htake, hdrop⟩ := takeWhile_component hx (slash :: q)
  have hfirst : (slash :: q).takeWhile (· ≠ slash) = [] := by simp
  have hrest : (slash :: q).dropWhile (· ≠ slash) = slash :: q := by simp
  rw [openLoop, if_neg (by simp)]
  simp only [htake, hdrop, hfirst, hrest, List.append_nil]
  have hcut : x.take (fat32MaxName - 1) ≠ [] := cut_ne_nil hne
  rw [if_neg hcut]
  rfl

/-- The loop and the walk along the components find the same entry. -/
theorem openLoop_cut {n current : Nat} {p : List UInt8} {found : Option (Slot × List UInt8)}
    {s : FsState} (hn : p.length < n) (hne : components p ≠ []) :
    (openLoop M fuel n p current found s).map (Prod.map withoutName id) =
      (lookupPath M fuel ((components p).map cut) current s).map
        (Prod.map (settle (trailing p)) id) := by
  -- by the characters left: a slash, a last component, or a component and what follows it
  induction n generalizing p current found s with
  | zero => omega
  | succ n ih =>
      rcases path_cases p with rfl | ⟨q, rfl⟩ | ⟨x, hx, hxne, rfl | ⟨q, rfl⟩⟩
      · exact absurd rfl hne
      · rw [components_slash] at hne ⊢
        have hq : q ≠ [] := by
          rintro rfl
          exact hne rfl
        rw [openLoop_slash, ih (by simpa using hn) hne, ← List.singleton_append,
          trailing_append hq]
      · rw [components_single hx hxne]
        have hlen : 0 < p.length := List.length_pos_iff.mpr hxne
        obtain ⟨n, rfl⟩ : ∃ k, n = k + 1 := ⟨n - 1, by omega⟩
        rw [openLoop_last hx hxne, trailing_of_not_mem hx]
        apply Prog.map_bind_congr
        rintro ⟨_ | st, _ | e⟩ t <;> rfl
      · rw [components_cons hx hxne]
        have hlen : q.length < n := by
          rw [List.length_append, List.length_cons] at hn
          omega
        rw [openLoop_component hx hxne]
        apply Prog.map_bind_congr
        rintro ⟨_ | st, _ | e⟩ t
        · rfl
        · -- the entry has been found, and the loop descends if it is a directory
          by_cases hnil : components q = []
          · have htrail : trailing (x ++ slash :: q) = true := by
              rw [trailing_append (by simp)]
              exact trailing_of_components_nil (by rw [components_slash]; exact hnil) (by simp)
            have hend : openLoop M fuel n q e.cluster (some (e, x ++ slash :: q)) t =
                some (some (e.cluster, some (e, x ++ slash :: q)), t) := openLoop_slashes hlen hnil
            simp only []
            have hmap : (components q).map cut = [] := by
              rw [hnil]
              rfl
            rw [if_pos hmap, htrail]
            cases hdir : e.isDirectory with
            | false =>
                rw [if_pos (by simp)]
                simp [settle, withoutName, hdir]
            | true =>
                rw [if_neg (by simp), hend]
                simp [settle, withoutName, hdir]
          · have hq : q ≠ [] := by
              rintro rfl
              exact hnil rfl
            have htrail : trailing (x ++ slash :: q) = trailing q := by
              rw [List.append_cons, trailing_append hq]
            simp only []
            have hmap : (components q).map cut ≠ [] := by simpa using hnil
            rw [if_neg hmap, htrail]
            -- in front of further components anything but a directory is an error
            cases hdir : e.isDirectory with
            | false =>
                rw [if_pos (by simp), if_pos (by simp)]
                rfl
            | true =>
                rw [if_neg (by simp), if_neg (by simp)]
                exact ih hlen hnil
        · rfl
        · rfl

theorem openLoop_eq {n current : Nat} {p : List UInt8} {found : Option (Slot × List UInt8)}
    {s : FsState} (hn : p.length < n) (hshort : ∀ c ∈ components p, c.length < 260)
    (hne : components p ≠ []) :
    (openLoop M fuel n p current found s).map (Prod.map withoutName id) =
      (lookupPath M fuel (components p) current s).map (Prod.map (settle (trailing p)) id) := by
  have hcut : (components p).map cut = components p := by
    refine (List.map_congr_left fun c hc => ?_).trans (List.map_id _)
    exact List.take_of_length_le (Nat.le_sub_one_of_lt (hshort c hc))
  rw [openLoop_cut hn hne, hcut]

end Loop

/-! ## Redundant slashes -/

/-- What of a `file_t` does not depend on how the path was written: the entry, the directory it
stands in and the status. -/
def FileT.place (f : FileT) : Option (Nat × Slot) × Nat × Nat := (f.entry, f.dirCluster, f.status)

/-- The place `OpenFile` returns for what its loop has found. -/
def placeOf (page : Option Nat) (mode : Nat) :
    Option (Nat × Option Slot) → Option (Nat × Slot) × Nat × Nat
  | some (current, some e) =>
      match page with
      | none => FileT.closed.place
      | some a => (some (a, e), current, mode)
  | _ => FileT.closed.place

section OpenFile

variable {M : Mount} {fuel : Nat} {page : Option Nat} {mode : Nat} {p q : List UInt8} {s : FsState}

/-- A path without components is the root directory, or no path at all. -/
theorem openFile_root (h : components p = []) :
    (openFile M fuel page p mode s).map (fun r => r.1.place) =
      some (if p = [] then FileT.closed.place
        else (page.map fun a => (a, rootEntry M.info.rootCluster), M.info.rootCluster, mode)) := by
  by_cases hp : p = []
  · rw [openFile, if_pos hp, if_pos hp]
    rfl
  · rw [openFile, if_neg hp, if_neg hp, if_pos (dropWhile_slash_eq_nil.mpr h)]
    rfl

/-- With components, the place is the one of the last component. -/
theorem openFile_components (hne : components p ≠ [])
    (hshort : ∀ c ∈ components p, c.length < 260) :
    (openFile M fuel page p mode s).map (fun r => r.1.place) =
      (lookupPath M fuel (components p) M.info.rootCluster s).map
        (fun r => placeOf page mode (settle (trailing p) r.1)) := by
  have hp : p ≠ [] := by
    rintro rfl
    exact hne rfl
  have hfront : p.dropWhile (· = slash) ≠ [] := fun h => hne (dropWhile_slash_eq_nil.mp h)
  obtain ⟨hcomp, htrail⟩ := dropWhile_slash p
  have hloop : (openLoop M fuel _ (p.dropWhile (· = slash)) M.info.rootCluster none s).map _ = _ :=
    openLoop_eq (Nat.lt_succ_self _) (by rw [hcomp]; exact hshort) (by rw [hcomp]; exact hne)
  rw [hcomp, htrail hfront] at hloop
  -- what is left after the loop
  have hrest : (openFile M fuel page p mode s).map (fun r => r.1.place) =
      (openLoop M fuel ((p.dropWhile (· = slash)).length + 1) (p.dropWhile (· = slash))
        M.info.rootCluster none s).map (fun r => placeOf page mode (withoutName r.1)) := by
    rw [openFile, if_neg hp, if_neg hfront]
    cases hrun : openLoop M fuel ((p.dropWhile (· = slash)).length + 1)
        (p.dropWhile (· = slash)) M.info.rootCluster none s with
    | none => rw [Prog.bind_none hrun, Option.map_none, Option.map_none]
    | some r =>
        obtain ⟨r, t⟩ := r
        rw [Prog.bind_run hrun]
        rcases r with _ | ⟨current, _ | ⟨e, name⟩⟩
        · rfl
        · rfl
        · cases page <;> rfl
  calc (openFile M fuel page p mode s).map (fun r => r.1.place)
      = ((openLoop M fuel ((p.dropWhile (· = slash)).length + 1) (p.dropWhile (· = slash))
          M.info.rootCluster none s).map (Prod.map withoutName id)).map
            (fun r => placeOf page mode r.1) := by
        rw [hrest, Option.map_map]
        rfl
    _ = _ := by
        rw [hloop, Option.map_map]
        rfl

/-- Descending once more leads to another place, unless there is none to return. -/
theorem placeOf_settle (current : Nat) (e : Slot) :
    placeOf page mode (settle true (some (current, e))) =
        placeOf page mode (settle false (some (current, e))) ↔
      page = none ∨ e.isDirectory = true ∧ e.cluster = current := by
  cases page with
  | none => cases hdir : e.isDirectory <;> simp [settle, placeOf, hdir]
  | some a =>
      cases hdir : e.isDirectory <;>
        simp [settle, placeOf, hdir, FileT.closed, FileT.place]

/-- Two ways to write the slashes around the same components lead to the same place, provided that
both or none of them end in a slash; where just one does, they do only if there is nothing to
return or the last entry is a directory that lies in itself. Without components, both or none must
be empty. -/
theorem openFile_same_place_iff (hcomp : components p = components q)
    (hshort : ∀ c ∈ components p, c.length < 260) :
    (openFile M fuel page p mode s).map (fun r => r.1.place) =
        (openFile M fuel page q mode s).map (fun r => r.1.place) ↔
      if components p = [] then
        (p = [] ↔ q = []) ∨ page = none ∧ M.info.rootCluster = 0 ∧ mode = 0
      else trailing p = trailing q ∨ page = none ∨
        ∀ current e t, lookupPath M fuel (components p) M.info.rootCluster s =
          some (some (current, e), t) → e.isDirectory = true ∧ e.cluster = current := by
  by_cases hnil : components p = []
  · rw [if_pos hnil, openFile_root hnil, openFile_root (hcomp ▸ hnil), Option.some.injEq]
    -- without components the result is the root directory, or nothing for the empty path
    by_cases hp : p = []
    · by_cases hq : q = []
      · rw [if_pos hp, if_pos hq]
        exact ⟨fun _ => Or.inl ⟨fun _ => hq, fun _ => hp⟩, fun _ => rfl⟩
      · rw [if_pos hp, if_neg hq]
        simp only [FileT.place, FileT.closed, Prod.mk.injEq, hp, hq, true_iff, false_or]
        cases page <;> simp [eq_comm]
    · by_cases hq : q = []
      · rw [if_neg hp, if_pos hq]
        simp only [FileT.place, FileT.closed, Prod.mk.injEq, hp, hq, iff_true, false_or]
        cases page <;> simp
      · rw [if_neg hp, if_neg hq]
        exact ⟨fun _ => Or.inl ⟨fun h => absurd h hp, fun h => absurd h hq⟩, fun _ => rfl⟩
  · rw [if_neg hnil, openFile_components hnil hshort,
      openFile_components (hcomp ▸ hnil) (hcomp ▸ hshort), ← hcomp]
    by_cases htrail : trailing p = trailing q
    · rw [htrail]
      exact ⟨fun _ => Or.inl rfl, fun _ => rfl⟩
    · cases hrun : lookupPath M fuel (components p) M.info.rootCluster s with
      | none => simp
      | some r =>
          obtain ⟨_ | ⟨current, e⟩, t⟩ := r
          · refine ⟨fun _ => Or.inr (Or.inr ?_), fun _ => rfl⟩
            intro current e t h
            cases h
          · -- the walks are the same; a slash at the end descends into the entry
            have hdescent : placeOf page mode _ = placeOf page mode _ ↔ _ := placeOf_settle current e
            have hlookup : (∀ current' e' t', some (some (current, e), t) =
                some (some (current', e'), t') → e'.isDirectory = true ∧ e'.cluster = current') ↔
                  (e.isDirectory = true ∧ e.cluster = current) := by
              constructor
              · exact fun h => h current e t rfl
              · rintro h current' e' t' heq
                cases heq
                exact h
            rw [hlookup, or_iff_right htrail, Option.map_some, Option.map_some, Option.some.injEq,
              ← hdescent]
            cases hp : trailing p <;> cases hq : trailing q
            · exact absurd (hp.trans hq.symm) htrail
            · exact eq_comm
            · exact Iff.rfl
            · exact absurd (hp.trans hq.symm) htrail

end OpenFile

/-! ## A directory with a slash behind it -/

/-- The entry of a directory `SUB` with the first cluster 3. -/
def subSlot : Slot :=
  mkSfn (nameTo83 [0x53, 0x55, 0x42]) attrDirectory
    { second := 0, minute := 0, hour := 0, day := 1, month := 1, year := 24 } 3

/-- The small volume with the directory `SUB` in the root. -/
def subState : FsState :=
  smallState [0, 0, fat32EntryEof, fat32EntryEof] fun c => if c = 2 then subSlot.1 else []

/-- `/SUB` and `//SUB` are the same directory in the same place. -/
theorem openFile_same_place_sub :
    (openFile (smallMount { isPrimary := true, isMaster := true }) 4 (some 7)
        [0x2F, 0x53, 0x55, 0x42] 1 subState).map (fun r => r.1.place) =
      (openFile (smallMount { isPrimary := true, isMaster := true }) 4 (some 7)
        [0x2F, 0x2F, 0x53, 0x55, 0x42] 1 subState).map (fun r => r.1.place) :=
  (openFile_same_place_iff (by decide) (by decide)).mpr (by
    rw [if_neg (by decide)]
    exact Or.inl (by decide))

/-- `/SUB` stands in the root, cluster 2; with a slash behind it, it is said to stand in itself. -/
theorem openFile_trailing_slash :
    components [0x2F, 0x53, 0x55, 0x42] = components [0x2F, 0x53, 0x55, 0x42, 0x2F] ∧
    subSlot.isDirectory = true ∧
    (openFile (smallMount { isPrimary := true, isMaster := true }) 4 (some 7)
        [0x2F, 0x53, 0x55, 0x42] 1 subState).map (fun r => r.1.place) =
      some (some (7, subSlot), 2, 1) ∧
    (openFile (smallMount { isPrimary := true, isMaster := true }) 4 (some 7)
        [0x2F, 0x53, 0x55, 0x42, 0x2F] 1 subState).map (fun r => r.1.place) =
      some (some (7, subSlot), 3, 1) := by
  refine ⟨by decide, by decide, by decide +kernel, by decide +kernel⟩

end Os003
