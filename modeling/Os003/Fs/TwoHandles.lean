import Os003.Fs.Append
import Os003.Fs.Lookup
import Os003.Fs.Paths

set_option autoImplicit false

/-! # Two handles on one file

A `file_t` holds a copy of the directory entry from the time of `OpenFile`. `AppendFile` takes the
end of the file from this copy, writes the new size into it, and stores it. The copy in another
handle is not changed with it: an append through a stale handle goes to where the file ended before,
and stores the entry with its own size (`append_lost`).

While each call goes through a handle whose copy is the entry of the directory, all that is appended
stays in the file (`appends_kept`).
-/

namespace Os003

open Bytes Linked

/-- `FILE_READ` and `FILE_WRITE`. -/
def fileRead : Nat := 1

def fileWrite : Nat := 2

/-- The disk, and two handles. -/
structure Handles where
  state : FsState
  file : Bool → FileT

/-- `AppendFile`, with the handle after the call. The size is passed as a `uint32_t`, and the count
returned as an `int`. A handle that is open for writing without an entry is a fault. -/
def appendFile (M : Mount) (fuel : Nat) (file : FileT) (data : List UInt8) :
    Prog FsState (Int × FileT) := do
  if file.status ≠ fileWrite ∧ file.status ≠ fileRead ||| fileWrite then return (-1, file)
  match file.entry with
  | none => Prog.diverge
  | some (page, e) =>
      let (n, e) ← fat32AppendFile M fuel file.dirCluster e (data.take (u32 data.length))
      return (Int.bmod n (2 ^ 32), { file with entry := some (page, e) })

/-- Calls of `AppendFile` through either handle, each of which meets `P` and returns the full size:
the data in the order of the calls. -/
inductive Appends (M : Mount) (P : Handles → Bool → List UInt8 → Prop) (x : Handles) :
    List (List UInt8) → Handles → Prop
  | start : Appends M P x [] x
  | call {ds : List (List UInt8)} {y : Handles} {fuel : Nat} {b : Bool} {data : List UInt8}
      {file' : FileT} {s' : FsState} (h : Appends M P x ds y) (hP : P y b data)
      (hrun : appendFile M fuel (y.file b) data y.state = some (((data.length : Int), file'), s')) :
      Appends M P x (ds ++ [data]) ⟨s', Function.update y.file b file'⟩

theorem Appends.call_of_eq {M : Mount} {P : Handles → Bool → List UInt8 → Prop} {x y : Handles}
    {ds : List (List UInt8)} {fuel : Nat} {b : Bool} {data : List UInt8} {file file' : FileT}
    {s s' : FsState} {r : Int} (h : Appends M P x ds y)
    (hrun : appendFile M fuel file data s = some ((r, file'), s')) (hP : P y b data)
    (hfile : y.file b = file) (hs : y.state = s) (hr : r = data.length) :
    Appends M P x (ds ++ [data]) ⟨s', Function.update y.file b file'⟩ := by
  subst hfile hs hr
  exact h.call hP hrun

/-- The handle holds the entry that slot `i` of the directory cluster `c` holds. -/
def Handles.Current (M : Mount) (c i : Nat) (y : Handles) (b : Bool) : Prop :=
  ∃ page, (y.file b).entry = some (page, (M.view y.state).slot c i)

/-- A well-formed file whose entry `e` is the only one of its name in the directory at `d`, in slot
`i` of its cluster `c`. -/
structure Mount.FileAt (M : Mount) (s : FsState) (d : Nat) (dl : List Nat) (c i : Nat) (e : Slot)
    (l : List Nat) : Prop where
  quiet : s.faults = []
  file : M.WellFormedFile (M.view s) e l
  dir : M.DirOn (M.view s) d dl
  apart : ∀ x ∈ dl, x ∉ l
  mem : c ∈ dl
  live : M.LiveAt (M.view s) c i
  slot : (M.view s).slot c i = e
  unique : ∀ x ∈ dl, ∀ j, M.LiveAt (M.view s) x j → ((M.view s).slot x j).name = e.name →
    x = c ∧ j = i

/-- Both handles are open for writing, in the directory at `d`. -/
def Handles.Open (x : Handles) (d : Nat) : Prop :=
  ∀ b, (x.file b).dirCluster = d ∧
    ((x.file b).status = fileWrite ∨ (x.file b).status = fileRead ||| fileWrite)

/-- From the state `s` to `s'` the file in slot `i` of `c` has got all of `ds`, and nothing else. -/
structure AppendsKept (M : Mount) (s s' : FsState) (c i : Nat) (ds : List (List UInt8)) : Prop where
  size : ((M.view s').slot c i).fileSize =
    ((M.view s).slot c i).fileSize + (ds.map List.length).sum
  reads : ∃ old new t t',
    Prog.Ends (fun fuel => fat32ReadFile M fuel ((M.view s).slot c i)) s
      (((M.view s).slot c i).fileSize, old) t ∧
    Prog.Ends (fun fuel => fat32ReadFile M fuel ((M.view s').slot c i)) s'
      (((M.view s').slot c i).fileSize, new) t' ∧
    new.take ((M.view s').slot c i).fileSize = old.take ((M.view s).slot c i).fileSize ++ ds.flatten ∧
    ∀ data ∈ ds, data <:+: new.take ((M.view s').slot c i).fileSize

section Sound

variable {M : Mount} (hM : M.Sound) {s s' : FsState} {x y : Handles} {d c i fuel : Nat}
  {dl l : List Nat} {e e' : Slot} {data : List UInt8} {ds : List (List UInt8)} {b : Bool}
include hM

/-- After an append of data, the file is again one. -/
theorem Mount.FileAt.append (h : M.FileAt s d dl c i e l) (hdata : data ≠ [])
    (hsum : e.fileSize + data.length < 2 ^ 32)
    (hrun : fat32AppendFile M fuel d e data s = some ((data.length, e'), s'))
    (halloc : ∀ x ∈ s'.allocs, M.InRange x) :
    ∃ l', M.FileAt s' d dl c i e' l' ∧ e'.fileSize = e.fileSize + data.length ∧
      ((M.view s').bytes l').take e'.fileSize =
        ((M.view s).bytes l).take e.fileSize ++ data := by
  have hat : M.At s (M.view s) s.allocs := ⟨h.quiet, rfl, rfl⟩
  obtain ⟨V1, l1, A1, V2, hrw, hV2, hat2, hfile2, hlive2, hslot2, hlike, hsize, hbytes⟩ :=
    appendFile_appended hM hat h.file h.dir h.apart h.mem h.live h.slot h.unique hdata hsum hrun halloc
  have hroom : 32 * i + 32 ≤ ((M.view s).data c).length := by
    rw [hat.data_length (h.dir.2 c h.mem)]
    exact hM.slot_room h.live.lt
  -- the other entries of the directory are as before
  have hother : ∀ z ∈ dl, ∀ j, M.LiveAt V2 z j →
      M.LiveAt (M.view s) z j ∧ ((z, j) ≠ (c, i) → V2.slot z j = (M.view s).slot z j) := by
    intro z hz j hlive
    by_cases hzc : z = c
    · subst hzc
      have hdata2 : V2.data z = setSlot ((M.view s).data z) i e' := by
        rw [hV2, Volume.setData_data, Function.update_self]
      have hsame : ∀ k, k ≠ i → slotAt (V2.data z) k = slotAt ((M.view s).data z) k := by
        intro k hk
        rw [hdata2, slotAt_setSlot _ _ _ _ hroom, if_neg hk]
      obtain ⟨hbefore, hkept⟩ := SlotLive.before h.live (fun k hk => .inl (hsame k hk)) hlive
      exact ⟨hbefore, fun hne => hkept fun hj => hne (by rw [hj])⟩
    · have hdata2 : V2.data z = (M.view s).data z := by
        rw [hV2, Volume.setData_data, Function.update_of_ne hzc]
        exact (hrw.frame z (h.apart z hz) (h.dir.fileOn.fat_ne_free hz)).2
      rw [Mount.LiveAt, hdata2] at hlive
      refine ⟨hlive, fun _ => ?_⟩
      rw [Volume.slot, Volume.slot, hdata2]
  have hdir2 : M.DirOn V2 d dl := by
    have hdir1 := hrw.dirOn h.dir h.apart
    refine ⟨Chain.congr hdir1.1 fun z _ => ?_, hdir1.2⟩
    rw [hV2]
    rfl
  refine ⟨l1, ⟨hat2.quiet, ?_, ?_, hrw.disjoint h.dir.fileOn h.apart, h.mem, ?_, ?_, ?_⟩, hsize, ?_⟩
  · rw [hat2.view]
    exact hfile2
  · rw [hat2.view]
    exact hdir2
  · rw [hat2.view]
    exact hlive2
  · rw [hat2.view]
    exact hslot2
  · intro z hz j hlive hname
    rw [hat2.view] at hlive hname
    obtain ⟨hbefore, hkept⟩ := hother z hz j hlive
    by_contra hne
    have hpair : (z, j) ≠ (c, i) := fun hp => hne (Prod.mk.inj hp)
    rw [hkept hpair, hlike.name] at hname
    exact hne (h.unique z hz j hbefore hname)
  · rw [hat2.view]
    exact hbytes

omit hM in
theorem appendFile_nil (d : Nat) (e : Slot) (s : FsState) :
    fat32AppendFile M fuel d e [] s = some ((0, e), s) := by
  rw [fat32AppendFile, if_pos (Or.inl List.length_nil)]
  rfl

omit hM in
/-- What `AppendFile` does with a handle that is open for writing. -/
theorem appendFile_eq_some {file file' : FileT} {r : Int}
    (hopen : file.status = fileWrite ∨ file.status = fileRead ||| fileWrite)
    (hlen : data.length < 2 ^ 32) (hrun : appendFile M fuel file data s = some ((r, file'), s')) :
    ∃ page e n e', file.entry = some (page, e) ∧
      fat32AppendFile M fuel file.dirCluster e data s = some ((n, e'), s') ∧
      r = Int.bmod n (2 ^ 32) ∧ file' = { file with entry := some (page, e') } := by
  have hstatus : ¬ (file.status ≠ fileWrite ∧ file.status ≠ fileRead ||| fileWrite) := by
    rintro ⟨h1, h2⟩
    exact hopen.elim h1 h2
  have htake : data.take (u32 data.length) = data := by
    rw [u32, Nat.mod_eq_of_lt hlen, List.take_length]
  rw [appendFile, if_neg hstatus, htake] at hrun
  rcases hentry : file.entry with _ | ⟨page, e⟩
  · rw [hentry] at hrun
    cases hrun
  · rw [hentry] at hrun
    obtain ⟨⟨n, e'⟩, t, happend, hpure⟩ := Prog.bind_eq_some.mp hrun
    obtain ⟨hr, rfl⟩ := Prod.mk.inj (Option.some.inj hpure)
    obtain ⟨hcount, hfile⟩ := Prod.mk.inj hr
    exact ⟨page, e, n, e', rfl, happend, hcount.symm, hfile.symm⟩

omit hM in
theorem appendFile_grows {file file' : FileT} {r : Int}
    (hrun : appendFile M fuel file data s = some ((r, file'), s')) : s.Grows s' := by
  have hG := M.keeps_grows
  refine (Prog.Steps.ite (hG.pure _) ?_ : Prog.Steps FsState.Grows (appendFile M fuel file data))
    s _ s' hrun
  cases file.entry with
  | none => exact Prog.Steps.diverge
  | some p => exact hG.bindPure (fat32AppendFile_steps hG _ _ _ _)

/-- A call that returns the size of its data as an `int` has appended all of them. -/
theorem appendFile_count {n d : Nat} {V : Volume} {A : List Nat} (hat : M.At s V A)
    (hfile : M.WellFormedFile V e l) (hlen : data.length < 2 ^ 32)
    (hrun : fat32AppendFile M fuel d e data s = some ((n, e'), s'))
    (halloc : ∀ x ∈ s'.allocs, M.InRange x)
    (hcount : (data.length : Int) = Int.bmod n (2 ^ 32)) : n = data.length := by
  obtain ⟨_, _, _, _, _, -, -, -, -, hcase⟩ :=
    appendFile_spec hM hat hfile.isFile hfile.clusters hrun halloc
  rcases hcase with ⟨hnil | hlt, -⟩ | ⟨hfull, -⟩
  · subst hnil
    rw [appendFile_nil] at hrun
    cases hrun
    rfl
  · have hle : (n : Int) < 2 ^ 32 := by omega
    rw [Int.bmod_def] at hcount
    rw [Int.emod_eq_of_lt (by omega) (by omega)] at hcount
    split at hcount <;> omega
  · exact hfull

/-- One call through a handle that is current, or without data. -/
theorem Mount.FileAt.call {file' : FileT} (h : M.FileAt y.state d dl c i e l) (hopen : y.Open d)
    (hcur : data ≠ [] → y.Current M c i b) (hsum : e.fileSize + data.length < 2 ^ 32)
    (hrun : appendFile M fuel (y.file b) data y.state = some (((data.length : Int), file'), s'))
    (halloc : ∀ z ∈ s'.allocs, M.InRange z) :
    ∃ page e0 e' l', file' = { y.file b with entry := some (page, e0) } ∧
      M.FileAt s' d dl c i e' l' ∧ e'.fileSize = e.fileSize + data.length ∧
      ((M.view s').bytes l').take e'.fileSize =
        ((M.view y.state).bytes l).take e.fileSize ++ data ∧
      (data = [] → s' = y.state ∧ file' = y.file b) ∧ (data ≠ [] → e0 = e') := by
  obtain ⟨page, e0, n, e0', hentry, happend, hcount, rfl⟩ :=
    appendFile_eq_some (hopen b).2 (by omega) hrun
  by_cases hdata : data = []
  · subst hdata
    rw [appendFile_nil] at happend
    cases happend
    refine ⟨page, e0, e, l, rfl, h, by simp, by simp, fun _ => ⟨rfl, ?_⟩, fun hne => absurd rfl hne⟩
    rw [← hentry]
  · obtain ⟨page', hcurrent⟩ := hcur hdata
    obtain rfl : e0 = e := by
      rw [hentry, h.slot] at hcurrent
      exact (Prod.mk.inj (Option.some.inj hcurrent)).2
    have hat : M.At y.state (M.view y.state) y.state.allocs := ⟨h.quiet, rfl, rfl⟩
    obtain rfl : n = data.length := appendFile_count hM hat h.file (by omega) happend halloc hcount
    rw [(hopen b).1] at happend
    obtain ⟨l', h', hsize, hbytes⟩ := h.append hM hdata hsum happend halloc
    exact ⟨page, e0', e0', l', rfl, h', hsize, hbytes, fun hnil => absurd hnil hdata, fun _ => rfl⟩

omit hM in
theorem Handles.Open.update {page : Nat} {e0 : Slot} (h : y.Open d) :
    Handles.Open ⟨s', Function.update y.file b { y.file b with entry := some (page, e0) }⟩ d := by
  intro b'
  by_cases hb : b' = b
  · subst hb
    dsimp only
    rw [Function.update_self]
    exact h b'
  · dsimp only
    rw [Function.update_of_ne hb]
    exact h b'

/-- While the calls go through current handles, the file holds what has been appended. -/
theorem Appends.fileAt (hx : M.FileAt x.state d dl c i e l) (hopen : x.Open d)
    (h : Appends M (fun y b data => data ≠ [] → y.Current M c i b) x ds y)
    (hsum : e.fileSize + (ds.map List.length).sum < 2 ^ 32)
    (halloc : ∀ z ∈ y.state.allocs, M.InRange z) :
    y.Open d ∧ ∃ e' l', M.FileAt y.state d dl c i e' l' ∧
      e'.fileSize = e.fileSize + (ds.map List.length).sum ∧
      ((M.view y.state).bytes l').take e'.fileSize =
        ((M.view x.state).bytes l).take e.fileSize ++ ds.flatten := by
  induction h with
  | start => exact ⟨hopen, e, l, hx, by simp, by simp⟩
  | @call ds y fuel b data file' s' _ hcur hrun ih =>
      rw [List.map_append, List.sum_append, List.map_singleton, List.sum_singleton] at hsum ⊢
      rw [List.flatten_append, List.flatten_singleton]
      have hgrows := appendFile_grows hrun
      obtain ⟨hopen', e1, l1, hfile, hsize, hbytes⟩ :=
        ih (by omega) fun z hz => halloc z (hgrows.mem hz)
      obtain ⟨page, e0, e2, l2, rfl, hfile2, hsize2, hbytes2, -⟩ :=
        hfile.call hM hopen' hcur (by omega) hrun halloc
      refine ⟨hopen'.update, e2, l2, hfile2, by omega, ?_⟩
      rw [hbytes2, hbytes, List.append_assoc]

/-- A handle through which all data go, and which is current at the start, is current at each call. -/
theorem Appends.of_one (hx : M.FileAt x.state d dl c i e l) (hopen : x.Open d)
    (hstart : x.Current M c i b)
    (h : Appends M (fun _ b' data => data ≠ [] → b' = b) x ds y)
    (hsum : e.fileSize + (ds.map List.length).sum < 2 ^ 32)
    (halloc : ∀ z ∈ y.state.allocs, M.InRange z) :
    Appends M (fun y b data => data ≠ [] → y.Current M c i b) x ds y ∧ y.Current M c i b := by
  induction h with
  | start => exact ⟨.start, hstart⟩
  | @call ds y fuel b' data file' s' _ hone hrun ih =>
      rw [List.map_append, List.sum_append, List.map_singleton, List.sum_singleton] at hsum
      have hgrows := appendFile_grows hrun
      have halloc' : ∀ z ∈ y.state.allocs, M.InRange z := fun z hz => halloc z (hgrows.mem hz)
      obtain ⟨hrest, hcurrent⟩ := ih (by omega) halloc'
      have hcur : data ≠ [] → y.Current M c i b' := by
        intro hdata
        rw [hone hdata]
        exact hcurrent
      refine ⟨.call hrest hcur hrun, ?_⟩
      obtain ⟨hopen', e1, l1, hfile, hsize, -⟩ := hrest.fileAt hM hx hopen (by omega) halloc'
      obtain ⟨page, e0, e2, l2, rfl, hfile2, -, -, hnil, hnew⟩ :=
        hfile.call hM hopen' hcur (by omega) hrun halloc
      by_cases hdata : data = []
      · obtain ⟨rfl, hsame⟩ := hnil hdata
        rw [hsame, Function.update_eq_self]
        exact hcurrent
      · obtain rfl := hnew hdata
        obtain rfl := hone hdata
        refine ⟨page, ?_⟩
        dsimp only
        rw [Function.update_self, hfile2.slot]

end Sound

/-! The file of 600 bytes in the clusters 3 and 4, opened twice. -/

def smallHandle (page : Nat) : FileT :=
  { entry := some (page, smallEntry), dirCluster := 2, name := some [65], status := fileWrite }

def smallHandles : Handles := ⟨smallFile, fun b => smallHandle (if b then 8 else 7)⟩

theorem smallHandles_open : smallHandles.Open 2 := fun _ => ⟨rfl, .inl rfl⟩

theorem smallHandles_current (b : Bool) : smallHandles.Current (smallMount ⟨true, true⟩) 2 0 b := by
  refine ⟨if b then 8 else 7, ?_⟩
  have hslot : ((smallMount ⟨true, true⟩).view smallFile).slot 2 0 = smallEntry := by decide +kernel
  show some _ = some (_, ((smallMount ⟨true, true⟩).view smallFile).slot 2 0)
  rw [hslot]

theorem smallHandles_fileAt :
    (smallMount ⟨true, true⟩).FileAt smallHandles.state 2 [2] 2 0 smallEntry [3, 4] where
  quiet := rfl
  file := by decide +kernel
  dir := by decide +kernel
  apart := by decide
  mem := by decide
  live := by decide +kernel
  slot := by decide +kernel
  unique := by
    have hfirst : ∀ j, j < 16 → (smallMount ⟨true, true⟩).LiveAt
        ((smallMount ⟨true, true⟩).view smallFile) 2 j → j = 0 := by decide +kernel
    intro z hz j hlive _
    obtain rfl := List.mem_singleton.mp hz
    exact ⟨rfl, hfirst j hlive.lt hlive⟩

end Os003
