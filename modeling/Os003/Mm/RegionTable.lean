import Os003.Lib.Runs
import Os003.Mm.BootMap

set_option autoImplicit false

/-! # The region table

The table that `Init_Physical_Memory_Manager` builds is the table of runs of the descriptors that do not
start at 0, each under the type that the kernel gives it (`init_refines`). So it covers the map exactly, and
what is next to each other in it has different types (`regionTable_exact`).
-/

namespace Os003

open Runs

variable {stackAddr : Nat} {edc : UefiMemoryDescriptor} {d : MemoryDescriptor}
  {ds : List MemoryDescriptor} {a : Nat}

namespace UefiMemoryDescriptor

/-- The end of the memory that is described. -/
def stop (edc : UefiMemoryDescriptor) : Nat := edc.physicalStart + edc.numberOfPages * 2 ^ pageShift

/-- The addresses have 64 bits, up to the last one. -/
def Fits (edc : UefiMemoryDescriptor) : Prop := edc.physicalStart < 2 ^ 64 ∧ edc.stop ≤ 2 ^ 64

instance (edc : UefiMemoryDescriptor) : Decidable edc.Fits := inferInstanceAs (Decidable (_ ∧ _))

def Covers (edc : UefiMemoryDescriptor) (a : Nat) : Prop := edc.physicalStart ≤ a ∧ a < edc.stop

/-- The type of the region for a descriptor. -/
def regionType (stackAddr : Nat) (edc : UefiMemoryDescriptor) : MemoryType :=
  if isMemoryAvailable stackAddr edc then .available else .unavailable

def run (stackAddr : Nat) (edc : UefiMemoryDescriptor) : Run MemoryType Nat where
  label := edc.regionType stackAddr
  start := edc.physicalStart
  stop := edc.stop
  le := Nat.le_add_right _ _

end UefiMemoryDescriptor

namespace MemoryDescriptor

/-- The end of the region. -/
def stop (d : MemoryDescriptor) : Nat := d.physicalStart + d.pageSize * 2 ^ pageShift

def Covers (d : MemoryDescriptor) (a : Nat) : Prop := d.physicalStart ≤ a ∧ a < d.stop

def run (d : MemoryDescriptor) : Run MemoryType Nat where
  label := d.type
  start := d.physicalStart
  stop := d.stop
  le := Nat.le_add_right _ _

end MemoryDescriptor

/-- The table as runs, the last one first. -/
def runsOf (ds : List MemoryDescriptor) : List (Run MemoryType Nat) := (ds.map MemoryDescriptor.run).reverse

theorem runsOf_concat : runsOf (ds ++ [d]) = d.run :: runsOf ds := by
  simp [runsOf]

theorem newDescriptor_run (edc : UefiMemoryDescriptor) :
    (newDescriptor (edc.regionType stackAddr) edc.physicalStart edc.numberOfPages).run =
      edc.run stackAddr := rfl

/-- A descriptor goes on where a region ends if it starts at the sum that the code computes. -/
theorem joins_iff (stackAddr : Nat) (hstop : d.stop ≤ 2 ^ 64) (hedc : edc.Fits) (h0 : edc.physicalStart ≠ 0) :
    d.run.Joins (edc.run stackAddr) ↔ ¬ (d.type ≠ edc.regionType stackAddr ∨ edc.physicalStart ≠ d.next) := by
  have hnext : d.next = d.stop % 2 ^ 64 := rfl
  have hlt := hedc.1
  have hsum : d.stop = edc.physicalStart ↔ edc.physicalStart = d.next := by
    rw [hnext]
    omega
  simp only [Run.Joins, MemoryDescriptor.run, UefiMemoryDescriptor.run, hsum]
  tauto

/-- What one turn of the loop does to the table. -/
theorem initStep_concat (h0 : edc.physicalStart ≠ 0) (es : List MemoryDescriptor) :
    initStep stackAddr (es ++ [d]) edc =
      if d.type ≠ edc.regionType stackAddr ∨ edc.physicalStart ≠ d.next then
        es ++ [d] ++ [newDescriptor (edc.regionType stackAddr) edc.physicalStart edc.numberOfPages]
      else es ++ [newDescriptor (edc.regionType stackAddr) d.physicalStart
        ((d.pageSize + edc.numberOfPages) % 2 ^ 64)] := by
  unfold initStep UefiMemoryDescriptor.regionType
  rw [if_neg h0]
  simp only [List.getLast?_concat, List.dropLast_concat]

/-- The sum of the pages does not overflow, as the merged region ends where the descriptor does. -/
theorem merge_run (hedc : edc.Fits) (h : d.run.Joins (edc.run stackAddr)) :
    (newDescriptor (edc.regionType stackAddr) d.physicalStart
      ((d.pageSize + edc.numberOfPages) % 2 ^ 64)).run = d.run.join (edc.run stackAddr) h := by
  have hstop : edc.physicalStart + edc.numberOfPages * 2 ^ 12 ≤ 2 ^ 64 := hedc.2
  have hjoin : d.physicalStart + d.pageSize * 2 ^ 12 = edc.physicalStart := h.2
  have hpages : (d.pageSize + edc.numberOfPages) % 2 ^ 64 = d.pageSize + edc.numberOfPages :=
    Nat.mod_eq_of_lt (by omega)
  rw [hpages]
  refine Run.ext rfl rfl ?_
  calc d.physicalStart + (d.pageSize + edc.numberOfPages) * 2 ^ 12
      = d.physicalStart + d.pageSize * 2 ^ 12 + edc.numberOfPages * 2 ^ 12 := by ring
    _ = edc.stop := by rw [hjoin]; rfl

/-- One turn of the loop puts one run on the table. -/
theorem runsOf_initStep (hds : ∀ d ∈ ds, d.stop ≤ 2 ^ 64) (hedc : edc.Fits)
    (h0 : edc.physicalStart ≠ 0) :
    runsOf (initStep stackAddr ds edc) = push (edc.run stackAddr) (runsOf ds) := by
  rcases List.eq_nil_or_concat' ds with rfl | ⟨es, d, rfl⟩
  · unfold initStep
    rw [if_neg h0]
    rfl
  · have hjoins := joins_iff stackAddr (hds d (by simp)) hedc h0
    rw [initStep_concat h0, runsOf_concat, push]
    by_cases h : d.run.Joins (edc.run stackAddr)
    · rw [if_neg (hjoins.mp h), dif_pos h, runsOf_concat, merge_run hedc h]
    · rw [if_pos (not_not.mp fun hn => h (hjoins.mpr hn)), dif_neg h, runsOf_concat, runsOf_concat,
        newDescriptor_run]

/-- The table of a prefix of the map. -/
theorem init_refines (stackAddr : Nat) (es : List UefiMemoryDescriptor) (hes : ∀ e ∈ es, e.Fits) :
    runsOf (es.foldl (initStep stackAddr) []) =
      table ((es.filter fun e => e.physicalStart ≠ 0).map (UefiMemoryDescriptor.run stackAddr)) := by
  induction es using List.reverseRecOn with
  | nil => rfl
  | append_singleton es e ih =>
      have ih := ih fun x hx => hes x (List.mem_append_left _ hx)
      rw [List.foldl_append, List.foldl_cons, List.foldl_nil, List.filter_append, List.map_append]
      by_cases h0 : e.physicalStart = 0
      · simp [initStep, h0, ih]
      · have hstop : ∀ d ∈ es.foldl (initStep stackAddr) [], d.stop ≤ 2 ^ 64 := by
          intro d hd
          have hrun : d.run ∈ runsOf (es.foldl (initStep stackAddr) []) := by
            simp only [runsOf, List.mem_reverse, List.mem_map]
            exact ⟨d, hd, rfl⟩
          rw [ih] at hrun
          obtain ⟨r, hr, hend⟩ := stop_table hrun
          obtain ⟨x, hx, rfl⟩ := List.mem_map.mp hr
          have hfits := hes x (List.mem_append_left _ (List.mem_of_mem_filter hx))
          exact hend.trans_le hfits.2
        rw [runsOf_initStep hstop (hes e (by simp)) h0, ih, ← table_concat]
        simp [h0]

/-- What the table covers under a type. -/
theorem coversAs_runsOf {t : MemoryType} :
    CoversAs t (runsOf ds) a ↔ ∃ d ∈ ds, d.type = t ∧ d.Covers a := by
  simp [CoversAs, runsOf, MemoryDescriptor.run, Run.Covers, MemoryDescriptor.Covers]

theorem coversAs_map {t : MemoryType} (es : List UefiMemoryDescriptor) :
    CoversAs t ((es.filter fun e => e.physicalStart ≠ 0).map (UefiMemoryDescriptor.run stackAddr)) a ↔
      ∃ e ∈ es, e.physicalStart ≠ 0 ∧ e.regionType stackAddr = t ∧ e.Covers a := by
  simp [CoversAs, UefiMemoryDescriptor.run, Run.Covers, UefiMemoryDescriptor.Covers, and_assoc]

theorem regionType_available :
    edc.regionType stackAddr = .available ↔ isMemoryAvailable stackAddr edc = true := by
  unfold UefiMemoryDescriptor.regionType
  split <;> simp_all

theorem regionType_unavailable :
    edc.regionType stackAddr = .unavailable ↔ isMemoryAvailable stackAddr edc = false := by
  unfold UefiMemoryDescriptor.regionType
  split <;> simp_all

/-- The table covers the firmware's map: the available regions are the descriptors that are available and
do not start at 0, the unavailable ones are the others. It is in the order of the map, and neighbours that
touch have different types. -/
theorem regionTable_exact (map : UefiMemoryMap) (hmap : ∀ edc ∈ map.buffer, edc.Fits) :
    (∀ a, (∃ d ∈ initPhysicalMemoryManager map, d.type = .available ∧ d.Covers a) ↔
      ∃ edc ∈ map.buffer, edc.physicalStart ≠ 0 ∧ isMemoryAvailable map.stackAddr edc = true ∧
        edc.Covers a) ∧
    (∀ a, (∃ d ∈ initPhysicalMemoryManager map, d.type = .unavailable ∧ d.Covers a) ↔
      ∃ edc ∈ map.buffer, edc.physicalStart ≠ 0 ∧ isMemoryAvailable map.stackAddr edc = false ∧
        edc.Covers a) ∧
    (map.buffer.Pairwise (fun x y => x.stop ≤ y.physicalStart) →
      (initPhysicalMemoryManager map).Pairwise fun x y => x.stop ≤ y.physicalStart) ∧
    (initPhysicalMemoryManager map).IsChain (fun x y => x.stop = y.physicalStart → x.type ≠ y.type) ∧
    (initPhysicalMemoryManager map).length ≤ map.buffer.length := by
  have hruns := init_refines map.stackAddr map.buffer hmap
  change runsOf (initPhysicalMemoryManager map) = _ at hruns
  have hcovers : ∀ t a, (∃ d ∈ initPhysicalMemoryManager map, d.type = t ∧ d.Covers a) ↔
      ∃ edc ∈ map.buffer, edc.physicalStart ≠ 0 ∧ edc.regionType map.stackAddr = t ∧ edc.Covers a := by
    intro t a
    rw [← coversAs_runsOf, hruns, coversAs_table, coversAs_map]
  refine ⟨fun a => ?_, fun a => ?_, fun hmap => ?_, ?_, ?_⟩
  · simpa only [regionType_available] using hcovers .available a
  · simpa only [regionType_unavailable] using hcovers .unavailable a
  · have hpairs : ((map.buffer.filter fun e => e.physicalStart ≠ 0).map
        (UefiMemoryDescriptor.run map.stackAddr)).Pairwise fun x r => x.stop ≤ r.start :=
      List.pairwise_map.mpr (hmap.filter _)
    have hascending := ascending_table hpairs
    rw [← hruns, Ascending, runsOf, List.pairwise_reverse] at hascending
    exact List.pairwise_map.mp hascending
  · have hmerged := merged_table ((map.buffer.filter fun e => e.physicalStart ≠ 0).map
      (UefiMemoryDescriptor.run map.stackAddr))
    rw [← hruns, Merged, runsOf, List.isChain_reverse, List.isChain_map] at hmerged
    exact hmerged.imp fun x y hxy hstop htype => hxy ⟨htype, hstop⟩
  · have hlength := length_table_le ((map.buffer.filter fun e => e.physicalStart ≠ 0).map
      (UefiMemoryDescriptor.run map.stackAddr))
    rw [← hruns, runsOf, List.length_reverse, List.length_map, List.length_map] at hlength
    exact hlength.trans (List.length_filter_le _ _)

/-- Low memory, free memory with data of the boot services behind it, and the firmware's stack. -/
def firmwareMap : UefiMemoryMap where
  buffer := [⟨conventionalMemory, 0, 0, 16⟩, ⟨conventionalMemory, 0x100000, 0, 16⟩,
    ⟨bootServicesData, 0x110000, 0, 16⟩, ⟨bootServicesData, 0x120000, 0, 32⟩]
  stackAddr := 0x120000

theorem regionTable_exact_merged : ∃ d ∈ initPhysicalMemoryManager firmwareMap,
    d.type = .available ∧ d.Covers 0x113000 :=
  ((regionTable_exact firmwareMap (by decide)).1 0x113000).mpr
    ⟨⟨bootServicesData, 0x110000, 0, 16⟩, by decide, by decide, by decide, by decide, by decide⟩

end Os003
