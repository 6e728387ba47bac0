import Os003.Lib.History
import Os003.Mm.Creation

set_option autoImplicit false

/-! # Runs of calls

The machine as the calls of `mm/vmm.c` and `mm/paging.c` see it, with the address spaces that have
been made. A call is given the pages that `Pmm_Malloc(1)` returns to it; which pages these may be is
said where a run is looked at.
-/

namespace Os003

namespace Paging

structure Spaces where
  state : State
  /-- What `Init_Virtual_Memory_Manager` and `Init_User_Virtual_Memory_Manager` have returned. -/
  vmms : List Vmm

inductive SpaceOp
  | init (isUser : Bool) (flag : Nat) (pages : List Nat)
  | switch (vmm : Nat)
  | malloc (size : Nat) (pages : List Nat)
  | free (virt size : Nat)
  | map (virt phys flags : Nat) (pages : List Nat)
  | unmap (virt : Nat)

/-- The result of a call, 0 where it has none, and the machine after it; `none` is a fault. -/
def SpaceOp.run : SpaceOp → Spaces → Option (Nat × Spaces)
  | init isUser flag pages, m =>
      (initVirtual isUser (BitVec.ofNat 64 flag) (m.state.give pages)).map fun (p, s) =>
        (p, if p = 0 then { m with state := s }
          else ⟨s, m.vmms ++ [⟨p, isUser, BitVec.ofNat 64 flag, pml4Of s.mem p⟩]⟩)
  | switch vmm, m => some (0, { m with state := switchVirtual vmm m.state })
  | malloc size pages, m =>
      (vmmMalloc size (m.state.give pages)).map fun (r, s) => (r, { m with state := s })
  | free virt size, m =>
      (vmmFree virt size (m.state.give [])).map fun s => (0, { m with state := s })
  | map virt phys flags pages, m =>
      some (0, { m with
        state := mapPage virt (BitVec.ofNat 64 phys) (BitVec.ofNat 64 flags) (m.state.give pages) })
  | unmap virt, m => some (0, { m with state := unmapPage virt (m.state.give []) })

/-- No call of `Pmm_Malloc(1)` finds no page. -/
def SpaceOp.Succeeds (op : SpaceOp) (m : Spaces) : Prop :=
  ∀ r m', op.run m = some (r, m') → m'.state.failed = false

end Paging

end Os003
