import Os003.Lib.Words
import Os003.Kernel.Kstring

set_option autoImplicit false

/-! # Finding the FADT

`find_FADT` (`acpi/tables.c`) walks the pointers of the XSDT and then those of the RSDT. The
pointers of both tables start at offset 36, behind a header whose last word is `CreatorRevision`.
The struct of the XSDT lacks two words of the header and has padding for one of them, so
`Entry[i] >> 32` is the low half of the pointer `i`; the struct of the RSDT has pointers of 8 bytes
at offset 32, so `Entry[0]` is `CreatorRevision` and `Entry[i]` the pointer `2 i - 1`. Both loops go
one entry too far.

What the loops read beside the pointers decides whether they find the table: `findFadt_iff`.
-/

namespace Os003

open Bytes

/-! ## The walk -/

/-- `memcmp(table, signature, 4) == 0`. -/
def HasSignature (d : Nat → UInt8) (a : Nat) (sig : List UInt8) : Prop :=
  memcmp 4 (fun i => d (a + i)) (fun i => sig.getD i 0) = 0

instance (d : Nat → UInt8) (a : Nat) (sig : List UInt8) : Decidable (HasSignature d a sig) := by
  unfold HasSignature
  infer_instance

def xsdtSignature : List UInt8 := [0x58, 0x53, 0x44, 0x54]

def rsdtSignature : List UInt8 := [0x52, 0x53, 0x44, 0x54]

/-- `FACP`. -/
def fadtSignature : List UInt8 := [0x46, 0x41, 0x43, 0x50]

/-- A loop of `find_FADT` over the pointers `word i`, `n` of them from the pointer `i` on. The
result is the table it returns and the pointers it has dereferenced. -/
def scanTables (d : Nat → UInt8) (word : Nat → Nat) : (n i : Nat) → Option Nat × List Nat
  | 0, _ => (none, [])
  | n + 1, i =>
      if word i = 0 then scanTables d word n (i + 1)
      else if HasSignature d (word i) fadtSignature then (some (word i), [word i])
      else ((scanTables d word n (i + 1)).1, word i :: (scanTables d word n (i + 1)).2)

/-- `XSDT->Entry[i] >> 32`; the field is at offset 32. -/
def xsdtEntry (d : Nat → UInt8) (xsdt i : Nat) : Nat := loadLe d (xsdt + 32 + 8 * i) 8 / 2 ^ 32

/-- `(uint32_t)RSDT->Entry[i]`; the field is at offset 32 and has 8 bytes. -/
def rsdtEntry (d : Nat → UInt8) (rsdt i : Nat) : Nat := loadLe d (rsdt + 32 + 8 * i) 8 % 2 ^ 32

/-- `Length`. -/
def tableLength (d : Nat → UInt8) (a : Nat) : Nat := loadLe d (a + 4) 4

/-- The first loop, when the table has its signature. -/
def scanXsdt (d : Nat → UInt8) (xsdt : Nat) : Option Nat × List Nat :=
  if HasSignature d xsdt xsdtSignature then
    scanTables d (xsdtEntry d xsdt) ((tableLength d xsdt + 2 ^ 32 - 28) % 2 ^ 32 / 8) 0
  else (none, [])

/-- The second loop. -/
def scanRsdt (d : Nat → UInt8) (rsdt : Nat) : Option Nat × List Nat :=
  if HasSignature d rsdt rsdtSignature then
    scanTables d (rsdtEntry d rsdt) ((tableLength d rsdt + 2 ^ 32 - 32) % 2 ^ 32 / 4) 0
  else (none, [])

/-- What `find_FADT` returns, 0 for none, and the pointers each of its loops has dereferenced. -/
structure FadtSearch where
  result : Nat
  xsdtDerefs : List Nat
  rsdtDerefs : List Nat

/-- `RsdtAddress` of the RSDP. -/
def rsdtAddress (d : Nat → UInt8) (rsdp : Nat) : Nat := loadLe d (rsdp + 16) 4

/-- `find_FADT`, with `xsdt` the address in `SYSTEM_XSDT_ADDR` and `rsdp` the one in
`SYSTEM_RSDP_ADDR`. -/
def findFadt (d : Nat → UInt8) (xsdt rsdp : Nat) : FadtSearch :=
  match scanXsdt d xsdt with
  | (some p, derefs) => ⟨p, derefs, []⟩
  | (none, derefs) =>
      let second := scanRsdt d (rsdtAddress d rsdp)
      ⟨second.1.getD 0, derefs, second.2⟩

/-! ## The tables -/

/-- A table at `a` with the pointers `es` of `size` bytes each behind its header, all below 4 GiB. -/
structure PointerTable (d : Nat → UInt8) (a size : Nat) (sig : List UInt8) (es : List Nat) : Prop where
  signature : HasSignature d a sig
  length : tableLength d a = 36 + size * es.length
  entry : ∀ i < es.length, loadLe d (a + 36 + size * i) size = es.getD i 0
  below : ∀ e ∈ es, e < 2 ^ 32

/-- The table is there with the pointers `es`, or there is none. -/
def TableAt (d : Nat → UInt8) (a size : Nat) (sig : List UInt8) : Option (List Nat) → Prop
  | none => ¬ HasSignature d a sig
  | some es => PointerTable d a size sig es

/-- The first of the pointers that points to an FADT. -/
def firstFadt (d : Nat → UInt8) (es : List Nat) : Option Nat :=
  es.find? fun e => e ≠ 0 ∧ HasSignature d e fadtSignature

/-- The search has dereferenced only pointers of the tables, and it returns the first FADT of the
XSDT, else that of the RSDT, else 0. -/
structure FindsFadt (d : Nat → UInt8) (xs rs : Option (List Nat)) (s : FadtSearch) : Prop where
  xsdt : ∀ p ∈ s.xsdtDerefs, p ∈ xs.getD []
  rsdt : ∀ p ∈ s.rsdtDerefs, p ∈ rs.getD []
  result : s.result = ((firstFadt d (xs.getD [])).or (firstFadt d (rs.getD []))).getD 0

section Scan

variable {d : Nat → UInt8} {word : Nat → Nat} {es : List Nat} {n i a p : Nat}

/-- A pointer that the loop passes: no table behind it, or one of the list that is no FADT. -/
def PassedOver (d : Nat → UInt8) (es : List Nat) (p : Nat) : Prop :=
  p = 0 ∨ (p ∈ es ∧ ¬ HasSignature d p fadtSignature)

/-- A loop ends without a table and has kept to the list exactly if it passes all its pointers. -/
theorem scanTables_none : ((scanTables d word n i).1 = none ∧ ∀ p ∈ (scanTables d word n i).2, p ∈ es) ↔
    ∀ j, i ≤ j → j < i + n → PassedOver d es (word j) := by
  induction n generalizing i with
  | zero =>
      simp only [scanTables, Nat.add_zero]
      exact ⟨fun _ j h1 h2 => by omega, fun _ => ⟨trivial, by simp⟩⟩
  | succ n ih =>
      have hsplit : (∀ j, i ≤ j → j < i + (n + 1) → PassedOver d es (word j)) ↔
          PassedOver d es (word i) ∧ ∀ j, i + 1 ≤ j → j < i + 1 + n → PassedOver d es (word j) := by
        constructor
        · intro h
          exact ⟨h i le_rfl (by omega), fun j h1 h2 => h j (by omega) (by omega)⟩
        · rintro ⟨hi, h⟩ j h1 h2
          rcases Nat.eq_or_lt_of_le h1 with rfl | hlt
          · exact hi
          · exact h j hlt (by omega)
      rw [hsplit, ← ih, scanTables]
      by_cases h0 : word i = 0
      · rw [if_pos h0]
        simp [PassedOver, h0]
      · rw [if_neg h0]
        by_cases hsig : HasSignature d (word i) fadtSignature
        · rw [if_pos hsig]
          simp [PassedOver, h0, hsig]
        · rw [if_neg hsig]
          simp only [List.mem_cons, forall_eq_or_imp, PassedOver, h0, hsig, false_or, not_false_eq_true,
            and_true]
          tauto

/-- A loop returns a table and has kept to the list exactly if it passes all pointers before one to
that table. -/
theorem scanTables_some : ((scanTables d word n i).1 = some p ∧ ∀ q ∈ (scanTables d word n i).2, q ∈ es) ↔
    p ≠ 0 ∧ HasSignature d p fadtSignature ∧ p ∈ es ∧
      ∃ k, i ≤ k ∧ k < i + n ∧ word k = p ∧ ∀ j, i ≤ j → j < k → PassedOver d es (word j) := by
  induction n generalizing i with
  | zero =>
      simp only [scanTables, Nat.add_zero]
      constructor
      · rintro ⟨h, -⟩
        cases h
      · rintro ⟨-, -, -, k, h1, h2, -⟩
        omega
  | succ n ih =>
      have hstep (hne : word i ≠ p) : (∃ k, i ≤ k ∧ k < i + (n + 1) ∧ word k = p ∧
          ∀ j, i ≤ j → j < k → PassedOver d es (word j)) ↔ PassedOver d es (word i) ∧
          ∃ k, i + 1 ≤ k ∧ k < i + 1 + n ∧ word k = p ∧
            ∀ j, i + 1 ≤ j → j < k → PassedOver d es (word j) := by
        constructor
        · rintro ⟨k, h1, h2, hk, hbefore⟩
          have hik : i ≠ k := by
            rintro rfl
            exact hne hk
          exact ⟨hbefore i le_rfl (by omega), k, by omega, by omega, hk,
            fun j hj hjk => hbefore j (by omega) hjk⟩
        · rintro ⟨hi, k, h1, h2, hk, hbefore⟩
          refine ⟨k, by omega, by omega, hk, ?_⟩
          intro j hj hjk
          rcases Nat.eq_or_lt_of_le hj with rfl | hlt
          · exact hi
          · exact hbefore j hlt hjk
      rw [scanTables]
      by_cases h0 : word i = 0
      · rw [if_pos h0, ih]
        apply and_congr_right
        intro hp
        rw [hstep (by rw [h0]; exact hp.symm)]
        simp [PassedOver, h0]
      · rw [if_neg h0]
        by_cases hsig : HasSignature d (word i) fadtSignature
        · rw [if_pos hsig]
          constructor
          · rintro ⟨hp, hmem⟩
            cases hp
            exact ⟨h0, hsig, hmem _ (List.mem_singleton.mpr rfl), i, le_rfl, by omega, rfl,
              fun j h1 h2 => by omega⟩
          · rintro ⟨hp, hfadt, hmem, k, h1, h2, hk, hbefore⟩
            -- the first pointer leads to an FADT, so it is the one
            have hik : k = i := by
              by_contra hne
              rcases hbefore i le_rfl (by omega) with hz | ⟨-, hno⟩
              · exact h0 hz
              · exact hno hsig
            subst hik
            refine ⟨by rw [hk], ?_⟩
            intro q hq
            rw [List.mem_singleton] at hq
            rwa [hq, hk]
        · rw [if_neg hsig]
          have hne (hfadt : HasSignature d p fadtSignature) : word i ≠ p := by
            rintro rfl
            exact hsig hfadt
          simp only [List.mem_cons, forall_eq_or_imp]
          constructor
          · rintro ⟨hrun, hmem, hrest⟩
            obtain ⟨hp, hfadt, hpes, hk⟩ := ih.mp ⟨hrun, hrest⟩
            exact ⟨hp, hfadt, hpes, (hstep (hne hfadt)).mpr ⟨Or.inr ⟨hmem, hsig⟩, hk⟩⟩
          · rintro ⟨hp, hfadt, hpes, hk⟩
            obtain ⟨hpass, hk'⟩ := (hstep (hne hfadt)).mp hk
            obtain ⟨hrun, hrest⟩ := ih.mpr ⟨hp, hfadt, hpes, hk'⟩
            refine ⟨hrun, ?_, hrest⟩
            rcases hpass with hz | ⟨hmem, -⟩
            · exact absurd hz h0
            · exact hmem

theorem firstFadt_some (h : firstFadt d es = some p) :
    p ≠ 0 ∧ HasSignature d p fadtSignature ∧ p ∈ es := by
  have hlive := List.find?_some h
  simp only [decide_eq_true_eq] at hlive
  exact ⟨hlive.1, hlive.2, List.mem_of_find?_eq_some h⟩

/-- Without an FADT among them, the pointers of a list are all passed. -/
theorem passed_of_none (h : firstFadt d es = none) (hp : p = 0 ∨ p ∈ es) : PassedOver d es p := by
  rcases hp with h0 | hmem
  · exact Or.inl h0
  · by_cases h0 : p = 0
    · exact Or.inl h0
    · have hdead := List.find?_eq_none.mp h p hmem
      simp only [decide_eq_true_eq, not_and] at hdead
      exact Or.inr ⟨hmem, hdead h0⟩

theorem PassedOver.mem (h : PassedOver d es p) : p = 0 ∨ p ∈ es := by
  rcases h with h0 | ⟨hmem, -⟩
  · exact Or.inl h0
  · exact Or.inr hmem

/-! ## What the loops read -/

/-- The word behind the pointers of the XSDT, which its loop takes for one more. -/
def wordBehind (d : Nat → UInt8) (xsdt : Nat) (es : List Nat) : Nat :=
  loadLe d (xsdt + 36 + 8 * es.length) 4

/-- The words that the loop over the RSDT takes for pointers: `CreatorRevision`, each second
pointer, and what is behind the table. -/
def rsdtWord (d : Nat → UInt8) (rsdt i : Nat) : Nat := loadLe d (rsdt + 32 + 8 * i) 4

theorem loadLe_eight (d : Nat → UInt8) (a : Nat) :
    loadLe d a 8 = loadLe d a 4 + 2 ^ 32 * loadLe d (a + 4) 4 := loadLe_add d a 4 4

theorem xsdtEntry_eq (d : Nat → UInt8) (xsdt i : Nat) :
    xsdtEntry d xsdt i = loadLe d (xsdt + 36 + 8 * i) 4 := by
  have hlow : loadLe d (xsdt + 32 + 8 * i) 4 < 2 ^ 32 := loadLe_lt d _ 4
  rw [xsdtEntry, loadLe_eight, show xsdt + 32 + 8 * i + 4 = xsdt + 36 + 8 * i by omega]
  omega

theorem rsdtEntry_eq (d : Nat → UInt8) (rsdt i : Nat) : rsdtEntry d rsdt i = rsdtWord d rsdt i := by
  have hlow : loadLe d (rsdt + 32 + 8 * i) 4 < 2 ^ 32 := loadLe_lt d _ 4
  rw [rsdtEntry, rsdtWord, loadLe_eight]
  omega

/-- The loop over the XSDT reads its pointers. -/
theorem PointerTable.xsdtEntry (h : PointerTable d a 8 xsdtSignature es) (hi : i < es.length) :
    xsdtEntry d a i = es.getD i 0 := by
  have hentry := h.entry i hi
  have hlt : es.getD i 0 < 2 ^ 32 := by
    rw [List.getD_eq_getElem _ _ hi]
    exact h.below _ (List.getElem_mem hi)
  rw [loadLe_eight] at hentry
  rw [xsdtEntry_eq]
  omega

/-- It goes one entry too far. -/
theorem PointerTable.scanXsdt (h : PointerTable d a 8 xsdtSignature es) :
    scanXsdt d a = scanTables d (Os003.xsdtEntry d a) (es.length + 1) 0 := by
  have hlen := h.length
  have hlt : tableLength d a < 2 ^ 32 := loadLe_lt d _ 4
  rw [Os003.scanXsdt, if_pos h.signature]
  congr 1
  omega

theorem PointerTable.scanRsdt (h : PointerTable d a 4 rsdtSignature es) :
    scanRsdt d a = scanTables d (rsdtWord d a) (es.length + 1) 0 := by
  have hlen := h.length
  have hlt : tableLength d a < 2 ^ 32 := loadLe_lt d _ 4
  have hword : rsdtEntry d a = rsdtWord d a := funext (rsdtEntry_eq d a)
  rw [Os003.scanRsdt, if_pos h.signature, hword]
  congr 1
  omega

/-- The loop over the XSDT returns its first FADT and keeps to its pointers. -/
theorem PointerTable.xsdt_found (h : PointerTable d a 8 xsdtSignature es)
    (hp : firstFadt d es = some p) :
    (Os003.scanXsdt d a).1 = some p ∧ ∀ q ∈ (Os003.scanXsdt d a).2, q ∈ es := by
  obtain ⟨h0, hfadt, hmem⟩ := firstFadt_some hp
  obtain ⟨-, k, hk, hat, hbefore⟩ := List.find?_eq_some_iff_getElem.mp hp
  rw [h.scanXsdt]
  apply scanTables_some.mpr
  refine ⟨h0, hfadt, hmem, k, Nat.zero_le k, by omega, ?_, ?_⟩
  · rw [h.xsdtEntry hk, List.getD_eq_getElem _ _ hk, hat]
  · intro j _ hj
    have hjlt : j < es.length := by omega
    have hdead := hbefore j hj
    rw [h.xsdtEntry hjlt, List.getD_eq_getElem _ _ hjlt]
    by_cases hz : es[j] = 0
    · exact Or.inl hz
    · refine Or.inr ⟨List.getElem_mem hjlt, ?_⟩
      intro hsig
      simp [hz, hsig] at hdead

/-- Without an FADT in the XSDT its loop keeps to the pointers exactly if the word behind them is 0
or one of them. -/
theorem PointerTable.xsdt_none (h : PointerTable d a 8 xsdtSignature es)
    (hnone : firstFadt d es = none) :
    ((∀ q ∈ (Os003.scanXsdt d a).2, q ∈ es) ↔ wordBehind d a es = 0 ∨ wordBehind d a es ∈ es) ∧
      ((∀ q ∈ (Os003.scanXsdt d a).2, q ∈ es) → (Os003.scanXsdt d a).1 = none) := by
  have hbehind : Os003.xsdtEntry d a es.length = wordBehind d a es := xsdtEntry_eq d a _
  have hin (j : Nat) (hj : j < es.length) : PassedOver d es (Os003.xsdtEntry d a j) := by
    rw [h.xsdtEntry hj, List.getD_eq_getElem _ _ hj]
    exact passed_of_none hnone (Or.inr (List.getElem_mem hj))
  have hrun : (∀ q ∈ (Os003.scanXsdt d a).2, q ∈ es) → (Os003.scanXsdt d a).1 = none := by
    rw [h.scanXsdt]
    intro hmem
    cases hres : (scanTables d (Os003.xsdtEntry d a) (es.length + 1) 0).1 with
    | none => rfl
    | some p =>
        obtain ⟨h0, hfadt, hpes, -⟩ := scanTables_some.mp ⟨hres, hmem⟩
        rcases passed_of_none hnone (Or.inr hpes) with hz | ⟨-, hno⟩
        · exact absurd hz h0
        · exact absurd hfadt hno
  refine ⟨?_, hrun⟩
  constructor
  · intro hmem
    have hnil := hrun hmem
    rw [h.scanXsdt] at hmem hnil
    have hpass := scanTables_none.mp ⟨hnil, hmem⟩ es.length (Nat.zero_le _) (by omega)
    rw [hbehind] at hpass
    exact hpass.mem
  · intro hok
    rw [h.scanXsdt]
    refine (scanTables_none.mpr ?_).2
    intro j _ hj
    by_cases hjlt : j < es.length
    · exact hin j hjlt
    · rw [show j = es.length by omega, hbehind]
      exact passed_of_none hnone hok

/-- The words that the loop over the RSDT reads lead it to the first FADT, past pointers of the
table only. -/
def RsdtWords (d : Nat → UInt8) (rsdt : Nat) (es : List Nat) : Prop :=
  (firstFadt d es = none ∧ ∀ i ≤ es.length, rsdtWord d rsdt i = 0 ∨ rsdtWord d rsdt i ∈ es) ∨
    ∃ p, firstFadt d es = some p ∧ ∃ i ≤ es.length, rsdtWord d rsdt i = p ∧
      ∀ j < i, PassedOver d es (rsdtWord d rsdt j)

theorem PointerTable.rsdt_iff (h : PointerTable d a 4 rsdtSignature es) :
    ((∀ q ∈ (Os003.scanRsdt d a).2, q ∈ es) ∧
      (Os003.scanRsdt d a).1.getD 0 = (firstFadt d es).getD 0) ↔ RsdtWords d a es := by
  rw [h.scanRsdt]
  constructor
  · rintro ⟨hmem, hres⟩
    cases hrun : (scanTables d (rsdtWord d a) (es.length + 1) 0).1 with
    | none =>
        have hnone : firstFadt d es = none := by
          cases hfirst : firstFadt d es with
          | none => rfl
          | some p =>
              rw [hrun, hfirst] at hres
              exact absurd hres.symm (firstFadt_some hfirst).1
        refine Or.inl ⟨hnone, ?_⟩
        intro i hi
        exact (scanTables_none.mp ⟨hrun, hmem⟩ i (Nat.zero_le i) (by omega)).mem
    | some p =>
        obtain ⟨h0, -, -, k, -, hk, hat, hbefore⟩ := scanTables_some.mp ⟨hrun, hmem⟩
        refine Or.inr ⟨p, ?_, k, by omega, hat, fun j hj => hbefore j (Nat.zero_le j) hj⟩
        rw [hrun, Option.getD_some] at hres
        cases hfirst : firstFadt d es with
        | none =>
            rw [hfirst] at hres
            exact absurd hres h0
        | some q =>
            rw [hfirst, Option.getD_some] at hres
            rw [hres]
  · rintro (⟨hnone, hall⟩ | ⟨p, hfirst, i, hi, hat, hbefore⟩)
    · obtain ⟨hrun, hmem⟩ := scanTables_none (n := es.length + 1) (i := 0).mpr
        (fun j _ hj => passed_of_none hnone (hall j (by omega)))
      exact ⟨hmem, by rw [hrun, hnone]⟩
    · obtain ⟨h0, hfadt, hpes⟩ := firstFadt_some hfirst
      obtain ⟨hrun, hmem⟩ := scanTables_some.mpr ⟨h0, hfadt, hpes, i, Nat.zero_le i,
        (by omega : i < 0 + (es.length + 1)), hat, fun j _ hj => hbefore j hj⟩
      exact ⟨hmem, by rw [hrun, hfirst]⟩

end Scan

/-! ## When the search finds the table -/

section Search

variable {d : Nat → UInt8} {xsdt rsdp : Nat} {xs rs : Option (List Nat)}

/-- When the first loop ends without a table, the second one decides. -/
theorem findFadt_of_none (hnone : (scanXsdt d xsdt).1 = none) : findFadt d xsdt rsdp =
    ⟨(scanRsdt d (rsdtAddress d rsdp)).1.getD 0, (scanXsdt d xsdt).2,
      (scanRsdt d (rsdtAddress d rsdp)).2⟩ := by
  rw [findFadt]
  cases hrun : scanXsdt d xsdt with
  | mk res derefs =>
      rw [hrun] at hnone
      simp only at hnone
      subst hnone
      rfl

theorem findFadt_of_some {p : Nat} (hsome : (scanXsdt d xsdt).1 = some p) :
    findFadt d xsdt rsdp = ⟨p, (scanXsdt d xsdt).2, []⟩ := by
  rw [findFadt]
  cases hrun : scanXsdt d xsdt with
  | mk res derefs =>
      rw [hrun] at hsome
      simp only at hsome
      subst hsome
      rfl

theorem findFadt_xsdtDerefs (d : Nat → UInt8) (xsdt rsdp : Nat) :
    (findFadt d xsdt rsdp).xsdtDerefs = (scanXsdt d xsdt).2 := by
  cases hrun : (scanXsdt d xsdt).1 with
  | none => rw [findFadt_of_none hrun]
  | some p => rw [findFadt_of_some hrun]

/-- The second loop on its own. -/
theorem TableAt.rsdt_iff (hr : TableAt d (rsdtAddress d rsdp) 4 rsdtSignature rs) :
    ((∀ q ∈ (scanRsdt d (rsdtAddress d rsdp)).2, q ∈ rs.getD []) ∧
      (scanRsdt d (rsdtAddress d rsdp)).1.getD 0 = (firstFadt d (rs.getD [])).getD 0) ↔
      ∀ es, rs = some es → RsdtWords d (rsdtAddress d rsdp) es := by
  cases rs with
  | none =>
      rw [scanRsdt, if_neg hr]
      simp [firstFadt]
  | some es =>
      have hiff := PointerTable.rsdt_iff hr
      simp only [Option.getD_some, Option.some.injEq, forall_eq'] at hiff ⊢
      exact hiff

/-- Without a table in the XSDT, the search is right if the first loop dereferences pointers of the XSDT only
and the second one is right. -/
theorem findsFadt_iff_of_none (hnone : firstFadt d (xs.getD []) = none)
    (hnil : (∀ q ∈ (scanXsdt d xsdt).2, q ∈ xs.getD []) → (scanXsdt d xsdt).1 = none) :
    FindsFadt d xs rs (findFadt d xsdt rsdp) ↔ (∀ q ∈ (scanXsdt d xsdt).2, q ∈ xs.getD []) ∧
      (∀ q ∈ (scanRsdt d (rsdtAddress d rsdp)).2, q ∈ rs.getD []) ∧
      (scanRsdt d (rsdtAddress d rsdp)).1.getD 0 = (firstFadt d (rs.getD [])).getD 0 := by
  constructor
  · intro h
    have hmem := h.xsdt
    rw [findFadt_xsdtDerefs] at hmem
    rw [findFadt_of_none (hnil hmem)] at h
    have hres := h.result
    rw [hnone, Option.none_or] at hres
    exact ⟨hmem, h.rsdt, hres⟩
  · rintro ⟨hmem, hrmem, hrres⟩
    rw [findFadt_of_none (hnil hmem)]
    refine ⟨hmem, hrmem, ?_⟩
    rw [hnone, Option.none_or]
    exact hrres

/-- With its tables well formed, the search finds the FADT and keeps to their pointers exactly if
the XSDT holds one, or if the word behind the XSDT is harmless and the words read for the RSDT lead
to its own. -/
theorem findFadt_iff {d : Nat → UInt8} {xsdt rsdp : Nat} {xs rs : Option (List Nat)}
    (hx : TableAt d xsdt 8 xsdtSignature xs)
    (hr : TableAt d (rsdtAddress d rsdp) 4 rsdtSignature rs) :
    FindsFadt d xs rs (findFadt d xsdt rsdp) ↔
      (∃ p, firstFadt d (xs.getD []) = some p) ∨
      ((∀ es, xs = some es → wordBehind d xsdt es = 0 ∨ wordBehind d xsdt es ∈ es) ∧
        ∀ es, rs = some es → RsdtWords d (rsdtAddress d rsdp) es) := by
  cases hfirst : firstFadt d (xs.getD []) with
  | some p =>
      refine iff_of_true ?_ (Or.inl ⟨p, rfl⟩)
      cases xs with
      | none => cases hfirst
      | some es =>
          obtain ⟨hrun, hmem⟩ := PointerTable.xsdt_found hx hfirst
          rw [findFadt_of_some hrun]
          refine ⟨hmem, by simp, ?_⟩
          rw [hfirst]
          rfl
  | none =>
      have hno : ¬ ∃ p, (none : Option Nat) = some p := by simp
      rw [or_iff_right hno, ← hr.rsdt_iff]
      cases xs with
      | none =>
          have hskip : scanXsdt d xsdt = (none, []) := by rw [scanXsdt, if_neg hx]
          rw [findsFadt_iff_of_none hfirst (fun _ => by rw [hskip]), hskip]
          simp
      | some es =>
          obtain ⟨hiff, hnil⟩ := PointerTable.xsdt_none hx hfirst
          rw [findsFadt_iff_of_none hfirst hnil]
          refine and_congr_left fun _ => ?_
          simp only [Option.some.injEq, forall_eq']
          exact hiff

end Search

/-- A memory with the RSDP at 0, an XSDT without pointers at 0x1000, an RSDT at 0x2000 whose one pointer is
0x3000, and an FADT there. -/
def acpiMemory : Nat → UInt8 :=
  writeBytes (writeBytes (writeBytes (writeBytes (fun _ => 0) 16 (leBytes 4 0x2000))
    0x1000 (xsdtSignature ++ leBytes 4 36))
    0x2000 (rsdtSignature ++ leBytes 4 40 ++ List.replicate 28 0 ++ leBytes 4 0x3000))
    0x3000 fadtSignature

theorem acpiMemory_xsdt : TableAt acpiMemory 0x1000 8 xsdtSignature (some []) where
  signature := by decide
  length := by decide
  entry := by decide
  below := by decide

theorem acpiMemory_rsdt :
    TableAt acpiMemory (rsdtAddress acpiMemory 0) 4 rsdtSignature (some [0x3000]) where
  signature := by decide
  length := by decide
  entry := by decide
  below := by decide

theorem findFadt_iff_rsdt :
    FindsFadt acpiMemory (some []) (some [0x3000]) (findFadt acpiMemory 0x1000 0) ↔
      (∃ p, firstFadt acpiMemory ((some []).getD []) = some p) ∨
      ((∀ es, (some [] : Option (List Nat)) = some es →
        wordBehind acpiMemory 0x1000 es = 0 ∨ wordBehind acpiMemory 0x1000 es ∈ es) ∧
        ∀ es, (some [0x3000] : Option (List Nat)) = some es →
          RsdtWords acpiMemory (rsdtAddress acpiMemory 0) es) :=
  findFadt_iff acpiMemory_xsdt acpiMemory_rsdt

/-- The first pointer of the RSDT is never read, so the FADT it points to is not found. -/
theorem findFadt_misses : TableAt acpiMemory 0x1000 8 xsdtSignature (some []) ∧
    TableAt acpiMemory (rsdtAddress acpiMemory 0) 4 rsdtSignature (some [0x3000]) ∧
    (findFadt acpiMemory 0x1000 0).result = 0 ∧
    ¬ FindsFadt acpiMemory (some []) (some [0x3000]) (findFadt acpiMemory 0x1000 0) := by
  have hres : (findFadt acpiMemory 0x1000 0).result = 0 := by decide
  have hfirst : firstFadt acpiMemory [0x3000] = some 0x3000 := by decide
  refine ⟨acpiMemory_xsdt, acpiMemory_rsdt, hres, ?_⟩
  intro h
  have hresult := h.result
  rw [hres, Option.getD_some, Option.getD_some, hfirst] at hresult
  exact absurd hresult (by decide)

end Os003
