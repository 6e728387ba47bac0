import Os003.Lib.Fuel
import Os003.Kernel.Numerals

set_option autoImplicit false

/-! # Formatted printing

`vsprintf` (`kernel/Print.c`) walks a format up to its terminator. At a percent sign it looks at the
character behind it, writes the expansion and steps over both; the second step is made whatever the
character was. When the percent sign is the last character of the format, the character behind it is
the terminator: the walk steps over it and goes on in the memory behind the format.
`vsprintf_formats_iff` says that this is the only way to go wrong: a format is printed by its
grammar exactly if it ends in an even number of percent signs.
-/

namespace Os003

/-- `%`. -/
def percent : UInt8 := 0x25

/-- `(null)`. -/
def nullText : List UInt8 := [0x28, 0x6E, 0x75, 0x6C, 0x6C, 0x29]

/-! ## The walk -/

/-- `strcpy_to_buffer`: the bytes up to the terminator. -/
def strcpyToBuffer (m : Nat → UInt8) : (fuel a : Nat) → Option (List UInt8)
  | 0, _ => none
  | fuel + 1, a =>
      if m a = 0 then some [] else (strcpyToBuffer m fuel (a + 1)).map fun s => m a :: s

/-- A string in a memory of its own. -/
def bufferMemory (s : List UInt8) : Nat → UInt8 := fun i => s.getD i 0

/-- The letters whose directive takes an argument. -/
def takesArg (letter : UInt8) : Bool :=
  letter = 0x63 ∨ letter = 0x73 ∨ letter = 0x64 ∨ letter = 0x75 ∨ letter = 0x78 ∨ letter = 0x58 ∨
    letter = 0x70

/-- The cases of `vsprintf` for the letter behind a percent sign. The argument is a 64-bit slot, of which
`va_arg` takes the low half for an `int`. -/
def expandDirective (m : Nat → UInt8) (fuel : Nat) (slot : BitVec 64) (letter : UInt8) :
    Option (List UInt8) :=
  if letter = 0x63 then some [UInt8.ofNat (slot.toNat % 256)]
  else if letter = 0x73 then
    if slot ≠ 0 then strcpyToBuffer m fuel slot.toNat
    else strcpyToBuffer (bufferMemory nullText) fuel 0
  else if letter = 0x64 then
    strcpyToBuffer (bufferMemory (itoaDec ((slot.setWidth 32).signExtend 64)).buffer) fuel 0
  else if letter = 0x75 then strcpyToBuffer (bufferMemory (utoaDec slot).buffer) fuel 0
  else if letter = 0x78 then
    strcpyToBuffer (bufferMemory (lowerHex (itoaHex ((slot.setWidth 32).setWidth 64))).buffer) fuel 0
  else if letter = 0x58 then
    strcpyToBuffer (bufferMemory (itoaHex ((slot.setWidth 32).setWidth 64)).buffer) fuel 0
  else if letter = 0x70 then strcpyToBuffer (bufferMemory (lowerHex (itoaHex slot)).buffer) fuel 0
  else if letter = percent then some [percent]
  else some [percent, letter]

/-- What a run has written in front of the terminator, and the addresses of the format it has read. -/
structure Printed where
  out : List UInt8
  reads : List Nat

/-- `vsprintf` from the address `fmt` on, with the arguments from the slot `arg` on. -/
def vsprintfLoop (m : Nat → UInt8) (slots : Nat → BitVec 64) : (fuel fmt arg : Nat) → Option Printed
  | 0, _, _ => none
  | fuel + 1, fmt, arg =>
      if m fmt = 0 then some ⟨[], [fmt]⟩
      else if m fmt = percent then
        (expandDirective m fuel (slots arg) (m (fmt + 1))).bind fun text =>
          (vsprintfLoop m slots fuel (fmt + 2) (if takesArg (m (fmt + 1)) then arg + 1 else arg)).map
            fun p => ⟨text ++ p.out, fmt :: (fmt + 1) :: p.reads⟩
      else
        (vsprintfLoop m slots fuel (fmt + 1) arg).map fun p => ⟨m fmt :: p.out, fmt :: p.reads⟩

/-- `(int)(dest - str)`. -/
def Printed.returned (p : Printed) : Int := (BitVec.ofNat 32 p.out.length).toInt

def vsprintf (m : Nat → UInt8) (slots : Nat → BitVec 64) (format fuel : Nat) : Option Printed :=
  vsprintfLoop m slots fuel format 0

/-! ## The grammar of formats -/

inductive Piece where
  | literal (c : UInt8)
  | directive (letter : UInt8)
deriving DecidableEq, Repr

/-- A format as literal characters and directives, each a percent sign with the character behind it. -/
def formatPieces : List UInt8 → List Piece
  | [] => []
  | [c] => if c = percent then [] else [.literal c]
  | c :: l :: rest =>
      if c = percent then .directive l :: formatPieces rest else .literal c :: formatPieces (l :: rest)

/-- Each percent sign that starts a directive has a character behind it. -/
def Complete : List UInt8 → Prop
  | [] => True
  | [c] => c ≠ percent
  | c :: l :: rest => if c = percent then Complete rest else Complete (l :: rest)

/-- How many percent signs a format ends in. -/
def endPercents (cs : List UInt8) : Nat := (cs.reverse.takeWhile (· = percent)).length

/-- The expansion of a directive; `text` is the string that the argument of `%s` points to. -/
def expansion (slot : BitVec 64) (text : List UInt8) (letter : UInt8) : List UInt8 :=
  if letter = 0x63 then [UInt8.ofNat (slot.toNat % 256)]
  else if letter = 0x73 then if slot = 0 then nullText else text
  else if letter = 0x64 then signedNumeral (slot.setWidth 32).toInt
  else if letter = 0x75 then numeral 10 decDigit slot.toNat
  else if letter = 0x78 then [0x30, 0x78] ++ numeral 16 lowerDigit (slot.setWidth 32).toNat
  else if letter = 0x58 then [0x30, 0x78] ++ numeral 16 hexDigit (slot.setWidth 32).toNat
  else if letter = 0x70 then [0x30, 0x78] ++ numeral 16 lowerDigit slot.toNat
  else if letter = percent then [percent]
  else [percent, letter]

/-- The characters and expansions of the pieces, with the arguments from `arg` on. -/
def render (slots : Nat → BitVec 64) (texts : Nat → List UInt8) : (arg : Nat) → List Piece → List UInt8
  | _, [] => []
  | arg, .literal c :: ps => c :: render slots texts arg ps
  | arg, .directive l :: ps => expansion (slots arg) (texts arg) l ++
      render slots texts (if takesArg l then arg + 1 else arg) ps

/-- The bytes of `s` are at `a`, none of them 0, and a terminator behind them. -/
structure StringAt (m : Nat → UInt8) (a : Nat) (s : List UInt8) : Prop where
  bytes : ∀ i < s.length, m (a + i) = s.getD i 0
  terminator : m (a + s.length) = 0
  nonzero : ∀ c ∈ s, c ≠ 0

/-- The arguments match the pieces: that of a `%s` is null or points to its text. -/
def Matching (m : Nat → UInt8) (slots : Nat → BitVec 64) (texts : Nat → List UInt8) :
    (arg : Nat) → List Piece → Prop
  | _, [] => True
  | arg, .literal _ :: ps => Matching m slots texts arg ps
  | arg, .directive l :: ps =>
      (l = 0x73 → slots arg ≠ 0 → StringAt m (slots arg).toNat (texts arg)) ∧
        Matching m slots texts (if takesArg l then arg + 1 else arg) ps

section Strings

variable {m : Nat → UInt8} {slots : Nat → BitVec 64} {texts : Nat → List UInt8} {a arg fmt fuel : Nat}
  {s cs : List UInt8} {c l : UInt8} {slot : BitVec 64}

theorem StringAt.tail (h : StringAt m a (c :: s)) : m a = c ∧ c ≠ 0 ∧ StringAt m (a + 1) s := by
  refine ⟨by simpa using h.bytes 0 (by simp), h.nonzero c List.mem_cons_self, ?_, ?_, ?_⟩
  · intro i hi
    have hb := h.bytes (i + 1) (by simpa using hi)
    rwa [show a + (i + 1) = a + 1 + i by omega, List.getD_cons_succ] at hb
  · have ht := h.terminator
    rwa [List.length_cons, show a + (s.length + 1) = a + 1 + s.length by omega] at ht
  · exact fun b hb => h.nonzero b (List.mem_cons_of_mem c hb)

/-- Copying a string ends with its bytes. -/
theorem strcpy_settles (h : StringAt m a s) : Settles (fun fuel => strcpyToBuffer m fuel a) s := by
  induction s generalizing a with
  | nil =>
      have h0 : m a = 0 := by simpa using h.terminator
      exact Settles.turn rfl (fun fuel => by rw [strcpyToBuffer, if_pos h0]) (Settles.const _)
  | cons c s ih =>
      obtain ⟨hc, hne, htail⟩ := h.tail
      apply Settles.turn rfl (fun fuel => by rw [strcpyToBuffer, if_neg (by rwa [hc])])
      rw [hc]
      exact (ih htail).map

theorem stringAt_buffer (hs : ∀ b ∈ s, b ≠ 0) (rest : List UInt8) :
    StringAt (bufferMemory (s ++ 0 :: rest)) 0 s where
  bytes i hi := by
    rw [bufferMemory, Nat.zero_add, List.getD_eq_getElem?_getD, List.getElem?_append_left hi,
      List.getD_eq_getElem?_getD]
  terminator := by simp [bufferMemory]
  nonzero := hs

/-- The text of a number is copied to its end. -/
theorem strcpy_number {t : NumberText} (h : t.Holds s) (hs : ∀ b ∈ s, b ≠ 0) :
    Settles (fun fuel => strcpyToBuffer (bufferMemory t.buffer) fuel 0) s := by
  apply strcpy_settles
  rw [h.1]
  exact stringAt_buffer hs []

/-! ## No byte of a numeral is 0 -/

theorem numeral_nonzero {base : Nat} {digit : Nat → UInt8} (hb : 1 < base)
    (hdigit : ∀ i < base, digit i ≠ 0) (n : Nat) : ∀ b ∈ numeral base digit n, b ≠ 0 := by
  intro b hmem
  rw [numeral] at hmem
  split at hmem
  · rw [List.mem_singleton] at hmem
    rw [hmem]
    exact hdigit 0 (by omega)
  · rw [List.mem_reverse, List.mem_map] at hmem
    obtain ⟨i, hi, rfl⟩ := hmem
    exact hdigit i (Nat.digits_lt_base hb hi)

theorem decimal_nonzero (n : Nat) : ∀ b ∈ numeral 10 decDigit n, b ≠ 0 := by
  apply numeral_nonzero (by decide)
  decide

theorem signed_nonzero (v : Int) : ∀ b ∈ signedNumeral v, b ≠ 0 := by
  intro b hb
  rw [signedNumeral, List.mem_append] at hb
  rcases hb with hb | hb
  · split at hb
    · rw [List.mem_singleton] at hb
      rw [hb]
      decide
    · simp at hb
  · exact decimal_nonzero _ b hb

theorem hex_nonzero {digit : Nat → UInt8} (hdigit : ∀ i < 16, digit i ≠ 0) (n : Nat) :
    ∀ b ∈ [0x30, 0x78] ++ numeral 16 digit n, b ≠ 0 := by
  intro b hb
  rw [List.mem_append] at hb
  rcases hb with hb | hb
  · simp only [List.mem_cons, List.not_mem_nil, or_false] at hb
    rcases hb with rfl | rfl <;> decide
  · exact numeral_nonzero (by decide) hdigit n b hb

/-! ## The walk over a format -/

/-- A directive is expanded as the grammar says, if the argument of `%s` is null or points to its text. -/
theorem expandDirective_settles {text : List UInt8}
    (h : l = 0x73 → slot ≠ 0 → StringAt m slot.toNat text) :
    Settles (fun fuel => expandDirective m fuel slot l) (expansion slot text l) := by
  simp only [expandDirective, expansion]
  by_cases hc : l = 0x63
  · simp only [if_pos hc]
    exact Settles.const _
  simp only [if_neg hc]
  by_cases hs : l = 0x73
  · simp only [if_pos hs]
    by_cases h0 : slot = 0
    · simp only [if_neg (not_not.mpr h0), if_pos h0]
      apply strcpy_settles
      exact ⟨by decide, by decide, by simp [nullText]⟩
    · simp only [if_pos h0, if_neg h0]
      exact strcpy_settles (h hs h0)
  simp only [if_neg hs]
  by_cases hd : l = 0x64
  · simp only [if_pos hd]
    have hholds := itoaDec_holds ((slot.setWidth 32).signExtend 64)
    rw [BitVec.toInt_signExtend_of_le (by decide)] at hholds
    exact strcpy_number hholds (signed_nonzero _)
  simp only [if_neg hd]
  by_cases hu : l = 0x75
  · simp only [if_pos hu]
    exact strcpy_number (utoaDec_holds slot) (decimal_nonzero _)
  simp only [if_neg hu]
  -- %x and %X take an `unsigned int`, that is 32 bits of the slot
  have hwidth : ((slot.setWidth 32).setWidth 64).toNat = (slot.setWidth 32).toNat := by
    have hlt := (slot.setWidth 32).isLt
    rw [BitVec.toNat_setWidth, Nat.mod_eq_of_lt (by omega)]
  by_cases hx : l = 0x78
  · simp only [if_pos hx]
    have hholds := lowerHex_holds ((slot.setWidth 32).setWidth 64)
    rw [hwidth] at hholds
    exact strcpy_number hholds (hex_nonzero (by decide) _)
  simp only [if_neg hx]
  by_cases hX : l = 0x58
  · simp only [if_pos hX]
    have hholds := itoaHex_holds ((slot.setWidth 32).setWidth 64)
    rw [hwidth] at hholds
    exact strcpy_number hholds (hex_nonzero (by decide) _)
  simp only [if_neg hX]
  by_cases hp : l = 0x70
  · simp only [if_pos hp]
    exact strcpy_number (lowerHex_holds slot) (hex_nonzero (by decide) _)
  simp only [if_neg hp]
  by_cases hq : l = percent
  · simp only [if_pos hq]
    exact Settles.const _
  · simp only [if_neg hq]
    exact Settles.const _

/-- A complete format is printed piece by piece, and nothing behind its terminator is read. -/
theorem vsprintfLoop_settles (hf : StringAt m fmt cs) (hc : Complete cs)
    (hm : Matching m slots texts arg (formatPieces cs)) :
    ∃ p, Settles (fun fuel => vsprintfLoop m slots fuel fmt arg) p ∧
      p.out = render slots texts arg (formatPieces cs) ∧ ∀ x ∈ p.reads, x ≤ fmt + cs.length := by
  induction cs using formatPieces.induct generalizing fmt arg with
  | case1 =>
      have h0 : m fmt = 0 := by simpa using hf.terminator
      refine ⟨⟨[], [fmt]⟩, ?_, rfl, by simp⟩
      exact Settles.turn rfl (fun fuel => by rw [vsprintfLoop, if_pos h0]) (Settles.const _)
  -- a percent sign at the end of the format is excluded
  | case2 => exact absurd rfl hc
  | case3 c hne =>
      obtain ⟨hat, hc0, htail⟩ := hf.tail
      have h0 : m (fmt + 1) = 0 := by simpa using htail.terminator
      refine ⟨⟨[c], [fmt, fmt + 1]⟩, ?_, by simp [formatPieces, hne, render], by simp⟩
      apply Settles.turn rfl (fun fuel => by
        rw [vsprintfLoop, if_neg (by rwa [hat]), if_neg (by rwa [hat]), hat])
      have hend : Settles (fun fuel => vsprintfLoop m slots fuel (fmt + 1) arg) ⟨[], [fmt + 1]⟩ :=
        Settles.turn rfl (fun fuel => by rw [vsprintfLoop, if_pos h0]) (Settles.const _)
      exact Settles.map (h := fun p => (⟨c :: p.out, fmt :: p.reads⟩ : Printed)) hend
  -- a directive: its text is expanded, and the next slot is the next argument if it took one
  | case4 l rest ih =>
      obtain ⟨hat, hc0, htail⟩ := hf.tail
      obtain ⟨hat', hl0, htail'⟩ := htail.tail
      rw [formatPieces, if_pos rfl] at hm ⊢
      rw [Complete, if_pos rfl] at hc
      obtain ⟨p, hp, hout, hreads⟩ := ih htail' hc hm.2
      refine ⟨⟨expansion (slots arg) (texts arg) l ++ p.out, fmt :: (fmt + 1) :: p.reads⟩, ?_, ?_, ?_⟩
      · apply Settles.turn rfl (fun fuel => by
          rw [vsprintfLoop, if_neg (by rwa [hat]), if_pos hat, hat'])
        exact (expandDirective_settles hm.1).bind (Settles.map (h := fun p : Printed =>
          (⟨expansion (slots arg) (texts arg) l ++ p.out, fmt :: (fmt + 1) :: p.reads⟩ : Printed)) hp)
      · rw [render, hout]
      · intro x hx
        rw [List.length_cons, List.length_cons]
        rcases List.mem_cons.mp hx with rfl | hx
        · omega
        · rcases List.mem_cons.mp hx with rfl | hx
          · omega
          · have := hreads x hx
            omega
  -- any other character is copied
  | case5 c l rest hne ih =>
      obtain ⟨hat, hc0, htail⟩ := hf.tail
      rw [formatPieces, if_neg hne] at hm ⊢
      rw [Complete, if_neg hne] at hc
      obtain ⟨p, hp, hout, hreads⟩ := ih htail hc hm
      refine ⟨⟨c :: p.out, fmt :: p.reads⟩, ?_, by rw [render, hout], ?_⟩
      · apply Settles.turn rfl (fun fuel => by
          rw [vsprintfLoop, if_neg (by rwa [hat]), if_neg (by rwa [hat]), hat])
        exact Settles.map (h := fun p => (⟨c :: p.out, fmt :: p.reads⟩ : Printed)) hp
      · intro x hx
        rw [List.length_cons]
        rcases List.mem_cons.mp hx with rfl | hx
        · omega
        · have := hreads x hx
          omega

/-- A walk reads the character it starts at. -/
theorem start_mem_reads {p : Printed} (h : vsprintfLoop m slots fuel fmt arg = some p) :
    fmt ∈ p.reads := by
  cases fuel with
  | zero => simp [vsprintfLoop] at h
  | succ fuel =>
      rw [vsprintfLoop] at h
      by_cases h0 : m fmt = 0
      · rw [if_pos h0] at h
        cases h
        exact List.mem_cons_self
      · by_cases hp : m fmt = percent
        · rw [if_neg h0, if_pos hp] at h
          obtain ⟨text, -, h⟩ := Option.bind_eq_some_iff.mp h
          obtain ⟨q, -, rfl⟩ := Option.map_eq_some_iff.mp h
          exact List.mem_cons_self
        · rw [if_neg h0, if_neg hp] at h
          obtain ⟨q, -, rfl⟩ := Option.map_eq_some_iff.mp h
          exact List.mem_cons_self

/-- A walk over a format that is not complete reads behind its terminator, if it ends at all. -/
theorem vsprintfLoop_overruns (hf : StringAt m fmt cs) (hc : ¬ Complete cs) {p : Printed}
    (h : vsprintfLoop m slots fuel fmt arg = some p) : ∃ x ∈ p.reads, fmt + cs.length < x := by
  induction cs using formatPieces.induct generalizing fmt arg fuel p with
  | case1 => exact absurd trivial hc
  | case2 =>
      obtain ⟨hat, hc0, htail⟩ := hf.tail
      cases fuel with
      | zero => simp [vsprintfLoop] at h
      | succ fuel =>
          rw [vsprintfLoop, if_neg (by rwa [hat]), if_pos hat] at h
          obtain ⟨text, -, h⟩ := Option.bind_eq_some_iff.mp h
          obtain ⟨q, hq, rfl⟩ := Option.map_eq_some_iff.mp h
          -- the step over the terminator
          refine ⟨fmt + 2, ?_, by simp⟩
          exact List.mem_cons_of_mem _ (List.mem_cons_of_mem _ (start_mem_reads hq))
  | case3 c hne => exact absurd hne hc
  | case4 l rest ih =>
      obtain ⟨hat, hc0, htail⟩ := hf.tail
      obtain ⟨hat', hl0, htail'⟩ := htail.tail
      rw [Complete, if_pos rfl] at hc
      cases fuel with
      | zero => simp [vsprintfLoop] at h
      | succ fuel =>
          rw [vsprintfLoop, if_neg (by rwa [hat]), if_pos hat] at h
          obtain ⟨text, -, h⟩ := Option.bind_eq_some_iff.mp h
          obtain ⟨q, hq, rfl⟩ := Option.map_eq_some_iff.mp h
          obtain ⟨x, hx, hlt⟩ := ih htail' hc hq
          refine ⟨x, List.mem_cons_of_mem _ (List.mem_cons_of_mem _ hx), ?_⟩
          rw [List.length_cons, List.length_cons]
          omega
  | case5 c l rest hne ih =>
      obtain ⟨hat, hc0, htail⟩ := hf.tail
      rw [Complete, if_neg hne] at hc
      cases fuel with
      | zero => simp [vsprintfLoop] at h
      | succ fuel =>
          rw [vsprintfLoop, if_neg (by rwa [hat]), if_neg (by rwa [hat])] at h
          obtain ⟨q, hq, rfl⟩ := Option.map_eq_some_iff.mp h
          obtain ⟨x, hx, hlt⟩ := ih htail hc hq
          refine ⟨x, List.mem_cons_of_mem _ hx, ?_⟩
          rw [List.length_cons]
          omega

/-! ## Complete formats -/

theorem endPercents_cons (c : UInt8) (cs : List UInt8) : endPercents (c :: cs) =
    if endPercents cs = cs.length then if c = percent then cs.length + 1 else cs.length
    else endPercents cs := by
  have hcons : endPercents (c :: cs) = if endPercents cs = cs.length then
      cs.length + ([c].takeWhile (· = percent)).length else endPercents cs := by
    rw [endPercents, List.reverse_cons, List.takeWhile_append, List.length_reverse]
    by_cases hall : (cs.reverse.takeWhile (· = percent)).length = cs.length
    · have hall' : endPercents cs = cs.length := hall
      rw [if_pos hall, if_pos hall', List.length_append, List.length_reverse]
    · have hall' : ¬ endPercents cs = cs.length := hall
      rw [if_neg hall, if_neg hall']
      rfl
  rw [hcons]
  by_cases hc : c = percent <;> simp [hc]

/-- A format is complete exactly if it ends in an even number of percent signs. -/
theorem complete_iff (cs : List UInt8) : Complete cs ↔ Even (endPercents cs) := by
  induction cs using formatPieces.induct with
  | case1 => simp [Complete, endPercents]
  | case2 => simp [Complete, endPercents]
  | case3 c hne => simp [Complete, endPercents, hne]
  | case4 l rest ih =>
      rw [Complete, if_pos rfl, ih, endPercents_cons, endPercents_cons]
      have hle : endPercents rest ≤ rest.length := by
        have hprefix := (List.takeWhile_prefix (l := rest.reverse) (· = percent)).length_le
        rwa [List.length_reverse] at hprefix
      by_cases hall : endPercents rest = rest.length
      · by_cases hl : l = percent
        · simp [hall, hl, Nat.even_add_one, parity_simps]
        · simp [hall, hl]
      · have hne : ¬ endPercents rest = rest.length + 1 := by omega
        simp [hall, hne]
  | case5 c l rest hne ih =>
      rw [Complete, if_neg hne, ih, endPercents_cons c, if_neg hne]
      split
      · rename_i hall
        rw [hall]
      · rfl

/-- A call ends, has read nothing behind the terminator of the format, has written the characters
and expansions of its pieces, and returns their number. -/
def PrintsFormat (m : Nat → UInt8) (slots : Nat → BitVec 64) (texts : Nat → List UInt8) (format : Nat)
    (cs : List UInt8) : Prop :=
  ∃ p, Settles (vsprintf m slots format) p ∧ (∀ x ∈ p.reads, x ≤ format + cs.length) ∧
    p.out = render slots texts 0 (formatPieces cs) ∧
    p.returned = (render slots texts 0 (formatPieces cs)).length

/-- With matching arguments, and an output whose length is an `int`, a format is printed by its
grammar exactly if it ends in an even number of percent signs. -/
theorem vsprintf_formats_iff {format : Nat} (hf : StringAt m format cs)
    (hm : Matching m slots texts 0 (formatPieces cs))
    (hfits : (render slots texts 0 (formatPieces cs)).length < 2 ^ 31) :
    PrintsFormat m slots texts format cs ↔ Even (endPercents cs) := by
  rw [← complete_iff]
  constructor
  · rintro ⟨p, hp, hreads, -⟩
    by_contra hc
    obtain ⟨fuel, hrun⟩ := hp.ends
    obtain ⟨x, hx, hlt⟩ := vsprintfLoop_overruns hf hc hrun
    exact absurd (hreads x hx) (not_le.mpr hlt)
  · intro hc
    obtain ⟨p, hp, hout, hreads⟩ := vsprintfLoop_settles hf hc hm
    refine ⟨p, hp, hreads, hout, ?_⟩
    rw [Printed.returned, hout, BitVec.toInt_ofNat', Int.bmod_eq_of_le] <;> omega

end Strings

/-- The format `a%c` at the address 0. -/
def charFormat : Nat → UInt8 := bufferMemory [0x61, percent, 0x63]

theorem vsprintf_formats_char :
    PrintsFormat charFormat (fun _ => 0x41) (fun _ => []) 0 [0x61, percent, 0x63] ↔
      Even (endPercents [0x61, percent, 0x63]) := by
  refine vsprintf_formats_iff ⟨by decide, by decide, by simp [percent]⟩ ?_ ?_
  · simp [formatPieces, Matching, percent]
  · decide

/-- The format that is one percent sign reads the character behind its terminator. -/
theorem percent_overruns :
    StringAt (bufferMemory [percent]) 0 [percent] ∧
    Matching (bufferMemory [percent]) (fun _ => 0) (fun _ => []) 0 (formatPieces [percent]) ∧
    (render (fun _ => 0) (fun _ => []) 0 (formatPieces [percent])).length < 2 ^ 31 ∧
    ¬ PrintsFormat (bufferMemory [percent]) (fun _ => 0) (fun _ => []) 0 [percent] := by
  have hf : StringAt (bufferMemory [percent]) 0 [percent] :=
    ⟨by decide, by decide, by simp [percent]⟩
  refine ⟨hf, trivial, by decide, ?_⟩
  rintro ⟨p, hp, hreads, -⟩
  obtain ⟨fuel, hrun⟩ := hp.ends
  obtain ⟨x, hx, hlt⟩ := vsprintfLoop_overruns hf (fun hc => hc rfl) hrun
  exact absurd (hreads x hx) (not_le.mpr hlt)

end Os003
