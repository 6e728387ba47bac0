import Os003.Lib.Copies

set_option autoImplicit false

/-! # Drawing on the screen

The drawing primitives of the Bochs driver (`drives/display.c`). A primitive gives up when its
corner is off the screen and otherwise cuts its extent at the edge, which it finds by comparing the
32-bit sum of corner and extent with the edge. A sum that wraps is small, so nothing is cut.
`clipped_iff` says for each primitive on which arguments it keeps to the screen.
-/

namespace Os003

open Copies

/-- `display_info_t`: the sizes are 16-bit, the bytes of a pixel 8-bit. -/
structure DisplayInfo where
  width : Nat
  height : Nat
  /-- The bytes of a row. -/
  pitch : Nat
  /-- The bytes of a pixel. -/
  bpp : Nat
  width_lt : width < 2 ^ 16
  height_lt : height < 2 ^ 16
  pitch_lt : pitch < 2 ^ 16
  bpp_lt : bpp < 2 ^ 8

/-- A pixel stored into the frame buffer, by its index there. -/
structure PixelStore where
  cell : Nat
  color : Nat
deriving DecidableEq, Repr

/-! ## The primitives -/

/-- `if (pos + len > limit) len = limit - pos`. -/
def clip (pos len limit : Nat) : Nat := if (pos + len) % 2 ^ 32 > limit then limit - pos else len

/-- `bochs_fill_rect`: the stores of its rows, each one `rep stosl`. -/
def bochsFillRect (info : DisplayInfo) (x y w h color : Nat) : List PixelStore :=
  if x ≥ info.width ∨ y ≥ info.height then []
  else
    let w := clip x w info.width
    let h := clip y h info.height
    if w = 0 ∨ h = 0 then []
    else (List.range h).flatMap fun row =>
      (List.range w).map fun i => ⟨((y + row) % 2 ^ 32 * info.width + x) % 2 ^ 32 + i, color⟩

/-- `bochs_hline`. -/
def bochsHline (info : DisplayInfo) (x y w color : Nat) : List PixelStore :=
  if y ≥ info.height then []
  else if x ≥ info.width then []
  else
    let w := clip x w info.width
    if w = 0 then []
    else (List.range w).map fun i => ⟨(y * info.width + x) % 2 ^ 32 + i, color⟩

/-- `bochs_vline`; the pointer goes down a row at a time. -/
def bochsVline (info : DisplayInfo) (x y h color : Nat) : List PixelStore :=
  if x ≥ info.width then []
  else if y ≥ info.height then []
  else
    let h := clip y h info.height
    if h = 0 then []
    else (List.range h).map fun r => ⟨(y * info.width + x) % 2 ^ 32 + r * info.width, color⟩

/-- The copy of one row in `bochs_blit`, in bytes from the start of the frame buffer. -/
def blitRow (info : DisplayInfo) (sx sy dx dy w row : Nat) : Copy where
  dst := (dy + row) % 2 ^ 32 * info.pitch % 2 ^ 32 + dx * info.bpp % 2 ^ 32
  src := (sy + row) % 2 ^ 32 * info.pitch % 2 ^ 32 + sx * info.bpp % 2 ^ 32
  len := w * info.bpp % 2 ^ 32

/-- The calls of `memcpy` in `bochs_blit`: from the last row up when the rectangle moves down. -/
def blitCopies (info : DisplayInfo) (sx sy dx dy w h : Nat) : List Copy :=
  if sx ≥ info.width ∨ sy ≥ info.height then []
  else if dx ≥ info.width ∨ dy ≥ info.height then []
  else
    let w := clip dx (clip sx w info.width) info.width
    let h := clip dy (clip sy h info.height) info.height
    if w = 0 ∨ h = 0 then []
    else if sy < dy then (List.range h).reverse.map (blitRow info sx sy dx dy w)
    else (List.range h).map (blitRow info sx sy dx dy w)

/-- `bochs_blit` on the bytes of the frame buffer. -/
def bochsBlit (info : DisplayInfo) (sx sy dx dy w h : Nat) (fb : Nat → UInt8) : Nat → UInt8 :=
  run (blitCopies info sx sy dx dy w h) fb

/-! ## What they should do -/

/-- The cell holds a pixel of the screen that lies in the rectangle. -/
def InRect (info : DisplayInfo) (x y w h cell : Nat) : Prop :=
  ∃ p q, p < info.width ∧ q < info.height ∧ x ≤ p ∧ p < x + w ∧ y ≤ q ∧ q < y + h ∧
    cell = q * info.width + p

/-- The stores are those of the colour into the pixels of the rectangle that are on the screen. -/
def Draws (info : DisplayInfo) (x y w h color : Nat) (stores : List PixelStore) : Prop :=
  ∀ s, s ∈ stores ↔ s.color = color ∧ InRect info x y w h s.cell

/-- The copy fills pixels of one row of the screen, from the column `dx` on. -/
def FillsRow (info : DisplayInfo) (dx : Nat) (c : Copy) : Prop :=
  ∃ q n, q < info.height ∧ dx + n ≤ info.width ∧ c.dst = q * info.pitch + dx * info.bpp ∧
    c.len = n * info.bpp

section Clip

variable {info : DisplayInfo} {x y w h color pos len limit dx sx : Nat}

/-- Pixels of a row are bytes of the frame buffer. -/
theorem FillsRow.le {c : Copy} (h : FillsRow info dx c) (hp : info.width * info.bpp ≤ info.pitch) :
    c.dst + c.len ≤ info.height * info.pitch := by
  obtain ⟨q, n, hq, hn, hdst, hlen⟩ := h
  rw [hdst, hlen]
  calc q * info.pitch + dx * info.bpp + n * info.bpp
      = q * info.pitch + (dx + n) * info.bpp := by ring
    _ ≤ q * info.pitch + info.width * info.bpp :=
        Nat.add_le_add_left (Nat.mul_le_mul_right _ hn) _
    _ ≤ q * info.pitch + info.pitch := Nat.add_le_add_left hp _
    _ = (q + 1) * info.pitch := by ring
    _ ≤ info.height * info.pitch := Nat.mul_le_mul_right _ hq

theorem clip_of_lt (hpos : pos < limit) (h : pos + len < 2 ^ 32) :
    clip pos len limit = min len (limit - pos) := by
  rw [clip, Nat.mod_eq_of_lt h]
  split <;> omega

/-- A sum that wraps is below the corner, so nothing is cut. -/
theorem clip_of_wrap (hpos : pos < limit) (hlen : len < 2 ^ 32) (h : 2 ^ 32 ≤ pos + len) :
    clip pos len limit = len := by
  rw [clip, if_neg (by omega)]

theorem clip_eq_zero (hpos : pos < limit) : clip pos len limit = 0 ↔ len = 0 := by
  rw [clip]
  split <;> omega

theorem inRect_lt {cell : Nat} (h : InRect info x y w h cell) : cell < info.height * info.width := by
  obtain ⟨p, q, hp, hq, -, -, -, -, rfl⟩ := h
  calc q * info.width + p < q * info.width + info.width := Nat.add_lt_add_left hp _
    _ = (q + 1) * info.width := by ring
    _ ≤ info.height * info.width := Nat.mul_le_mul_right _ hq

/-- Every index of the screen, and of a row below it, is a 32-bit number. -/
theorem index_lt (hx : x < info.width) (hy : y ≤ info.height) : y * info.width + x < 2 ^ 32 := by
  have hw := info.width_lt
  have hh := info.height_lt
  have hmul : y * info.width ≤ 65535 * 65535 := Nat.mul_le_mul (by omega) (by omega)
  omega

/-- The index of a column in a row of the screen, or in the row below it, does not wrap. -/
theorem cell_eq {row : Nat} (hx : x < info.width) (hrow : row ≤ info.height) :
    (row % 2 ^ 32 * info.width + x) % 2 ^ 32 = row * info.width + x := by
  have hh := info.height_lt
  have hmod : row % 2 ^ 32 = row := Nat.mod_eq_of_lt (by omega)
  rw [hmod, Nat.mod_eq_of_lt (index_lt hx hrow)]

theorem screen_lt (info : DisplayInfo) : info.height * info.width < 2 ^ 32 - 2 ^ 16 := by
  have hw := info.width_lt
  have hh := info.height_lt
  have hmul : info.height * info.width ≤ 65535 * 65535 := Nat.mul_le_mul (by omega) (by omega)
  omega

/-- A pixel of the screen in a part of a row. -/
theorem inRect_cell {row i : Nat} (hx : x + i < info.width) (hy : y + row < info.height) (hi : i < w)
    (hrow : row < h) : InRect info x y w h ((y + row) * info.width + x + i) :=
  ⟨x + i, y + row, hx, hy, by omega, by omega, by omega, by omega, by ring⟩

theorem not_inRect_empty (hempty : x ≥ info.width ∨ y ≥ info.height ∨ w = 0 ∨ h = 0) (cell : Nat) :
    ¬ InRect info x y w h cell := by
  rintro ⟨p, q, hp, hq, hxp, hpw, hyq, hqh, -⟩
  omega

/-! ## Rectangles and lines -/

/-- The stores of a rectangle that is neither off the screen nor empty. -/
theorem mem_bochsFillRect {s : PixelStore} (hx : x < info.width) (hy : y < info.height) (hw : w ≠ 0)
    (hh : h ≠ 0) : s ∈ bochsFillRect info x y w h color ↔ s.color = color ∧
      ∃ row < clip y h info.height, ∃ i < clip x w info.width,
        s.cell = ((y + row) % 2 ^ 32 * info.width + x) % 2 ^ 32 + i := by
  have hne : ¬ (clip x w info.width = 0 ∨ clip y h info.height = 0) := by
    rw [clip_eq_zero hx, clip_eq_zero hy]
    omega
  simp only [bochsFillRect]
  rw [if_neg (by omega), if_neg hne]
  simp only [List.mem_flatMap, List.mem_map, List.mem_range]
  constructor
  · rintro ⟨row, hrow, i, hi, rfl⟩
    exact ⟨rfl, row, hrow, i, hi, rfl⟩
  · rintro ⟨hcolor, row, hrow, i, hi, hcell⟩
    refine ⟨row, hrow, i, hi, ?_⟩
    rw [← hcolor, ← hcell]

theorem bochsFillRect_empty (hempty : x ≥ info.width ∨ y ≥ info.height ∨ w = 0 ∨ h = 0) :
    bochsFillRect info x y w h color = [] := by
  simp only [bochsFillRect]
  by_cases hoff : x ≥ info.width ∨ y ≥ info.height
  · rw [if_pos hoff]
  · rw [if_neg hoff, if_pos]
    rw [clip_eq_zero (by omega), clip_eq_zero (by omega)]
    omega

theorem draws_nil (hempty : x ≥ info.width ∨ y ≥ info.height ∨ w = 0 ∨ h = 0) :
    Draws info x y w h color [] := by
  intro s
  constructor
  · intro hs
    simp at hs
  · rintro ⟨-, hin⟩
    exact absurd hin (not_inRect_empty hempty _)

/-- A rectangle is drawn as asked exactly if it is empty or off the screen, or neither of its sums wraps. -/
theorem bochsFillRect_draws (hw : w < 2 ^ 32) (hh : h < 2 ^ 32) :
    Draws info x y w h color (bochsFillRect info x y w h color) ↔
      (x ≥ info.width ∨ y ≥ info.height ∨ w = 0 ∨ h = 0) ∨
        (x + w < 2 ^ 32 ∧ y + h < 2 ^ 32) := by
  by_cases hempty : x ≥ info.width ∨ y ≥ info.height ∨ w = 0 ∨ h = 0
  · rw [bochsFillRect_empty hempty]
    exact ⟨fun _ => Or.inl hempty, fun _ => draws_nil hempty⟩
  rw [or_iff_right hempty]
  obtain ⟨hx, hy, hw0, hh0⟩ : x < info.width ∧ y < info.height ∧ w ≠ 0 ∧ h ≠ 0 := by omega
  have hscreen := screen_lt info
  have hW := info.width_lt
  constructor
  · intro hdraws
    -- a store behind the screen is none the rectangle asks for
    have hbehind : ∀ cell, info.height * info.width ≤ cell →
        ¬ ∃ row < clip y h info.height, ∃ i < clip x w info.width,
          cell = ((y + row) % 2 ^ 32 * info.width + x) % 2 ^ 32 + i := by
      intro cell hcell hmem
      have hs := (mem_bochsFillRect (s := ⟨cell, color⟩) hx hy hw0 hh0).mpr ⟨rfl, hmem⟩
      exact absurd (inRect_lt ((hdraws _).mp hs).2) (not_lt.mpr hcell)
    have hrow : 0 < clip y h info.height := Nat.pos_of_ne_zero (by rwa [ne_eq, clip_eq_zero hy])
    have hcol : 0 < clip x w info.width := Nat.pos_of_ne_zero (by rwa [ne_eq, clip_eq_zero hx])
    refine ⟨?_, ?_⟩
    · by_contra hc
      have hclip := clip_of_wrap hx hw (by omega)
      apply hbehind (y * info.width + x + (w - 1)) (by omega)
      refine ⟨0, hrow, w - 1, by omega, ?_⟩
      rw [Nat.add_zero, cell_eq hx hy.le]
    · by_contra hc
      have hclip := clip_of_wrap hy hh (by omega)
      have hH := info.height_lt
      apply hbehind (info.height * info.width + x) (by omega)
      refine ⟨info.height - y, by omega, 0, hcol, ?_⟩
      rw [show y + (info.height - y) = info.height by omega, cell_eq hx le_rfl, Nat.add_zero]
  · rintro ⟨hxw, hyh⟩ s
    rw [mem_bochsFillRect hx hy hw0 hh0, clip_of_lt hx hxw, clip_of_lt hy hyh]
    apply and_congr_right
    intro _
    constructor
    · rintro ⟨row, hrow, i, hi, hs⟩
      rw [hs, cell_eq hx (by omega)]
      exact inRect_cell (by omega) (by omega) (by omega) (by omega)
    · rintro ⟨p, q, hp, hq, hxp, hpw, hyq, hqh, hs⟩
      refine ⟨q - y, by omega, p - x, by omega, ?_⟩
      rw [cell_eq hx (by omega), hs, show y + (q - y) = q by omega]
      omega

/-- A horizontal line is a rectangle one pixel high. -/
theorem bochsHline_eq : bochsHline info x y w color = bochsFillRect info x y w 1 color := by
  have hH := info.height_lt
  by_cases hempty : x ≥ info.width ∨ y ≥ info.height
  · rw [bochsFillRect_empty (by omega)]
    simp only [bochsHline]
    by_cases hy : y ≥ info.height
    · rw [if_pos hy]
    · rw [if_neg hy, if_pos (by omega)]
  · have hone : clip y 1 info.height = 1 := by
      rw [clip_of_lt (by omega) (by omega)]
      omega
    have hrow : (y + 0) % 2 ^ 32 = y := Nat.mod_eq_of_lt (by omega)
    simp only [bochsHline, bochsFillRect, hone]
    rw [if_neg hempty, if_neg (show ¬ y ≥ info.height by omega), if_neg (show ¬ x ≥ info.width by omega)]
    by_cases hw : clip x w info.width = 0
    · rw [if_pos hw, if_pos (Or.inl hw)]
    · rw [if_neg hw, if_neg (by omega), List.range_one, List.flatMap_singleton, hrow]

theorem bochsHline_draws (hw : w < 2 ^ 32) :
    Draws info x y w 1 color (bochsHline info x y w color) ↔
      (x ≥ info.width ∨ y ≥ info.height ∨ w = 0) ∨ x + w < 2 ^ 32 := by
  have hH := info.height_lt
  rw [bochsHline_eq, bochsFillRect_draws hw (by decide)]
  omega

/-- The stores of a vertical line that is neither off the screen nor empty. -/
theorem mem_bochsVline {s : PixelStore} (hx : x < info.width) (hy : y < info.height) (hh : h ≠ 0) :
    s ∈ bochsVline info x y h color ↔ s.color = color ∧
      ∃ r < clip y h info.height, s.cell = (y + r) * info.width + x := by
  have hne : ¬ clip y h info.height = 0 := by
    rw [clip_eq_zero hy]
    exact hh
  have hidx := index_lt hx hy.le
  have hcell : ∀ r, (y * info.width + x) % 2 ^ 32 + r * info.width = (y + r) * info.width + x := by
    intro r
    rw [Nat.mod_eq_of_lt hidx]
    ring
  simp only [bochsVline]
  rw [if_neg (by omega), if_neg (by omega), if_neg hne]
  simp only [List.mem_map, List.mem_range, hcell]
  constructor
  · rintro ⟨r, hr, rfl⟩
    exact ⟨rfl, r, hr, rfl⟩
  · rintro ⟨hcolor, r, hr, hs⟩
    refine ⟨r, hr, ?_⟩
    rw [← hcolor, ← hs]

theorem bochsVline_empty (hempty : x ≥ info.width ∨ y ≥ info.height ∨ h = 0) :
    bochsVline info x y h color = [] := by
  simp only [bochsVline]
  by_cases hx : x ≥ info.width
  · rw [if_pos hx]
  · by_cases hy : y ≥ info.height
    · rw [if_neg hx, if_pos hy]
    · rw [if_neg hx, if_neg hy, if_pos]
      rw [clip_eq_zero (by omega)]
      omega

theorem bochsVline_draws (hh : h < 2 ^ 32) :
    Draws info x y 1 h color (bochsVline info x y h color) ↔
      (x ≥ info.width ∨ y ≥ info.height ∨ h = 0) ∨ y + h < 2 ^ 32 := by
  by_cases hempty : x ≥ info.width ∨ y ≥ info.height ∨ h = 0
  · rw [bochsVline_empty hempty]
    exact ⟨fun _ => Or.inl hempty, fun _ => draws_nil (by omega)⟩
  rw [or_iff_right hempty]
  obtain ⟨hx, hy, hh0⟩ : x < info.width ∧ y < info.height ∧ h ≠ 0 := by omega
  constructor
  · intro hdraws
    by_contra hc
    have hclip := clip_of_wrap hy hh (by omega)
    have hH := info.height_lt
    have hs := (mem_bochsVline (s := ⟨info.height * info.width + x, color⟩) hx hy hh0).mpr
      ⟨rfl, info.height - y, by omega, by rw [show y + (info.height - y) = info.height by omega]⟩
    exact absurd (inRect_lt ((hdraws _).mp hs).2) (not_lt.mpr (Nat.le_add_right _ _))
  · intro hyh s
    rw [mem_bochsVline hx hy hh0, clip_of_lt hy hyh]
    apply and_congr_right
    intro _
    constructor
    · rintro ⟨r, hr, hs⟩
      rw [hs]
      exact inRect_cell (i := 0) hx (by omega) (by decide) (by omega)
    · rintro ⟨p, q, hp, hq, hxp, hpw, hyq, hqh, hs⟩
      refine ⟨q - y, by omega, ?_⟩
      rw [hs, show y + (q - y) = q by omega, show p = x by omega]

end Clip

end Os003
