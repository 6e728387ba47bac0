import Os003.Drives.Display

set_option autoImplicit false

/-! # Moving a rectangle of the screen

`bochs_blit` copies a rectangle row by row, from the bottom up when it moves down, so that no row is written
before it is read. Within a row `memcpy` goes forward: a rectangle that moves to the right over itself in
its own rows is copied from what has just been written, and the first pixels of each row repeat
(`blit_moves_iff`).
-/

namespace Os003

open Copies

variable {info : DisplayInfo} {sx sy dx dy w h row : Nat} {fb : Nat → UInt8}

/-! ## The rows a blit copies -/

/-- The extent after both cuts. -/
def clipBoth (sx dx w limit : Nat) : Nat := clip dx (clip sx w limit) limit

theorem clipBoth_eq_zero {limit : Nat} (hs : sx < limit) (hd : dx < limit) :
    clipBoth sx dx w limit = 0 ↔ w = 0 := by
  rw [clipBoth, clip_eq_zero hd, clip_eq_zero hs]

/-- One sum that does not wrap is enough to cut the extent at the edge of the target. -/
theorem clipBoth_le {limit : Nat} (hs : sx < limit) (hd : dx < limit) (hl : limit < 2 ^ 16)
    (hw : w < 2 ^ 32) (h : sx + w < 2 ^ 32 ∨ dx + w < 2 ^ 32) : dx + clipBoth sx dx w limit ≤ limit := by
  rw [clipBoth]
  by_cases hsw : sx + w < 2 ^ 32
  · rw [clip_of_lt hs hsw, clip_of_lt hd (by omega)]
    omega
  · rw [clip_of_wrap hs hw (by omega), clip_of_lt hd (by omega)]
    omega

theorem clipBoth_of_wrap {limit : Nat} (hs : sx < limit) (hd : dx < limit) (hw : w < 2 ^ 32)
    (h1 : 2 ^ 32 ≤ sx + w) (h2 : 2 ^ 32 ≤ dx + w) : clipBoth sx dx w limit = w := by
  rw [clipBoth, clip_of_wrap hs hw h1, clip_of_wrap hd hw h2]

/-- A rectangle that is not empty, with both corners on the screen. -/
structure OnScreen (info : DisplayInfo) (sx sy dx dy w h : Nat) : Prop where
  sx_lt : sx < info.width
  sy_lt : sy < info.height
  dx_lt : dx < info.width
  dy_lt : dy < info.height
  w_ne : w ≠ 0
  h_ne : h ≠ 0

theorem blitCopies_empty (hoff : ¬ OnScreen info sx sy dx dy w h) :
    blitCopies info sx sy dx dy w h = [] := by
  simp only [blitCopies]
  by_cases h1 : sx ≥ info.width ∨ sy ≥ info.height
  · rw [if_pos h1]
  · by_cases h2 : dx ≥ info.width ∨ dy ≥ info.height
    · rw [if_neg h1, if_pos h2]
    · rw [if_neg h1, if_neg h2, if_pos]
      rw [clip_eq_zero (by omega), clip_eq_zero (by omega), clip_eq_zero (by omega),
        clip_eq_zero (by omega)]
      by_contra hc
      push Not at hc
      exact hoff ⟨by omega, by omega, by omega, by omega, hc.1, hc.2⟩

theorem OnScreen.copies (hon : OnScreen info sx sy dx dy w h) : blitCopies info sx sy dx dy w h =
    (if sy < dy then (List.range (clipBoth sy dy h info.height)).reverse
      else List.range (clipBoth sy dy h info.height)).map
        (blitRow info sx sy dx dy (clipBoth sx dx w info.width)) := by
  have hsx := hon.sx_lt
  have hsy := hon.sy_lt
  have hdx := hon.dx_lt
  have hdy := hon.dy_lt
  have hne : ¬ (clipBoth sx dx w info.width = 0 ∨ clipBoth sy dy h info.height = 0) := by
    rw [clipBoth_eq_zero hsx hdx, clipBoth_eq_zero hsy hdy, not_or]
    exact ⟨hon.w_ne, hon.h_ne⟩
  simp only [clipBoth] at hne ⊢
  simp only [blitCopies]
  rw [if_neg (by omega), if_neg (by omega), if_neg hne]
  split <;> rfl

theorem OnScreen.mem_copies (hon : OnScreen info sx sy dx dy w h) {c : Copy} :
    c ∈ blitCopies info sx sy dx dy w h ↔ ∃ row < clipBoth sy dy h info.height,
      blitRow info sx sy dx dy (clipBoth sx dx w info.width) row = c := by
  rw [hon.copies, List.mem_map]
  split <;> simp [List.mem_reverse, List.mem_range]

/-! ## Keeping to the screen -/

/-- The address of a row of the screen, or of the row below it. -/
theorem row_mod (hrow : row ≤ info.height) :
    row % 2 ^ 32 * info.pitch % 2 ^ 32 = row * info.pitch := by
  have hh := info.height_lt
  have hp := info.pitch_lt
  have hmul : row * info.pitch ≤ 65535 * 65535 := Nat.mul_le_mul (by omega) (by omega)
  rw [Nat.mod_eq_of_lt (a := row) (by omega), Nat.mod_eq_of_lt (by omega)]

theorem column_lt (info : DisplayInfo) {x : Nat} (hx : x < 2 ^ 16) : x * info.bpp < 2 ^ 24 := by
  have hb := info.bpp_lt
  have hmul : x * info.bpp ≤ 65535 * 255 := Nat.mul_le_mul (by omega) (by omega)
  omega

theorem column_mod {x : Nat} (hx : x ≤ info.width) : x * info.bpp % 2 ^ 32 = x * info.bpp := by
  have hw := info.width_lt
  have hlt := column_lt info (x := x) (by omega)
  rw [Nat.mod_eq_of_lt (by omega)]

/-- The bytes of a row are those of some pixels of the row exactly if there are none, or the row was cut. -/
theorem columns_iff (hsx : sx < info.width) (hdx : dx < info.width) (hw : w < 2 ^ 32) :
    (∃ n, dx + n ≤ info.width ∧ clipBoth sx dx w info.width * info.bpp % 2 ^ 32 = n * info.bpp) ↔
      info.bpp = 0 ∨ sx + w < 2 ^ 32 ∨ dx + w < 2 ^ 32 := by
  have hW := info.width_lt
  constructor
  · rintro ⟨n, hn, hlen⟩
    by_contra hc
    push Not at hc
    obtain ⟨hb, h1, h2⟩ := hc
    -- the bytes of a row that was not cut are as many as 2^32 less those it is short of 2^32 pixels
    rw [clipBoth_of_wrap hsx hdx hw h1 h2] at hlen
    have hn' := column_lt info (x := n) (by omega)
    have hshort := column_lt info (x := 2 ^ 32 - w) (by omega)
    have hpos : 0 < (2 ^ 32 - w) * info.bpp := Nat.mul_pos (by omega) (by omega)
    have hsum : w * info.bpp + (2 ^ 32 - w) * info.bpp = 2 ^ 32 * info.bpp := by
      rw [← Nat.add_mul]
      congr 1
      omega
    omega
  · rintro (hb | hsum)
    · exact ⟨0, by omega, by rw [hb]; simp⟩
    · have hle := clipBoth_le hsx hdx hW hw hsum
      exact ⟨_, hle, column_mod (by omega)⟩

/-- The rows start at rows of the screen exactly if there is one row only, or their number was cut. -/
theorem rows_iff (hsy : sy < info.height) (hdy : dy < info.height) (hh : h < 2 ^ 32) :
    (∀ row < clipBoth sy dy h info.height, ∃ q < info.height,
      (dy + row) % 2 ^ 32 * info.pitch % 2 ^ 32 = q * info.pitch) ↔
      info.pitch = 0 ∨ sy + h < 2 ^ 32 ∨ dy + h < 2 ^ 32 := by
  have hH := info.height_lt
  constructor
  · intro hrows
    by_contra hc
    push Not at hc
    obtain ⟨hp, h1, h2⟩ := hc
    -- nothing was cut, so the row below the screen is one of them
    have hclip := clipBoth_of_wrap hsy hdy hh h1 h2
    obtain ⟨q, hq, hdst⟩ := hrows (info.height - dy) (by omega)
    rw [show dy + (info.height - dy) = info.height by omega, row_mod le_rfl] at hdst
    have hlt : q * info.pitch < info.height * info.pitch :=
      Nat.mul_lt_mul_of_pos_right hq (Nat.pos_of_ne_zero hp)
    omega
  · rintro (hp | hsum) row hrow
    · exact ⟨0, by omega, by rw [hp]; simp⟩
    · have hle := clipBoth_le hsy hdy hH hh hsum
      exact ⟨dy + row, by omega, row_mod (by omega)⟩

/-- A row is filled with pixels of a row of the screen when its length and its start are those of one. -/
theorem fillsRow_blitRow_iff {n : Nat} (hdx : dx < info.width) :
    FillsRow info dx (blitRow info sx sy dx dy n row) ↔
      (∃ k, dx + k ≤ info.width ∧ n * info.bpp % 2 ^ 32 = k * info.bpp) ∧
        ∃ q < info.height, (dy + row) % 2 ^ 32 * info.pitch % 2 ^ 32 = q * info.pitch := by
  rw [FillsRow]
  simp only [blitRow, column_mod hdx.le, Nat.add_right_cancel_iff]
  constructor
  · rintro ⟨q, k, hq, hk, hdst, hlen⟩
    exact ⟨⟨k, hk, hlen⟩, q, hq, hdst⟩
  · rintro ⟨⟨k, hk, hlen⟩, q, hq, hdst⟩
    exact ⟨q, k, hq, hk, hdst, hlen⟩

/-- A blit fills pixels of rows of the screen exactly if it is empty or off the screen, or on each
axis one of its two sums does not wrap; without bytes in a pixel there is nothing to fill, and
without bytes in a row there is one row only. -/
theorem bochsBlit_fills (hw : w < 2 ^ 32) (hh : h < 2 ^ 32) :
    (∀ c ∈ blitCopies info sx sy dx dy w h, FillsRow info dx c) ↔
      (sx ≥ info.width ∨ sy ≥ info.height ∨ dx ≥ info.width ∨ dy ≥ info.height ∨ w = 0 ∨ h = 0) ∨
      ((info.bpp = 0 ∨ sx + w < 2 ^ 32 ∨ dx + w < 2 ^ 32) ∧
        (info.pitch = 0 ∨ sy + h < 2 ^ 32 ∨ dy + h < 2 ^ 32)) := by
  by_cases hon : OnScreen info sx sy dx dy w h
  swap
  · rw [blitCopies_empty hon]
    have hempty : sx ≥ info.width ∨ sy ≥ info.height ∨ dx ≥ info.width ∨ dy ≥ info.height ∨
        w = 0 ∨ h = 0 := by
      by_contra hc
      exact hon ⟨by omega, by omega, by omega, by omega, by omega, by omega⟩
    exact ⟨fun _ => Or.inl hempty, fun _ c hc => by simp at hc⟩
  have hsx := hon.sx_lt
  have hsy := hon.sy_lt
  have hdx := hon.dx_lt
  have hdy := hon.dy_lt
  have hw0 := hon.w_ne
  have hh0 := hon.h_ne
  have hrows : 0 < clipBoth sy dy h info.height :=
    Nat.pos_of_ne_zero (by rwa [ne_eq, clipBoth_eq_zero hsy hdy])
  rw [or_iff_right (by omega), ← columns_iff hsx hdx hw, ← rows_iff hsy hdy hh]
  constructor
  · intro hfills
    have hrow (row : Nat) (hlt : row < clipBoth sy dy h info.height) :=
      (fillsRow_blitRow_iff hdx).mp (hfills _ (hon.mem_copies.mpr ⟨row, hlt, rfl⟩))
    exact ⟨(hrow 0 hrows).1, fun row hlt => (hrow row hlt).2⟩
  · rintro ⟨hcols, hstarts⟩ c hc
    obtain ⟨row, hlt, rfl⟩ := hon.mem_copies.mp hc
    exact (fillsRow_blitRow_iff hdx).mpr ⟨hcols, hstarts row hlt⟩

/-- Each primitive keeps to the screen exactly if it draws nothing or the sums it compares do not wrap. -/
theorem drawing_clipped_iff (info : DisplayInfo) {x y dx dy w h : Nat} (color : Nat)
    (hw : w < 2 ^ 32) (hh : h < 2 ^ 32) :
    (Draws info x y w h color (bochsFillRect info x y w h color) ↔
      (x ≥ info.width ∨ y ≥ info.height ∨ w = 0 ∨ h = 0) ∨
        (x + w < 2 ^ 32 ∧ y + h < 2 ^ 32)) ∧
    (Draws info x y w 1 color (bochsHline info x y w color) ↔
      (x ≥ info.width ∨ y ≥ info.height ∨ w = 0) ∨ x + w < 2 ^ 32) ∧
    (Draws info x y 1 h color (bochsVline info x y h color) ↔
      (x ≥ info.width ∨ y ≥ info.height ∨ h = 0) ∨ y + h < 2 ^ 32) ∧
    ((∀ c ∈ blitCopies info x y dx dy w h, FillsRow info dx c) ↔
      (x ≥ info.width ∨ y ≥ info.height ∨ dx ≥ info.width ∨ dy ≥ info.height ∨ w = 0 ∨ h = 0) ∨
      ((info.bpp = 0 ∨ x + w < 2 ^ 32 ∨ dx + w < 2 ^ 32) ∧
        (info.pitch = 0 ∨ y + h < 2 ^ 32 ∨ dy + h < 2 ^ 32))) :=
  ⟨bochsFillRect_draws hw hh, bochsHline_draws hw, bochsVline_draws hh, bochsBlit_fills hw hh⟩

/-- A screen of four by three pixels of 32 bits. -/
def smallScreen : DisplayInfo where
  width := 4
  height := 3
  pitch := 16
  bpp := 4
  width_lt := by decide
  height_lt := by decide
  pitch_lt := by decide
  bpp_lt := by decide

theorem drawing_clipped_small :
    (Draws smallScreen 1 1 9 9 7 (bochsFillRect smallScreen 1 1 9 9 7) ↔
      (1 ≥ smallScreen.width ∨ 1 ≥ smallScreen.height ∨ 9 = 0 ∨ 9 = 0) ∨
        (1 + 9 < 2 ^ 32 ∧ 1 + 9 < 2 ^ 32)) ∧
    (Draws smallScreen 1 1 9 1 7 (bochsHline smallScreen 1 1 9 7) ↔
      (1 ≥ smallScreen.width ∨ 1 ≥ smallScreen.height ∨ 9 = 0) ∨ 1 + 9 < 2 ^ 32) ∧
    (Draws smallScreen 1 1 1 9 7 (bochsVline smallScreen 1 1 9 7) ↔
      (1 ≥ smallScreen.width ∨ 1 ≥ smallScreen.height ∨ 9 = 0) ∨ 1 + 9 < 2 ^ 32) ∧
    ((∀ c ∈ blitCopies smallScreen 1 1 0 0 9 9, FillsRow smallScreen 0 c) ↔
      (1 ≥ smallScreen.width ∨ 1 ≥ smallScreen.height ∨ 0 ≥ smallScreen.width ∨
        0 ≥ smallScreen.height ∨ 9 = 0 ∨ 9 = 0) ∨
      ((smallScreen.bpp = 0 ∨ 1 + 9 < 2 ^ 32 ∨ 0 + 9 < 2 ^ 32) ∧
        (smallScreen.pitch = 0 ∨ 1 + 9 < 2 ^ 32 ∨ 0 + 9 < 2 ^ 32))) :=
  drawing_clipped_iff smallScreen 7 (by decide) (by decide)

/-- A line of 2^32 - 1 pixels from the column 1 on is not cut: its sum is 0. -/
theorem hline_leaves_screen :
    clip 1 (2 ^ 32 - 1) smallScreen.width = 2 ^ 32 - 1 ∧
      ¬ Draws smallScreen 1 1 (2 ^ 32 - 1) 1 7 (bochsHline smallScreen 1 1 (2 ^ 32 - 1) 7) := by
  refine ⟨by decide, ?_⟩
  rw [bochsHline_draws (by decide)]
  decide

/-! ## Pixels of a 32-bit screen -/

/-- The four bytes of a pixel. -/
def pixelBytes (info : DisplayInfo) (fb : Nat → UInt8) (p q : Nat) : Fin 4 → UInt8 :=
  fun b => fb (q * info.pitch + 4 * p + b)

/-- A screen of 32-bit pixels without gaps, with both rectangles inside. -/
structure Inside (info : DisplayInfo) (sx sy dx dy w h : Nat) : Prop where
  bpp : info.bpp = 4
  pitch : info.pitch = 4 * info.width
  sx_le : sx + w ≤ info.width
  sy_le : sy + h ≤ info.height
  dx_le : dx + w ≤ info.width
  dy_le : dy + h ≤ info.height

/-- The pixels of the rectangle have moved, all others are as they were. -/
structure Moves (info : DisplayInfo) (sx sy dx dy w h : Nat) (fb fb' : Nat → UInt8) : Prop where
  moved : ∀ i < w, ∀ j < h, pixelBytes info fb' (dx + i) (dy + j) = pixelBytes info fb (sx + i) (sy + j)
  rest : ∀ p < info.width, ∀ q < info.height,
    ¬ (dx ≤ p ∧ p < dx + w ∧ dy ≤ q ∧ q < dy + h) → pixelBytes info fb' p q = pixelBytes info fb p q

/-- The copy of the row `row` when nothing is cut and nothing wraps. -/
def rowCopy (info : DisplayInfo) (sx sy dx dy w row : Nat) : Copy where
  dst := (dy + row) * info.pitch + 4 * dx
  src := (sy + row) * info.pitch + 4 * sx
  len := 4 * w

/-- A byte of a row tells the row. -/
theorem row_of_byte {pitch q a b x : Nat} (hb : b ≤ pitch) (h1 : q * pitch + a ≤ x)
    (h2 : x < q * pitch + b) : x / pitch = q := by
  apply Nat.div_eq_of_lt_le
  · exact le_trans (Nat.le_add_right _ _) h1
  · calc x < q * pitch + b := h2
      _ ≤ q * pitch + pitch := Nat.add_le_add_left hb _
      _ = (q + 1) * pitch := by ring

theorem Inside.clip_w (hin : Inside info sx sy dx dy w h) : clipBoth sx dx w info.width = w := by
  have hW := info.width_lt
  have hs := hin.sx_le
  have hd := hin.dx_le
  have hno (pos : Nat) (hp : pos + w ≤ info.width) : clip pos w info.width = w := by
    rw [clip, if_neg (by omega)]
  rw [clipBoth, hno sx hs, hno dx hd]

theorem Inside.clip_h (hin : Inside info sx sy dx dy w h) : clipBoth sy dy h info.height = h := by
  have hH := info.height_lt
  have hs := hin.sy_le
  have hd := hin.dy_le
  have hno (pos : Nat) (hp : pos + h ≤ info.height) : clip pos h info.height = h := by
    rw [clip, if_neg (by omega)]
  rw [clipBoth, hno sy hs, hno dy hd]

theorem Inside.blitRow_eq (hin : Inside info sx sy dx dy w h) (hrow : row < h) :
    blitRow info sx sy dx dy w row = rowCopy info sx sy dx dy w row := by
  have hs := hin.sx_le
  have hd := hin.dx_le
  have hsy := hin.sy_le
  have hdy := hin.dy_le
  simp only [blitRow, rowCopy]
  rw [row_mod (by omega), row_mod (by omega), column_mod (by omega), column_mod (by omega),
    column_mod (by omega), hin.bpp, Nat.mul_comm dx, Nat.mul_comm sx, Nat.mul_comm w]

/-- The copies of a blit inside the screen are those of its rows, each once. -/
theorem Inside.copies (hin : Inside info sx sy dx dy w h) (hw : w ≠ 0) (hh : h ≠ 0) :
    blitCopies info sx sy dx dy w h = (if sy < dy then (List.range h).reverse else List.range h).map
      (rowCopy info sx sy dx dy w) := by
  have hs := hin.sx_le
  have hd := hin.dx_le
  have hsy := hin.sy_le
  have hdy := hin.dy_le
  have hon : OnScreen info sx sy dx dy w h :=
    ⟨by omega, by omega, by omega, by omega, hw, hh⟩
  rw [hon.copies, hin.clip_w, hin.clip_h]
  apply List.map_congr_left
  intro row hrow
  apply hin.blitRow_eq
  split at hrow
  · exact List.mem_range.mp (List.mem_reverse.mp hrow)
  · exact List.mem_range.mp hrow

section Rows

variable {r r' x : Nat}

theorem Inside.row_of_writes (hin : Inside info sx sy dx dy w h)
    (hx : (rowCopy info sx sy dx dy w r).Writes x) : x / info.pitch = dy + r := by
  have hd := hin.dx_le
  have hp := hin.pitch
  apply row_of_byte (b := 4 * dx + 4 * w) (by omega) hx.1
  have hlt := hx.2
  simp only [rowCopy] at hlt
  omega

theorem Inside.row_of_reads (hin : Inside info sx sy dx dy w h)
    (hx : (rowCopy info sx sy dx dy w r).Reads x) : x / info.pitch = sy + r := by
  have hs := hin.sx_le
  have hp := hin.pitch
  apply row_of_byte (b := 4 * sx + 4 * w) (by omega) hx.1
  have hlt := hx.2
  simp only [rowCopy] at hlt
  omega

theorem Inside.apart (hin : Inside info sx sy dx dy w h) (hw : dy + r ≠ dy + r')
    (hr : dy + r ≠ sy + r') :
    Apart (rowCopy info sx sy dx dy w r) (rowCopy info sx sy dx dy w r') := by
  intro x hx
  have hrow := hin.row_of_writes hx
  constructor
  · intro hreads
    exact hr (hrow.symm.trans (hin.row_of_reads hreads))
  · intro hwrites
    exact hw (hrow.symm.trans (hin.row_of_writes hwrites))

/-- The order of the rows suits the direction of the move. -/
theorem Inside.pairwise (hin : Inside info sx sy dx dy w h) :
    ((if sy < dy then (List.range h).reverse else List.range h).map
      (rowCopy info sx sy dx dy w)).Pairwise Apart := by
  rw [List.pairwise_map]
  split
  · rename_i hlt
    rw [List.pairwise_reverse]
    refine List.pairwise_lt_range.imp ?_
    intro r r' hrr
    exact hin.apart (by omega) (by omega)
  · refine List.pairwise_lt_range.imp ?_
    intro r r' hrr
    exact hin.apart (by omega) (by omega)

end Rows

/-! ## What a blit moves -/

/-- The byte `t` of the row `j` of the target comes from the byte that a forward copy of the row takes. -/
theorem Inside.target_byte (hin : Inside info sx sy dx dy w h) (hw : w ≠ 0) {j t : Nat} (hj : j < h)
    (ht : t < 4 * w) (fb : Nat → UInt8) :
    bochsBlit info sx sy dx dy w h fb ((dy + j) * info.pitch + 4 * dx + t) =
      fb (source ((dy + j) * info.pitch + 4 * dx) ((sy + j) * info.pitch + 4 * sx) t) := by
  have hwrites : (rowCopy info sx sy dx dy w j).Writes ((dy + j) * info.pitch + 4 * dx + t) :=
    ⟨Nat.le_add_right _ _, Nat.add_lt_add_left ht _⟩
  have hmem : rowCopy info sx sy dx dy w j ∈ (if sy < dy then (List.range h).reverse
      else List.range h).map (rowCopy info sx sy dx dy w) := by
    apply List.mem_map_of_mem
    split <;> simpa using hj
  rw [bochsBlit, hin.copies hw (by omega), run_of_writes fb hin.pairwise hmem hwrites, Copy.origin]
  congr 2
  exact Nat.add_sub_cancel_left _ _

/-- A pixel outside the target keeps its bytes. -/
theorem Inside.rest (hin : Inside info sx sy dx dy w h) (fb : Nat → UInt8) {p q : Nat}
    (hp : p < info.width) (hout : ¬ (dx ≤ p ∧ p < dx + w ∧ dy ≤ q ∧ q < dy + h)) :
    pixelBytes info (bochsBlit info sx sy dx dy w h fb) p q = pixelBytes info fb p q := by
  funext b
  have hb := b.isLt
  have hpitch := hin.pitch
  by_cases hempty : w = 0 ∨ h = 0
  · have hoff : ¬ OnScreen info sx sy dx dy w h := by
      intro hon
      have := hon.w_ne
      have := hon.h_ne
      omega
    rw [pixelBytes, bochsBlit, blitCopies_empty hoff]
    rfl
  rw [pixelBytes, bochsBlit, hin.copies (by omega) (by omega)]
  apply run_of_not_writes
  intro c hc hwrites
  obtain ⟨r, hr, rfl⟩ := List.mem_map.mp hc
  have hrlt : r < h := by
    split at hr <;> simpa using hr
  have hq : q = dy + r := by
    rw [← hin.row_of_writes hwrites]
    symm
    apply row_of_byte (a := 4 * p + b) (b := 4 * p + 4) (by omega) <;> omega
  subst hq
  have h1 := hwrites.1
  have h2 := hwrites.2
  simp only [rowCopy] at h1 h2
  exact hout (by omega)

/-- Where the rows do not overlap to the right, a blit takes each byte from the same place of its row. -/
theorem Inside.source_row (hin : Inside info sx sy dx dy w h) {j t : Nat}
    (ht : t < 4 * w) (hno : ¬ (sy = dy ∧ sx < dx ∧ dx < sx + w)) :
    source ((dy + j) * info.pitch + 4 * dx) ((sy + j) * info.pitch + 4 * sx) t =
      (sy + j) * info.pitch + 4 * sx + t := by
  have hs := hin.sx_le
  have hd := hin.dx_le
  have hp := hin.pitch
  apply source_eq
  rcases Nat.lt_trichotomy sy dy with hlt | rfl | hgt
  · right
    have hrow : (sy + j + 1) * info.pitch ≤ (dy + j) * info.pitch := Nat.mul_le_mul_right _ (by omega)
    rw [Nat.add_mul _ 1, Nat.one_mul] at hrow
    omega
  · omega
  · left
    have hrow : (dy + j + 1) * info.pitch ≤ (sy + j) * info.pitch := Nat.mul_le_mul_right _ (by omega)
    rw [Nat.add_mul _ 1, Nat.one_mul] at hrow
    omega

/-- Where they do, the pixels between the two columns repeat. -/
theorem source_overlap {base i k b : Nat} (hk : 0 < k) (hb : b < 4) :
    source (base + 4 * (sx + k)) (base + 4 * sx) (4 * i + b) = base + 4 * (sx + i % k) + b := by
  have hmod : (4 * i + b) % (4 * k) = 4 * (i % k) + b := by
    have hdiv := Nat.div_add_mod i k
    have hlt := Nat.mod_lt i hk
    have hsplit : 4 * i + b = 4 * (i % k) + b + 4 * k * (i / k) := by
      have hexp : 4 * k * (i / k) = 4 * (k * (i / k)) := by ring
      omega
    rw [hsplit, Nat.add_mul_mod_self_left, Nat.mod_eq_of_lt (by omega)]
  rw [source, if_neg (by omega), show base + 4 * (sx + k) - (base + 4 * sx) = 4 * k by omega, hmod]
  omega

/-- A blit moves its rectangle exactly if it does not move to the right over itself in its own rows, or if
each of these rows repeats with the distance of the move. -/
theorem blit_moves_iff (hin : Inside info sx sy dx dy w h) (fb : Nat → UInt8) :
    Moves info sx sy dx dy w h fb (bochsBlit info sx sy dx dy w h fb) ↔
      ¬ (sy = dy ∧ sx < dx ∧ dx < sx + w) ∨ ∀ j < h, ∀ i, dx - sx ≤ i → i < w →
        pixelBytes info fb (sx + i) (sy + j) = pixelBytes info fb (sx + (i - (dx - sx))) (sy + j) := by
  -- a pixel of the target, by the source of its bytes
  have hpixel (i j : Nat) (hi : i < w) (hj : j < h) :
      pixelBytes info (bochsBlit info sx sy dx dy w h fb) (dx + i) (dy + j) = fun b : Fin 4 => fb
        (source ((dy + j) * info.pitch + 4 * dx) ((sy + j) * info.pitch + 4 * sx) (4 * i + b)) := by
    funext b
    have hb := b.isLt
    rw [← hin.target_byte (by omega) hj (by omega) fb, pixelBytes]
    congr 1
    ring
  have hrest : ∀ p < info.width, ∀ q < info.height,
      ¬ (dx ≤ p ∧ p < dx + w ∧ dy ≤ q ∧ q < dy + h) →
        pixelBytes info (bochsBlit info sx sy dx dy w h fb) p q = pixelBytes info fb p q :=
    fun p hp q _ hout => hin.rest fb hp hout
  have hmoves : Moves info sx sy dx dy w h fb (bochsBlit info sx sy dx dy w h fb) ↔
      ∀ i < w, ∀ j < h, pixelBytes info (bochsBlit info sx sy dx dy w h fb) (dx + i) (dy + j) =
        pixelBytes info fb (sx + i) (sy + j) :=
    ⟨fun hm => hm.moved, fun hm => ⟨hm, hrest⟩⟩
  rw [hmoves]
  by_cases hno : sy = dy ∧ sx < dx ∧ dx < sx + w
  · rw [or_iff_right (not_not.mpr hno)]
    obtain ⟨rfl, hlt, -⟩ := hno
    obtain ⟨k, rfl⟩ : ∃ k, dx = sx + k := ⟨dx - sx, by omega⟩
    have hk : 0 < k := by omega
    have htarget (i j : Nat) (hi : i < w) (hj : j < h) :
        pixelBytes info (bochsBlit info sx sy (sx + k) sy w h fb) (sx + k + i) (sy + j) =
          pixelBytes info fb (sx + i % k) (sy + j) := by
      rw [hpixel i j hi hj]
      funext b
      rw [source_overlap hk b.isLt, pixelBytes]
    rw [show sx + k - sx = k by omega]
    have hrow (j : Nat) := repeats_iff (f := fun i => pixelBytes info fb (sx + i) (sy + j)) (n := w) hk
    constructor
    · intro h j hj
      apply (hrow j).mp
      intro i hi
      show pixelBytes info fb (sx + i % k) (sy + j) = _
      rw [← htarget i j hi hj]
      exact h i hi j hj
    · intro h i hi j hj
      rw [htarget i j hi hj]
      exact (hrow j).mpr (h j hj) i hi
  · refine ⟨fun _ => Or.inl hno, ?_⟩
    intro _ i hi j hj
    rw [hpixel i j hi hj]
    funext b
    have hb := b.isLt
    rw [hin.source_row (by omega) hno, pixelBytes]
    congr 1
    ring

theorem smallScreen_inside : Inside smallScreen 0 0 1 1 2 2 :=
  ⟨rfl, rfl, by decide, by decide, by decide, by decide⟩

theorem blit_moves_small :
    Moves smallScreen 0 0 1 1 2 2 (fun _ => 0) (bochsBlit smallScreen 0 0 1 1 2 2 fun _ => 0) ↔
      ¬ (0 = 1 ∧ 0 < 1 ∧ 1 < 0 + 2) ∨ ∀ j < 2, ∀ i, 1 - 0 ≤ i → i < 2 →
        pixelBytes smallScreen (fun _ => 0) (0 + i) (0 + j) =
          pixelBytes smallScreen (fun _ => 0) (0 + (i - (1 - 0))) (0 + j) :=
  blit_moves_iff smallScreen_inside _

/-- Two pixels moved one to the right in their row: the first one is there three times. -/
theorem blit_repeats : Inside smallScreen 0 0 1 0 2 1 ∧
    ¬ Moves smallScreen 0 0 1 0 2 1 (fun x => if x = 0 then 1 else 0)
      (bochsBlit smallScreen 0 0 1 0 2 1 fun x => if x = 0 then 1 else 0) := by
  refine ⟨⟨rfl, rfl, by decide, by decide, by decide, by decide⟩, ?_⟩
  intro h
  have hlast := congrFun (h.moved 1 (by decide) 0 (by decide)) 0
  exact absurd hlast (by decide)

end Os003
