import Os003.Drives.Display
import Os003.Lib.Fuel
import Os003.Lib.GridWalk

set_option autoImplicit false

/-! # Drawing a line

`bochs_line` (`drives/display.c`) plots points from one end of a line to the other. Its loop ends only when
both coordinates are those of the end point at once. As long as the ends are less than `2^29` apart in both
coordinates none of its 32-bit sums overflows, so the loop makes the steps of a walk on the grid
(`Lib/GridWalk.lean`) and comes to the end point with the last step of the longer side.
-/

namespace Os003

open GridWalk

/-- A point that `bochs_pixel` is called for. -/
structure Point where
  x : BitVec 32
  y : BitVec 32
deriving DecidableEq, Repr

/-- The variables of `bochs_line` that its loop leaves alone. -/
structure Line where
  x2 : BitVec 32
  y2 : BitVec 32
  dx : BitVec 32
  dy : BitVec 32
  sx : BitVec 32
  sy : BitVec 32

/-- The variables of the loop. -/
structure LineVars where
  x1 : BitVec 32
  y1 : BitVec 32
  err : BitVec 32

def LineVars.point (v : LineVars) : Point := ⟨v.x1, v.y1⟩

/-- `(b > a) ? (b - a) : (a - b)`. -/
def distance (a b : BitVec 32) : BitVec 32 := if a.slt b then b - a else a - b

/-- `(b > a) ? 1 : -1`. -/
def direction (a b : BitVec 32) : BitVec 32 := if a.slt b then 1 else -1

def lineOf (x1 y1 x2 y2 : BitVec 32) : Line :=
  ⟨x2, y2, distance x1 x2, distance y1 y2, direction x1 x2, direction y1 y2⟩

def lineVars (x1 y1 x2 y2 : BitVec 32) : LineVars := ⟨x1, y1, distance x1 x2 - distance y1 y2⟩

def Line.AtEnd (l : Line) (v : LineVars) : Prop := v.x1 = l.x2 ∧ v.y1 = l.y2

instance (l : Line) (v : LineVars) : Decidable (l.AtEnd v) := inferInstanceAs (Decidable (_ ∧ _))

/-- The body of the loop behind its exit. -/
def Line.body (l : Line) (v : LineVars) : LineVars :=
  let e2 := 2 * v.err
  let v := if (-l.dy).slt e2 then { v with err := v.err - l.dy, x1 := v.x1 + l.sx } else v
  if e2.slt l.dx then { v with err := v.err + l.dx, y1 := v.y1 + l.sy } else v

/-- The points plotted by the loop. -/
def Line.loop (l : Line) : (fuel : Nat) → LineVars → Option (List Point)
  | 0, _ => none
  | fuel + 1, v =>
      if l.AtEnd v then some [v.point]
      else (l.loop fuel (l.body v)).map (v.point :: ·)

/-- The points that `bochs_line` plots, in their order. -/
def linePoints (x1 y1 x2 y2 : BitVec 32) (fuel : Nat) : Option (List Point) :=
  (lineOf x1 y1 x2 y2).loop fuel (lineVars x1 y1 x2 y2)

/-- `bochs_pixel`; a coordinate left of the screen or above it is a large unsigned number. -/
def bochsPixel (info : DisplayInfo) (x y color : Nat) : List PixelStore :=
  if x < info.width ∧ y < info.height then [⟨(y * info.width + x) % 2 ^ 32, color⟩] else []

def bochsLine (info : DisplayInfo) (x1 y1 x2 y2 : BitVec 32) (color fuel : Nat) : Option (List PixelStore) :=
  (linePoints x1 y1 x2 y2 fuel).map fun points =>
    points.flatMap fun p => bochsPixel info p.x.toNat p.y.toNat color

/-! ## What a line is -/

def Point.Near (p q : Point) : Prop := |q.x.toInt - p.x.toInt| ≤ 1 ∧ |q.y.toInt - p.y.toInt| ≤ 1

/-- The point is in the smallest box around the two ends. -/
def Point.InBox (x1 y1 x2 y2 : BitVec 32) (p : Point) : Prop :=
  (min x1.toInt x2.toInt ≤ p.x.toInt ∧ p.x.toInt ≤ max x1.toInt x2.toInt) ∧
    min y1.toInt y2.toInt ≤ p.y.toInt ∧ p.y.toInt ≤ max y1.toInt y2.toInt

/-- The distance of two coordinates as a number. -/
def span (a b : BitVec 32) : Nat := (b.toInt - a.toInt).natAbs

/-- The points lead from one end to the other, as many as the longer side has. -/
structure Connects (x1 y1 x2 y2 : BitVec 32) (points : List Point) : Prop where
  length : points.length = max (span x1 x2) (span y1 y2) + 1
  first : points.head? = some ⟨x1, y1⟩
  last : points.getLast? = some ⟨x2, y2⟩
  near : points.IsChain Point.Near
  inBox : ∀ p ∈ points, p.InBox x1 y1 x2 y2

/-! ## The loop -/

/-- A loop whose exit is taken after `n` turns, and not before, plots the points of its states. -/
theorem Line.loop_settles (l : Line) {n : Nat} {v : LineVars} (hend : l.AtEnd (l.body^[n] v))
    (hrun : ∀ k < n, ¬ l.AtEnd (l.body^[k] v)) :
    Settles (fun fuel => l.loop fuel v) ((List.range (n + 1)).map fun k => (l.body^[k] v).point) := by
  induction n generalizing v with
  | zero =>
      have hnow : l.AtEnd v := hend
      apply Settles.turn rfl (fun fuel => ?_) (Settles.const _)
      rw [Line.loop, if_pos hnow]
      rfl
  | succ n ih =>
      have hrest := ih (v := l.body v) hend fun k hk => hrun (k + 1) (by omega)
      have hpoints : (List.range (n + 1 + 1)).map (fun k => (l.body^[k] v).point) =
          v.point :: (List.range (n + 1)).map fun k => (l.body^[k] (l.body v)).point := by
        rw [List.range_succ_eq_map, List.map_cons, List.map_map]
        rfl
      rw [hpoints]
      have hnow : ¬ l.AtEnd v := hrun 0 (Nat.succ_pos n)
      apply Settles.turn rfl (fun fuel => ?_) (hrest.map (h := fun points => v.point :: points))
      rw [Line.loop, if_neg hnow]

/-! ## Words that do not overflow -/

/-- A number in the range of a word is what the word for it holds. -/
theorem bmod_word {n : Int} (hlow : -2 ^ 31 ≤ n) (hhigh : n < 2 ^ 31) : n.bmod (2 ^ 32) = n :=
  Int.bmod_eq_of_le (by omega) (by omega)

theorem slt_iff (a b : BitVec 32) : a.slt b = true ↔ a.toInt < b.toInt := by
  rw [BitVec.slt_eq_decide, decide_eq_true_iff]

theorem toInt_distance {a b : BitVec 32} (h : span a b < 2 ^ 31) : (distance a b).toInt = span a b := by
  rw [span] at h ⊢
  rw [distance]
  by_cases hlt : a.slt b = true
  · have hab := (slt_iff a b).mp hlt
    rw [if_pos hlt, BitVec.toInt_sub, bmod_word (by omega) (by omega)]
    omega
  · have hab := mt (slt_iff a b).mpr hlt
    rw [if_neg hlt, BitVec.toInt_sub, bmod_word (by omega) (by omega)]
    omega

/-- The coordinate after `i` steps from `a` towards `b`. -/
def position (a b : BitVec 32) (i : Nat) : Int := if a.toInt < b.toInt then a.toInt + i else a.toInt - i

section Position

variable {a b c : BitVec 32} {i j : Nat}

theorem position_mem (hi : i ≤ span a b) :
    min a.toInt b.toInt ≤ position a b i ∧ position a b i ≤ max a.toInt b.toInt := by
  rw [span] at hi
  rw [position]
  split <;> omega

theorem position_eq_iff (hi : i ≤ span a b) : position a b i = b.toInt ↔ i = span a b := by
  rw [span] at hi ⊢
  rw [position]
  split <;> omega

theorem position_near (hle : i ≤ j) (hj : j ≤ i + 1) : |position a b j - position a b i| ≤ 1 := by
  rw [position, position, abs_le]
  split <;> omega

/-- A step towards `b` that does not go past it. -/
theorem toInt_add_direction (hc : c.toInt = position a b i) (hi : i + 1 ≤ span a b) :
    (c + direction a b).toInt = position a b (i + 1) := by
  have hmem := position_mem hi
  have ha := a.le_toInt
  have ha' := a.toInt_lt
  have hb := b.le_toInt
  have hb' := b.toInt_lt
  have hstep : c.toInt + (direction a b).toInt = position a b (i + 1) := by
    rw [hc, position, position, direction]
    by_cases hlt : a.toInt < b.toInt
    · rw [if_pos hlt, if_pos hlt, if_pos ((slt_iff a b).mpr hlt)]
      push_cast
      rw [add_assoc]
    · rw [if_neg hlt, if_neg hlt, if_neg (mt (slt_iff a b).mp hlt)]
      push_cast
      rw [sub_add_eq_sub_sub]
      rfl
  rw [BitVec.toInt_add, hstep, bmod_word (by omega) (by omega)]

end Position

/-! ## The loop makes the walk -/

section Line

variable {x1 y1 x2 y2 : BitVec 32}

/-- The variables are at the place of the walk. -/
structure Tracks (x1 y1 x2 y2 : BitVec 32) (w : Walk) (v : LineVars) : Prop where
  x : v.x1.toInt = position x1 x2 w.i
  y : v.y1.toInt = position y1 y2 w.j
  err : v.err.toInt = w.err

theorem tracks_start (hx : span x1 x2 < 2 ^ 29) (hy : span y1 y2 < 2 ^ 29) :
    Tracks x1 y1 x2 y2 (start (span x1 x2) (span y1 y2)) (lineVars x1 y1 x2 y2) where
  x := by simp [lineVars, start, position]
  y := by simp [lineVars, start, position]
  err := by
    rw [lineVars, start, BitVec.toInt_sub, toInt_distance (by omega), toInt_distance (by omega)]
    exact bmod_word (by omega) (by omega)

/-- The error term with the half-made step in it. -/
theorem Line.body_err (l : Line) (v : LineVars) : (l.body v).err =
    if (2 * v.err).slt l.dx then (if (-l.dy).slt (2 * v.err) then v.err - l.dy else v.err) + l.dx
    else if (-l.dy).slt (2 * v.err) then v.err - l.dy else v.err := by
  rw [Line.body]
  split_ifs <;> rfl

theorem Line.body_x1 (l : Line) (v : LineVars) :
    (l.body v).x1 = if (-l.dy).slt (2 * v.err) then v.x1 + l.sx else v.x1 := by
  rw [Line.body]
  split_ifs <;> rfl

theorem Line.body_y1 (l : Line) (v : LineVars) :
    (l.body v).y1 = if (2 * v.err).slt l.dx then v.y1 + l.sy else v.y1 := by
  rw [Line.body]
  split_ifs <;> rfl

/-- One turn of the loop is one step of the walk. -/
theorem Tracks.body {w : Walk} {v : LineVars} (ht : Tracks x1 y1 x2 y2 w v) (hx : span x1 x2 < 2 ^ 29)
    (hy : span y1 y2 < 2 ^ 29) (herr : |2 * w.err| ≤ 3 * (max (span x1 x2) (span y1 y2) : Nat))
    (hi : (step (span x1 x2) (span y1 y2) w).i ≤ span x1 x2)
    (hj : (step (span x1 x2) (span y1 y2) w).j ≤ span y1 y2) :
    Tracks x1 y1 x2 y2 (step (span x1 x2) (span y1 y2) w) ((lineOf x1 y1 x2 y2).body v) := by
  have hdx : (distance x1 x2).toInt = span x1 x2 := toInt_distance (by omega)
  have hdy : (distance y1 y2).toInt = span y1 y2 := toInt_distance (by omega)
  rw [abs_le] at herr
  have he2 : (2 * v.err).toInt = 2 * w.err := by
    rw [BitVec.toInt_mul, ht.err]
    exact bmod_word (by show -2 ^ 31 ≤ 2 * w.err; omega) (by show 2 * w.err < 2 ^ 31; omega)
  have hgox : (-distance y1 y2).slt (2 * v.err) = true ↔ -span y1 y2 < 2 * w.err := by
    rw [slt_iff, he2, BitVec.toInt_neg, hdy, bmod_word (by omega) (by omega)]
  have hgoy : (2 * v.err).slt (distance x1 x2) = true ↔ 2 * w.err < span x1 x2 := by
    rw [slt_iff, he2, hdx]
  simp only [step] at hi hj
  refine ⟨?_, ?_, ?_⟩
  · rw [Line.body_x1]
    simp only [lineOf, step, hgox]
    by_cases hgo : -(span y1 y2 : Int) < 2 * w.err
    · rw [if_pos hgo] at hi
      rw [if_pos hgo, if_pos hgo, toInt_add_direction ht.x hi]
    · rw [if_neg hgo, if_neg hgo, ht.x]
  · rw [Line.body_y1]
    simp only [lineOf, step, hgoy]
    by_cases hgo : 2 * w.err < span x1 x2
    · rw [if_pos hgo] at hj
      rw [if_pos hgo, if_pos hgo, toInt_add_direction ht.y hj]
    · rw [if_neg hgo, if_neg hgo, ht.y]
  · have hsub : (if -(span y1 y2 : Int) < 2 * w.err then v.err - distance y1 y2 else v.err).toInt =
        w.err - if -(span y1 y2 : Int) < 2 * w.err then (span y1 y2 : Int) else 0 := by
      split
      · rw [BitVec.toInt_sub, ht.err, hdy, bmod_word (by omega) (by omega)]
      · rw [ht.err, sub_zero]
    rw [Line.body_err]
    simp only [lineOf, step, hgox, hgoy]
    by_cases hgo : 2 * w.err < span x1 x2
    · rw [if_pos hgo, if_pos hgo, BitVec.toInt_add, hsub, hdx]
      apply bmod_word
      · split <;> omega
      · split <;> omega
    · rw [if_neg hgo, if_neg hgo, hsub, add_zero]

theorem tracks_after (hx : span x1 x2 < 2 ^ 29) (hy : span y1 y2 < 2 ^ 29) {k : Nat}
    (hk : k ≤ max (span x1 x2) (span y1 y2)) :
    Tracks x1 y1 x2 y2 (after (span x1 x2) (span y1 y2) k)
      ((lineOf x1 y1 x2 y2).body^[k] (lineVars x1 y1 x2 y2)) := by
  induction k with
  | zero => exact tracks_start hx hy
  | succ k ih =>
      have hnow := within_after (Nat.le_of_succ_le hk)
      have hnext := within_after hk
      rw [after_succ] at hnext ⊢
      rw [Function.iterate_succ_apply']
      exact (ih (Nat.le_of_succ_le hk)).body hx hy hnow.err_le hnext.i_le hnext.j_le

/-- The exit is taken where the walk is in its corner. -/
theorem Tracks.atEnd_iff {w : Walk} {v : LineVars} {k : Nat} (ht : Tracks x1 y1 x2 y2 w v)
    (hw : Within (span x1 x2) (span y1 y2) k w) :
    (lineOf x1 y1 x2 y2).AtEnd v ↔ k = max (span x1 x2) (span y1 y2) := by
  rw [Line.AtEnd, ← hw.corner, ← BitVec.toInt_inj, ← BitVec.toInt_inj, ht.x, ht.y]
  exact and_congr (position_eq_iff hw.i_le) (position_eq_iff hw.j_le)

/-- The points of the states that the loop goes through. -/
def pathPoints (x1 y1 x2 y2 : BitVec 32) : List Point :=
  (List.range (max (span x1 x2) (span y1 y2) + 1)).map fun k =>
    ((lineOf x1 y1 x2 y2).body^[k] (lineVars x1 y1 x2 y2)).point

theorem linePoints_settles (hx : span x1 x2 < 2 ^ 29) (hy : span y1 y2 < 2 ^ 29) :
    Settles (linePoints x1 y1 x2 y2) (pathPoints x1 y1 x2 y2) := by
  apply Line.loop_settles
  · exact ((tracks_after hx hy le_rfl).atEnd_iff (within_after le_rfl)).mpr rfl
  · intro k hk hend
    exact hk.ne (((tracks_after hx hy hk.le).atEnd_iff (within_after hk.le)).mp hend)

theorem Tracks.inBox {w : Walk} {v : LineVars} {k : Nat} (ht : Tracks x1 y1 x2 y2 w v)
    (hw : Within (span x1 x2) (span y1 y2) k w) : v.point.InBox x1 y1 x2 y2 := by
  rw [Point.InBox, LineVars.point, ht.x, ht.y]
  exact ⟨position_mem hw.i_le, position_mem hw.j_le⟩

/-- A step of the walk leads to a neighbour. -/
theorem Tracks.near {w : Walk} {v v' : LineVars} (ht : Tracks x1 y1 x2 y2 w v)
    (ht' : Tracks x1 y1 x2 y2 (step (span x1 x2) (span y1 y2) w) v') : v.point.Near v'.point := by
  obtain ⟨⟨hi, hi'⟩, hj, hj'⟩ := step_near (span x1 x2) (span y1 y2) w
  rw [Point.Near, LineVars.point, LineVars.point, ht.x, ht.y, ht'.x, ht'.y]
  exact ⟨position_near hi hi', position_near hj hj'⟩

theorem pathPoints_connects (hx : span x1 x2 < 2 ^ 29) (hy : span y1 y2 < 2 ^ 29) :
    Connects x1 y1 x2 y2 (pathPoints x1 y1 x2 y2) where
  length := by rw [pathPoints, List.length_map, List.length_range]
  first := by
    rw [pathPoints, List.range_succ_eq_map]
    rfl
  last := by
    obtain ⟨hex, hey⟩ := ((tracks_after hx hy le_rfl).atEnd_iff (within_after le_rfl)).mpr rfl
    rw [pathPoints, List.range_succ, List.map_append, List.map_singleton, List.getLast?_concat,
      LineVars.point, hex, hey]
    rfl
  near := by
    rw [pathPoints, List.isChain_map, List.isChain_range_succ]
    intro k hk
    have hnext := tracks_after hx hy (show k + 1 ≤ max (span x1 x2) (span y1 y2) from hk)
    rw [after_succ] at hnext
    exact (tracks_after hx hy hk.le).near hnext
  inBox := by
    intro p hp
    rw [pathPoints, List.mem_map] at hp
    obtain ⟨k, hk, rfl⟩ := hp
    rw [List.mem_range, Nat.lt_succ_iff] at hk
    exact (tracks_after hx hy hk).inBox (within_after hk)

/-- The loop ends on the end point. -/
theorem bochsLine_ends (x1 y1 x2 y2 : BitVec 32) (hx : |x2.toInt - x1.toInt| < 2 ^ 29)
    (hy : |y2.toInt - y1.toInt| < 2 ^ 29) :
    ∃ points, Settles (linePoints x1 y1 x2 y2) points ∧ Connects x1 y1 x2 y2 points := by
  have hx' : span x1 x2 < 2 ^ 29 := by
    rw [abs_lt] at hx
    rw [span]
    omega
  have hy' : span y1 y2 < 2 ^ 29 := by
    rw [abs_lt] at hy
    rw [span]
    omega
  exact ⟨_, linePoints_settles hx' hy', pathPoints_connects hx' hy'⟩

theorem bochsLine_ends_steep :
    ∃ points, Settles (linePoints (-1) 7 2 0) points ∧ Connects (-1) 7 2 0 points :=
  bochsLine_ends (-1) 7 2 0 (by decide) (by decide)

/-! ## What is stored -/

/-- The unsigned comparison with an edge of the screen tells the negative coordinates too. -/
theorem toNat_lt_iff {c : BitVec 32} {n : Nat} (hn : n < 2 ^ 16) :
    c.toNat < n ↔ 0 ≤ c.toInt ∧ c.toInt < n := by
  have hlt := c.isLt
  rw [BitVec.toInt_eq_toNat_cond]
  split <;> omega

def Point.OnScreen (info : DisplayInfo) (p : Point) : Prop :=
  (0 ≤ p.x.toInt ∧ p.x.toInt < info.width) ∧ 0 ≤ p.y.toInt ∧ p.y.toInt < info.height

theorem mem_bochsPixel {info : DisplayInfo} {p : Point} {color : Nat} {s : PixelStore} :
    s ∈ bochsPixel info p.x.toNat p.y.toNat color ↔
      s.color = color ∧ p.OnScreen info ∧ s.cell = p.y.toNat * info.width + p.x.toNat := by
  have hon : p.x.toNat < info.width ∧ p.y.toNat < info.height ↔ p.OnScreen info :=
    and_congr (toNat_lt_iff info.width_lt) (toNat_lt_iff info.height_lt)
  rw [bochsPixel]
  by_cases hin : p.x.toNat < info.width ∧ p.y.toNat < info.height
  · rw [if_pos hin, List.mem_singleton, Nat.mod_eq_of_lt (index_lt hin.1 hin.2.le)]
    constructor
    · rintro rfl
      exact ⟨rfl, hon.mp hin, rfl⟩
    · rintro ⟨hcolor, -, hcell⟩
      rw [← hcolor, ← hcell]
  · rw [if_neg hin]
    simp [mt hon.mpr hin]

/-- The stores are those of the colour into the points of the line that are on the screen. -/
theorem bochsLine_draws (info : DisplayInfo) (color : Nat) (hx : span x1 x2 < 2 ^ 29)
    (hy : span y1 y2 < 2 ^ 29) :
    ∃ stores, Settles (bochsLine info x1 y1 x2 y2 color) stores ∧
      ∀ s, s ∈ stores ↔ s.color = color ∧ ∃ p ∈ pathPoints x1 y1 x2 y2,
        p.OnScreen info ∧ s.cell = p.y.toNat * info.width + p.x.toNat := by
  refine ⟨_, (linePoints_settles hx hy).map, ?_⟩
  intro s
  simp only [List.mem_flatMap, mem_bochsPixel]
  constructor
  · rintro ⟨p, hp, hcolor, hrest⟩
    exact ⟨hcolor, p, hp, hrest⟩
  · rintro ⟨hcolor, p, hp, hrest⟩
    exact ⟨p, hp, hcolor, hrest⟩

end Line

end Os003
