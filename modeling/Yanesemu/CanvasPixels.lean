import Yanesemu.Canvas
import Yanesemu.Lib.Cells

/-!
# Pixels of a canvas

The pixels of a canvas share out its frame buffer: each has four bytes, and each byte belongs to
one pixel (`Pixel.exists_has`, `Pixel.eq_of_has`). So a canvas that is drawn on holds, at each
pixel, the last colour drawn there.

The assertion of `drawpixel` wants a positive position, but the first pixel of the last row has
position 0 (`posAssert_iff`). A program that draws there ends.
-/

namespace Yanesemu.Canvas

open EventRun

/-- A pixel of a canvas with these sizes. -/
structure Pixel (w h : ℕ) where
  x : Uint64
  y : Uint64
  hx : x.toNat < w
  hy : y.toNat < h
  deriving DecidableEq

/-- The byte `i` of a colour, the highest one first. -/
def byteOf (color : Uint32) (i : ℕ) : Uint8 := (color >>> (24 - 8 * i)).setWidth 8

theorem append_byteOf (color : Uint32) :
    byteOf color 0 ++ byteOf color 1 ++ byteOf color 2 ++ byteOf color 3 = color := by
  ext i hi
  simp only [byteOf, BitVec.getElem_append, BitVec.getElem_setWidth, BitVec.getLsbD_ushiftRight]
  split_ifs <;> rw [← BitVec.getLsbD_eq_getElem] <;> congr 1 <;> omega

variable {w h : ℕ}

namespace Pixel

/-- Where the bytes of a pixel start; the rows are stored from the bottom up. -/
def offset (p : Pixel w h) : ℕ := 4 * ((h - 1 - p.y.toNat) * w + p.x.toNat)

/-- The first pixel of the last row. -/
def IsFirst (p : Pixel w h) : Prop := p.x.toNat = 0 ∧ p.y.toNat = h - 1

@[ext] theorem ext {p q : Pixel w h} (hx : p.x.toNat = q.x.toNat) (hy : p.y.toNat = q.y.toNat) :
    p = q := by
  obtain ⟨x, y, _, _⟩ := p
  obtain ⟨x', y', _, _⟩ := q
  obtain rfl := BitVec.eq_of_toNat_eq hx
  obtain rfl := BitVec.eq_of_toNat_eq hy
  rfl

theorem offset_eq_zero_iff (p : Pixel w h) : p.offset = 0 ↔ p.IsFirst := by
  have hx := p.hx
  have hy := p.hy
  have hrow : (h - 1 - p.y.toNat) * w = 0 ↔ p.y.toNat = h - 1 := by
    rw [Nat.mul_eq_zero]
    omega
  unfold offset IsFirst
  rw [← hrow]
  omega

theorem offset_lt (p : Pixel w h) : p.offset + 4 ≤ w * h * 4 := by
  have := row_add_lt p.hx p.hy
  unfold offset
  omega

/-- The offset tells row and column. -/
theorem offset_div (p : Pixel w h) :
    p.offset / 4 / w = h - 1 - p.y.toNat ∧ p.offset / 4 % w = p.x.toNat := by
  have hw : 0 < w := Nat.zero_lt_of_lt p.hx
  unfold offset
  rw [Nat.mul_div_cancel_left _ (by decide : 0 < 4), Nat.mul_comm, Nat.mul_add_div hw,
    Nat.mul_add_mod, Nat.div_eq_of_lt p.hx, Nat.mod_eq_of_lt p.hx]
  exact ⟨rfl, rfl⟩

/-- `b` is one of the four bytes of the pixel. -/
def Has (p : Pixel w h) (b : ℕ) : Prop := p.offset ≤ b ∧ b < p.offset + 4

instance (p : Pixel w h) (b : ℕ) : Decidable (p.Has b) := inferInstanceAs (Decidable (_ ∧ _))

theorem Has.div {p : Pixel w h} {b : ℕ} (hb : p.Has b) : b / 4 = p.offset / 4 := by
  obtain ⟨hlo, hhi⟩ := hb
  unfold offset at *
  omega

/-- Distinct pixels have distinct bytes. -/
theorem eq_of_has {p q : Pixel w h} {b : ℕ} (hp : p.Has b) (hq : q.Has b) : p = q := by
  obtain ⟨hpy, hpx⟩ := p.offset_div
  obtain ⟨hqy, hqx⟩ := q.offset_div
  rw [← hp.div, hq.div] at hpy hpx
  have hy := p.hy
  have hy' := q.hy
  apply ext
  · omega
  · omega

/-- Every byte of the frame buffer belongs to a pixel. -/
theorem exists_has (hwh : w * h * 4 < 2 ^ 32) {b : ℕ} (hb : b < w * h * 4) :
    ∃ p : Pixel w h, p.Has b := by
  have hk : b / 4 < w * h := by omega
  have hw : 0 < w := Nat.pos_of_mul_pos_right (Nat.zero_lt_of_lt hk)
  obtain ⟨row, col, hb4, hcol, hrow⟩ : ∃ row col, b / 4 = row * w + col ∧ col < w ∧ row < h :=
    ⟨b / 4 / w, b / 4 % w, (Nat.div_add_mod' _ w).symm, Nat.mod_lt _ hw,
      (Nat.div_lt_iff_lt_mul hw).mpr (by rwa [Nat.mul_comm])⟩
  have hw' : w ≤ w * h := Nat.le_mul_of_pos_right w (Nat.zero_lt_of_lt hrow)
  have hh' : h ≤ w * h := Nat.le_mul_of_pos_left h hw
  have hx : (BitVec.ofNat 64 col).toNat = col := by
    rw [BitVec.toNat_ofNat]
    omega
  have hy : (BitVec.ofNat 64 (h - 1 - row)).toNat = h - 1 - row := by
    rw [BitVec.toNat_ofNat]
    omega
  refine ⟨⟨BitVec.ofNat 64 col, BitVec.ofNat 64 (h - 1 - row), ?_, ?_⟩, ?_⟩
  · rwa [hx]
  · rw [hy]
    omega
  · have hback : h - 1 - (h - 1 - row) = row := by omega
    unfold Has offset
    dsimp only
    rw [hx, hy, hback, ← hb4]
    omega

end Pixel

/-! ### Drawing -/

section Draw

variable {mem : ℕ → Uint8} (hwh : w * h * 4 < 2 ^ 32)

/-- The call of `drawpixel` for a pixel and a colour, if it is compiled without its assertion. -/
def draw (c : Canvas) (d : Pixel w h × Uint32) : Canvas := c.drawpixel d.1.x d.1.y d.2

/-- A failed assertion ends the program. -/
def drawChecked (c : Canvas) (d : Pixel w h × Uint32) : Option Canvas :=
  if c.posAssert (c.pos d.1.x d.1.y) then some (c.draw d) else none

/-- The colour the four bytes of a pixel hold. -/
def colorAt (c : Canvas) (p : Pixel w h) : Uint32 :=
  c.frame p.offset ++ c.frame (p.offset + 1) ++ c.frame (p.offset + 2) ++ c.frame (p.offset + 3)

theorem colorAt_eq {c : Canvas} {p : Pixel w h} {color : Uint32}
    (hbytes : ∀ i < 4, c.frame (p.offset + i) = byteOf color i) : c.colorAt p = color := by
  have hfirst : c.frame p.offset = byteOf color 0 := hbytes 0 (by decide)
  unfold colorAt
  rw [hfirst, hbytes 1 (by decide), hbytes 2 (by decide), hbytes 3 (by decide), append_byteOf]

theorem colorAt_congr {c c' : Canvas} {p : Pixel w h}
    (hbytes : ∀ i < 4, c.frame (p.offset + i) = c'.frame (p.offset + i)) :
    c.colorAt p = c'.colorAt p := by
  have hfirst : c.frame p.offset = c'.frame p.offset := hbytes 0 (by decide)
  unfold colorAt
  rw [hfirst, hbytes 1 (by decide), hbytes 2 (by decide), hbytes 3 (by decide)]

theorem draw_sized (d : Pixel w h × Uint32) :
    (sized w h mem).draw d = sized w h ((sized w h mem).draw d).frame := rfl

include hwh

theorem toNat_pos_pixel (p : Pixel w h) : ((sized w h mem).pos p.x p.y).toNat = p.offset := by
  rw [toNat_pos mem hwh p.hx p.hy, Nat.mul_comm]
  rfl

/-- A draw changes the bytes of its pixel, and no others. -/
theorem frame_draw (p : Pixel w h) (color : Uint32) (b : ℕ) :
    ((sized w h mem).draw (p, color)).frame b =
      if p.Has b then byteOf color (b - p.offset) else mem b := by
  have hlt := p.offset_lt
  have hpos (k : ℕ) (hk : k < 4) :
      ((sized w h mem).pos p.x p.y + BitVec.ofNat 64 k).toNat = p.offset + k := by
    rw [BitVec.toNat_add, toNat_pos_pixel hwh, BitVec.toNat_ofNat]
    omega
  have h1 := hpos 1 (by decide)
  have h2 := hpos 2 (by decide)
  have h3 := hpos 3 (by decide)
  unfold draw drawpixel
  dsimp only
  rw [toNat_pos_pixel hwh, show ((sized w h mem).pos p.x p.y + 1).toNat = _ from h1,
    show ((sized w h mem).pos p.x p.y + 2).toNat = _ from h2,
    show ((sized w h mem).pos p.x p.y + 3).toNat = _ from h3]
  split_ifs with hb
  · obtain ⟨hlo, hhi⟩ := hb
    obtain ⟨k, rfl⟩ := Nat.exists_eq_add_of_le hlo
    have hk : k < 4 := by omega
    rw [Nat.add_sub_cancel_left]
    interval_cases k <;> simp [byteOf]
  · have hne (k : ℕ) (hk : k < 4) : b ≠ p.offset + k := by
      rintro rfl
      exact hb ⟨by omega, by omega⟩
    have hne0 : b ≠ p.offset := hne 0 (by decide)
    rw [Function.update_of_ne (hne 3 (by decide)), Function.update_of_ne (hne 2 (by decide)),
      Function.update_of_ne (hne 1 (by decide)), Function.update_of_ne hne0]
    rfl

theorem posAssert_iff (p : Pixel w h) :
    (sized w h mem).posAssert ((sized w h mem).pos p.x p.y) = true ↔ ¬p.IsFirst := by
  rw [← Pixel.offset_eq_zero_iff]
  constructor
  · intro hassert
    unfold posAssert at hassert
    rw [Bool.and_eq_true, decide_eq_true_eq, toNat_pos_pixel hwh] at hassert
    exact Nat.ne_of_gt hassert.1
  · intro hne
    refine (accepts_of_lt mem hwh p.hx p.hy ?_).assert
    unfold Pixel.offset at hne
    omega

theorem colorAt_draw_self (d : Pixel w h × Uint32) :
    ((sized w h mem).draw d).colorAt d.1 = d.2 := by
  apply colorAt_eq
  intro i hi
  rw [frame_draw hwh d.1 d.2, if_pos ⟨by omega, by omega⟩, Nat.add_sub_cancel_left]

theorem colorAt_draw_of_ne {d : Pixel w h × Uint32} {p : Pixel w h} (hne : d.1 ≠ p) :
    ((sized w h mem).draw d).colorAt p = (sized w h mem).colorAt p := by
  apply colorAt_congr
  intro i hi
  rw [frame_draw hwh d.1 d.2, if_neg]
  · rfl
  · intro hd
    exact hne (Pixel.eq_of_has hd ⟨by omega, by omega⟩)

/-- Once drawn on, a canvas holds at each pixel the last colour drawn there. -/
theorem colorAt_draws (draws : List (Pixel w h × Uint32)) (p : Pixel w h) :
    (after draw (sized w h mem) draws).colorAt p =
      (lastWrite (· = p) draws).getD ((sized w h mem).colorAt p) := by
  refine read_after_writes (I := fun c => ∃ mem, c = sized w h mem) (fun c => c.colorAt p)
    ?_ ?_ ?_ ⟨mem, rfl⟩ draws
  · rintro c d ⟨mem, rfl⟩
    exact ⟨_, draw_sized d⟩
  · rintro c d ⟨mem, rfl⟩ rfl
    exact colorAt_draw_self hwh d
  · rintro c d ⟨mem, rfl⟩ hne
    exact colorAt_draw_of_ne hwh hne

/-- Nothing is drawn outside the frame buffer. -/
theorem frame_draws (draws : List (Pixel w h × Uint32)) {b : ℕ} (hb : w * h * 4 ≤ b) :
    (after draw (sized w h mem) draws).frame b = mem b := by
  induction draws generalizing mem with
  | nil => rfl
  | cons d draws ih =>
    rw [after_cons, draw_sized, ih, frame_draw hwh d.1 d.2, if_neg]
    intro hd
    have hlt := d.1.offset_lt
    have hhi := hd.2
    omega

/-- The draws come to their end exactly if none is at the first pixel. -/
theorem drawChecked_draws (draws : List (Pixel w h × Uint32)) (c : Canvas) :
    draws.foldlM drawChecked (sized w h mem) = some c ↔
      (∀ d ∈ draws, ¬d.1.IsFirst) ∧ c = after draw (sized w h mem) draws := by
  induction draws generalizing mem with
  | nil => simp [eq_comm]
  | cons d draws ih =>
    rw [List.foldlM_cons, List.forall_mem_cons, after_cons]
    by_cases hfirst : d.1.IsFirst
    · have hd : drawChecked (sized w h mem) d = none :=
        if_neg fun hassert => (posAssert_iff hwh d.1).mp hassert hfirst
      simp [hd, hfirst]
    · have hd : drawChecked (sized w h mem) d = some ((sized w h mem).draw d) :=
        if_pos ((posAssert_iff hwh d.1).mpr hfirst)
      rw [hd, Option.bind_eq_bind, Option.bind_some, draw_sized, ih, and_iff_right hfirst]

theorem size_sized : (sized w h mem).size = w * h * 4 := by
  show (BitVec.ofNat 64 w * BitVec.ofNat 64 h * 4).toNat = w * h * 4
  rw [BitVec.toNat_mul, ← BitVec.ofNat_mul, BitVec.toNat_ofNat]
  show w * h % 2 ^ 64 * 4 % 2 ^ 64 = w * h * 4
  omega

omit hwh in
/-- If every pixel is drawn with its colour, that is what was last written. -/
theorem lastWrite_picture {ps : List (Pixel w h)} (color : Pixel w h → Uint32) {p : Pixel w h}
    (hp : p ∈ ps) : lastWrite (· = p) (ps.map fun q => (q, color q)) = some (color p) := by
  induction ps using List.reverseRecOn with
  | nil => cases hp
  | append_singleton ps q ih =>
    rw [List.map_append, List.map_singleton, lastWrite_concat]
    dsimp only
    split_ifs with hq
    · rw [hq]
    · refine ih ((List.mem_append.mp hp).resolve_right fun hlast => ?_)
      exact hq (List.mem_singleton.mp hlast).symm

/-- The call for a pixel meets its assertion and writes the four bytes of the pixel, which are in
the frame buffer, and no others. -/
structure Drawn (mem : ℕ → Uint8) (p : Pixel w h) : Prop where
  assert : (sized w h mem).posAssert ((sized w h mem).pos p.x p.y) = true
  inside : p.offset + 4 ≤ (sized w h mem).size
  frame : ∀ color b, ((sized w h mem).drawpixel p.x p.y color).frame b =
    if p.Has b then byteOf color (b - p.offset) else mem b

/-- **Drawing.** A pixel is drawn as it should be exactly if it is not the first of the last row,
which fails the assertion. Each byte of the frame buffer belongs to one pixel; pixels drawn in any
order, if the assertion is left out, fill it with their colours, and draws come to their end with
the assertion exactly if none is at that pixel. -/
theorem drawpixel_iff :
    (∀ (mem : ℕ → Uint8) (p : Pixel w h), Drawn mem p ↔ ¬p.IsFirst) ∧
    (∀ b < w * h * 4, ∃! p : Pixel w h, p.Has b) ∧
    (∀ (mem : ℕ → Uint8) (ps : List (Pixel w h)) (color : Pixel w h → Uint32), (∀ p, p ∈ ps) →
      ∀ p, (after draw (sized w h mem) (ps.map fun q => (q, color q))).colorAt p = color p) ∧
    ∀ (mem : ℕ → Uint8) (draws : List (Pixel w h × Uint32)),
      (∃ c, draws.foldlM drawChecked (sized w h mem) = some c ∧
        (∀ p, c.colorAt p = (lastWrite (· = p) draws).getD ((sized w h mem).colorAt p)) ∧
        ∀ b, (sized w h mem).size ≤ b → c.frame b = mem b) ↔
      ∀ d ∈ draws, ¬d.1.IsFirst := by
  refine ⟨?_, ?_, ?_, ?_⟩
  · intro mem p
    refine ⟨fun h => (posAssert_iff hwh p).mp h.assert, fun hfirst => ?_⟩
    refine ⟨(posAssert_iff hwh p).mpr hfirst, ?_, frame_draw hwh p⟩
    rw [size_sized hwh]
    exact p.offset_lt
  · intro b hb
    obtain ⟨p, hp⟩ := Pixel.exists_has hwh hb
    exact ⟨p, hp, fun q hq => Pixel.eq_of_has hq hp⟩
  · intro mem ps color hall p
    rw [colorAt_draws hwh, lastWrite_picture color (hall p), Option.getD_some]
  · intro mem draws
    constructor
    · rintro ⟨c, hc, -⟩
      exact ((drawChecked_draws hwh draws c).mp hc).1
    · intro hfirst
      refine ⟨_, (drawChecked_draws hwh draws _).mpr ⟨hfirst, rfl⟩, colorAt_draws hwh draws, ?_⟩
      intro b hb
      rw [size_sized hwh] at hb
      exact frame_draws hwh draws hb

end Draw

/-- The last pixel of the PPU's picture. -/
theorem drawpixel_last :
    Drawn (fun _ => 0) (⟨255, 239, by decide, by decide⟩ : Pixel 256 240) := by
  obtain ⟨hdrawn, -⟩ := drawpixel_iff (w := 256) (h := 240) (by decide)
  refine (hdrawn _ _).mpr ?_
  rintro ⟨hx, -⟩
  exact absurd hx (by decide)

/-- The first pixel of its last line fails the assertion. -/
theorem not_drawn_first :
    ¬Drawn (fun _ => 0) (⟨0, 239, by decide, by decide⟩ : Pixel 256 240) := by
  intro h
  exact (posAssert_iff (by decide) _).mp h.assert ⟨rfl, rfl⟩

end Yanesemu.Canvas
