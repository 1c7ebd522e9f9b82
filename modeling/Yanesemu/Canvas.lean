import Yanesemu.Bits

/-!
# The canvas

`Video::Canvas` of `video/video.hpp` with `drawpixel` of `video/video.cpp`. The texture's sizes
are `size_t` but `width()` and `height()` return `unsigned`, so the assertion of `drawpixel` is
computed on 32 bits and the position on 64. The frame buffer is a length with a total function;
its contents are whatever `new` found.
-/

namespace Yanesemu

structure Canvas where
  /-- `Texture::tw` and `Texture::th`. -/
  tw : Uint64
  th : Uint64
  /-- The bytes `frame` points to, and how many of them there are. -/
  size : ℕ
  frame : ℕ → Uint8

namespace Canvas

/-- The constructor, on memory with contents `mem`. -/
def new (width height : Uint64) (mem : ℕ → Uint8) : Canvas :=
  { tw := width, th := height, size := (width * height * 4).toNat, frame := mem }

def width (c : Canvas) : Uint32 := c.tw.setWidth 32

def height (c : Canvas) : Uint32 := c.th.setWidth 32

/-- The index of the first byte of a pixel; the rows are stored from the bottom up. -/
def pos (c : Canvas) (x y : Uint64) : Uint64 :=
  let realY : Uint64 := (c.height - 1).setWidth 64 - y
  (realY * c.width.setWidth 64 + x) * 4

/-- The assertion of `drawpixel`. -/
def posAssert (c : Canvas) (pos : Uint64) : Bool :=
  decide (0 < pos.toNat) && decide (pos.toNat < (c.width * c.height * 4).toNat)

def drawpixel (c : Canvas) (x y : Uint64) (color : Uint32) : Canvas :=
  let pos := c.pos x y
  let frame := Function.update c.frame pos.toNat ((color >>> 24).setWidth 8)
  let frame := Function.update frame (pos + 1).toNat ((color >>> 16).setWidth 8)
  let frame := Function.update frame (pos + 2).toNat ((color >>> 8).setWidth 8)
  let frame := Function.update frame (pos + 3).toNat (color.setWidth 8)
  { c with frame := frame }

/-- The call meets its assertion, and the four bytes it writes are in the frame buffer. -/
structure Accepts (c : Canvas) (x y : Uint64) : Prop where
  assert : c.posAssert (c.pos x y) = true
  frame : ∀ i < 4, (c.pos x y + BitVec.ofNat 64 i).toNat < c.size

/-! ### Positions -/

section Pos

variable {w h : ℕ} {x y : Uint64} (mem : ℕ → Uint8)

/-- The canvas with these sizes. -/
abbrev sized (w h : ℕ) (mem : ℕ → Uint8) : Canvas := new (BitVec.ofNat 64 w) (BitVec.ofNat 64 h) mem

theorem toNat_width (hw : w < 2 ^ 32) : (sized w h mem).width.toNat = w := by
  show ((BitVec.ofNat 64 w).setWidth 32).toNat = w
  rw [BitVec.toNat_setWidth, BitVec.toNat_ofNat]
  omega

theorem toNat_height (hh : h < 2 ^ 32) : (sized w h mem).height.toNat = h := by
  show ((BitVec.ofNat 64 h).setWidth 32).toNat = h
  rw [BitVec.toNat_setWidth, BitVec.toNat_ofNat]
  omega

/-- A pixel of the canvas is inside the product of its sizes. -/
theorem row_add_lt {x y : ℕ} (hx : x < w) (hy : y < h) : (h - 1 - y) * w + x < w * h := by
  calc (h - 1 - y) * w + x < (h - 1 - y) * w + w := Nat.add_lt_add_left hx _
    _ = (h - y) * w := by rw [← Nat.succ_mul]; congr 1; omega
    _ ≤ w * h := by rw [Nat.mul_comm w h]; exact Nat.mul_le_mul_right w (Nat.sub_le h y)

/-- No step of the computation of a position overflows. -/
theorem toNat_pos (hwh : w * h * 4 < 2 ^ 32) (hx : x.toNat < w) (hy : y.toNat < h) :
    ((sized w h mem).pos x y).toNat = ((h - 1 - y.toNat) * w + x.toNat) * 4 := by
  have hw : w < 2 ^ 32 := by nlinarith
  have hh : h < 2 ^ 32 := by nlinarith
  have hrow := row_add_lt hx hy
  have hone : ((sized w h mem).height - 1).toNat = h - 1 := by
    rw [BitVec.toNat_sub_of_le, toNat_height mem hh]
    · rfl
    · rw [BitVec.le_def, toNat_height mem hh]
      show 1 ≤ h
      omega
  have hreal : (((sized w h mem).height - 1).setWidth 64 - y).toNat = h - 1 - y.toNat := by
    rw [BitVec.toNat_sub_of_le, BitVec.toNat_setWidth_of_le (by decide), hone]
    rw [BitVec.le_def, BitVec.toNat_setWidth_of_le (by decide), hone]
    omega
  unfold pos
  rw [BitVec.toNat_mul, BitVec.toNat_add, BitVec.toNat_mul, hreal,
    BitVec.toNat_setWidth_of_le (by decide), toNat_width mem hw]
  show (((h - 1 - y.toNat) * w % 2 ^ 64 + x.toNat) % 2 ^ 64 * 4) % 2 ^ 64 = _
  generalize (h - 1 - y.toNat) * w = r at hrow
  omega

/-- Every pixel but the first of the last row, whose position is 0, is accepted. -/
theorem accepts_of_lt (hwh : w * h * 4 < 2 ^ 32) (hx : x.toNat < w) (hy : y.toNat < h)
    (hne : 0 < (h - 1 - y.toNat) * w + x.toNat) : (sized w h mem).Accepts x y := by
  have hw : w < 2 ^ 32 := by nlinarith
  have hh : h < 2 ^ 32 := by nlinarith
  have hpos := toNat_pos mem hwh hx hy
  have hrow := row_add_lt hx hy
  have hsize : (sized w h mem).size = w * h * 4 := by
    show (BitVec.ofNat 64 w * BitVec.ofNat 64 h * 4).toNat = w * h * 4
    rw [BitVec.toNat_mul, BitVec.toNat_mul, BitVec.toNat_ofNat, BitVec.toNat_ofNat,
      Nat.mod_eq_of_lt (by omega : w < 2 ^ 64), Nat.mod_eq_of_lt (by omega : h < 2 ^ 64)]
    show w * h % 2 ^ 64 * 4 % 2 ^ 64 = w * h * 4
    omega
  have hlimit : ((sized w h mem).width * (sized w h mem).height * 4).toNat = w * h * 4 := by
    rw [BitVec.toNat_mul, BitVec.toNat_mul, toNat_width mem hw, toNat_height mem hh]
    show w * h % 2 ^ 32 * 4 % 2 ^ 32 = w * h * 4
    omega
  constructor
  · unfold posAssert
    rw [hpos, hlimit, Bool.and_eq_true, decide_eq_true_eq, decide_eq_true_eq]
    omega
  · intro i hi
    rw [hsize, BitVec.toNat_add, hpos, BitVec.toNat_ofNat]
    omega

end Pos

end Canvas

end Yanesemu
