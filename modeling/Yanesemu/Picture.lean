import Yanesemu.AttributeRegisters
import Yanesemu.CanvasPixels
import Yanesemu.PpuDraw
import Yanesemu.PpuRow

/-!
# The picture

What a frame draws, from the line before its first one to its last dot, if no register is accessed:
each pixel of the columns 4 to 255 gets the colour that `Scene.picture` says, a function of the
video memory and the scroll position, and the columns 0 to 3 stay as they are (`frame_shows`).

The picture is not the one the tiles make up. Of a tile the bits 0 to 6 are shown from left to
right and the last of them twice, in the eight columns from three columns right of its place; the
two first tiles of a row lack some columns (`source`), and the attributes have no part in it. The
vertical scroll position has none either: the first row is where `coarse_x` says.
-/

namespace Yanesemu.VramAddress

open Util

/-! ### Cells -/

/-- The cell of the name tables at a position. -/
def ntCell (h : ℕ) (V : Vert) : Uint16 :=
  BitVec.ofNat 16 (0x2000 + 0x800 * V.nt + 0x400 * (h / 32) + 32 * V.coarseY + h % 32)

/-- The cell of the pattern tables with the low byte of a row of a tile. -/
def rowCell (bgPtAddr : Bool) (t : Uint8) (row : ℕ) : Uint16 :=
  BitVec.ofNat 16 (0x1000 * bgPtAddr.toNat + 16 * t.toNat + row)

/-- The fields are digits of the address. -/
theorem toNat_fields (v : VramAddress) : (coarseX v).toNat = v.toNat % 32 ∧
    (coarseY v).toNat = v.toNat / 32 % 32 ∧ (nt v).toNat = v.toNat / 1024 % 4 ∧
    (fineY v).toNat = v.toNat / 4096 % 8 :=
  ⟨toNat_coarseX v, BitField.toNat_read (by decide) (by decide) v,
    BitField.toNat_read (by decide) (by decide) v, BitField.toNat_read (by decide) (by decide) v⟩

theorem ntCell_eq (v : VramAddress) : 0x2000 ||| v &&& 0x0FFF = ntCell (horz v) (vert v) := by
  obtain ⟨hx, hy, hnt, -⟩ := toNat_fields v
  have hlow : v.toNat &&& 0xFFF = v.toNat % 0x1000 := Nat.and_two_pow_sub_one_eq_mod v.toNat 12
  have hor : 0x2000 ||| v.toNat % 0x1000 = 0x2000 + v.toNat % 0x1000 :=
    (Nat.two_pow_add_eq_or_of_lt (i := 13) (by omega) 1).symm
  apply BitVec.eq_of_toNat_eq
  rw [BitVec.toNat_or, BitVec.toNat_and]
  show 0x2000 ||| (v.toNat &&& 0xFFF) = _
  rw [hlow, hor, ntCell, BitVec.toNat_ofNat]
  unfold horz vert
  dsimp only
  omega

theorem rowCell_eq (bgPtAddr : Bool) (t : Uint8) (v : VramAddress) :
    Ppu.rowByte bgPtAddr t v = rowCell bgPtAddr t (vert v).fineY := by
  have ht := t.isLt
  have hfine := toNat_fineY_lt v
  have hbg := bgPtAddr.toNat_le
  have hrow : 16 * t.toNat ||| (fineY v).toNat = 16 * t.toNat + (fineY v).toNat :=
    (Nat.two_pow_add_eq_or_of_lt (i := 4) (by omega) t.toNat).symm
  have htable : 0x1000 * bgPtAddr.toNat ||| (16 * t.toNat + (fineY v).toNat) =
      0x1000 * bgPtAddr.toNat + (16 * t.toNat + (fineY v).toNat) :=
    (Nat.two_pow_add_eq_or_of_lt (i := 12) (by omega) bgPtAddr.toNat).symm
  have hbit : (ofBool 16 bgPtAddr <<< 12).toNat = 0x1000 * bgPtAddr.toNat := by
    cases bgPtAddr <;> rfl
  have htile : (t.setWidth 16 <<< 4).toNat = 16 * t.toNat := by
    rw [BitVec.toNat_shiftLeft, BitVec.toNat_setWidth_of_le (by decide), Nat.shiftLeft_eq]
    omega
  have hfield : ((fineY v).setWidth 16).toNat = (fineY v).toNat := by
    rw [BitVec.toNat_setWidth]
    omega
  apply BitVec.eq_of_toNat_eq
  unfold Ppu.rowByte
  rw [BitVec.or_assoc, BitVec.toNat_or, BitVec.toNat_or, hbit, htile, hfield, hrow, htable,
    rowCell, BitVec.toNat_ofNat]
  show _ = (0x1000 * bgPtAddr.toNat + 16 * t.toNat + (fineY v).toNat) % 2 ^ 16
  omega

end Yanesemu.VramAddress

namespace Yanesemu.Ppu

open Interaction EventRun Util ShiftRegister VramAddress
open Canvas (Pixel sized colorAt_draw_self colorAt_draw_of_ne draw_sized)

/-! ### Where a pixel comes from -/

/-- The tile of the row and the bit of it that a cell holds when the row begins. -/
def startSource (i : ℕ) : Option (ℕ × ℕ) :=
  if i < 5 then some (0, i + 2) else if i < 13 then some (1, i - 5) else none

/-- The tile of the row and the bit of it that the pixel in a column shows, if it shows any. -/
def source (fineX x : ℕ) : Option (ℕ × ℕ) :=
  let m := (x - 2) / 8
  let j := fineX + (x - 2) % 8
  if m = 0 then startSource j
  else if 8 ≤ j then some (m + 1, j - 8)
  else if m = 1 then startSource (j + 7)
  else if 0 < j then some (m, j - 1)
  else if m = 2 then none
  else some (m - 1, 6)

/-- The same for a bit of the registers, by its name. -/
def sourceOf : Name → Option (ℕ × ℕ)
  | .start i => startSource i
  | .bit k b => some (k, b)

/-- Up to the first fill of a line, the registers are shifted. -/
theorem held_first {j : ℕ} (hj : j ≤ 7) (i : ℕ) : held (2 + j) i = .start (i + j) :=
  cells_of_shifts (n := 2) (j := j) (fun m hm => dotOp_shift (m := 0) (i := m) (by omega)) i

/-- When the first tile of a line is filled in. -/
theorem held_nine (i : ℕ) : held 9 i = .start (i + 7) := held_first (le_refl 7) i

theorem sourceOf_held {fineX x : ℕ} (hfine : fineX ≤ 7) (hx : 2 ≤ x) :
    sourceOf (held x fineX) = source fineX x := by
  obtain ⟨m, j, hj, rfl⟩ : ∃ m j, j ≤ 7 ∧ x = 8 * m + 1 + 1 + j :=
    ⟨(x - 2) / 8, (x - 2) % 8, by omega, by omega⟩
  have hm : (8 * m + 1 + 1 + j - 2) / 8 = m := by omega
  have hjm : (8 * m + 1 + 1 + j - 2) % 8 = j := by omega
  unfold source
  rw [hm, hjm]
  dsimp only
  rcases Nat.eq_zero_or_pos m with rfl | hpos
  · rw [if_pos rfl, show 8 * 0 + 1 + 1 + j = 2 + j by omega, held_first hj]
    rfl
  rw [if_neg (by omega), held_group hpos hj]
  by_cases h8 : 8 ≤ fineX + j
  · rw [if_pos (by omega), if_pos h8]
    rfl
  rw [if_neg (by omega), if_neg h8]
  by_cases h1 : m = 1
  · rw [if_pos h1, h1, held_nine]
    rfl
  rw [if_neg h1]
  by_cases h0 : 0 < fineX + j
  · rw [if_pos h0, held_fill (by omega) (by omega)]
    rfl
  -- the cell has been shifted out of the high byte once more than there are bits in it
  have hbefore := held_group (m := m - 1) (j := 7) (by omega) (le_refl 7) 0
  rw [show 8 * (m - 1) + 1 + 1 + 7 = 8 * m + 1 by omega, if_neg (by omega)] at hbefore
  rw [if_neg h0, show fineX + j = 0 by omega, hbefore]
  by_cases h2 : m = 2
  · rw [if_pos h2, h2, held_nine]
    rfl
  · rw [if_neg h2, held_fill (by omega) (by omega)]
    rfl

/-- A tile that is named in a register has been fetched. -/
theorem held_bit {n i k b : ℕ} (h : held n i = .bit k b) : 2 ≤ k ∧ 8 * (k - 1) + 1 < n := by
  induction n generalizing i with
  | zero => cases h
  | succ n ih =>
    have hstep : ShiftRegister.step 8 8 Name.bit (held n) (dotOp n) i = .bit k b := h
    unfold dotOp at hstep
    split_ifs at hstep with hhold hfill
    · obtain ⟨hk, hn⟩ := ih hstep
      exact ⟨hk, by omega⟩
    · change (if 8 ≤ i ∧ i < 8 + 8 then Name.bit (n / 8 + 1) (i - 8) else held n i) = _ at hstep
      split_ifs at hstep
      · injection hstep with hword _
        omega
      · obtain ⟨hk, hn⟩ := ih hstep
        exact ⟨hk, by omega⟩
    · obtain ⟨hk, hn⟩ := ih (i := i + 1) hstep
      exact ⟨hk, by omega⟩

/-! ### What is shown -/

/-- All that a picture depends on. -/
structure Scene where
  mem : Uint16 → Uint8
  bgPtAddr : Bool
  tmp : VramAddress
  fineX : ℕ

/-- What a frame that begins here shows if nothing interferes. -/
def sceneOf {σ : Type} (H : Handler ppuSig σ) (s : Sys Ppu σ) : Scene :=
  ⟨mem H s.env, s.chip.io.bgPtAddr, s.chip.vram.tmp, s.chip.vram.fineX.toNat⟩

namespace Scene

variable (sc : Scene)

/-- The vertical position of a row. The first one is where `copy_v_vertpos` leads to. -/
def vertOf (y : ℕ) : Vert :=
  Vert.next^[y] ⟨(nt sc.tmp).toNat / 2, (coarseX sc.tmp).toNat, (coarseX sc.tmp).toNat % 8⟩

/-- A row of a tile. -/
def tileByte (V : Vert) (h : ℕ) (pl : Plane) : Uint8 :=
  sc.mem (rowCell sc.bgPtAddr (sc.mem (ntCell h V)) V.fineY + if pl = .high then 8 else 0)

/-- A bit of a row of tiles. -/
def bitAt (V : Vert) (pl : Plane) : Option (ℕ × ℕ) → Bool
  | none => false
  | some (k, b) => (sc.tileByte V ((horz sc.tmp + k) % 64) pl).getLsbD b

/-- The colour of `palind`, in the palette 0. -/
def colour (palind : Uint8) : Uint32 :=
  if sc.mem (0x3F00 + palind.setWidth 16) = 0x30 then 0xFFFFFFFF else 0

/-- **The picture** of the background unit, right of its first four columns. -/
def picture (x y : ℕ) : Uint32 :=
  sc.colour (pixelOf (sc.bitAt (sc.vertOf y) .high (source sc.fineX x))
    (sc.bitAt (sc.vertOf y) .low (source sc.fineX x)))

end Scene

/-! ### A pixel, given the registers -/

theorem truthy_and_fineMask_wide (x : Uint16) {fineX : Uint8} (hfine : fineX.toNat ≤ 7) :
    truthy (x &&& (((1 : Uint64) <<< fineX.toNat).setWidth 8 : Uint8).setWidth 16) =
      x.getLsbD fineX.toNat := by
  have hmask : (((1 : Uint64) <<< fineX.toNat).setWidth 8 : Uint8).setWidth 16 =
      BitVec.twoPow 16 fineX.toNat := by
    generalize fineX.toNat = c at hfine ⊢
    interval_cases c <;> rfl
  rw [hmask, truthy_and_twoPow x (by omega)]

/-- The pixel is read at the cell `fine_x`. -/
theorem palind_eq_cell {p : Ppu} (hfine : p.vram.fineX.toNat ≤ 7) :
    palind p = pixelOf (regBits .high p p.vram.fineX.toNat) (regBits .low p p.vram.fineX.toNat) :=
  congrArg₂ pixelOf (truthy_and_fineMask_wide _ hfine) (truthy_and_fineMask_wide _ hfine)

/-- Only the cell 7 of an attribute register has anything in it. -/
theorem palette_eq_zero {p : Ppu} (hp : Plain p) (hfine : p.vram.fineX.toNat ≤ 6) :
    palette p = 0 := by
  unfold palette
  dsimp only
  rw [truthy_and_fineMask, truthy_and_fineMask, hp.alow, hp.ahigh _ (by omega)]
  have hzero : (0 : Uint8).getLsbD p.vram.fineX.toNat = false := BitVec.getLsbD_zero
  rw [hzero]
  rfl

/-! ### A line -/

section Line

variable {σ : Type} (H : Handler ppuSig σ) {s : Sys Ppu σ}

theorem settings_along (s : Sys Ppu σ) (n : ℕ) :
    (along H s n).chip.screen = s.chip.screen ∧
      (along H s n).chip.io.bgShow = s.chip.io.bgShow ∧
      (along H s n).chip.io.bgPtAddr = s.chip.io.bgPtAddr := by
  induction n with
  | zero => exact ⟨rfl, rfl, rfl⟩
  | succ n ih =>
    obtain ⟨hscreen, hshow, hbg⟩ := ih
    rw [along_succ]
    exact ⟨(screen_step H _ .run).trans hscreen, (run_moved H _).2.trans hshow,
      (bgPtAddr_run H _).trans hbg⟩

/-- Dots move nothing of the scroll position but the fetch address. -/
theorem vram_along (s : Sys Ppu σ) (n : ℕ) : (along H s n).chip.vram.tmp = s.chip.vram.tmp ∧
    (along H s n).chip.vram.fineX = s.chip.vram.fineX := by
  induction n with
  | zero => exact ⟨rfl, rfl⟩
  | succ n ih =>
    rw [along_succ, (run_moved H _).1]
    exact ih

theorem after_replicate (s : Sys Ppu σ) (n : ℕ) :
    after (step H) s (List.replicate n .run) = along H s n := by
  induction n generalizing s with
  | zero => rfl
  | succ n ih =>
    rw [List.replicate_succ, after_cons, step_run, ih]
    exact (Function.iterate_succ_apply _ n s).symm

variable (hline : s.chip.Rendered) (hdot : s.chip.dot = 0) (hroom : Room 341 s.chip)
  (hshow : s.chip.io.bgShow = true) (hstill : Still H s.env)

include hline hdot hroom hshow hstill

/-- **The latches after a fetch group** hold a row of the tile at the address of its first dot. -/
theorem latch_along {g : ℕ} (hg : Group g) (pl : Plane) :
    let v := lineAddr s.chip.line s.chip.vram.tmp s.chip.vram.addr (8 * g + 1)
    latchBits pl (along H s (8 * (g + 1) + 1)).chip =
      ((sceneOf H s).tileByte (vert v) (horz v) pl).getLsbD := by
  intro v
  have hn : 8 * g + 1 ≤ 340 := by
    unfold Group at hg
    omega
  have hon := onLine_along H hdot hroom hn
  have haddr : (along H s (8 * g + 1)).chip.vram.addr = v := by
    rw [hon.vram, if_pos hshow]
  have henv := env_along H hline hdot hroom hstill (n := 8 * g + 1) (by omega)
  have hbg := (settings_along H s (8 * g + 1)).2.2
  have hroom' : Room 8 (along H s (8 * g + 1)).chip := by
    obtain ⟨hc, hl⟩ := hroom
    unfold Room
    rw [hon.cycles, hon.lines]
    unfold Group at hg
    omega
  have hlatched := (inGroup_iterate H hg (position_along H hdot hroom hn).2
    (rendered_along H hline hdot hroom hn) hroom' (by rwa [henv]) (le_refl 8)).1.tile
  have hrun : along H s (8 * (g + 1) + 1) = (post H run)^[8] (along H s (8 * g + 1)) := by
    rw [show 8 * (g + 1) + 1 = 8 * g + 1 + 8 by omega, along_add]
  rw [henv, hbg, haddr] at hlatched
  rw [hrun]
  have hcell := hlatched.nt (by decide)
  have hlow := hlatched.low (by decide)
  have hhigh := hlatched.high (by decide)
  rw [ntCell_eq] at hcell
  rw [hcell, rowCell_eq] at hlow hhigh
  cases pl with
  | low =>
    refine congrArg BitVec.getLsbD (hlow.trans ?_)
    exact congrArg (mem H s.env) (BitVec.add_zero _).symm
  | high => exact congrArg BitVec.getLsbD hhigh

/-- The registers at the end of a line, if the vertical position does not change any more. -/
theorem startSource_along (hline' : s.chip.line < 240 ∨ s.chip.line = 261) {V : Vert}
    (hV : ∀ j, 281 ≤ j → vert (lineAddr s.chip.line s.chip.vram.tmp s.chip.vram.addr j) = V)
    (pl : Plane) (i : ℕ) :
    regBits pl (along H s 341).chip i = (sceneOf H s).bitAt V pl (startSource i) := by
  have hhorz {j : ℕ} (hj : j ≤ 341) :=
    horz_lineAddr hline' s.chip.vram.tmp s.chip.vram.addr hj
  have hlatch (g : ℕ) (hg : Group g) := latch_along H hline hdot hroom hshow hstill hg pl
  rw [reg_end H hline hdot hroom]
  unfold startSource
  by_cases h5 : i < 5
  · rw [if_pos h5, if_pos h5, hlatch 40 (Or.inr (Or.inl rfl)), hV _ (by decide),
      hhorz (by decide), if_neg (by decide)]
    rfl
  by_cases h13 : i < 13
  · rw [if_neg h5, if_neg h5, if_pos h13, if_pos h13, hlatch 41 (Or.inr (Or.inr rfl)),
      hV _ (by decide), hhorz (by decide), if_neg (by decide)]
    rfl
  · rw [if_neg h5, if_neg h5, if_neg h13, if_neg h13]
    rfl

omit hshow hstill in
theorem plain_along (hplain : Plain s.chip) {n : ℕ} (hn : n ≤ 341) :
    Plain (along H s n).chip := by
  induction n with
  | zero => exact hplain
  | succ n ih =>
    rw [along_succ]
    exact (attr_run H (along H s n) (rendered_along H hline hdot hroom (by omega))).plain
      (ih (by omega))

end Line

/-! ### A row of the picture -/

/-- The PPU at the beginning of a visible line, with the first two tiles of the row in the
registers. -/
structure AtRow (sc : Scene) (y : ℕ) (p : Ppu) : Prop where
  line : p.line = y
  dot : p.dot = 0
  screen : p.screen = true
  bgShow : p.io.bgShow = true
  bgPtAddr : p.io.bgPtAddr = sc.bgPtAddr
  tmp : p.vram.tmp = sc.tmp
  fineX : p.vram.fineX.toNat = sc.fineX
  horz : horz p.vram.addr = (VramAddress.horz sc.tmp + 2) % 64
  vert : vert p.vram.addr = sc.vertOf y
  plain : Plain p
  regs : ∀ pl i, regBits pl p i = sc.bitAt (sc.vertOf y) pl (startSource i)

section Row

variable {σ : Type} (H : Handler ppuSig σ) {s : Sys Ppu σ} {sc : Scene} {y : ℕ}

theorem sceneOf_eq (hmem : mem H s.env = sc.mem) (h : AtRow sc y s.chip) : sceneOf H s = sc := by
  unfold sceneOf
  rw [hmem, h.bgPtAddr, h.tmp, h.fineX]

variable (h : AtRow sc y s.chip) (hy : y < 240) (hroom : Room 341 s.chip)
  (hstill : Still H s.env) (hmem : mem H s.env = sc.mem)

include h hy

theorem AtRow.rendered : s.chip.Rendered := Or.inl (by rw [h.line]; omega)

include hroom hstill hmem

/-- A line leads to the next row. -/
theorem AtRow.next : AtRow sc (y + 1) (along H s 341).chip := by
  have hline : s.chip.line < 240 := by rwa [h.line]
  have hend : OnLine s.chip 341 (along H s 341).chip :=
    onLine_iterate H h.dot hroom (le_refl 341) fun _ => by omega
  obtain ⟨hscreen, hshow, hbg⟩ := settings_along H s 341
  have hvert (j : ℕ) (hj : 257 ≤ j) :
      VramAddress.vert (lineAddr s.chip.line s.chip.vram.tmp s.chip.vram.addr j) =
        sc.vertOf (y + 1) := by
    rw [vert_lineAddr hline, if_neg (by omega), h.vert, Scene.vertOf, Scene.vertOf,
      Function.iterate_succ_apply']
  have hlinedot : (along H s 341).chip.line = y + 1 ∧ (along H s 341).chip.dot = 0 := by
    have hl := h.line
    have hd := h.dot
    unfold Ppu.line Ppu.dot at *
    rw [hend.cycles, hend.lines]
    omega
  refine ⟨hlinedot.1, hlinedot.2, hscreen.trans h.screen, hshow.trans h.bgShow,
    hbg.trans h.bgPtAddr, ?_, ?_, ?_, ?_, ?_, ?_⟩
  · rw [hend.vram]
    exact h.tmp
  · rw [hend.vram]
    exact h.fineX
  · rw [hend.vram, if_pos h.bgShow, horz_lineAddr_end (Or.inl hline), h.tmp]
  · rw [hend.vram, if_pos h.bgShow]
    exact hvert 341 (by decide)
  · exact plain_end H (h.rendered hy) h.dot hroom
  · intro pl i
    have hregs := startSource_along H (h.rendered hy) h.dot hroom h.bgShow hstill (Or.inl hline)
      (fun j hj => hvert j (by omega)) pl i
    rwa [sceneOf_eq H hmem h] at hregs

/-- What the registers hold on the dots that draw. -/
theorem AtRow.regBits_along (pl : Plane) {x i : ℕ} (hx : x ≤ 256) :
    regBits pl (along H s x).chip i = sc.bitAt (sc.vertOf y) pl (sourceOf (held x i)) := by
  have hline : s.chip.line < 240 := by rwa [h.line]
  have hops : cells 8 8 (fun k => latchBits pl (along H s (8 * (k - 1) + 1)).chip) lineOp
      (regBits pl s.chip) x =
      cells 8 8 (fun k => latchBits pl (along H s (8 * (k - 1) + 1)).chip) dotOp
      (regBits pl s.chip) x := cells_congr fun m hm => lineOp_eq (by omega)
  rw [reg_along H (h.rendered hy) h.dot hroom pl (by omega), hops, cells_eq_value]
  show (held x i).value _ _ = _
  cases hname : held x i with
  | start j => exact h.regs pl j
  | bit k b =>
    obtain ⟨hk, hlt⟩ := held_bit hname
    obtain ⟨g, rfl⟩ := Nat.exists_eq_add_of_le' hk
    have hlatch := latch_along H (h.rendered hy) h.dot hroom h.bgShow hstill
      (g := g) (Or.inl (by omega)) pl
    dsimp only at hlatch
    rw [sceneOf_eq H hmem h, vert_lineAddr hline, if_pos (by omega), h.vert,
      horz_lineAddr (Or.inl hline) _ _ (by omega), if_pos (by omega), h.horz] at hlatch
    show latchBits pl (along H s (8 * (g + 1) + 1)).chip b = _
    rw [hlatch]
    show (sc.tileByte _ _ pl).getLsbD b = (sc.tileByte _ _ pl).getLsbD b
    congr 2
    omega

/-- The colour that `output` gives a dot, if it gives it one. -/
theorem AtRow.pixel (hfine : sc.fineX ≤ 6) {x : ℕ} (hx : 4 ≤ x ∧ x ≤ 256) :
    palette (along H s x).chip = 0 ∧ sc.colour (palind (along H s x).chip) = sc.picture x y := by
  have hon := onLine_along H h.dot hroom (n := x) (by omega)
  have hfine' : (along H s x).chip.vram.fineX.toNat = sc.fineX := by
    rw [hon.vram]
    exact h.fineX
  have hplain := plain_along H (h.rendered hy) h.dot hroom h.plain (n := x) (by omega)
  have hbits (pl : Plane) := h.regBits_along H hy hroom hstill hmem pl (i := sc.fineX) hx.2
  refine ⟨palette_eq_zero hplain (by omega), ?_⟩
  rw [palind_eq_cell (by omega), hfine', hbits, hbits, sourceOf_held (by omega) (by omega)]
  rfl

end Row

/-! ### On a canvas -/

/-- `screen->drawpixel`. -/
def paint (c : Canvas) : PpuOp → Canvas
  | .drawpixel x y color => c.drawpixel (BitVec.ofNat 64 x) (BitVec.ofNat 64 y) color
  | _ => c

/-- The environment of a PPU that has a canvas for a screen. -/
abbrev onCanvas {σ : Type} (H : Handler ppuSig σ) : Handler ppuSig (σ × Canvas) := observed H paint

/-- The colour of `output` for a pixel. -/
def shade (M : Uint16 → Uint8) (p : Ppu) : Uint32 :=
  if M (0x3F00 + (palette p <<< 2 ||| palind p).setWidth 16) = 0x30 then 0xFFFFFFFF else 0

section Paint

variable {σ : Type} (H : Handler ppuSig σ) (s : Sys Ppu σ)

theorem Quiet.not_drawn {α : Type} {m : PpuM α} (hm : Quiet m) {x y : ℕ} {color : Uint32} :
    .drawpixel x y color ∉ asked H m s := hm.of_asked H s _

/-- The colour is that of the byte that `getcolor` reads. -/
theorem val_bgOutput : val H bgOutput s =
    mem H s.env (0x3F00 + (palette s.chip <<< 2 ||| palind s.chip).setWidth 16) := by
  have hzero (a b : Uint8) : ofBool 8 false <<< 4 ||| a ||| b = a ||| b := by
    rw [BitVec.or_assoc]
    exact BitVec.zero_or
  rw [bgOutput_eq, val_bind, val_get, post_get]
  unfold getcolor busRead
  rw [hzero]
  rfl

theorem color_output {x y : ℕ} {color : Uint32}
    (h : .drawpixel x y color ∈ asked H output s) : color = shade (mem H s.env) s.chip := by
  have hquiet : Quiet bgOutput :=
    keeps_bgOutput.mono (fun _ ⟨_, _, ho⟩ => ho ▸ trivial) fun _ _ _ => trivial
  unfold output at h
  rw [asked_bind, asked_get, List.nil_append, val_get, post_get, asked_ite] at h
  by_cases hscreen : (!s.chip.screen) = true
  · rw [if_pos hscreen] at h
    cases h
  rw [if_neg hscreen, asked_bind, List.mem_append, val_bgOutput] at h
  rcases h with h | h
  · exact absurd h (hquiet.not_drawn H s)
  rw [asked_bind, List.mem_append, asked_ite] at h
  rcases h with h | h
  · exact absurd (List.mem_singleton.mp h) (by simp)
  by_cases hedge : s.chip.dot = 256 ∨ s.chip.line = 261
  · rw [if_pos hedge] at h
    cases h
  rw [if_neg hedge] at h
  have hop := List.mem_singleton.mp h
  injection hop with _ _ hcolor
  rw [hcolor]
  exact if_congr beq_iff_eq rfl rfl

/-- Whatever draws a pixel on a dot is `output`. -/
theorem color_fetchCycle {n x y : ℕ} {color : Uint32}
    (h : .drawpixel x y color ∈ asked H (fetchCycle n) s) :
    color = shade (mem H s.env) s.chip := by
  have hrest : Quiet (do
      backgroundCycle (n % 8)
      (if n % 8 = 1 ∧ n ≠ 1 then shiftFill else pure ())
      (if n % 8 ≠ 1 then shiftRun else pure ())
      (if n % 8 = 0 ∧ n ≠ 256 then incVHorzpos else pure ())
      (if n = 256 then incVVertpos else pure ())) := by
    refine Quiet.bind (quiet_backgroundCycle _) fun _ => ?_
    refine Quiet.bind (Keeps.ite quiet_shiftFill (Quiet.pure ())) fun _ => ?_
    refine Quiet.bind (Keeps.ite (Quiet.modify _) (Quiet.pure ())) fun _ => ?_
    refine Quiet.bind (Keeps.ite (Quiet.modify _) (Quiet.pure ())) fun _ => ?_
    exact Keeps.ite (Quiet.modify _) (Quiet.pure ())
  unfold fetchCycle at h
  rw [asked_bind, List.mem_append, asked_ite] at h
  rcases h with h | h
  · split_ifs at h
    · exact color_output H s h
    · cases h
  · exact absurd h (hrest.not_drawn H _)

theorem color_cycletab {n x y : ℕ} {color : Uint32}
    (h : .drawpixel x y color ∈ asked H (cycletab n) s) :
    color = shade (mem H s.env) s.chip := by
  have hcopy : Quiet (if n = 257 then copyVHorzpos else pure ()) :=
    Keeps.ite (Quiet.modify _) (Quiet.pure ())
  unfold cycletab ccycle at h
  rw [asked_ite] at h
  by_cases hidle : n = 0 ∨ (258 ≤ n ∧ n ≤ 320)
  · rw [if_pos hidle] at h
    cases h
  rw [if_neg hidle, asked_bind, List.mem_append, asked_ite] at h
  rcases h with h | h
  · by_cases hf : Fetching n
    · rw [if_pos hf] at h
      exact color_fetchCycle H s h
    · rw [if_neg hf] at h
      cases h
  · exact absurd h (hcopy.not_drawn H _)

/-- **The colour of a dot.** -/
theorem color_run (hstill : Still H s.env) {x y : ℕ} {color : Uint32}
    (h : .drawpixel x y color ∈ asked H run s) : color = shade (mem H s.env) s.chip := by
  have hassert : post H (assert (decide (s.chip.dot ≤ 340))) s = s :=
    Sys.ext rfl (hstill (.assert _) trivial)
  have hrun : asked H run s = asked H (lcycle s.chip.line s.chip.dot) s := by
    simp [run]
  have hbegin : Quiet vblankBegin :=
    Quiet.bind (Quiet.modify _) fun _ => Keeps.ask (fun _ => trivial) trivial
  have h241 : Quiet (if s.chip.dot = 1 then vblankBegin else pure ()) :=
    Keeps.ite hbegin (Quiet.pure ())
  rw [hrun] at h
  unfold lcycle at h
  rw [asked_bind, hassert, List.mem_append, asked_ite] at h
  rcases h with h | h
  · exact absurd (List.mem_singleton.mp h) (by simp)
  by_cases hvisible : s.chip.line < 240
  · rw [if_pos hvisible] at h
    exact color_cycletab H s h
  rw [if_neg hvisible, asked_ite] at h
  by_cases hblank : s.chip.line = 241
  · rw [if_pos hblank] at h
    exact absurd h (h241.not_drawn H s)
  rw [if_neg hblank, asked_ite] at h
  by_cases h261 : s.chip.line = 261
  · rw [if_pos h261, asked_bind, List.mem_append] at h
    rcases h with h | h
    · exact color_cycletab H s h
    · exact absurd h ((quiet_preRender _).not_drawn H _)
  · rw [if_neg h261] at h
    cases h

/-- The canvas after the operations of a dot. -/
theorem foldl_paint_of_nil {ops : List PpuOp} (h : pixels ops = []) (c : Canvas) :
    ops.foldl paint c = c := by
  induction ops with
  | nil => rfl
  | cons o ops ih =>
    cases o with
    | drawpixel x y color => exact absurd h (List.cons_ne_nil _ _)
    | _ => exact ih h

theorem foldl_paint_of_singleton {ops : List PpuOp} {k : Uint32} {x y : ℕ}
    (hcolor : ∀ color, .drawpixel x y color ∈ ops → color = k) (h : pixels ops = [(x, y)])
    (c : Canvas) :
    ops.foldl paint c = c.drawpixel (BitVec.ofNat 64 x) (BitVec.ofNat 64 y) k := by
  induction ops with
  | nil => cases h
  | cons o ops ih =>
    have hrest (color : Uint32) (ho : .drawpixel x y color ∈ ops) : color = k :=
      hcolor color (List.mem_cons_of_mem _ ho)
    cases o with
    | drawpixel x' y' color =>
      have hcons : (x', y') :: pixels ops = [(x, y)] := h
      injection hcons with hxy hnil
      injection hxy with hx hy
      subst hx hy
      rw [List.foldl_cons, hcolor color (List.mem_cons_self ..)]
      exact foldl_paint_of_nil hnil _
    | _ => exact ih hrest h

end Paint

/-! ### The rows of a frame -/

/-- The part of the picture that the beam has passed after `k` dots is on the canvas, and nothing
else of it has changed. -/
def Painted (sc : Scene) (c₀ c : Canvas) (k : ℕ) : Prop :=
  ∀ p : Pixel 256 240, c.colorAt p =
    if 4 ≤ p.x.toNat ∧ 341 * p.y.toNat + p.x.toNat < k then sc.picture p.x.toNat p.y.toNat
    else c₀.colorAt p

/-- The canvas after a dot that draws the pixel it should. -/
theorem Painted.draw {sc : Scene} {mem₀ mem : ℕ → Uint8} {k : ℕ}
    (hs : Painted sc (sized 256 240 mem₀) (sized 256 240 mem) k) {p : Pixel 256 240}
    (hp : 4 ≤ p.x.toNat) (hk : k = 341 * p.y.toNat + p.x.toNat) :
    Painted sc (sized 256 240 mem₀)
      ((sized 256 240 mem).draw (p, sc.picture p.x.toNat p.y.toNat)) (k + 1) := by
  intro q
  have hpx := p.hx
  have hqx := q.hx
  by_cases hqp : p = q
  · subst hqp
    rw [if_pos ⟨hp, by omega⟩]
    exact colorAt_draw_self (by decide) (p, sc.picture p.x.toNat p.y.toNat)
  · have hne : ¬(p.x.toNat = q.x.toNat ∧ p.y.toNat = q.y.toNat) := fun h => hqp (Pixel.ext h.1 h.2)
    rw [colorAt_draw_of_ne (by decide) hqp, hs q]
    refine if_congr ?_ rfl rfl
    omega

/-- A dot that draws nothing. -/
theorem Painted.skip {sc : Scene} {c₀ c : Canvas} {k : ℕ} (hs : Painted sc c₀ c k)
    (hk : ¬Drawable (k % 341) (k / 341)) : Painted sc c₀ c (k + 1) := by
  intro q
  have hqx := q.hx
  have hqy := q.hy
  unfold Drawable at hk
  rw [hs q]
  refine if_congr ?_ rfl rfl
  omega

section Frame

variable {σ : Type} (H : Handler ppuSig σ) {s : Sys Ppu σ} {sc : Scene}
  (h : AtRow sc 0 s.chip) (hroom : Room (341 * 240) s.chip) (hstill : Still H s.env)
  (hmem : mem H s.env = sc.mem)

include h hroom

theorem room_along {y : ℕ} (hy : y ≤ 240) :
    Room (341 * (240 - y)) (along H s (341 * y)).chip := by
  obtain ⟨hc, hl⟩ := hroom
  have hover : OverLines s.chip y (along H s (341 * y)).chip := by
    refine overLines_iterate H h.dot ?_ ⟨by omega, by omega⟩
    rw [h.line]
    omega
  unfold Room
  rw [hover.cycles, hover.lines]
  omega

include hstill hmem

/-- The beginning of each row. -/
theorem atRow_along {y : ℕ} (hy : y ≤ 240) :
    AtRow sc y (along H s (341 * y)).chip ∧ (along H s (341 * y)).env = s.env := by
  induction y with
  | zero => exact ⟨h, rfl⟩
  | succ y ih =>
    obtain ⟨hrow, henv⟩ := ih (by omega)
    have hroom' : Room 341 (along H s (341 * y)).chip := by
      obtain ⟨hc, hl⟩ := room_along H h hroom (y := y) (by omega)
      exact ⟨by omega, by omega⟩
    have hstill' : Still H (along H s (341 * y)).env := by rwa [henv]
    rw [Nat.mul_succ, along_add]
    refine ⟨hrow.next H (by omega) hroom' hstill' (by rw [henv, hmem]), ?_⟩
    exact (env_along H (hrow.rendered (by omega)) hrow.dot hroom' hstill' (le_refl 341)).trans henv

/-- A dot of a row. -/
theorem dot_along (hfine : sc.fineX ≤ 6) {k : ℕ} (hk : k < 341 * 240) :
    let q := along H s k
    q.chip.line = k / 341 ∧ q.chip.dot = k % 341 ∧ q.chip.screen = true ∧ q.env = s.env ∧
      (4 ≤ k % 341 → k % 341 < 256 → shade sc.mem q.chip = sc.picture (k % 341) (k / 341)) := by
  intro q
  obtain ⟨hrow, henv⟩ := atRow_along H h hroom hstill hmem (y := k / 341) (by omega)
  have hroom' : Room 341 (along H s (341 * (k / 341))).chip := by
    obtain ⟨hc, hl⟩ := room_along H h hroom (y := k / 341) (by omega)
    exact ⟨by omega, by omega⟩
  have hstill' : Still H (along H s (341 * (k / 341))).env := by rwa [henv]
  have hq : q = along H (along H s (341 * (k / 341))) (k % 341) := by
    rw [← along_add, Nat.div_add_mod]
  have hy : k / 341 < 240 := by omega
  obtain ⟨hline, hdot⟩ := position_along H hrow.dot hroom' (n := k % 341) (by omega)
  have hscreen := (settings_along H (along H s (341 * (k / 341))) (k % 341)).1
  have henv' := env_along H (hrow.rendered hy) hrow.dot hroom' hstill' (n := k % 341) (by omega)
  rw [hq]
  refine ⟨hline.trans hrow.line, hdot, hscreen.trans hrow.screen, henv'.trans henv, ?_⟩
  intro h4 h256
  obtain ⟨hpalette, hcolour⟩ :=
    hrow.pixel H hy hroom' hstill' (by rw [henv, hmem]) hfine (x := k % 341) ⟨h4, by omega⟩
  rw [← hcolour]
  unfold shade Scene.colour
  rw [hpalette]
  exact congrArg (fun palind : Uint8 => if sc.mem (0x3F00 + palind.setWidth 16) = 0x30
    then (0xFFFFFFFF : Uint32) else 0) BitVec.zero_or

/-- **The canvas** while the rows are drawn. -/
theorem painted_along (hfine : sc.fineX ≤ 6) (mem₀ : ℕ → Uint8) {k : ℕ} (hk : k ≤ 341 * 240) :
    ∃ mem, (post (onCanvas H) run)^[k] ⟨s.chip, s.env, sized 256 240 mem₀⟩ =
        ⟨(along H s k).chip, (along H s k).env, sized 256 240 mem⟩ ∧
      Painted sc (sized 256 240 mem₀) (sized 256 240 mem) k := by
  induction k with
  | zero => exact ⟨mem₀, rfl, fun p => (if_neg fun h => absurd h.2 (Nat.not_lt_zero _)).symm⟩
  | succ k ih =>
    obtain ⟨mem, hstate, hpainted⟩ := ih (by omega)
    obtain ⟨hline, hdot, hscreen, henv, hshade⟩ :=
      dot_along H h hroom hstill hmem hfine (k := k) (by omega)
    have hpixels := pixels_run H (along H s k)
    have hcolor {x y : ℕ} {color : Uint32} (hc : .drawpixel x y color ∈ asked H run (along H s k)) :
        color = shade sc.mem (along H s k).chip := by
      have hdot := color_run H (along H s k) (by rwa [henv]) hc
      rwa [henv, hmem] at hdot
    rw [Function.iterate_succ_apply', hstate, post_observed, ← along_succ]
    rw [if_pos hscreen, hline, hdot, pixelAt_add (by omega)] at hpixels
    by_cases hd : Drawable (k % 341) (k / 341)
    · obtain ⟨h4, h256, h240⟩ := hd
      have hx : (BitVec.ofNat 64 (k % 341)).toNat = k % 341 := by
        rw [BitVec.toNat_ofNat]
        omega
      have hy : (BitVec.ofNat 64 (k / 341)).toNat = k / 341 := by
        rw [BitVec.toNat_ofNat]
        omega
      have hdraw := foldl_paint_of_singleton (fun _ => hcolor)
        (hpixels.trans (if_pos ⟨h240, h4, h256⟩)) (sized 256 240 mem)
      let p : Pixel 256 240 := ⟨BitVec.ofNat 64 (k % 341), BitVec.ofNat 64 (k / 341),
        by omega, by omega⟩
      have hnext := hpainted.draw (p := p) (h4.trans_eq hx.symm)
        ((Nat.div_add_mod k 341).symm.trans (by rw [hx, hy]))
      rw [hdraw, hshade h4 h256]
      rw [hx, hy] at hnext
      exact ⟨_, rfl, hnext⟩
    · rw [foldl_paint_of_nil (hpixels.trans (if_neg fun h => hd ⟨h.2.1, h.2.2, h.1⟩))]
      exact ⟨mem, rfl, hpainted.skip hd⟩

end Frame

/-! ### A whole frame -/

section Whole

variable {σ : Type} (H : Handler ppuSig σ) {s : Sys Ppu σ}

/-- The dot 0 of a line only counts. -/
theorem run_dot_zero (hline : s.chip.line < 240) (hcycles : s.chip.cycles = 0)
    (hstill : Still H s.env) : post H run s = ⟨{ s.chip with cycles := 1 }, s.env⟩ := by
  have hassert : post H (assert (decide (s.chip.dot ≤ 340))) s = s :=
    Sys.ext rfl (hstill (.assert _) trivial)
  have hdot : s.chip.dot = 0 := by
    unfold dot
    rw [hcycles]
    rfl
  have hlcycle : post H (lcycle s.chip.line s.chip.dot) s = s := by
    unfold lcycle cycletab
    rw [post_bind, hassert, if_pos hline, if_pos (Or.inl hdot), post_pure]
  unfold run
  rw [post_bind, val_get, post_get, post_bind, hlcycle, post_bind, post_modify, post_modify]
  refine Sys.ext ?_ rfl
  have hlines : s.chip.lines + (0 : Uint64) = s.chip.lines := BitVec.add_zero _
  show { s.chip with
    cycles := s.chip.cycles + 1
    lines := s.chip.lines + if (s.chip.cycles + 1).toNat % 341 = 0 then 1 else 0 } = _
  rw [hcycles, if_neg (by decide)]
  exact congrArg (fun l => { s.chip with cycles := 1, lines := l }) hlines

/-- What follows the dot 0 of a frame also follows when it is skipped. -/
theorem canvas_dot_zero (hline : s.chip.line = 0) (hcycles : s.chip.cycles = 1)
    (hstill : Still H s.env) (c : Canvas) :
    post (onCanvas H) run ⟨{ s.chip with cycles := 0 }, s.env, c⟩ = ⟨s.chip, s.env, c⟩ := by
  let s₀ : Sys Ppu σ := ⟨{ s.chip with cycles := 0 }, s.env⟩
  have hline₀ : s₀.chip.line = 0 := hline
  have hdot₀ : s₀.chip.dot = 0 := rfl
  have hrun : post H run s₀ = s := by
    rw [run_dot_zero H (s := s₀) (by omega) rfl hstill]
    exact Sys.ext (by rw [← hcycles]) rfl
  have hpixels := pixels_run H s₀
  have hoff : pixelAt (s₀.chip.line * 341 + s₀.chip.dot) = [] := by
    rw [hline₀, hdot₀]
    rfl
  rw [hoff, ite_self] at hpixels
  have hpost := post_observed H paint run s₀ c
  rw [hrun, foldl_paint_of_nil hpixels] at hpost
  exact hpost

variable {n : ℕ} (hbeam : OnBeam n s.chip) (hline : s.chip.line = 261) (hdot : s.chip.dot = 0)
  (hscreen : s.chip.screen = true) (hshow : s.chip.io.bgShow = true) (hstill : Still H s.env)

include hline hdot hbeam

/-- Nothing is drawn on the line before the first one. -/
theorem preRender_canvas (c : Canvas) {k : ℕ} (hk : k ≤ 341) :
    (post (onCanvas H) run)^[k] ⟨s.chip, s.env, c⟩ =
      ⟨(along H s k).chip, (along H s k).env, c⟩ := by
  induction k with
  | zero => rfl
  | succ k ih =>
    have hpos := (position_along H hdot (hbeam.room (by decide)) (n := k) (by omega)).1
    have hpixels := pixels_run H (along H s k)
    have hdot' := (along H s k).chip.dot_le
    have hoff : ¬(261 < 240 ∧ 4 ≤ (along H s k).chip.dot ∧ (along H s k).chip.dot < 256) :=
      fun h => absurd h.1 (by decide)
    rw [hpos, hline, pixelAt_add (by omega), if_neg hoff, ite_self] at hpixels
    rw [Function.iterate_succ_apply', ih (by omega), post_observed, ← along_succ,
      foldl_paint_of_nil hpixels]

include hscreen hshow hstill

/-- **The first row**, at the dot 0 that an odd frame skips. -/
theorem atRow_zero {q : Ppu} (hq : (along H s 341).chip = q) {c : Uint64}
    (hc : c.toNat % 341 = 0) : AtRow (sceneOf H s) 0 { q with cycles := c } := by
  have hroom : Room 341 s.chip := hbeam.room (by decide)
  have hrendered : s.chip.Rendered := Or.inr hline
  have hvert (j : ℕ) (hj : 281 ≤ j) :
      vert (lineAddr s.chip.line s.chip.vram.tmp s.chip.vram.addr j) = (sceneOf H s).vertOf 0 := by
    rw [hline]
    exact vert_lineAddr_preRender _ _ hj
  have hvram := preRender_vram H hline hdot hroom hshow
  have hend := onBeam_iterate H hbeam 341
  obtain ⟨hscreen', hshow', hbg⟩ := settings_along H s 341
  have hplain := plain_end H hrendered hdot hroom
  have hregs := startSource_along H hrendered hdot hroom hshow hstill (Or.inr hline) hvert
  rw [hq] at hvram hend hscreen' hshow' hbg hplain
  simp only [hq] at hregs
  have hstart := (hbeam.frame_start hend hline hdot).1
  refine ⟨hstart, hc, hscreen'.trans hscreen, hshow'.trans hshow, hbg, ?_, ?_, ?_, ?_,
    ⟨hplain.alow, hplain.ahigh⟩, hregs⟩
  · show q.vram.tmp = s.chip.vram.tmp
    rw [hvram]
  · show q.vram.fineX.toNat = s.chip.vram.fineX.toNat
    rw [hvram]
  · show horz q.vram.addr = (horz s.chip.vram.tmp + 2) % 64
    rw [hvram]
    exact horz_lineAddr_end (Or.inr rfl) _ _
  · show vert q.vram.addr = (sceneOf H s).vertOf 0
    rw [hvram, ← hline]
    exact hvert 341 (by decide)

/-- The dots from there to the end of the picture. -/
def frameDots (p : Ppu) : ℕ := if p.oddFrame then 341 * 241 - 1 else 341 * 241

/-- The PPU with its canvas at the first row, and how many dots later the picture is complete. -/
theorem first_row (c₀ : Canvas) : ∃ t : Sys Ppu σ,
    AtRow (sceneOf H s) 0 t.chip ∧ Room (341 * 240) t.chip ∧ t.env = s.env ∧
      (post (onCanvas H) run)^[frameDots s.chip] ⟨s.chip, s.env, c₀⟩ =
        (post (onCanvas H) run)^[341 * 240] ⟨t.chip, t.env, c₀⟩ := by
  have henv := env_along H (Or.inr hline) hdot (hbeam.room (by decide)) hstill (le_refl 341)
  have hcanvas := preRender_canvas H hbeam hline hdot c₀ (le_refl 341)
  have hend : OnBeam (n + 341) (along H s 341).chip := onBeam_iterate H hbeam 341
  obtain ⟨q, hq⟩ : ∃ q, along H s 341 = q := ⟨_, rfl⟩
  have hrow {c : Uint64} (hc : c.toNat % 341 = 0) :
      AtRow (sceneOf H s) 0 { q.chip with cycles := c } :=
    atRow_zero H hbeam hline hdot hscreen hshow hstill (congrArg Sys.chip hq) hc
  rw [hq] at henv hcanvas hend
  obtain ⟨hline', hdot'⟩ := hbeam.frame_start hend hline hdot
  cases hodd : s.chip.oddFrame with
  | false =>
    rw [hodd] at hdot'
    refine ⟨q, hrow hdot', hend.room (by decide), henv, ?_⟩
    rw [frameDots, hodd, if_neg (by decide), show 341 * 241 = 341 * 240 + 341 by decide,
      Function.iterate_add_apply, hcanvas]
  | true =>
    have hbeam' : beam (n + 341) = 1 := by
      have hodd' := hbeam.oddFrame.symm.trans hodd
      have hpos := hbeam.position
      rw [hline, hdot] at hpos
      rw [decide_eq_true_eq] at hodd'
      unfold beam period at *
      split_ifs at * <;> omega
    have hcycles : q.chip.cycles = 1 := BitVec.eq_of_toNat_eq (hend.cycles.trans hbeam')
    have hlines : q.chip.lines.toNat = 0 := by rw [hend.lines, hbeam']
    refine ⟨⟨{ q.chip with cycles := 0 }, q.env⟩, hrow rfl, ⟨?_, ?_⟩, henv, ?_⟩
    · show 0 + 341 * 240 < 2 ^ 64
      decide
    · show q.chip.lines.toNat + 341 * 240 < 2 ^ 64
      rw [hlines]
      decide
    · have hskip := canvas_dot_zero H hline' hcycles (by rwa [henv]) c₀
      have hiterate (N : ℕ) : (post (onCanvas H) run)^[N + 1]
          ⟨{ q.chip with cycles := 0 }, q.env, c₀⟩ =
          (post (onCanvas H) run)^[N] ⟨q.chip, q.env, c₀⟩ := by
        rw [Function.iterate_succ_apply, hskip]
      rw [frameDots, hodd, if_pos rfl, show 341 * 241 - 1 = 81839 + 341 from rfl,
        Function.iterate_add_apply, hcanvas, show 341 * 240 = 81839 + 1 from rfl, hiterate]

end Whole

/-- **A frame.** After any history since power or reset: from the line before the first one to the
end of the last one, with the background shown and no register accessed, every pixel right of the
first four columns is drawn with the colour of the picture, and the others stay as they are. The
picture is a function of the video memory, the temporary address and fine X as they are at the
beginning. A fine X of 7 is left out, because its palette comes from a shift without a defined
result. -/
theorem frame_shows {σ : Type} (H : Handler ppuSig σ) (b : Start) (s₀ : Sys Ppu σ) (cs : List Call)
    (mem₀ : ℕ → Uint8) :
    let s := after (step H) (post H (start b) s₀) cs
    let t := (post (onCanvas H) run)^[frameDots s.chip] ⟨s.chip, s.env, sized 256 240 mem₀⟩
    s.chip.line = 261 → s.chip.dot = 0 → s.chip.screen = true → s.chip.io.bgShow = true →
    s.chip.vram.fineX.toNat ≤ 6 → Still H s.env →
    t.chip.line = 240 ∧ t.chip.dot = 0 ∧
    ∀ p : Pixel 256 240, t.env.2.colorAt p =
      if 4 ≤ p.x.toNat then (sceneOf H s).picture p.x.toNat p.y.toNat
      else (sized 256 240 mem₀).colorAt p := by
  intro s t hline hdot hscreen hshow hfine hstill
  obtain ⟨u, hrow, hroom, henv, hrun⟩ := first_row H (onBeam_after H b s₀ cs) hline hdot hscreen
    hshow hstill (sized 256 240 mem₀)
  have hstill' : Still H u.env := by rwa [henv]
  have hmem : mem H u.env = (sceneOf H s).mem := by rw [henv]; rfl
  obtain ⟨hend, -⟩ := atRow_along H hrow hroom hstill' hmem (le_refl 240)
  obtain ⟨mem₁, hstate, hpainted⟩ :=
    painted_along H hrow hroom hstill' hmem hfine mem₀ (le_refl (341 * 240))
  obtain ⟨q, hq⟩ : ∃ q, along H u (341 * 240) = q := ⟨_, rfl⟩
  rw [hq] at hend hstate
  have ht : t = ⟨q.chip, q.env, sized 256 240 mem₁⟩ := hrun.trans hstate
  rw [ht]
  refine ⟨hend.line, hend.dot, fun p => ?_⟩
  have hx := p.hx
  have hy := p.hy
  refine (hpainted p).trans (if_congr ?_ rfl rfl)
  omega

/-- Every row of every tile has its bit 4 set in both planes, and the colour 3 is white. -/
def stripeBus : Handler ppuSig Unit
  | .read a, _ => (if a = 0x3F03 then 0x30 else if a.toNat < 0x2000 then 0x10 else 0, ())
  | o, _ => zeroBus o ()

theorem still_stripeBus (e : Unit) : Still stripeBus e := fun _ _ => rfl

/-- A program that shows the background, at the line before its first frame. -/
theorem stripes_preRender {n : ℕ} (hn : n = 89001) {s : Sys Ppu Unit}
    (hs : s = after (step stripeBus) (post stripeBus (start .power) lit)
      (showOrigin ++ List.replicate n .run)) :
    (s.chip.line = 261 ∧ s.chip.dot = 0 ∧ s.chip.screen = true ∧ s.chip.io.bgShow = true) ∧
      sceneOf stripeBus s = ⟨mem stripeBus (), false, 0, 0⟩ := by
  obtain ⟨hline, hdot, hshow, htmp⟩ :=
    first_preRender stripeBus (b := .power) (s := lit) showOrigin rfl rfl hn
  rw [← hs] at hline hdot hshow htmp
  rw [after_append, after_replicate] at hs
  obtain ⟨hscreen, -, hbg⟩ := settings_along stripeBus
    (after (step stripeBus) (post stripeBus (start .power) lit) showOrigin) n
  obtain ⟨-, hfine⟩ := vram_along stripeBus
    (after (step stripeBus) (post stripeBus (start .power) lit) showOrigin) n
  rw [← hs] at hscreen hbg hfine
  refine ⟨⟨hline, hdot, hscreen, hshow⟩, ?_⟩
  unfold sceneOf
  rw [hbg, htmp, hfine]
  rfl

/-- Its first frame has white in the column 4, and black beside it. -/
theorem frame_shows_stripes :
    let s := after (step stripeBus) (post stripeBus (start .power) lit)
      (showOrigin ++ List.replicate 89001 .run)
    let c := ((post (onCanvas stripeBus) run)^[frameDots s.chip]
      ⟨s.chip, s.env, sized 256 240 fun _ => 0x80⟩).env.2
    c.colorAt (⟨3, 0, by decide, by decide⟩ : Pixel 256 240) = 0x80808080 ∧
      c.colorAt (⟨4, 0, by decide, by decide⟩ : Pixel 256 240) = 0xFFFFFFFF ∧
      c.colorAt (⟨5, 0, by decide, by decide⟩ : Pixel 256 240) = 0 := by
  obtain ⟨n, hn⟩ : ∃ n, n = 89001 := ⟨_, rfl⟩
  rw [← hn]
  have hpainted := frame_shows stripeBus .power lit (showOrigin ++ List.replicate n .run)
    fun _ => 0x80
  obtain ⟨s, hs⟩ : ∃ s, s = after (step stripeBus) (post stripeBus (start .power) lit)
    (showOrigin ++ List.replicate n .run) := ⟨_, rfl⟩
  obtain ⟨⟨hline, hdot, hscreen, hshow⟩, hscene⟩ := stripes_preRender hn hs
  have hfine : s.chip.vram.fineX.toNat = 0 := congrArg Scene.fineX hscene
  rw [← hs] at hpainted ⊢
  obtain ⟨-, -, hcolor⟩ :=
    hpainted hline hdot hscreen hshow (by omega) (still_stripeBus _)
  rw [hscene] at hcolor
  exact ⟨(hcolor _).trans (by decide), (hcolor _).trans (by decide), (hcolor _).trans (by decide)⟩

end Yanesemu.Ppu
