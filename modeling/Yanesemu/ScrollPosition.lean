import Yanesemu.VramAddress

/-!
# The two counters of the fetch address

A VRAM address is a horizontal counter of six bits, bit 0 of `nt` over `coarse_x`, and a vertical
position: bit 1 of `nt`, `coarse_y` and `fine_y`. The four routines that move the fetch address
during a line act on one of them and leave the other alone.

`copyVert` does not do what it is for. The assignment of a bit field to a bit field hands on the
whole word of the other field, so it is the low bits of the temporary address, its `coarse_x`,
that end up in `coarse_y` and `fine_y` (`vert_copyVert`).
-/

namespace Yanesemu.VramAddress

open Util

/-! ### Horizontal and vertical position -/

/-- Bit 0 of `nt` and `coarse_x` as one number. -/
def horz (v : VramAddress) : ℕ := 32 * ((nt v).toNat % 2) + (coarseX v).toNat

/-- The vertical position; `nt` is bit 1 of the field of that name. -/
@[ext] structure Vert where
  nt : ℕ
  coarseY : ℕ
  fineY : ℕ
  deriving DecidableEq, Repr

def vert (v : VramAddress) : Vert := ⟨(nt v).toNat / 2, (coarseY v).toNat, (fineY v).toNat⟩

/-- The vertical increment: `coarse_y` counts the 30 rows of a name table and goes on into the
other one; from the rows 30 and 31, which are not there, it wraps without doing so. -/
def Vert.next (p : Vert) : Vert :=
  if p.fineY < 7 then { p with fineY := p.fineY + 1 }
  else if p.coarseY = 29 then ⟨1 - p.nt, 0, 0⟩
  else if p.coarseY = 31 then { p with coarseY := 0, fineY := 0 }
  else { p with coarseY := p.coarseY + 1, fineY := 0 }

theorem horz_lt (v : VramAddress) : horz v < 64 := by
  have := toNat_coarseX_lt v
  unfold horz
  omega

/-! ### The routines -/

/-- `inc_v_horzpos` on the address. -/
def incHorz (v : VramAddress) : VramAddress :=
  if coarseX v == 31 then setNt (setCoarseX v 0) (nt (setCoarseX v 0) ^^^ 1)
  else setCoarseX v (coarseX v + 1)

/-- `inc_v_vertpos` on the address. -/
def incVert (v : VramAddress) : VramAddress :=
  if (fineY v).toNat < 7 then setFineY v (fineY v + 1)
  else
    let v := setFineY v 0
    let y : Uint16 := (coarseY v).setWidth 16
    if y == 29 then setCoarseY (setNt v (nt v ^^^ 2)) 0
    else if y == 31 then setCoarseY v 0
    else setCoarseY v ((y + 1).setWidth 64)

/-- `copy_v_horzpos` on the addresses. -/
def copyHorz (v tmp : VramAddress) : VramAddress :=
  let v : VramAddress := BitField.copy 0 5 v tmp
  setNt v (setbit (nt v) 0 (truthy (nt tmp &&& 1)))

/-- `copy_v_vertpos` on the addresses. -/
def copyVert (v tmp : VramAddress) : VramAddress :=
  let v : VramAddress := BitField.copy 5 5 v tmp
  let v : VramAddress := BitField.copy 12 3 v tmp
  setNt v (setbit (nt v) 1 (truthy (nt tmp >>> 1 &&& 1)))

/-! ### What they do -/

/-- A name table number is one of four. -/
theorem nt_cases (v : VramAddress) : nt v = 0 ∨ nt v = 1 ∨ nt v = 2 ∨ nt v = 3 := by
  have h := toNat_nt_lt v
  have hcases : (nt v).toNat = 0 ∨ (nt v).toNat = 1 ∨ (nt v).toNat = 2 ∨ (nt v).toNat = 3 := by
    omega
  rcases hcases with h | h | h | h
  · exact Or.inl (BitVec.eq_of_toNat_eq h)
  · exact Or.inr (Or.inl (BitVec.eq_of_toNat_eq h))
  · exact Or.inr (Or.inr (Or.inl (BitVec.eq_of_toNat_eq h)))
  · exact Or.inr (Or.inr (Or.inr (BitVec.eq_of_toNat_eq h)))

theorem toNat_add_one {d : Uint64} {n : ℕ} (hd : d.toNat < n) (hn : n < 2 ^ 64) :
    (d + 1).toNat = d.toNat + 1 := by
  rw [BitVec.toNat_add]
  show (d.toNat + 1) % 2 ^ 64 = d.toNat + 1
  omega

theorem horz_incHorz (v : VramAddress) : horz (incHorz v) = (horz v + 1) % 64 := by
  have hx := toNat_coarseX_lt v
  unfold incHorz horz
  by_cases h : coarseX v = 31
  · rw [if_pos (beq_iff_eq.mpr h), toNat_nt_setNt, coarseX_setNt, toNat_coarseX_setCoarseX,
      nt_setCoarseX, h]
    rcases nt_cases v with hn | hn | hn | hn <;> rw [hn] <;> rfl
  · have hne : (coarseX v).toNat ≠ 31 := fun h' => h (BitVec.eq_of_toNat_eq h')
    rw [if_neg (mt beq_iff_eq.mp h), nt_setCoarseX, toNat_coarseX_setCoarseX,
      toNat_add_one hx (by decide)]
    omega

theorem vert_incHorz (v : VramAddress) : vert (incHorz v) = vert v := by
  unfold incHorz vert
  split
  · simp only [toNat_nt_setNt, coarseY_setNt, coarseY_setCoarseX, fineY_setNt, fineY_setCoarseX,
      nt_setCoarseX]
    rcases nt_cases v with hn | hn | hn | hn <;> rw [hn] <;> rfl
  · simp only [nt_setCoarseX, coarseY_setCoarseX, fineY_setCoarseX]

theorem horz_incVert (v : VramAddress) : horz (incVert v) = horz v := by
  unfold incVert horz
  dsimp only
  split_ifs
  · simp
  · simp only [nt_setCoarseY, coarseX_setCoarseY, toNat_nt_setNt, coarseX_setNt, nt_setFineY,
      coarseX_setFineY]
    rcases nt_cases v with hn | hn | hn | hn <;> rw [hn] <;> rfl
  · simp
  · simp

theorem vert_incVert (v : VramAddress) : vert (incVert v) = (vert v).next := by
  have hfine := toNat_fineY_lt v
  have hrow := toNat_coarseY_lt v
  unfold incVert Vert.next vert
  by_cases h7 : (fineY v).toNat < 7
  · rw [if_pos h7, if_pos h7, nt_setFineY, coarseY_setFineY, toNat_fineY_setFineY,
      toNat_add_one hfine (by decide), Nat.mod_eq_of_lt (by omega)]
  rw [if_neg h7, if_neg h7]
  dsimp only
  rw [coarseY_setFineY, nt_setFineY]
  have hy : ((coarseY v).setWidth 16).toNat = (coarseY v).toNat := by
    rw [BitVec.toNat_setWidth, Nat.mod_eq_of_lt (by omega)]
  have heq (n : Uint16) : ((coarseY v).setWidth 16 == n) = true ↔ (coarseY v).toNat = n.toNat := by
    rw [beq_iff_eq, ← BitVec.toNat_inj, hy]
  by_cases h29 : (coarseY v).toNat = 29
  · rw [if_pos ((heq 29).mpr h29), if_pos h29]
    simp only [nt_setCoarseY, toNat_nt_setNt, toNat_coarseY_setCoarseY, fineY_setCoarseY,
      fineY_setNt, toNat_fineY_setFineY]
    rcases nt_cases v with hn | hn | hn | hn <;> rw [hn] <;> rfl
  rw [if_neg (mt (heq 29).mp h29), if_neg h29]
  by_cases h31 : (coarseY v).toNat = 31
  · rw [if_pos ((heq 31).mpr h31), if_pos h31]
    simp only [nt_setCoarseY, nt_setFineY, toNat_coarseY_setCoarseY, fineY_setCoarseY,
      toNat_fineY_setFineY]
    rfl
  · have hnext : (((coarseY v).setWidth 16 + 1 : Uint16).setWidth 64).toNat % 32 =
        (coarseY v).toNat + 1 := by
      rw [BitVec.toNat_setWidth_of_le (by decide), BitVec.toNat_add, hy]
      show ((coarseY v).toNat + 1) % 2 ^ 16 % 32 = (coarseY v).toNat + 1
      omega
    rw [if_neg (mt (heq 31).mp h31), if_neg h31]
    simp only [nt_setCoarseY, nt_setFineY, toNat_coarseY_setCoarseY, fineY_setCoarseY,
      toNat_fineY_setFineY, hnext]
    rfl

/-! ### The copies -/

/-- A field that is copied takes the low bits of the whole word. -/
theorem copy_eq_assign (b n : Uint8) (v tmp : VramAddress) :
    BitField.copy b n v tmp = BitField.assign b n v ((tmp.setWidth 64).setWidth 16) := by
  rw [BitVec.setWidth_setWidth_of_le _ (by decide), BitVec.setWidth_eq]
  rfl

theorem copyHorz_eq (v tmp : VramAddress) :
    copyHorz v tmp =
      setNt (setCoarseX v (tmp.setWidth 64)) (setbit (nt v) 0 (truthy (nt tmp &&& 1))) := by
  have hcopy : BitField.copy 0 5 v tmp = setCoarseX v (tmp.setWidth 64) := copy_eq_assign 0 5 v tmp
  unfold copyHorz
  dsimp only
  rw [hcopy, nt_setCoarseX]

theorem copyVert_eq (v tmp : VramAddress) :
    copyVert v tmp =
      setNt (setFineY (setCoarseY v (tmp.setWidth 64)) (tmp.setWidth 64))
        (setbit (nt v) 1 (truthy (nt tmp >>> 1 &&& 1))) := by
  have hrow : BitField.copy 5 5 v tmp = setCoarseY v (tmp.setWidth 64) := copy_eq_assign 5 5 v tmp
  have hfine (u : VramAddress) : BitField.copy 12 3 u tmp = setFineY u (tmp.setWidth 64) :=
    copy_eq_assign 12 3 u tmp
  unfold copyVert
  dsimp only
  rw [hrow, hfine, nt_setFineY, nt_setCoarseY]

theorem horz_copyHorz (v tmp : VramAddress) : horz (copyHorz v tmp) = horz tmp := by
  have hx := toNat_coarseX tmp
  rw [copyHorz_eq]
  unfold horz
  rw [toNat_nt_setNt, coarseX_setNt, toNat_coarseX_setCoarseX,
    BitVec.toNat_setWidth_of_le (by decide), hx]
  congr 1
  rcases nt_cases v with hn | hn | hn | hn <;> rcases nt_cases tmp with ht | ht | ht | ht <;>
    rw [hn, ht] <;> rfl

theorem vert_copyHorz (v tmp : VramAddress) : vert (copyHorz v tmp) = vert v := by
  rw [copyHorz_eq]
  unfold vert
  rw [toNat_nt_setNt, coarseY_setNt, coarseY_setCoarseX, fineY_setNt, fineY_setCoarseX]
  congr 1
  rcases nt_cases v with hn | hn | hn | hn <;> rcases nt_cases tmp with ht | ht | ht | ht <;>
    rw [hn, ht] <;> rfl

theorem horz_copyVert (v tmp : VramAddress) : horz (copyVert v tmp) = horz v := by
  rw [copyVert_eq]
  unfold horz
  rw [toNat_nt_setNt, coarseX_setNt, coarseX_setFineY, coarseX_setCoarseY]
  congr 1
  rcases nt_cases v with hn | hn | hn | hn <;> rcases nt_cases tmp with ht | ht | ht | ht <;>
    rw [hn, ht] <;> rfl

/-- What ends up in the vertical position. -/
theorem vert_copyVert (v tmp : VramAddress) :
    vert (copyVert v tmp) =
      ⟨(nt tmp).toNat / 2, (coarseX tmp).toNat, (coarseX tmp).toNat % 8⟩ := by
  have hx := toNat_coarseX tmp
  rw [copyVert_eq]
  unfold vert
  rw [toNat_nt_setNt, coarseY_setNt, coarseY_setFineY, toNat_coarseY_setCoarseY, fineY_setNt,
    toNat_fineY_setFineY, BitVec.toNat_setWidth_of_le (by decide), hx,
    Nat.mod_mod_of_dvd _ (by decide)]
  congr 1
  rcases nt_cases v with hn | hn | hn | hn <;> rcases nt_cases tmp with ht | ht | ht | ht <;>
    rw [hn, ht] <;> rfl

end Yanesemu.VramAddress
