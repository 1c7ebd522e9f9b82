import Yanesemu.BitFields
import Yanesemu.Ppu

/-!
# The fields of a VRAM address

`VRAMAddress` is a word of four bit fields, from the top `fine_y`, `nt`, `coarse_y` and
`coarse_x`; bit 15 belongs to none. The lemmas here read a field as a number and after an
assignment, so that no proof about the scroll position looks at bits again.
-/

namespace Yanesemu.VramAddress

open Util

variable (v : VramAddress) (d : Uint64)

/-! ### Fields as numbers -/

theorem toNat_coarseX : (coarseX v).toNat = v.toNat % 32 := by
  have h := BitField.toNat_read (b := 0) (n := 5) (by decide) (by decide) v
  rwa [show (0 : Uint8).toNat = 0 from rfl, Nat.pow_zero, Nat.div_one] at h

theorem toNat_fineY_lt : (fineY v).toNat < 8 := BitField.toNat_read_lt 12 3 (by decide) v

theorem toNat_nt_lt : (nt v).toNat < 4 := BitField.toNat_read_lt 10 2 (by decide) v

theorem toNat_coarseY_lt : (coarseY v).toNat < 32 := BitField.toNat_read_lt 5 5 (by decide) v

theorem toNat_coarseX_lt : (coarseX v).toNat < 32 := BitField.toNat_read_lt 0 5 (by decide) v

/-! ### Reading the field that was assigned -/

theorem toNat_read_assign {b n : Uint8} (hn : n.toNat < 17)
    (hb : b.toNat + n.toNat ≤ 16) :
    (BitField.read b n (BitField.assign b n v (d.setWidth 16))).toNat = d.toNat % 2 ^ n.toNat := by
  have hdvd : 2 ^ n.toNat ∣ 2 ^ 16 := Nat.pow_dvd_pow 2 (by omega)
  rw [BitField.toNat_read_assign (by omega) hb (by decide), BitVec.toNat_setWidth,
    Nat.mod_mod_of_dvd _ hdvd]

@[simp] theorem toNat_fineY_setFineY : (fineY (setFineY v d)).toNat = d.toNat % 8 :=
  toNat_read_assign v d (by decide) (by decide)

@[simp] theorem toNat_nt_setNt : (nt (setNt v d)).toNat = d.toNat % 4 :=
  toNat_read_assign v d (by decide) (by decide)

@[simp] theorem toNat_coarseY_setCoarseY : (coarseY (setCoarseY v d)).toNat = d.toNat % 32 :=
  toNat_read_assign v d (by decide) (by decide)

@[simp] theorem toNat_coarseX_setCoarseX : (coarseX (setCoarseX v d)).toNat = d.toNat % 32 :=
  toNat_read_assign v d (by decide) (by decide)

theorem fineY_setFineY {d : Uint64} (hd : d.toNat < 8) : fineY (setFineY v d) = d :=
  BitVec.eq_of_toNat_eq (by rw [toNat_fineY_setFineY, Nat.mod_eq_of_lt hd])

theorem nt_setNt {d : Uint64} (hd : d.toNat < 4) : nt (setNt v d) = d :=
  BitVec.eq_of_toNat_eq (by rw [toNat_nt_setNt, Nat.mod_eq_of_lt hd])

theorem coarseY_setCoarseY {d : Uint64} (hd : d.toNat < 32) : coarseY (setCoarseY v d) = d :=
  BitVec.eq_of_toNat_eq (by rw [toNat_coarseY_setCoarseY, Nat.mod_eq_of_lt hd])

theorem coarseX_setCoarseX {d : Uint64} (hd : d.toNat < 32) : coarseX (setCoarseX v d) = d :=
  BitVec.eq_of_toNat_eq (by rw [toNat_coarseX_setCoarseX, Nat.mod_eq_of_lt hd])

/-! ### Reading another field -/

section Disjoint

variable {b n b' n' : Uint8}

theorem read_assign_other
    (h : n.toNat < 64 ∧ n'.toNat < 64 ∧ b.toNat + n.toNat ≤ 16 ∧
      (b.toNat + n.toNat ≤ b'.toNat ∨ b'.toNat + n'.toNat ≤ b.toNat)) (e : VramAddress) :
    BitField.read b n (BitField.assign b' n' v e) = BitField.read b n v :=
  BitField.read_assign_of_disjoint h.1 h.2.1 h.2.2.1 (by decide) h.2.2.2 v e

end Disjoint

@[simp] theorem fineY_setNt : fineY (setNt v d) = fineY v := read_assign_other v (by decide) _
@[simp] theorem fineY_setCoarseY : fineY (setCoarseY v d) = fineY v :=
  read_assign_other v (by decide) _
@[simp] theorem fineY_setCoarseX : fineY (setCoarseX v d) = fineY v :=
  read_assign_other v (by decide) _
@[simp] theorem nt_setFineY : nt (setFineY v d) = nt v := read_assign_other v (by decide) _
@[simp] theorem nt_setCoarseY : nt (setCoarseY v d) = nt v := read_assign_other v (by decide) _
@[simp] theorem nt_setCoarseX : nt (setCoarseX v d) = nt v := read_assign_other v (by decide) _
@[simp] theorem coarseY_setFineY : coarseY (setFineY v d) = coarseY v :=
  read_assign_other v (by decide) _
@[simp] theorem coarseY_setNt : coarseY (setNt v d) = coarseY v := read_assign_other v (by decide) _
@[simp] theorem coarseY_setCoarseX : coarseY (setCoarseX v d) = coarseY v :=
  read_assign_other v (by decide) _
@[simp] theorem coarseX_setFineY : coarseX (setFineY v d) = coarseX v :=
  read_assign_other v (by decide) _
@[simp] theorem coarseX_setNt : coarseX (setNt v d) = coarseX v := read_assign_other v (by decide) _
@[simp] theorem coarseX_setCoarseY : coarseX (setCoarseY v d) = coarseX v :=
  read_assign_other v (by decide) _

/-! ### Bit 15 -/

theorem bit15_assign {b n : Uint8} (h : n.toNat < 64 ∧ b.toNat + n.toNat ≤ 15)
    (e : VramAddress) : (BitField.assign b n v e).getLsbD 15 = v.getLsbD 15 :=
  BitField.getLsbD_assign_of_not_mem h.1 (by decide) _ _ (by omega)

@[simp] theorem bit15_setFineY : (setFineY v d).getLsbD 15 = v.getLsbD 15 :=
  bit15_assign v (by decide) _
@[simp] theorem bit15_setNt : (setNt v d).getLsbD 15 = v.getLsbD 15 :=
  bit15_assign v (by decide) _
@[simp] theorem bit15_setCoarseY : (setCoarseY v d).getLsbD 15 = v.getLsbD 15 :=
  bit15_assign v (by decide) _
@[simp] theorem bit15_setCoarseX : (setCoarseX v d).getLsbD 15 = v.getLsbD 15 :=
  bit15_assign v (by decide) _

end Yanesemu.VramAddress
