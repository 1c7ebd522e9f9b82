import Yanesemu.Bits

/-!
# Bits of the bit routines

Each routine of `util/bits.hpp` is characterised by its bits: what `setbits` leaves at position
`i`, what a `BitField` reads there and what an assignment to it leaves. The rules for reading a
field after an assignment follow, for the same field and for fields that do not overlap.
-/

namespace Yanesemu.Util

theorem toNat_getMaskNbits {n : Uint8} (hn : n.toNat < 64) :
    (getMaskNbits n).toNat = 2 ^ n.toNat - 1 := by
  have hpow : 2 ^ n.toNat < 2 ^ 64 := Nat.pow_lt_pow_right (by decide) hn
  have hone : (1 : Uint64) <<< n.toNat = BitVec.twoPow 64 n.toNat := by
    rw [BitVec.twoPow_eq]; rfl
  have hle : 1 ≤ 2 ^ n.toNat := Nat.one_le_two_pow
  unfold getMaskNbits
  rw [hone, BitVec.toNat_sub, BitVec.toNat_twoPow, Nat.mod_eq_of_lt hpow]
  show (2 ^ 64 - 1 + 2 ^ n.toNat) % 2 ^ 64 = 2 ^ n.toNat - 1
  omega

theorem getLsbD_getMaskNbits {n : Uint8} (hn : n.toNat < 64) (i : ℕ) :
    (getMaskNbits n).getLsbD i = decide (i < n.toNat) := by
  unfold BitVec.getLsbD
  rw [toNat_getMaskNbits hn, Nat.testBit_two_pow_sub_one]

/-- `setbits` takes the bits of the range from the data and keeps the others. -/
theorem getLsbD_setbits {b n : Uint8} (hn : n.toNat < 64) (num data : Uint64) {i : ℕ}
    (hi : i < 64) :
    (setbits num b n data).getLsbD i =
      if b.toNat ≤ i ∧ i < b.toNat + n.toNat then data.getLsbD (i - b.toNat)
      else num.getLsbD i := by
  unfold setbits
  simp only [BitVec.getLsbD_or, BitVec.getLsbD_and, BitVec.getLsbD_not, BitVec.getLsbD_shiftLeft,
    getLsbD_getMaskNbits hn, hi, decide_true, Bool.true_and]
  by_cases hb : i < b.toNat
  · rw [if_neg (by omega)]
    simp [hb]
  · by_cases hi' : i < b.toNat + n.toNat
    · rw [if_pos (by omega)]
      have hsub : i - b.toNat < n.toNat := by omega
      simp [hb, hsub]
    · rw [if_neg (by omega)]
      have hsub : ¬i - b.toNat < n.toNat := by omega
      simp [hsub]

/-- `setbits` on a word that is widened for the call. -/
theorem getLsbD_setbits_setWidth {w : ℕ} {b n : Uint8} (hn : n.toNat < 64) (hw : w ≤ 64)
    (v : BitVec w) (data : Uint64) {i : ℕ} (hi : i < w) :
    ((setbits (v.setWidth 64) b n data).setWidth w).getLsbD i =
      if b.toNat ≤ i ∧ i < b.toNat + n.toNat then data.getLsbD (i - b.toNat)
      else v.getLsbD i := by
  have hi64 : i < 64 := by omega
  rw [BitVec.getLsbD_setWidth, getLsbD_setbits hn _ _ hi64, BitVec.getLsbD_setWidth]
  simp [hi, hi64]

namespace BitField

variable {w : ℕ} {b n : Uint8}

theorem toNat_read_lt (b n : Uint8) (hn : n.toNat < 64) (v : BitVec w) :
    (read b n v).toNat < 2 ^ n.toNat := by
  unfold read
  rw [BitVec.toNat_and, toNat_getMaskNbits hn, Nat.and_two_pow_sub_one_eq_mod]
  exact Nat.mod_lt _ (Nat.two_pow_pos _)

/-- A field reads its digit of the word. -/
theorem toNat_read (hn : n.toNat < 64) (hw : w ≤ 64) (v : BitVec w) :
    (read b n v).toNat = v.toNat / 2 ^ b.toNat % 2 ^ n.toNat := by
  unfold read
  rw [BitVec.toNat_and, toNat_getMaskNbits hn, Nat.and_two_pow_sub_one_eq_mod,
    BitVec.toNat_ushiftRight, Nat.shiftRight_eq_div_pow, BitVec.toNat_setWidth_of_le hw]

theorem getLsbD_read (hn : n.toNat < 64) (v : BitVec w) (i : ℕ) :
    (read b n v).getLsbD i =
      (decide (i < n.toNat) && decide (b.toNat + i < 64) && v.getLsbD (b.toNat + i)) := by
  unfold read
  rw [BitVec.getLsbD_and, BitVec.getLsbD_ushiftRight, getLsbD_getMaskNbits hn,
    BitVec.getLsbD_setWidth]
  cases decide (i < n.toNat) <;> simp

theorem getLsbD_assign (hn : n.toNat < 64) (hw : w ≤ 64) (v d : BitVec w) {i : ℕ} (hi : i < w) :
    (assign b n v d).getLsbD i =
      if b.toNat ≤ i ∧ i < b.toNat + n.toNat then d.getLsbD (i - b.toNat) else v.getLsbD i := by
  have hsub : i - b.toNat < 64 := by omega
  unfold assign
  rw [getLsbD_setbits_setWidth hn hw _ _ hi, BitVec.getLsbD_setWidth, decide_eq_true hsub,
    Bool.true_and]

/-- An assignment leaves the bits of the word that are not of the field. -/
theorem getLsbD_assign_of_not_mem (hn : n.toNat < 64) (hw : w ≤ 64) (v d : BitVec w) {i : ℕ}
    (hi : ¬(b.toNat ≤ i ∧ i < b.toNat + n.toNat)) :
    (assign b n v d).getLsbD i = v.getLsbD i := by
  by_cases hiw : i < w
  · rw [getLsbD_assign hn hw v d hiw, if_neg hi]
  · rw [BitVec.getLsbD_of_ge _ _ (Nat.le_of_not_lt hiw),
      BitVec.getLsbD_of_ge _ _ (Nat.le_of_not_lt hiw)]

theorem read_assign_self (hn : n.toNat < 64) (hb : b.toNat + n.toNat ≤ w) (hw : w ≤ 64)
    (v d : BitVec w) : read b n (assign b n v d) = d.setWidth 64 &&& getMaskNbits n := by
  apply BitVec.eq_of_getLsbD_eq
  intro i hi
  rw [getLsbD_read hn, BitVec.getLsbD_and, getLsbD_getMaskNbits hn, BitVec.getLsbD_setWidth]
  by_cases hin : i < n.toNat
  · rw [getLsbD_assign hn hw _ _ (by omega), if_pos (by omega), Nat.add_sub_cancel_left]
    have : b.toNat + i < 64 := by omega
    simp [hin, hi, this]
  · simp [hin]

theorem toNat_read_assign (hn : n.toNat < 64) (hb : b.toNat + n.toNat ≤ w) (hw : w ≤ 64)
    (v d : BitVec w) : (read b n (assign b n v d)).toNat = d.toNat % 2 ^ n.toNat := by
  rw [read_assign_self hn hb hw, BitVec.toNat_and, toNat_getMaskNbits hn,
    Nat.and_two_pow_sub_one_eq_mod, BitVec.toNat_setWidth_of_le hw]

theorem read_assign_of_disjoint {b' n' : Uint8} (hn : n.toNat < 64) (hn' : n'.toNat < 64)
    (hb : b.toNat + n.toNat ≤ w) (hw : w ≤ 64)
    (hdisj : b.toNat + n.toNat ≤ b'.toNat ∨ b'.toNat + n'.toNat ≤ b.toNat) (v d : BitVec w) :
    read b n (assign b' n' v d) = read b n v := by
  apply BitVec.eq_of_getLsbD_eq
  intro i hi
  rw [getLsbD_read hn, getLsbD_read hn]
  by_cases hin : i < n.toNat
  · rw [getLsbD_assign hn' hw _ _ (by omega), if_neg (by omega)]
  · simp [hin]

end BitField

end Yanesemu.Util
