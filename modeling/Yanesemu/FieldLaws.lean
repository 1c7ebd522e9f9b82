import Yanesemu.BitFields
import Yanesemu.Lib.Lens

/-!
# The laws of bit fields

A `BitField` that lies in its word is a lens on it: an assignment is its `put` and a reading its
`get`, so the laws of lenses are laws of the assignments of `util/bits.hpp`. The compound
operators work on the reading in 64 bits and put it back, which is arithmetic modulo `2 ^ nbits`
in the field and nothing at all outside.

`getbits` is not the reading of a field. It masks with the number `nbits` itself instead of with
`nbits` ones (`getbits_eq_read_and`), so it loses the bits of the field at which the binary digits
of `nbits` are zero.
-/

namespace Yanesemu.Util

/-- The position of a field that lies in a word of `w` bits. -/
structure Field (w : ℕ) where
  bitno : Uint8
  nbits : Uint8
  pos : 1 ≤ nbits.toNat
  lt : nbits.toNat < 64
  le : bitno.toNat + nbits.toNat ≤ w

namespace Field

variable {w : ℕ} (F : Field w)

abbrev read (v : BitVec w) : Uint64 := BitField.read F.bitno F.nbits v

abbrev assign (v d : BitVec w) : BitVec w := BitField.assign F.bitno F.nbits v d

abbrev update (f : Uint64 → Uint64) (v : BitVec w) : BitVec w :=
  BitField.update F.bitno F.nbits f v

/-- The two words agree in every bit that is not of the field. -/
def SameOutside (v v' : BitVec w) : Prop :=
  ∀ i, ¬(F.bitno.toNat ≤ i ∧ i < F.bitno.toNat + F.nbits.toNat) → v'.getLsbD i = v.getLsbD i

def Disjoint (G : Field w) : Prop :=
  F.bitno.toNat + F.nbits.toNat ≤ G.bitno.toNat ∨ G.bitno.toNat + G.nbits.toNat ≤ F.bitno.toNat

/-- The operator takes the number in the field through `g`, modulo the size of the field. -/
def ActsAs (op : BitVec w → BitVec w) (g : ℕ → ℕ) : Prop :=
  ∀ v, (F.read (op v)).toNat = g (F.read v).toNat % 2 ^ F.nbits.toNat ∧ F.SameOutside v (op v)

/-! ### The lens -/

def lens : Lens (BitVec w) (BitVec F.nbits.toNat) := Lens.slice F.bitno.toNat F.nbits.toNat F.le

theorem nbits_le : F.nbits.toNat ≤ w := (Nat.le_add_left _ _).trans F.le

variable {F}

theorem read_eq_get (hw : w ≤ 64) (v : BitVec w) : F.read v = (F.lens.get v).setWidth 64 := by
  have hle : 2 ^ F.nbits.toNat ≤ 2 ^ 64 := Nat.pow_le_pow_right (by decide) F.lt.le
  have hlt : v.toNat / 2 ^ F.bitno.toNat % 2 ^ F.nbits.toNat < 2 ^ F.nbits.toNat :=
    Nat.mod_lt _ (Nat.two_pow_pos _)
  apply BitVec.eq_of_toNat_eq
  rw [BitField.toNat_read F.lt hw, BitVec.toNat_setWidth, lens, Lens.toNat_get_slice,
    Nat.mod_eq_of_lt (hlt.trans_le hle)]

theorem assign_eq_put (hw : w ≤ 64) (v d : BitVec w) :
    F.assign v d = F.lens.put v (d.setWidth F.nbits.toNat) := by
  apply BitVec.eq_of_getLsbD_eq
  intro i hi
  show _ = (Lens.putSlice F.bitno.toNat F.nbits.toNat v _).getLsbD i
  rw [BitField.getLsbD_assign F.lt hw v d hi, Lens.getLsbD_putSlice v _ hi]
  split_ifs with hin
  · rw [BitVec.getLsbD_setWidth, decide_eq_true (by omega), Bool.true_and]
  · rfl

/-- Truncation to the storage type and then to the field. -/
theorem setWidth_storage (x : Uint64) :
    (x.setWidth w).setWidth F.nbits.toNat = x.setWidth F.nbits.toNat :=
  BitVec.setWidth_setWidth_of_le x F.nbits_le

/-- A number of the field survives the conversion to `uint64_t`. -/
theorem setWidth_reading (a : BitVec F.nbits.toNat) :
    (a.setWidth 64).setWidth F.nbits.toNat = a := by
  rw [BitVec.setWidth_setWidth_of_le a F.lt.le, BitVec.setWidth_eq]

theorem update_eq_modify (hw : w ≤ 64) (f : Uint64 → Uint64) (v : BitVec w) :
    F.update f v = F.lens.modify (fun a => (f (a.setWidth 64)).setWidth F.nbits.toNat) v := by
  show F.assign v ((f (F.read v)).setWidth w) = _
  rw [assign_eq_put hw, setWidth_storage, read_eq_get hw]
  rfl

theorem independent {G : Field w} (h : F.Disjoint G) : F.lens.Independent G.lens :=
  Lens.slice_independent F.le G.le h

/-! ### Assignments -/

theorem toNat_read_assign (hw : w ≤ 64) (v d : BitVec w) :
    (F.read (F.assign v d)).toNat = d.toNat % 2 ^ F.nbits.toNat :=
  BitField.toNat_read_assign F.lt F.le hw v d

theorem sameOutside_assign (hw : w ≤ 64) (v d : BitVec w) : F.SameOutside v (F.assign v d) :=
  fun _ hi => BitField.getLsbD_assign_of_not_mem F.lt hw v d hi

theorem assign_read (hw : w ≤ 64) (v : BitVec w) : F.assign v ((F.read v).setWidth w) = v := by
  rw [assign_eq_put hw, setWidth_storage, read_eq_get hw, setWidth_reading, Lens.put_get]

theorem assign_assign (hw : w ≤ 64) (v d e : BitVec w) :
    F.assign (F.assign v d) e = F.assign v e := by
  simp only [assign_eq_put hw, Lens.put_put]

theorem assign_comm (hw : w ≤ 64) {G : Field w} (h : F.Disjoint G) (v d e : BitVec w) :
    F.assign (G.assign v e) d = G.assign (F.assign v d) e := by
  simp only [assign_eq_put hw]
  exact independent h v _ _

/-! ### Compound operators -/

/-- An update whose function is right modulo the size of the field. -/
theorem actsAs_update (hw : w ≤ 64) {f : Uint64 → Uint64} {g : ℕ → ℕ}
    (h : ∀ x, (f x).toNat % 2 ^ F.nbits.toNat = g x.toNat % 2 ^ F.nbits.toNat) :
    F.ActsAs (F.update f) g := by
  intro v
  constructor
  · have hget : F.read (F.update f v) =
        ((f (F.read v)).setWidth F.nbits.toNat).setWidth 64 := by
      rw [read_eq_get hw, update_eq_modify hw, Lens.get_modify, ← read_eq_get hw]
    rw [hget, BitVec.toNat_setWidth_of_le F.lt.le, BitVec.toNat_setWidth, h]
  · exact sameOutside_assign hw v _

/-- The size of a field divides that of `uint64_t`. -/
theorem size_dvd : 2 ^ F.nbits.toNat ∣ 2 ^ 64 := Nat.pow_dvd_pow 2 F.lt.le

theorem actsAs_addAssign (hw : w ≤ 64) (val : Uint64) :
    F.ActsAs (BitField.addAssign F.bitno F.nbits val) (· + val.toNat) :=
  actsAs_update hw fun x => by rw [BitVec.toNat_add, Nat.mod_mod_of_dvd _ size_dvd]

theorem actsAs_preIncrement (hw : w ≤ 64) :
    F.ActsAs (BitField.preIncrement F.bitno F.nbits) (· + 1) :=
  actsAs_addAssign hw 1

theorem actsAs_preDecrement (hw : w ≤ 64) :
    F.ActsAs (BitField.preDecrement F.bitno F.nbits) (· + (2 ^ F.nbits.toNat - 1)) := by
  refine actsAs_update hw fun x => ?_
  obtain ⟨k, hk⟩ := size_dvd (F := F)
  have hpos := Nat.two_pow_pos F.nbits.toNat
  have hk1 : 1 ≤ k := Nat.pos_of_mul_pos_left (by rw [← hk]; decide)
  -- one wrap of `uint64_t` is `k` wraps of the field
  have hwrap : 2 ^ 64 - 1 + x.toNat =
      x.toNat + (2 ^ F.nbits.toNat - 1) + 2 ^ F.nbits.toNat * (k - 1) := by
    have : 2 ^ F.nbits.toNat * (k - 1) + 2 ^ F.nbits.toNat = 2 ^ 64 := by
      rw [hk, ← Nat.mul_succ, Nat.succ_eq_add_one, Nat.sub_add_cancel hk1]
    omega
  rw [BitVec.toNat_sub, Nat.mod_mod_of_dvd _ size_dvd]
  show (2 ^ 64 - 1 + x.toNat) % _ = _
  rw [hwrap, Nat.add_mul_mod_self_left]

theorem actsAs_xorAssign (hw : w ≤ 64) (val : Uint64) :
    F.ActsAs (BitField.xorAssign F.bitno F.nbits val) (· ^^^ val.toNat) :=
  actsAs_update hw fun x => by rw [BitVec.toNat_xor]

theorem actsAs_orAssign (hw : w ≤ 64) (val : Uint64) :
    F.ActsAs (BitField.orAssign F.bitno F.nbits val) (· ||| val.toNat) :=
  actsAs_update hw fun x => by rw [BitVec.toNat_or]

theorem actsAs_andAssign (hw : w ≤ 64) (val : Uint64) :
    F.ActsAs (BitField.andAssign F.bitno F.nbits val) (· &&& val.toNat) :=
  actsAs_update hw fun x => by rw [BitVec.toNat_and]

/-- **Bit fields.** In a word of at most 64 bits every field obeys the laws of a lens, fields that
do not overlap commute, and each compound operator is an operation modulo `2 ^ nbits` on the field
that leaves all other bits alone. -/
theorem field_laws (hw : w ≤ 64) (F : Field w) :
    (∀ v d, (F.read (F.assign v d)).toNat = d.toNat % 2 ^ F.nbits.toNat ∧
      F.SameOutside v (F.assign v d)) ∧
    (∀ v, F.assign v ((F.read v).setWidth w) = v) ∧
    (∀ v d e, F.assign (F.assign v d) e = F.assign v e) ∧
    (∀ G, F.Disjoint G → ∀ v d e, F.assign (G.assign v e) d = G.assign (F.assign v d) e) ∧
    F.ActsAs (BitField.preIncrement F.bitno F.nbits) (· + 1) ∧
    F.ActsAs (BitField.preDecrement F.bitno F.nbits) (· + (2 ^ F.nbits.toNat - 1)) ∧
    ∀ val : Uint64,
      F.ActsAs (BitField.addAssign F.bitno F.nbits val) (· + val.toNat) ∧
      F.ActsAs (BitField.xorAssign F.bitno F.nbits val) (· ^^^ val.toNat) ∧
      F.ActsAs (BitField.orAssign F.bitno F.nbits val) (· ||| val.toNat) ∧
      F.ActsAs (BitField.andAssign F.bitno F.nbits val) (· &&& val.toNat) := by
  refine ⟨fun v d => ⟨toNat_read_assign hw v d, sameOutside_assign hw v d⟩, assign_read hw,
    assign_assign hw, fun G h => assign_comm hw h, actsAs_preIncrement hw, actsAs_preDecrement hw,
    fun val => ⟨?_, ?_, ?_, ?_⟩⟩
  · exact actsAs_addAssign hw val
  · exact actsAs_xorAssign hw val
  · exact actsAs_orAssign hw val
  · exact actsAs_andAssign hw val

/-- `nt` of a VRAM address. -/
def nt : Field 16 := ⟨10, 2, by decide, by decide, by decide⟩

/-- It wraps without a carry into `fine_y`. -/
theorem field_laws_nt :
    16 ≤ 64 ∧ (nt.read (BitField.preIncrement 10 2 0x0FFF#16)).toNat = (3 + 1) % 2 ^ 2 := by
  have hread : (nt.read 0x0FFF#16).toNat = 3 := by decide
  have hinc := (field_laws (by decide) nt).2.2.2.2.1 0x0FFF#16
  rw [← hread]
  exact ⟨by decide, hinc.1⟩

end Field

/-! ### `getbits` -/

variable (F : Field 64) (num data : Uint64)

/-- `getbits` takes the digits of `nbits` for the mask. -/
theorem getbits_eq_read_and :
    getbits num F.bitno F.nbits = F.read num &&& F.nbits.setWidth 64 := by
  have hmask : getMaskNbits F.nbits &&& F.nbits.setWidth 64 = F.nbits.setWidth 64 := by
    apply BitVec.eq_of_toNat_eq
    have hlt : F.nbits.toNat < 2 ^ F.nbits.toNat := Nat.lt_two_pow_self
    rw [BitVec.toNat_and, toNat_getMaskNbits F.lt, Nat.and_comm, Nat.and_two_pow_sub_one_eq_mod,
      BitVec.toNat_setWidth_of_le (by decide), Nat.mod_eq_of_lt hlt]
  show _ = (num.setWidth 64 >>> F.bitno.toNat) &&& getMaskNbits F.nbits &&& F.nbits.setWidth 64
  rw [BitVec.and_assoc, hmask, BitVec.setWidth_eq]
  rfl

/-- It reads the field where the digits of `nbits` cover what is in the field. -/
theorem getbits_eq_read_iff :
    getbits num F.bitno F.nbits = F.read num ↔
      ∀ i < F.nbits.toNat, F.nbits.toNat.testBit i = false →
        num.getLsbD (F.bitno.toNat + i) = false := by
  have hbit (i : ℕ) : (F.read num).getLsbD i =
      (decide (i < F.nbits.toNat) && num.getLsbD (F.bitno.toNat + i)) := by
    refine (BitField.getLsbD_read F.lt num i).trans ?_
    by_cases hi : i < F.nbits.toNat
    · have := F.le
      rw [decide_eq_true (show F.bitno.toNat + i < 64 by omega), Bool.and_true]
    · rw [decide_eq_false hi, Bool.false_and, Bool.false_and]
  rw [getbits_eq_read_and]
  constructor
  · intro h i hi hclear
    have hread := congrArg (fun x : Uint64 => x.getLsbD i) h
    rw [BitVec.getLsbD_and, hbit, BitVec.getLsbD_setWidth, decide_eq_true hi,
      Bool.true_and] at hread
    have hmask : F.nbits.getLsbD i = false := hclear
    rw [hmask, Bool.and_false, Bool.and_false] at hread
    exact hread.symm
  · intro h
    apply BitVec.eq_of_getLsbD_eq
    intro i hi
    rw [BitVec.getLsbD_and, hbit, BitVec.getLsbD_setWidth, decide_eq_true hi, Bool.true_and]
    by_cases hin : i < F.nbits.toNat
    · cases hclear : F.nbits.toNat.testBit i with
      | true => rw [show F.nbits.getLsbD i = true from hclear, Bool.and_true]
      | false => rw [h i hin hclear, Bool.and_false, Bool.false_and]
    · rw [decide_eq_false hin, Bool.false_and, Bool.false_and]

/-- On a word of 64 bits an assignment is `setbits`. -/
theorem assign_eq_setbits : F.assign num data = setbits num F.bitno F.nbits data := by
  show (setbits (num.setWidth 64) F.bitno F.nbits (data.setWidth 64)).setWidth 64 = _
  rw [BitVec.setWidth_eq, BitVec.setWidth_eq, BitVec.setWidth_eq]

/-- What `getbits` is to be to `setbits`. -/
structure GetbitsLaws : Prop where
  getbits_eq : (getbits num F.bitno F.nbits).toNat =
    num.toNat / 2 ^ F.bitno.toNat % 2 ^ F.nbits.toNat
  getbits_setbits : (getbits (setbits num F.bitno F.nbits data) F.bitno F.nbits).toNat =
    data.toNat % 2 ^ F.nbits.toNat
  setbits_getbits : setbits num F.bitno F.nbits (getbits num F.bitno F.nbits) = num

/-- The first two laws say that `getbits` reads the field, and the third follows. -/
theorem getbitsLaws_iff_reads :
    GetbitsLaws F num data ↔
      getbits num F.bitno F.nbits = F.read num ∧
      getbits (setbits num F.bitno F.nbits data) F.bitno F.nbits =
        F.read (setbits num F.bitno F.nbits data) := by
  have hread : (F.read num).toNat = num.toNat / 2 ^ F.bitno.toNat % 2 ^ F.nbits.toNat :=
    BitField.toNat_read F.lt (by decide) num
  have hset : (F.read (setbits num F.bitno F.nbits data)).toNat =
      data.toNat % 2 ^ F.nbits.toNat := by
    rw [← assign_eq_setbits, Field.toNat_read_assign (by decide)]
  constructor
  · intro h
    exact ⟨BitVec.eq_of_toNat_eq (h.getbits_eq.trans hread.symm),
      BitVec.eq_of_toNat_eq (h.getbits_setbits.trans hset.symm)⟩
  · rintro ⟨hnum, hdata⟩
    refine ⟨by rw [hnum, hread], by rw [hdata, hset], ?_⟩
    have hsame := Field.assign_read (F := F) (by decide) num
    rwa [BitVec.setWidth_eq, ← hnum, assign_eq_setbits] at hsame

/-- **`getbits`.** It is the getter for `setbits` on the words whose field, and the data, have
zeros wherever `nbits` has the digit zero. -/
theorem getbits_lawful_iff :
    GetbitsLaws F num data ↔
      ∀ i < F.nbits.toNat, F.nbits.toNat.testBit i = false →
        num.getLsbD (F.bitno.toNat + i) = false ∧ data.getLsbD i = false := by
  have hle := F.le
  have hdata {i : ℕ} (hi : i < F.nbits.toNat) :
      (setbits num F.bitno F.nbits data).getLsbD (F.bitno.toNat + i) = data.getLsbD i := by
    rw [getLsbD_setbits F.lt _ _ (by omega), if_pos (by omega), Nat.add_sub_cancel_left]
  rw [getbitsLaws_iff_reads, getbits_eq_read_iff, getbits_eq_read_iff]
  constructor
  · rintro ⟨hnum, hset⟩ i hi hclear
    have := hset i hi hclear
    exact ⟨hnum i hi hclear, by rwa [hdata hi] at this⟩
  · intro h
    refine ⟨fun i hi hclear => (h i hi hclear).1, fun i hi hclear => ?_⟩
    rw [hdata hi]
    exact (h i hi hclear).2

/-- Bit 0 of a two-bit field is lost. -/
theorem not_getbits_lawful_two_bits :
    ¬GetbitsLaws ⟨0, 2, by decide, by decide, by decide⟩ 1 0 := fun h =>
  absurd h.getbits_eq (by decide)

/-- A width of two or more has the digit zero somewhere below its own size. -/
theorem exists_clear_digit {n : ℕ} (hn : 2 ≤ n) : ∃ i < n, n.testBit i = false := by
  obtain rfl | hn : n = 2 ∨ 3 ≤ n := by omega
  · exact ⟨0, by decide, by decide⟩
  · obtain ⟨m, rfl⟩ := Nat.exists_eq_add_of_le' hn
    have hm : m < 2 ^ m := Nat.lt_two_pow_self
    refine ⟨m + 2, by omega, Nat.testBit_lt_two_pow ?_⟩
    rw [Nat.pow_add]
    omega

/-- It is the getter on every word for one-bit fields alone. -/
theorem forall_getbitsLaws_iff : (∀ num data, GetbitsLaws F num data) ↔ F.nbits = 1 := by
  have hpos := F.pos
  have hle := F.le
  constructor
  · intro h
    by_contra hne
    have hne' : F.nbits.toNat ≠ 1 := fun h' => hne (BitVec.eq_of_toNat_eq h')
    obtain ⟨i, hi, hclear⟩ := exists_clear_digit (show 2 ≤ F.nbits.toNat by omega)
    have hread := (getbitsLaws_iff_reads F (BitVec.allOnes 64) 0).mp (h _ _)
    have hbit := (getbits_eq_read_iff F _).mp hread.1 i hi hclear
    rw [BitVec.getLsbD_allOnes, decide_eq_true (show F.bitno.toNat + i < 64 by omega)] at hbit
    exact Bool.noConfusion hbit
  · intro h num data
    have hread (v : Uint64) : getbits v F.bitno F.nbits = F.read v := by
      rw [getbits_eq_read_iff, h]
      intro i hi hclear
      obtain rfl : i = 0 := Nat.lt_one_iff.mp hi
      exact Bool.noConfusion hclear
    exact (getbitsLaws_iff_reads F num data).mpr ⟨hread num, hread _⟩

end Yanesemu.Util
