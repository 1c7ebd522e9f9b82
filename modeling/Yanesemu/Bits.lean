import Mathlib.Tactic

/-!
# Unsigned integers and bit fields

The fixed-width integers of `util/unsigned.hpp`, the bit routines of `util/bits.hpp` and the
union `Reg16` of `core/instrinfo.hpp`. The routines work on `uint64_t` in the source; a narrower
argument is widened on the way in and the result truncated on the way out, as the C++
conversions do.
-/

namespace Yanesemu

abbrev Uint8 := BitVec 8
abbrev Uint16 := BitVec 16
abbrev Uint32 := BitVec 32
abbrev Uint64 := BitVec 64

/-- A C++ integer used as a condition. -/
def truthy {w : ℕ} (v : BitVec w) : Bool := v != 0

/-- A C++ `bool` used as an integer. -/
def ofBool (w : ℕ) (b : Bool) : BitVec w := if b then 1 else 0

@[simp] theorem ofBool_true (w : ℕ) : ofBool w true = 1 := rfl
@[simp] theorem ofBool_false (w : ℕ) : ofBool w false = 0 := rfl

/-- Masking one bit tests it. -/
theorem truthy_and_twoPow {w : ℕ} (x : BitVec w) {i : ℕ} (hi : i < w) :
    truthy (x &&& BitVec.twoPow w i) = x.getLsbD i := by
  unfold truthy
  rw [BitVec.and_twoPow]
  have hne : BitVec.twoPow w i ≠ 0#w := by
    intro h
    have hnat := congrArg BitVec.toNat h
    rw [BitVec.toNat_twoPow_of_lt hi] at hnat
    exact absurd hnat (Nat.pos_iff_ne_zero.mp (Nat.two_pow_pos i))
  cases x.getLsbD i <;> simp [hne]

namespace Util

def getbits (num : Uint64) (bitno nbits : Uint8) : Uint64 :=
  (num >>> bitno.toNat) &&& nbits.setWidth 64

/-- The mask of the low `nbits` bits. -/
def getMaskNbits (nbits : Uint8) : Uint64 := ((1 : Uint64) <<< nbits.toNat) - 1

def setbits (num : Uint64) (bitno nbits : Uint8) (data : Uint64) : Uint64 :=
  (num &&& ~~~(getMaskNbits nbits <<< bitno.toNat)) |||
    ((data &&& getMaskNbits nbits) <<< bitno.toNat)

def setbit (num : Uint64) (bitno : Uint8) (data : Bool) : Uint64 :=
  setbits num bitno 1 (ofBool 64 data)

/-! ### `BitField<T, Bitno, Nbits>` -/

namespace BitField

variable {w : ℕ} (bitno nbits : Uint8)

/-- `operator uint64_t`. -/
def read (data : BitVec w) : Uint64 := (data.setWidth 64 >>> bitno.toNat) &&& getMaskNbits nbits

/-- `operator=(const T val)`. -/
def assign (data val : BitVec w) : BitVec w :=
  (setbits (data.setWidth 64) bitno nbits (val.setWidth 64)).setWidth w

/-- `operator=(const BitField &oth)`: the whole word of the other field is passed on. -/
def copy (data oth : BitVec w) : BitVec w :=
  (setbits (data.setWidth 64) bitno nbits (oth.setWidth 64)).setWidth w

/-- `*this = f(*this)`: the reading goes through `f` in 64 bits and comes back as a plain value. -/
def update (f : Uint64 → Uint64) (data : BitVec w) : BitVec w :=
  assign bitno nbits data ((f (read bitno nbits data)).setWidth w)

def addAssign (val : Uint64) (data : BitVec w) : BitVec w := update bitno nbits (· + val) data
def andAssign (val : Uint64) (data : BitVec w) : BitVec w := update bitno nbits (· &&& val) data
def orAssign (val : Uint64) (data : BitVec w) : BitVec w := update bitno nbits (· ||| val) data
def xorAssign (val : Uint64) (data : BitVec w) : BitVec w := update bitno nbits (· ^^^ val) data
def preIncrement (data : BitVec w) : BitVec w := update bitno nbits (· + 1) data
def preDecrement (data : BitVec w) : BitVec w := update bitno nbits (· - 1) data

end BitField

end Util

/-! ### `Reg16`, the union of a word with its two bytes -/

abbrev Reg16 := Uint16

namespace Reg16

def low (r : Reg16) : Uint8 := r.setWidth 8

def high (r : Reg16) : Uint8 := (r >>> 8).setWidth 8

/-- The word with these two bytes. -/
def ofBytes (lo hi : Uint8) : Reg16 := (hi.setWidth 16 <<< 8) ||| lo.setWidth 16

/-- Assignment to the member `low`. -/
def setLow (r : Reg16) (v : Uint8) : Reg16 := ofBytes v (high r)

/-- Assignment to the member `high`. -/
def setHigh (r : Reg16) (v : Uint8) : Reg16 := ofBytes (low r) v

theorem toNat_low (r : Reg16) : (low r).toNat = r.toNat % 256 := by
  unfold low; rw [BitVec.toNat_setWidth]

theorem toNat_high (r : Reg16) : (high r).toNat = r.toNat / 256 := by
  have := r.isLt
  unfold high
  rw [BitVec.toNat_setWidth, BitVec.toNat_ushiftRight, Nat.shiftRight_eq_div_pow]
  omega

theorem toNat_ofBytes (lo hi : Uint8) : (ofBytes lo hi).toNat = 256 * hi.toNat + lo.toNat := by
  have hlo := lo.isLt
  have hhi := hi.isLt
  unfold ofBytes
  rw [BitVec.toNat_or, BitVec.toNat_shiftLeft, BitVec.toNat_setWidth, BitVec.toNat_setWidth,
    Nat.mod_eq_of_lt (by omega : hi.toNat < 2 ^ 16),
    Nat.mod_eq_of_lt (by omega : lo.toNat < 2 ^ 16), Nat.shiftLeft_eq,
    Nat.mod_eq_of_lt (by omega), Nat.mul_comm, ← Nat.two_pow_add_eq_or_of_lt hlo]

@[simp] theorem low_ofBytes (lo hi : Uint8) : low (ofBytes lo hi) = lo := by
  apply BitVec.eq_of_toNat_eq
  rw [toNat_low, toNat_ofBytes]; omega

@[simp] theorem high_ofBytes (lo hi : Uint8) : high (ofBytes lo hi) = hi := by
  apply BitVec.eq_of_toNat_eq
  rw [toNat_high, toNat_ofBytes]; omega

@[simp] theorem ofBytes_low_high (r : Reg16) : ofBytes (low r) (high r) = r := by
  apply BitVec.eq_of_toNat_eq
  rw [toNat_ofBytes, toNat_low, toNat_high]; omega

@[simp] theorem setHigh_setLow (r : Reg16) (lo hi : Uint8) :
    setHigh (setLow r lo) hi = ofBytes lo hi := by
  unfold setHigh setLow; rw [low_ofBytes]

@[simp] theorem low_setLow (r : Reg16) (v : Uint8) : low (setLow r v) = v := low_ofBytes _ _

@[simp] theorem high_setHigh (r : Reg16) (v : Uint8) : high (setHigh r v) = v := high_ofBytes _ _

@[simp] theorem high_setLow (r : Reg16) (v : Uint8) : high (setLow r v) = high r :=
  high_ofBytes _ _

@[simp] theorem low_setHigh (r : Reg16) (v : Uint8) : low (setHigh r v) = low r := low_ofBytes _ _

end Reg16

end Yanesemu
