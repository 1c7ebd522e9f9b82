import Mathlib.Data.BitVec

/-!
# Lenses

A lens looks at a part of a state: `get` reads the part, `put` replaces it, and three laws say that
nothing is lost on the way. Two lenses are independent when their `put`s commute.

`slice lo n` is the part of a word from bit `lo` to bit `lo + n - 1`.
-/

structure Lens (σ α : Type) where
  get : σ → α
  put : σ → α → σ
  get_put : ∀ s a, get (put s a) = a
  put_get : ∀ s, put s (get s) = s
  put_put : ∀ s a b, put (put s a) b = put s b

namespace Lens

variable {σ α β : Type}

attribute [simp] get_put put_get put_put

/-- The part goes through `f`. -/
def modify (l : Lens σ α) (f : α → α) (s : σ) : σ := l.put s (f (l.get s))

theorem get_modify (l : Lens σ α) (f : α → α) (s : σ) :
    l.get (l.modify f s) = f (l.get s) := l.get_put _ _

def Independent (l : Lens σ α) (m : Lens σ β) : Prop :=
  ∀ s a b, l.put (m.put s b) a = m.put (l.put s a) b

/-! ### Parts of a word -/

section Slice

variable {w : ℕ}

/-- The word `v` with the bits from `lo` on replaced by those of `a`. -/
def putSlice (lo n : ℕ) (v : BitVec w) (a : BitVec n) : BitVec w :=
  (v &&& ~~~((BitVec.allOnes n).setWidth w <<< lo)) ||| (a.setWidth w <<< lo)

theorem getLsbD_putSlice {lo n : ℕ} (v : BitVec w) (a : BitVec n) {i : ℕ} (hi : i < w) :
    (putSlice lo n v a).getLsbD i =
      if lo ≤ i ∧ i < lo + n then a.getLsbD (i - lo) else v.getLsbD i := by
  have hsub : i - lo < w := by omega
  unfold putSlice
  simp only [BitVec.getLsbD_or, BitVec.getLsbD_and, BitVec.getLsbD_not, BitVec.getLsbD_shiftLeft,
    BitVec.getLsbD_setWidth, BitVec.getLsbD_allOnes, hi, hsub, decide_true, Bool.true_and]
  by_cases hlo : i < lo
  · rw [if_neg (by omega)]
    simp [hlo]
  · by_cases hin : i < lo + n
    · rw [if_pos (by omega), decide_eq_true (show i - lo < n by omega)]
      simp [hlo]
    · have hge : n ≤ i - lo := by omega
      rw [if_neg (by omega), decide_eq_false (by omega), BitVec.getLsbD_of_ge _ _ hge]
      simp [hge]

/-- The bits from `lo` to `lo + n - 1`. -/
def slice (lo n : ℕ) (h : lo + n ≤ w) : Lens (BitVec w) (BitVec n) where
  get v := v.extractLsb' lo n
  put := putSlice lo n
  get_put v a := by
    apply BitVec.eq_of_getLsbD_eq
    intro i hi
    rw [BitVec.getLsbD_extractLsb', getLsbD_putSlice v a (by omega), if_pos (by omega),
      Nat.add_sub_cancel_left, decide_eq_true hi, Bool.true_and]
  put_get v := by
    apply BitVec.eq_of_getLsbD_eq
    intro i hi
    rw [getLsbD_putSlice v _ hi]
    split_ifs with hin
    · rw [BitVec.getLsbD_extractLsb', decide_eq_true (show i - lo < n by omega), Bool.true_and,
        Nat.add_sub_cancel' hin.1]
    · rfl
  put_put v a b := by
    apply BitVec.eq_of_getLsbD_eq
    intro i hi
    rw [getLsbD_putSlice _ _ hi, getLsbD_putSlice _ _ hi, getLsbD_putSlice _ _ hi]
    split_ifs <;> rfl

theorem toNat_get_slice {lo n : ℕ} (h : lo + n ≤ w) (v : BitVec w) :
    ((slice lo n h).get v).toNat = v.toNat / 2 ^ lo % 2 ^ n := by
  show (v.extractLsb' lo n).toNat = _
  rw [BitVec.extractLsb'_toNat, Nat.shiftRight_eq_div_pow]

theorem slice_independent {lo n lo' n' : ℕ} (h : lo + n ≤ w) (h' : lo' + n' ≤ w)
    (hdisj : lo + n ≤ lo' ∨ lo' + n' ≤ lo) :
    (slice lo n h).Independent (slice lo' n' h') := by
  intro v a b
  apply BitVec.eq_of_getLsbD_eq
  intro i hi
  show (putSlice lo n (putSlice lo' n' v b) a).getLsbD i =
    (putSlice lo' n' (putSlice lo n v a) b).getLsbD i
  simp only [getLsbD_putSlice _ _ hi]
  split_ifs with hin hin'
  · omega
  · rfl
  · rfl
  · rfl

end Slice

end Lens
