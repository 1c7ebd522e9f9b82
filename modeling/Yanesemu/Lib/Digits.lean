import Mathlib.Data.Nat.Digits.Lemmas
import Mathlib.Data.Int.ModEq

/-!
# Digit-by-digit arithmetic

Numbers as lists of digits, the least significant one first, and what a carry passed from digit to
digit does to them. `Carries` is one such pass: at each digit the sum of what is there and the
carry that comes in is written as a digit and the carry that goes out. `Carries.value` is that the
pass as a whole does to the numbers what each step does to the digits; addition, subtraction by
complement and shifts in both directions are passes of this kind.

The second half is about signs. Modulo an even number the residues from the half on stand for
negative numbers (`Int.bmod`), and overflow of a sum or a difference can be read off three signs.
-/

namespace Digits

open Nat

/-- From the least significant digit on, `x + c = v + b * c'` at each digit. -/
inductive Carries (b : ℕ) : ℕ → List ℕ → List ℕ → ℕ → Prop
  | nil (c : ℕ) : Carries b c [] [] c
  | cons {c c' c'' x v : ℕ} {xs vs : List ℕ} (h : x + c = v + b * c')
      (hs : Carries b c' xs vs c'') : Carries b c (x :: xs) (v :: vs) c''

variable {b c c' : ℕ} {xs vs : List ℕ}

/-- **The pass as a whole.** -/
theorem Carries.value (h : Carries b c xs vs c') :
    ofDigits b xs + c = ofDigits b vs + b ^ vs.length * c' := by
  induction h with
  | nil c => simp
  | @cons c c' c'' x v xs vs h hs ih =>
    rw [ofDigits_cons, ofDigits_cons, List.length_cons, Nat.pow_succ]
    calc x + b * ofDigits b xs + c = b * ofDigits b xs + (x + c) := by ring
      _ = v + b * (ofDigits b xs + c') := by rw [h]; ring
      _ = v + b * (ofDigits b vs + b ^ vs.length * c'') := by rw [ih]
      _ = v + b * ofDigits b vs + b ^ vs.length * b * c'' := by ring

theorem Carries.length_eq (h : Carries b c xs vs c') : xs.length = vs.length := by
  induction h with
  | nil c => rfl
  | cons h hs ih => rw [List.length_cons, List.length_cons, ih]

/-- A digit more at the top. -/
theorem Carries.snoc (h : Carries b c xs vs c') {c'' x v : ℕ} (hx : x + c' = v + b * c'') :
    Carries b c (xs ++ [x]) (vs ++ [v]) c'' := by
  induction h with
  | nil c => exact .cons hx (.nil _)
  | cons h' hs ih => exact .cons h' (ih hx)

/-! ### Numbers of digits that are computed -/

variable {ι : Type} (f g : ι → ℕ) (is : List ι)

theorem ofDigits_map_add :
    ofDigits b (is.map fun i => f i + g i) = ofDigits b (is.map f) + ofDigits b (is.map g) := by
  induction is with
  | nil => rfl
  | cons i is ih =>
    simp only [List.map_cons, ofDigits_cons, ih]
    ring

theorem ofDigits_map_mul (k : ℕ) :
    ofDigits b (is.map fun i => k * f i) = k * ofDigits b (is.map f) := by
  induction is with
  | nil => rfl
  | cons i is ih =>
    simp only [List.map_cons, ofDigits_cons, ih]
    ring

/-- A number and its digit-wise complement add up to the largest one. -/
theorem ofDigits_map_complement (hg : ∀ i ∈ is, g i + f i + 1 = b) :
    ofDigits b (is.map g) + ofDigits b (is.map f) + 1 = b ^ is.length := by
  induction is with
  | nil => rfl
  | cons i is ih =>
    have hi := hg i (List.mem_cons_self ..)
    have his := ih fun j hj => hg j (List.mem_cons_of_mem i hj)
    simp only [List.map_cons, ofDigits_cons, List.length_cons, Nat.pow_succ, ← his]
    calc g i + b * ofDigits b (is.map g) + (f i + b * ofDigits b (is.map f)) + 1
        = b * (ofDigits b (is.map g) + ofDigits b (is.map f)) + (g i + f i + 1) := by ring
      _ = (ofDigits b (is.map g) + ofDigits b (is.map f) + 1) * b := by rw [hi]; ring

/-- The top digit decides in which half a number is. -/
theorem pow_le_two_mul_ofDigits_iff {h : ℕ} (hb : b = 2 * h) {ds : List ℕ} {d : ℕ}
    (hds : ∀ x ∈ ds, x < b) (hd : ds.getLast? = some d) :
    b ^ ds.length ≤ 2 * ofDigits b ds ↔ h ≤ d := by
  induction ds with
  | nil => cases hd
  | cons x xs ih =>
    have hx := hds x (List.mem_cons_self ..)
    cases xs with
    | nil =>
      obtain rfl : x = d := Option.some.inj hd
      simp only [List.length_singleton, Nat.pow_one, ofDigits_singleton]
      omega
    | cons y ys =>
      have hrest := ih (fun z hz => hds z (List.mem_cons_of_mem x hz)) hd
      rw [← hrest, ofDigits_cons, List.length_cons, List.length_cons, Nat.pow_succ, Nat.pow_succ]
      generalize ofDigits b (y :: ys) = N
      -- the power is even, so the lowest digit does not matter
      have hpow : b ^ ys.length * b = 2 * (b ^ ys.length * h) := by rw [hb]; ring
      rw [hpow]
      generalize b ^ ys.length * h = M
      constructor
      · intro hle
        by_contra hlt
        have hN : N + 1 ≤ M := by omega
        have hmul : (N + 1) * b ≤ M * b := Nat.mul_le_mul_right b hN
        have : 2 * M * b ≤ 2 * (x + b * N) := hle
        nlinarith
      · intro hle
        have hM : M ≤ N := by omega
        calc 2 * M * b ≤ 2 * N * b := Nat.mul_le_mul_right b (Nat.mul_le_mul_left 2 hM)
          _ = 2 * (b * N) := by ring
          _ ≤ 2 * (x + b * N) := Nat.mul_le_mul_left 2 (Nat.le_add_left _ _)

/-! ### Signs -/

/-- In the range of the two's complement numbers modulo `m`. -/
def Fits (m : ℕ) (z : ℤ) : Prop := -(m : ℤ) ≤ 2 * z ∧ 2 * z < m

section Signs

variable {h x y : ℕ}

theorem bmod_of_lt (hx : x < 2 * h) :
    Int.bmod x (2 * h) = if x < h then (x : ℤ) else x - 2 * h := by
  unfold Int.bmod
  have hmod : (x : ℤ) % ((2 * h : ℕ) : ℤ) = x := Int.emod_eq_of_lt (by omega) (by omega)
  rw [hmod]
  split_ifs <;> push_cast at * <;> omega

theorem bmod_neg_iff (hx : x < 2 * h) : Int.bmod x (2 * h) < 0 ↔ h ≤ x := by
  rw [bmod_of_lt hx]
  split_ifs <;> omega

/-- A sum overflows if the signs of the summands agree and that of the result does not. -/
theorem fits_add_iff (hx : x < 2 * h) (hy : y < 2 * h) :
    Fits (2 * h) (Int.bmod x (2 * h) + Int.bmod y (2 * h)) ↔
      ¬((h ≤ x ↔ h ≤ y) ∧ ¬(h ≤ x ↔ h ≤ (x + y) % (2 * h))) := by
  have hmod : (x + y) % (2 * h) = if x + y < 2 * h then x + y else x + y - 2 * h := by
    split_ifs with hlt
    · exact Nat.mod_eq_of_lt hlt
    · rw [Nat.mod_eq_sub_mod (by omega), Nat.mod_eq_of_lt (by omega)]
  unfold Fits
  rw [hmod, bmod_of_lt hx, bmod_of_lt hy]
  push_cast
  split_ifs <;> omega

variable {d : ℕ}

/-- A difference `d` overflows if the signs of its terms differ and that of the result is not the
first one's. -/
theorem fits_sub_iff (hx : x < 2 * h) (hy : y < 2 * h) (hd : d < 2 * h)
    (hsub : d + y = x ∨ d + y = x + 2 * h) :
    Fits (2 * h) (Int.bmod x (2 * h) - Int.bmod y (2 * h)) ↔
      ¬(¬(h ≤ x ↔ h ≤ y) ∧ ¬(h ≤ x ↔ h ≤ d)) := by
  unfold Fits
  rw [bmod_of_lt hx, bmod_of_lt hy]
  push_cast
  split_ifs <;> omega

/-- The sign of a difference that wraps around. -/
theorem bmod_sub_neg_iff (hd : d < 2 * h) (hsub : d + y = x ∨ d + y = x + 2 * h) :
    Int.bmod (Int.bmod x (2 * h) - Int.bmod y (2 * h)) (2 * h) < 0 ↔ h ≤ d := by
  have hwrap : Int.bmod ((x : ℤ) - y) (2 * h) = Int.bmod d (2 * h) := by
    rcases hsub with hsub | hsub
    · rw [show (x : ℤ) - y = d by omega]
    · rw [show (x : ℤ) - y = d - ((2 * h : ℕ) : ℤ) by push_cast; omega, Int.sub_bmod_right]
  rw [← Int.sub_bmod, hwrap, bmod_neg_iff hd]

/-- The sign of the difference is that of the comparison unless it overflows. -/
theorem bmod_lt_iff (hx : x < 2 * h) (hy : y < 2 * h) (hd : d < 2 * h)
    (hsub : d + y = x ∨ d + y = x + 2 * h) :
    Int.bmod x (2 * h) < Int.bmod y (2 * h) ↔
      ¬(h ≤ d ↔ ¬(h ≤ x ↔ h ≤ y) ∧ ¬(h ≤ x ↔ h ≤ d)) := by
  rw [bmod_of_lt hx, bmod_of_lt hy]
  split_ifs <;> omega

end Signs

end Digits
