import Yanesemu.Lib.Digits
import Yanesemu.InstrArith

/-!
# Multi-byte addition and subtraction

A program adds numbers of several bytes by `LDA`, `ADC` for each pair of bytes, from the least
significant one on. `Pass` is such a part of a run on any bus: for each pair the two instructions
are executed in any of their modes, and what is done between the pairs (storing the sum, moving an
index, an interrupt) is up to the program as long as it keeps the carry.

A pass is a `Carries` of the digits, so the numbers add up. The sign of a number is in its last
byte, and V compares the signs of the last bytes: for `ADC` with those of the summands, for `SBC`
with that of the subtrahend instead of its complement.
-/

namespace Yanesemu.Cpu

open Interaction Digits

/-! ### Numbers of several bytes -/

/-- A number in bytes, the least significant one first. -/
def value (bs : List Uint8) : ℕ := Nat.ofDigits 256 (bs.map BitVec.toNat)

/-- As a two's complement number. -/
def signedValue (bs : List Uint8) : ℤ := Int.bmod (value bs) (256 ^ bs.length)

/-- The sign bit. -/
def sign (bs : List Uint8) : Bool := (bs.getLastD 0).msb

theorem bytes_lt (bs : List Uint8) : ∀ d ∈ bs.map BitVec.toNat, d < 256 := by
  intro d hd
  obtain ⟨b, -, rfl⟩ := List.mem_map.mp hd
  exact b.isLt

theorem value_lt {n : ℕ} {bs : List Uint8} (hlen : bs.length = n) : value bs < 256 ^ n := by
  have h := Nat.ofDigits_lt_base_pow_length (by decide) (bytes_lt bs)
  rwa [List.length_map, hlen] at h

theorem sign_iff {bs : List Uint8} (hne : bs ≠ []) :
    sign bs = true ↔ 256 ^ bs.length ≤ 2 * value bs := by
  have hlast : (bs.map BitVec.toNat).getLast? = some (bs.getLastD 0).toNat := by
    rw [List.getLast?_map, List.getLast?_eq_some_getLast hne, List.getLastD_eq_getLast?,
      List.getLast?_eq_some_getLast hne]
    rfl
  have h := pow_le_two_mul_ofDigits_iff (h := 128) rfl (bytes_lt bs) hlast
  rw [List.length_map] at h
  exact (msb_iff _).trans h.symm

/-! ### Passes -/

section Pass

variable {σ : Type} (H : Handler cpuSig σ)

/-- The next `run` executes `name`, in some mode, on the operand `v`. -/
structure Reads (s : Sys Cpu σ) (name : InstrRead) (v : Uint8) : Prop where
  nmi : s.chip.sig.execnmi = false
  irq : s.chip.sig.execirq = false
  operand : ∃ mode : ReadMode, manual (opcode H s) = some (.read name, mode.addrMode) ∧
    val H mode.load (fetched H s) = v

variable {H}

theorem Reads.data {s : Sys Cpu σ} {name : InstrRead} {v : Uint8} (h : Reads H s name v) :
    SameData (name.regs v s.chip.r) (post H run s).chip.r := by
  obtain ⟨mode, hop, hv⟩ := h.operand
  have hcase := executeTab_of_manual (c := .read name mode) hop
  rw [post_run_instr H s h.nmi h.irq, hcase, ← hv]
  exact (name.sameData_regs (sameData_of_pc_cycles _ _ _) _).trans
    (readMode_data H (fetched H s) mode name)

variable (H)

/-- `LDA`, `name` for each pair of bytes; the third argument collects the accumulator. -/
inductive Pass (name : InstrRead) :
    Sys Cpu σ → List (Uint8 × Uint8) → List Uint8 → Sys Cpu σ → Prop
  | nil (s : Sys Cpu σ) : Pass name s [] [] s
  | cons {s₀ s t : Sys Cpu σ} {a b : Uint8} {ps : List (Uint8 × Uint8)} {vs : List Uint8}
      (hcarry : s.chip.r.flags.carry = s₀.chip.r.flags.carry)
      (hlda : Reads H s .lda a) (hop : Reads H (post H run s) name b)
      (rest : Pass name (post H run (post H run s)) ps vs t) :
      Pass name s₀ ((a, b) :: ps) ((post H run (post H run s)).chip.r.acc :: vs) t

variable {H}

/-- The summand `adc` and `sbc` make of their operand. -/
def addend (name : InstrRead) (v : Uint8) : Uint8 := if name = .sbc then ~~~v else v

theorem regs_eq_summed {name : InstrRead} (hname : name = .adc ∨ name = .sbc) (v : Uint8)
    (r : Regs) : name.regs v r = summed r (addend name v) v := by
  rcases hname with rfl | rfl <;> rfl

theorem sameData_summed {r r' : Regs} (h : SameData r r') (v ovArg : Uint8) :
    SameData (summed r v ovArg) (summed r' v ovArg) := by
  rw [h.eq_with]
  exact ⟨rfl, rfl, rfl, rfl, rfl⟩

/-- The two instructions for a pair of bytes. -/
theorem pair_data {name : InstrRead} (hname : name = .adc ∨ name = .sbc) {s : Sys Cpu σ}
    {a b : Uint8} (hlda : Reads H s .lda a) (hop : Reads H (post H run s) name b) :
    SameData (summed { s.chip.r with acc := a, flags := s.chip.r.flags.setZN a }
      (addend name b) b) (post H run (post H run s)).chip.r := by
  have h := hop.data
  rw [regs_eq_summed hname] at h
  exact (sameData_summed hlda.data _ _).trans h

variable {name : InstrRead} {s t : Sys Cpu σ} {ps : List (Uint8 × Uint8)} {vs : List Uint8}

/-- **A pass carries.** -/
theorem Pass.carries (h : Pass H name s ps vs t) (hname : name = .adc ∨ name = .sbc) :
    Carries 256 s.chip.r.flags.carry.toNat
      (ps.map fun p => p.1.toNat + (addend name p.2).toNat) (vs.map BitVec.toNat)
      t.chip.r.flags.carry.toNat := by
  induction h with
  | nil s => exact .nil _
  | @cons s₀ s t a b ps vs hcarry hlda hop rest ih =>
    have hdata := pair_data hname hlda hop
    have hradix := summed_radix { s.chip.r with acc := a, flags := s.chip.r.flags.setZN a }
      (addend name b) b
    refine .cons ?_ ih
    rw [hdata.acc, hdata.flags, hradix, ← hcarry]
    rfl

/-- The signs of the last bytes decide V and N. -/
theorem Pass.signs (h : Pass H name s ps vs t) (hname : name = .adc ∨ name = .sbc)
    (hne : ps ≠ []) :
    t.chip.r.flags.neg = sign vs ∧
      t.chip.r.flags.ov = ((sign (ps.map Prod.fst) ^^ sign vs) &&
        !(sign (ps.map Prod.fst) ^^ sign (ps.map Prod.snd))) ∧ vs ≠ [] := by
  induction h with
  | nil s => exact absurd rfl hne
  | @cons s₀ s t a b ps vs hcarry hlda hop rest ih =>
    cases rest with
    | nil =>
      have hdata := pair_data hname hlda hop
      rw [hdata.flags, hdata.acc]
      refine ⟨?_, ?_, by simp⟩
      · exact (summed_showsResult _ _ _).2
      · exact summed_ov _ _ _
    | cons hcarry' hlda' hop' rest' =>
      obtain ⟨hneg, hov, hvs⟩ := ih (by simp)
      rw [hneg, hov]
      exact ⟨rfl, rfl, by simp⟩

theorem Pass.length_eq (h : Pass H name s ps vs t) (hname : name = .adc ∨ name = .sbc) :
    vs.length = ps.length := by
  have hlen := (h.carries hname).length_eq
  rw [List.length_map, List.length_map] at hlen
  exact hlen.symm

theorem value_map (f : Uint8 × Uint8 → Uint8) (ps : List (Uint8 × Uint8)) :
    value (ps.map f) = Nat.ofDigits 256 (ps.map fun p => (f p).toNat) := by
  unfold value
  rw [List.map_map]
  rfl

/-- The sum of an `ADC` pass. -/
theorem Pass.add_value (h : Pass H .adc s ps vs t) (hc : s.chip.r.flags.carry = false) :
    value (ps.map Prod.fst) + value (ps.map Prod.snd) =
      value vs + 256 ^ ps.length * t.chip.r.flags.carry.toNat := by
  have hvalue := (h.carries (.inl rfl)).value
  rw [ofDigits_map_add, List.length_map, h.length_eq (.inl rfl), hc] at hvalue
  rw [value_map, value_map]
  exact hvalue

/-- The difference of an `SBC` pass, the borrow on the other side. -/
theorem Pass.sub_value (h : Pass H .sbc s ps vs t) (hc : s.chip.r.flags.carry = true) :
    value vs + value (ps.map Prod.snd) =
      value (ps.map Prod.fst) + 256 ^ ps.length * (!t.chip.r.flags.carry).toNat := by
  have hvalue := (h.carries (.inr rfl)).value
  have hcomplement : Nat.ofDigits 256 (ps.map fun p => (~~~p.2).toNat) +
      Nat.ofDigits 256 (ps.map fun p => p.2.toNat) + 1 = 256 ^ ps.length := by
    apply ofDigits_map_complement
    intro p _
    have := p.2.isLt
    rw [BitVec.toNat_not]
    omega
  rw [ofDigits_map_add, List.length_map, h.length_eq (.inr rfl), hc] at hvalue
  change _ + Nat.ofDigits 256 (ps.map fun p => (~~~p.2).toNat) + 1 = _ at hvalue
  rw [value_map, value_map]
  change _ = value vs + _ at hvalue
  cases hcarry : t.chip.r.flags.carry with
  | false =>
    rw [hcarry, Bool.toNat_false, Nat.mul_zero] at hvalue
    rw [Bool.not_false, Bool.toNat_true, Nat.mul_one]
    omega
  | true =>
    rw [hcarry, Bool.toNat_true, Nat.mul_one] at hvalue
    rw [Bool.not_true, Bool.toNat_false, Nat.mul_zero]
    omega

end Pass

/-- Below the modulus `2 * k`, with the sign bit for the upper half. -/
structure Halved (k : ℕ) (bs : List Uint8) : Prop where
  modulus : 256 ^ bs.length = 2 * k
  lt : value bs < 2 * k
  sign : sign bs = true ↔ k ≤ value bs

theorem halved {n : ℕ} {bs : List Uint8} (hlen : bs.length = n + 1) :
    Halved (128 * 256 ^ n) bs := by
  have hne : bs ≠ [] := by
    rintro rfl
    cases hlen
  have hpow : 256 ^ bs.length = 2 * (128 * 256 ^ n) := by
    rw [hlen, Nat.pow_succ]
    ring
  refine ⟨hpow, hpow ▸ value_lt rfl, ?_⟩
  rw [sign_iff hne, hpow]
  omega

section Results

variable {σ : Type} {H : Handler cpuSig σ} {s t : Sys Cpu σ} {ps : List (Uint8 × Uint8)}
  {vs : List Uint8}

/-- The numbers of a pass, modulo one and the same `2 * k`. -/
theorem Pass.halved {name : InstrRead} (h : Pass H name s ps vs t)
    (hname : name = .adc ∨ name = .sbc) (hne : ps ≠ []) :
    ∃ k, 256 ^ ps.length = 2 * k ∧ Halved k (ps.map Prod.fst) ∧ Halved k (ps.map Prod.snd) ∧
      Halved k vs := by
  obtain ⟨n, hn⟩ := Nat.exists_eq_succ_of_ne_zero (List.length_pos_iff.mpr hne).ne'
  have hfst : Halved (128 * 256 ^ n) (ps.map Prod.fst) :=
    Cpu.halved ((List.length_map _).trans hn)
  have hsnd : Halved (128 * 256 ^ n) (ps.map Prod.snd) :=
    Cpu.halved ((List.length_map _).trans hn)
  refine ⟨128 * 256 ^ n, ?_, hfst, hsnd, Cpu.halved ((h.length_eq hname).trans hn)⟩
  rw [← hfst.modulus, List.length_map]

/-- The overflow of an `ADC` pass. -/
theorem Pass.add_ov (h : Pass H .adc s ps vs t) (hne : ps ≠ [])
    (hc : s.chip.r.flags.carry = false) :
    t.chip.r.flags.ov = true ↔ ¬Fits (256 ^ ps.length)
      (signedValue (ps.map Prod.fst) + signedValue (ps.map Prod.snd)) := by
  obtain ⟨k, hk, ha, hb, hv⟩ := h.halved (.inl rfl) hne
  obtain ⟨-, hov, -⟩ := h.signs (.inl rfl) hne
  have hsum := h.add_value hc
  rw [hk] at hsum
  have hmod : (value (ps.map Prod.fst) + value (ps.map Prod.snd)) % (2 * k) = value vs := by
    rw [hsum, Nat.add_mul_mod_self_left, Nat.mod_eq_of_lt hv.lt]
  unfold signedValue
  rw [ha.modulus, hb.modulus, hk, fits_add_iff ha.lt hb.lt, hmod, not_not, ← ha.sign, ← hb.sign,
    ← hv.sign, hov]
  cases sign (ps.map Prod.fst) <;> cases sign (ps.map Prod.snd) <;> cases sign vs <;> decide

/-- An `SBC` pass computes the difference modulo `2 * k`. -/
theorem Pass.sub_mod (h : Pass H .sbc s ps vs t) (hc : s.chip.r.flags.carry = true) :
    value vs + value (ps.map Prod.snd) = value (ps.map Prod.fst) ∨
      value vs + value (ps.map Prod.snd) = value (ps.map Prod.fst) + 256 ^ ps.length := by
  have hsub := h.sub_value hc
  cases hcarry : t.chip.r.flags.carry with
  | false =>
    rw [hcarry, Bool.not_false, Bool.toNat_true, Nat.mul_one] at hsub
    exact .inr hsub
  | true =>
    rw [hcarry, Bool.not_true, Bool.toNat_false, Nat.mul_zero] at hsub
    exact .inl hsub

/-- **Multi-byte arithmetic.** An `ADC` pass with the carry clear adds the two numbers, with the
carry and V of the sum as a whole; an `SBC` pass with the carry set subtracts them, with the carry
as the comparison. -/
theorem multi_byte_arithmetic (H : Handler cpuSig σ) (s t : Sys Cpu σ)
    (ps : List (Uint8 × Uint8)) (vs : List Uint8) (hne : ps ≠ []) :
    let a := ps.map Prod.fst
    let b := ps.map Prod.snd
    let m := 256 ^ ps.length
    (Pass H .adc s ps vs t → s.chip.r.flags.carry = false →
      vs.length = ps.length ∧ value vs = (value a + value b) % m ∧
      (t.chip.r.flags.carry = true ↔ m ≤ value a + value b) ∧
      (t.chip.r.flags.ov = true ↔ ¬Fits m (signedValue a + signedValue b))) ∧
    (Pass H .sbc s ps vs t → s.chip.r.flags.carry = true →
      vs.length = ps.length ∧ (value vs : ℤ) = ((value a : ℤ) - value b) % m ∧
      (t.chip.r.flags.carry = true ↔ value b ≤ value a)) := by
  intro a b m
  constructor
  · intro h hc
    have hlen := h.length_eq (.inl rfl)
    have hlt : value vs < m := value_lt hlen
    have hsum : value a + value b = value vs + m * t.chip.r.flags.carry.toNat := h.add_value hc
    refine ⟨hlen, ?_, ?_, h.add_ov hne hc⟩
    · rw [hsum, Nat.add_mul_mod_self_left, Nat.mod_eq_of_lt hlt]
    · cases hcarry : t.chip.r.flags.carry with
      | false =>
        rw [hcarry, Bool.toNat_false, Nat.mul_zero] at hsum
        simp only [Bool.false_eq_true, false_iff]
        omega
      | true =>
        rw [hcarry, Bool.toNat_true, Nat.mul_one] at hsum
        simp only [true_iff]
        omega
  · intro h hc
    have hlen := h.length_eq (.inr rfl)
    have hlt : value vs < m := value_lt hlen
    have hsub : value vs + value b = value a + m * (!t.chip.r.flags.carry).toNat := h.sub_value hc
    refine ⟨hlen, ?_, ?_⟩
    · have hdiff : (value a : ℤ) - value b =
          value vs + m * -((!t.chip.r.flags.carry).toNat : ℤ) := by
        have hcast : (value vs : ℤ) + value b = value a + m * (!t.chip.r.flags.carry).toNat := by
          exact_mod_cast hsub
        linarith
      rw [hdiff, Int.add_mul_emod_self_left, Int.emod_eq_of_lt (by omega) (by omega)]
    · cases hcarry : t.chip.r.flags.carry with
      | false =>
        rw [hcarry, Bool.not_false, Bool.toNat_true, Nat.mul_one] at hsub
        simp only [Bool.false_eq_true, false_iff]
        omega
      | true =>
        rw [hcarry, Bool.not_true, Bool.toNat_false, Nat.mul_zero] at hsub
        simp only [true_iff]
        omega

/-- **Signed differences.** After an `SBC` pass with the carry set, V is the overflow of the
difference, and with it N xor V the signed comparison, exactly if the difference modulo the number
of values has the sign of the minuend. -/
theorem signed_subtraction_iff (hne : ps ≠ []) (h : Pass H .sbc s ps vs t)
    (hc : s.chip.r.flags.carry = true) :
    let a := signedValue (ps.map Prod.fst)
    let b := signedValue (ps.map Prod.snd)
    let m := 256 ^ ps.length
    ((t.chip.r.flags.ov = true ↔ ¬Fits m (a - b)) ∧
      ((t.chip.r.flags.neg ^^ t.chip.r.flags.ov) = true ↔ a < b)) ↔
      (a < 0 ↔ Int.bmod (a - b) m < 0) := by
  intro a b m
  obtain ⟨k, hk, ha, hb, hv⟩ := h.halved (.inr rfl) hne
  obtain ⟨hneg, hov, -⟩ := h.signs (.inr rfl) hne
  have hsub := h.sub_mod hc
  rw [hk] at hsub
  have hfits := fits_sub_iff ha.lt hb.lt hv.lt hsub
  have hlt := bmod_lt_iff ha.lt hb.lt hv.lt hsub
  have hwrap := bmod_sub_neg_iff hv.lt hsub
  have hneg' := bmod_neg_iff ha.lt
  rw [← ha.sign, ← hb.sign, ← hv.sign] at hfits hlt
  rw [← hv.sign] at hwrap
  rw [← ha.sign] at hneg'
  have hm : m = 2 * k := hk
  simp only [a, b, signedValue, ha.modulus, hb.modulus, hm]
  rw [hfits, hlt, hwrap, hneg', hneg, hov]
  cases sign (ps.map Prod.fst) <;> cases sign (ps.map Prod.snd) <;> cases sign vs <;> decide

end Results

/-! ### Programs -/

/-- A memory with a program at the start. -/
def program (bytes : List Uint8) : Mem := fun a => bytes.getD a.toNat 0

/-- `LDA #$FF; ADC #$01; LDA #$7F; ADC #$00`. -/
def addProgram : Sys Cpu Mem := ⟨{}, program [0xA9, 0xFF, 0x69, 0x01, 0xA9, 0x7F, 0x69, 0x00]⟩

/-- `LDA` and `SBC` of one byte each, the carry set. -/
def subProgram (a b : Uint8) : Sys Cpu Mem :=
  ⟨{ r.flags.carry := true }, program [0xA9, a, 0xE9, b]⟩

theorem pass_addProgram :
    Pass flatMem .adc addProgram [(0xFF, 0x01), (0x7F, 0x00)] [0x00, 0x80]
      ((post flatMem run)^[4] addProgram) :=
  .cons rfl ⟨rfl, rfl, .imm, rfl, rfl⟩ ⟨rfl, rfl, .imm, rfl, rfl⟩
    (.cons rfl ⟨rfl, rfl, .imm, rfl, rfl⟩ ⟨rfl, rfl, .imm, rfl, rfl⟩ (.nil _))

theorem pass_five_three :
    Pass flatMem .sbc (subProgram 5 3) [(5, 3)] [2] ((post flatMem run)^[2] (subProgram 5 3)) :=
  .cons rfl ⟨rfl, rfl, .imm, rfl, rfl⟩ ⟨rfl, rfl, .imm, rfl, rfl⟩ (.nil _)

/-- `LDA #$02; SBC #$03; LDA #$05; SBC #$01`, the carry set. -/
def borrowProgram : Sys Cpu Mem :=
  ⟨{ r.flags.carry := true }, program [0xA9, 0x02, 0xE9, 0x03, 0xA9, 0x05, 0xE9, 0x01]⟩

theorem pass_borrowProgram :
    Pass flatMem .sbc borrowProgram [(0x02, 0x03), (0x05, 0x01)] [0xFF, 0x03]
      ((post flatMem run)^[4] borrowProgram) :=
  .cons rfl ⟨rfl, rfl, .imm, rfl, rfl⟩ ⟨rfl, rfl, .imm, rfl, rfl⟩
    (.cons rfl ⟨rfl, rfl, .imm, rfl, rfl⟩ ⟨rfl, rfl, .imm, rfl, rfl⟩ (.nil _))

theorem pass_zero_one :
    Pass flatMem .sbc (subProgram 0 1) [(0, 1)] [0xFF]
      ((post flatMem run)^[2] (subProgram 0 1)) :=
  .cons rfl ⟨rfl, rfl, .imm, rfl, rfl⟩ ⟨rfl, rfl, .imm, rfl, rfl⟩ (.nil _)

/-- `$7FFF + 1` is `$8000`, a signed overflow without a carry; `5 - 3` is 2 without a borrow. -/
theorem multi_byte_arithmetic_two :
    (value [0x00, 0x80] = (value [0xFF, 0x7F] + value [0x01, 0x00]) % 256 ^ 2 ∧
      ((post flatMem run)^[4] addProgram).chip.r.flags.ov = true) ∧
    ((post flatMem run)^[2] (subProgram 5 3)).chip.r.flags.carry = true := by
  have hadd := (multi_byte_arithmetic flatMem addProgram _ [(0xFF, 0x01), (0x7F, 0x00)]
    [0x00, 0x80] (by decide)).1 pass_addProgram rfl
  have hsub := (multi_byte_arithmetic flatMem (subProgram 5 3) _ [(5, 3)] _ (by decide)).2
    pass_five_three rfl
  refine ⟨⟨hadd.2.1, ?_⟩, hsub.2.2.mpr (by decide)⟩
  rw [hadd.2.2.2]
  unfold Fits
  decide

/-- `$0502 - $0103` is `$03FF`, with a borrow between the bytes. It is positive as `$0502` is, so V
is clear and the comparison is right. -/
theorem signed_subtraction_positive :
    let t := (post flatMem run)^[4] borrowProgram
    (t.chip.r.flags.ov = true ↔
        ¬Fits (256 ^ 2) (signedValue [0x02, 0x05] - signedValue [0x03, 0x01])) ∧
      ((t.chip.r.flags.neg ^^ t.chip.r.flags.ov) = true ↔
        signedValue [0x02, 0x05] < signedValue [0x03, 0x01]) :=
  (signed_subtraction_iff (by decide) pass_borrowProgram rfl).mpr (by decide)

/-- `0 - 1` is -1, which is a byte, but V is set. -/
theorem not_signed_subtraction :
    ¬∀ (s t : Sys Cpu Mem) (ps : List (Uint8 × Uint8)) (vs : List Uint8), ps ≠ [] →
      Pass flatMem .sbc s ps vs t → s.chip.r.flags.carry = true →
      (t.chip.r.flags.ov = true ↔ ¬Fits (256 ^ ps.length)
        (signedValue (ps.map Prod.fst) - signedValue (ps.map Prod.snd))) := by
  intro h
  have hov := (h _ _ _ _ (by decide) pass_zero_one rfl).mp rfl
  unfold Fits at hov
  exact absurd hov (by decide)

end Yanesemu.Cpu
