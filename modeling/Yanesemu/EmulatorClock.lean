import Yanesemu.Frame

/-!
# The clock of the emulator

`Emulator::run` compares the CPU's counter of 64 bits with a copy in an `int`. The difference of
the two is small in every round, so modulo `2 ^ 32` the PPU always gets its three dots for each
cycle (`dotsRun_eq`). But `int` does not wrap: once the CPU has executed `2 ^ 31` cycles the
conversion is out of range, and the subtraction after it overflows.
-/

namespace Yanesemu.Emulator

open Interaction EventRun
open Cpu (Took)

/-! ### One round -/

/-- The values of the type `int`. -/
def InInt (z : ℤ) : Prop := -2 ^ 31 ≤ z ∧ z < 2 ^ 31

/-- No conversion and no operation on `int` in this `run` leaves the range of the type: the
conversion of the counter, the subtraction and the product. -/
structure IntsInRange (e : Emulator) : Prop where
  conversion : InInt (e.onCpu Cpu.run).2.cpu.r.cycles.toNat
  difference : InInt (((e.onCpu Cpu.run).2.cpu.r.cycles.setWidth 32).toInt - e.cycle.toInt)
  product : InInt (((e.onCpu Cpu.run).2.cpu.r.cycles.setWidth 32 - e.cycle).toInt * 3)

theorem toInt_setWidth_of_lt {c : Uint64} (h : c.toNat < 2 ^ 31) :
    (c.setWidth 32).toInt = c.toNat := by
  have htoNat : (c.setWidth 32).toNat = c.toNat := by
    rw [BitVec.toNat_setWidth]
    omega
  rw [BitVec.toInt_eq_toNat_of_lt (by omega), htoNat]

/-- A round that ends below `2 ^ 31` cycles stays in range. -/
theorem intsInRange_of_lt {e : Emulator} {copy : ℕ} (hcopy : e.cycle.toNat = copy)
    (hle : copy ≤ e.cpu.r.cycles.toNat) (hlag : e.cpu.r.cycles.toNat ≤ copy + 6)
    (hlt : e.cpu.r.cycles.toNat + e.took < 2 ^ 31) : IntsInRange e := by
  obtain ⟨hcyc, hc1, hc7⟩ := cycles_onCpu e
  have hcount : (e.onCpu Cpu.run).2.cpu.r.cycles.toNat = e.cpu.r.cycles.toNat + e.took := by
    rw [hcyc, BitVec.toNat_add, BitVec.toNat_ofNat]
    omega
  have hcurr := toInt_setWidth_of_lt (c := (e.onCpu Cpu.run).2.cpu.r.cycles) (by omega)
  have hcycle : e.cycle.toInt = copy := by
    rw [BitVec.toInt_eq_toNat_of_lt (by omega), hcopy]
  have hdiff : ((e.onCpu Cpu.run).2.cpu.r.cycles.setWidth 32 - e.cycle).toInt =
      e.cpu.r.cycles.toNat + e.took - copy := by
    rw [BitVec.toInt_sub, hcurr, hcycle, hcount]
    rw [Int.bmod_eq_of_le (by omega) (by omega)]
    push_cast
    ring
  refine ⟨?_, ?_, ?_⟩
  · unfold InInt
    omega
  · unfold InInt
    rw [hcurr, hcycle, hcount]
    omega
  · unfold InInt
    rw [hdiff]
    omega

/-! ### Many rounds -/

/-- The CPU cycles after `n` rounds, counted without wraparound from what the counter shows at
the start. -/
def elapsed (e : Emulator) (n : ℕ) : ℕ :=
  e.cpu.r.cycles.toNat + ∑ k ∈ Finset.range n, (run^[k] e).took

/-- The calls of `PPU::run` in `n` rounds. -/
def dotsTotal (e : Emulator) (n : ℕ) : ℕ := ∑ k ∈ Finset.range n, (run^[k] e).dotsRun

theorem elapsed_succ (e : Emulator) (n : ℕ) :
    elapsed e (n + 1) = elapsed e n + (run^[n] e).took := by
  unfold elapsed
  rw [Finset.sum_range_succ, Nat.add_assoc]

theorem dotsTotal_succ (e : Emulator) (n : ℕ) :
    dotsTotal e (n + 1) = dotsTotal e n + (run^[n] e).dotsRun := Finset.sum_range_succ ..

/-- The counter shows the elapsed cycles, modulo its size. -/
theorem cycles_iterate (e : Emulator) (n : ℕ) :
    (run^[n] e).cpu.r.cycles = BitVec.ofNat 64 (elapsed e n) := by
  induction n with
  | zero =>
    unfold elapsed
    rw [Finset.sum_range_zero, Nat.add_zero, BitVec.ofNat_toNat, BitVec.setWidth_eq]
    rfl
  | succ n ih =>
    rw [Function.iterate_succ_apply', cycles_run_eq, (cycles_onCpu _).1, ih, elapsed_succ,
      BitVec.ofNat_add]

theorem lag_iterate (e : Emulator) (n : ℕ) : (run^[n + 1] e).lag = 0 := by
  rw [Function.iterate_succ_apply', lag_run]

/-- **Dots.** The PPU gets three dots for each cycle, from the first round on. -/
theorem dotsTotal_eq {e : Emulator} (hlag : e.lag = e.cpu.r.cycles.toNat) (h6 : e.lag ≤ 6)
    (n : ℕ) : dotsTotal e (n + 1) = 3 * elapsed e (n + 1) := by
  induction n with
  | zero =>
    rw [dotsTotal_succ, elapsed_succ]
    show dotsTotal e 0 + e.dotsRun = 3 * (elapsed e 0 + e.took)
    rw [dotsRun_eq h6, hlag]
    unfold dotsTotal elapsed
    rw [Finset.sum_range_zero, Finset.sum_range_zero]
    omega
  | succ n ih =>
    have hzero := lag_iterate e n
    rw [dotsTotal_succ, elapsed_succ, ih, dotsRun_eq (by omega), hzero]
    omega

/-- Every round takes from one cycle to seven. -/
theorem le_elapsed (e : Emulator) (n : ℕ) : n ≤ elapsed e n := by
  induction n with
  | zero => exact Nat.zero_le _
  | succ n ih =>
    have := (cycles_onCpu (run^[n] e)).2.1
    rw [elapsed_succ]
    omega

theorem elapsed_mono (e : Emulator) {m n : ℕ} (h : m ≤ n) : elapsed e m ≤ elapsed e n := by
  induction n with
  | zero =>
    obtain rfl : m = 0 := by omega
    exact Nat.le_refl _
  | succ n ih =>
    rcases Nat.eq_or_lt_of_le h with rfl | hlt
    · exact Nat.le_refl _
    · rw [elapsed_succ]
      have := ih (by omega)
      omega

/-- The states a new emulator is in after `power`: the PPU is behind by what the counter shows. -/
structure Powered (e : Emulator) : Prop where
  cycles : e.cpu.r.cycles = 6
  cycle : e.cycle = 0

theorem Powered.lag_eq {e : Emulator} (h : Powered e) : e.lag = 6 := by
  unfold lag
  rw [h.cycles, h.cycle]
  rfl

theorem Powered.elapsed_zero {e : Emulator} (h : Powered e) : elapsed e 0 = 6 := by
  unfold elapsed
  rw [h.cycles]
  rfl

theorem powered_ppuPower {e : Emulator} (hcycles : e.cpu.r.cycles = 6) (hcycle : e.cycle = 0) :
    Powered (e.onPpu Ppu.power).2 := ⟨hcycles, hcycle⟩

theorem powered_power {e : Emulator} (hcycles : e.cpu.r.cycles = 0) (hcycle : e.cycle = 0) :
    Powered e.power := by
  have hsix := cycles_cpuPower hcycles
  have hkept := kept_onCpu Cpu.power e
  unfold power
  generalize (e.onCpu Cpu.power).2 = e₁ at *
  exact powered_ppuPower hsix (hkept.cycle.trans hcycle)

theorem powered_insertRom (fresh : Fresh) (rom : FreshRom) (romfile : File) :
    Powered ((construct fresh).insertRom rom romfile).2.1.power := by
  unfold insertRom
  dsimp only
  split
  · exact powered_power rfl rfl
  · exact powered_power rfl rfl

/-- The rounds stay in range exactly as long as fewer than `2 ^ 31` cycles have elapsed. -/
theorem intsInRange_iff {e : Emulator} (h : Powered e) (n : ℕ) :
    (∀ k < n, IntsInRange (run^[k] e)) ↔ elapsed e n < 2 ^ 31 := by
  constructor
  · intro hall
    induction n with
    | zero =>
      rw [h.elapsed_zero]
      decide
    | succ n ih =>
      have hn := ih fun k hk => hall k (by omega)
      obtain ⟨hcyc, -, hc7⟩ := cycles_onCpu (run^[n] e)
      have hconv := (hall n (Nat.lt_succ_self n)).conversion.2
      rw [hcyc, cycles_iterate, ← BitVec.ofNat_add, ← elapsed_succ, BitVec.toNat_ofNat] at hconv
      rw [elapsed_succ] at hconv ⊢
      omega
  · intro hlt k hk
    have hmono : elapsed e (k + 1) ≤ elapsed e n := elapsed_mono e hk
    have hsucc := elapsed_succ e k
    have hcycles : (run^[k] e).cpu.r.cycles.toNat = elapsed e k := by
      rw [cycles_iterate, BitVec.toNat_ofNat]
      omega
    cases k with
    | zero =>
      have hzero := h.elapsed_zero
      have hcopy : (run^[0] e).cycle.toNat = 0 := by
        show e.cycle.toNat = 0
        rw [h.cycle]
        rfl
      exact intsInRange_of_lt hcopy (by omega) (by omega) (by omega)
    | succ k =>
      have hcopy : (run^[k + 1] e).cycle.toNat = elapsed e (k + 1) := by
        have hcycle : (run^[k + 1] e).cycle =
            (BitVec.ofNat 64 (elapsed e (k + 1))).setWidth 32 := by
          rw [← cycles_iterate, Function.iterate_succ_apply', cycle_run]
        rw [hcycle, BitVec.toNat_setWidth, BitVec.toNat_ofNat]
        omega
      exact intsInRange_of_lt hcopy (by omega) (by omega) (by omega)

/-- **The clock.** After `n` rounds of an emulator that was constructed, given a file and powered:
every computation with `int` has been in range and the PPU has run three times for each cycle of
the CPU since construction, exactly if fewer than `2 ^ 31` cycles have elapsed. -/
theorem clock_in_range_iff (fresh : Fresh) (rom : FreshRom) (romfile : File) (n : ℕ) :
    let e := ((construct fresh).insertRom rom romfile).2.1.power
    ((∀ k < n, IntsInRange (run^[k] e)) ∧ (0 < n → dotsTotal e n = 3 * elapsed e n)) ↔
      elapsed e n < 2 ^ 31 := by
  intro e
  have he : Powered e := powered_insertRom fresh rom romfile
  have hlag : e.lag = e.cpu.r.cycles.toNat := by
    rw [he.lag_eq, he.cycles]
    rfl
  rw [intsInRange_iff he n]
  refine ⟨And.left, fun hlt => ⟨hlt, ?_⟩⟩
  intro hn
  obtain ⟨m, rfl⟩ : ∃ m, n = m + 1 := ⟨n - 1, by omega⟩
  exact dotsTotal_eq hlag he.lag_eq.le m

/-- With a ROM of zeros the range is left at the latest in the round number `2 ^ 31`. -/
theorem clock_out_of_range_zeros :
    let inserted := (construct zeroed).insertRom Cartridge.zeroRom (Cartridge.romFile 2 1)
    inserted.1 = true ∧ ¬∀ k < 2 ^ 31, IntsInRange (run^[k] inserted.2.1.power) := by
  refine ⟨rfl, ?_⟩
  intro hall
  have hlt := (intsInRange_iff (powered_insertRom _ _ _) (2 ^ 31)).mp hall
  have hle := le_elapsed ((construct zeroed).insertRom Cartridge.zeroRom
    (Cartridge.romFile 2 1)).2.1.power (2 ^ 31)
  exact absurd hlt (Nat.not_lt_of_le hle)

end Yanesemu.Emulator
