import Yanesemu.CpuStores

/-!
# BIT and the branch after it

On the 6502 BIT copies bits 7 and 6 of the cell to N and V and sets Z for the cell masked with A.
`instr_bit` sets N for the masked cell and Z for the cell alone. A branch after BIT tells these
apart unless they agree for the two bytes; the branches on V are right on every cell.

An instruction is run here without the polls' consequences: `instruction` is what `run` does when
no interrupt is to be executed.
-/

namespace Yanesemu.Cpu

open Interaction

/-! ### One instruction -/

/-- The last case of `run`: `execute(fetch())`. -/
def instruction : CpuM Unit := do
  execute (← fetch)

theorem post_instruction {σ : Type} (H : Handler cpuSig σ) (s : Sys Cpu σ) :
    post H instruction s = post H (executeTab (opcode H s)).exec (fetched H s) := by
  simp [instruction, execute, opcode, fetched]

theorem post_run_eq_instruction {σ : Type} (H : Handler cpuSig σ) (s : Sys Cpu σ)
    (hn : s.chip.sig.execnmi = false) (hi : s.chip.sig.execirq = false) :
    post H run s = post H instruction s :=
  (post_run_instr H s hn hi).trans (post_instruction H s).symm

section Instruction

variable {s : Sys Cpu Mem} {op : Operation} {mode : AddrMode}

/-- The case of the switch for an opcode of the manual. -/
theorem post_instruction_of_row {c : Case} (h : manual (s.env s.chip.r.pc) = c.row) :
    post flatMem instruction s = post flatMem c.exec (fetched flatMem s) := by
  have hcase : executeTab (opcode flatMem s) = c := executeTab_of_manual h
  rw [post_instruction, hcase]

theorem instruction_env (h : manual (s.env s.chip.r.pc) = some (op, mode)) :
    (post flatMem instruction s).env = stored s.env (op.stores s.chip.r s.env mode) := by
  rw [← executeTab_row] at h
  rw [post_instruction, env_eq_stored]
  exact congrArg (stored s.env) (writes_exec s h)

end Instruction

/-! ### Branches -/

/-- A branch with the operand `off` was taken: it went there, and took more than two cycles. -/
structure Taken (off : Uint8) (r r' : Regs) : Prop where
  pc : r'.pc = r.pc + 2 + off.signExtend 16
  cycles : r'.cycles = r.cycles + 3 ∨ r'.cycles = r.cycles + 4

/-- A branch was not taken. -/
structure Passed (r r' : Regs) : Prop where
  pc : r'.pc = r.pc + 2
  cycles : r'.cycles = r.cycles + 2

theorem Taken.not_passed {off : Uint8} {r r' : Regs} (h : Taken off r r') : ¬Passed r r' := by
  intro hp
  have hcycles := hp.cycles
  rcases h.cycles with h3 | h4
  · rw [h3] at hcycles
    exact absurd hcycles (by bv_omega)
  · rw [h4] at hcycles
    exact absurd hcycles (by bv_omega)

section Branch

variable {t : Sys Cpu Mem} {f : Flag} {v : Bool}
  (h : manual (t.env t.chip.r.pc) = some (.branch f v, .branch))
include h

theorem post_branch : post flatMem instruction t =
    post flatMem (instrBranch (f.get t.chip.r.flags == v)) (fetched flatMem t) :=
  post_instruction_of_row (c := .branch f v) h

theorem branch_taken (hf : f.get t.chip.r.flags = v) :
    Taken (t.env (t.chip.r.pc + 1)) t.chip.r (post flatMem instruction t).chip.r := by
  rw [post_branch h, beq_iff_eq.mpr hf]
  constructor
  · rw [branch_pc, if_pos rfl]
    exact congrArg (· + (t.env (t.chip.r.pc + 1)).signExtend 16) (add_one_add_one t.chip.r.pc)
  · -- the last cycle is for another page
    obtain ⟨b, hb⟩ : ∃ b, (post flatMem (instrBranch true) (fetched flatMem t)).chip.r.cycles =
        t.chip.r.cycles + 1 + 1 + 1 + ofBool 64 b := ⟨_, by simp [instrBranch, fetched]; rfl⟩
    rw [hb]
    cases b with
    | false => exact Or.inl (by simp only [ofBool_false]; bv_omega)
    | true => exact Or.inr (by simp only [ofBool_true]; bv_omega)

theorem branch_passed (hf : f.get t.chip.r.flags ≠ v) :
    Passed t.chip.r (post flatMem instruction t).chip.r := by
  rw [post_branch h, beq_eq_false_iff_ne.mpr hf]
  constructor
  · rw [branch_pc, if_neg Bool.false_ne_true]
    show t.chip.r.pc + 1 + 1 = _
    exact add_one_add_one _
  · show t.chip.r.cycles + 1 + 1 = _
    bv_omega

/-- A branch changes the program counter and the cycles only. -/
theorem branch_data : SameData t.chip.r (post flatMem instruction t).chip.r := by
  rw [post_branch h]
  exact (sameData_of_pc_cycles t.chip.r _ _).trans (instrBranch_data flatMem (fetched flatMem t) _)

end Branch

/-! ### BIT -/

/-- The flag after BIT on the 6502, of those BIT sets. -/
def Flag.afterBit (acc m : Uint8) : Flag → Option Bool
  | neg => some (m.getLsbD 7)
  | ov => some (m.getLsbD 6)
  | zero => some (acc &&& m == 0)
  | carry | intdis | decimal => none

/-- When `instr_bit` agrees with that. -/
def BitAgrees (acc m : Uint8) : Flag → Prop
  | .neg => acc &&& m = 0 ↔ m.getLsbD 7 = true
  | .zero => m = 0 ∨ acc &&& m ≠ 0
  | _ => True

/-- The registers and the memory BIT and a branch leave alone. -/
structure BitFrame (s u : Sys Cpu Mem) : Prop where
  acc : u.chip.r.acc = s.chip.r.acc
  x : u.chip.r.x = s.chip.r.x
  y : u.chip.r.y = s.chip.r.y
  sp : u.chip.r.sp = s.chip.r.sp
  carry : u.chip.r.flags.carry = s.chip.r.flags.carry
  env : u.env = s.env

/-- The bytes of an instruction that reads a cell, the opcode included. -/
def readBytes : AddrMode → Uint16
  | .abs | .absx | .absy => 3
  | _ => 2

/-- BIT on `m` in `s`, ending in `t` at the address `p`, then the branch there on `f` being `v`,
ending in `u`: the branch goes by what BIT finds on the 6502, and the rest is as it was. -/
structure BitThenBranch (m : Uint8) (p : Uint16) (f : Flag) (v : Bool) (s t u : Sys Cpu Mem) :
    Prop where
  next : t.chip.r.pc = p
  taken : f.afterBit s.chip.r.acc m = some v →
    Taken (t.env (t.chip.r.pc + 1)) t.chip.r u.chip.r
  passed : f.afterBit s.chip.r.acc m = some (!v) → Passed t.chip.r u.chip.r
  frame : BitFrame s u

section Bit

variable {s : Sys Cpu Mem} {mode : AddrMode}
  (hbit : manual (s.env s.chip.r.pc) = some (.read .bit, mode))
include hbit

theorem bit_data : SameData
      (InstrRead.bit.regs (s.env (effAddr s.chip.r s.env (s.chip.r.pc + 1) mode)) s.chip.r)
      (post flatMem instruction s).chip.r ∧
    (post flatMem instruction s).chip.r.pc = s.chip.r.pc + readBytes mode := by
  have hrow := hbit
  rw [← executeTab_row] at hrow
  have hpost := post_instruction flatMem s
  change post flatMem instruction s =
    post flatMem (executeTab (s.env s.chip.r.pc)).exec (fetched flatMem s) at hpost
  cases hc : executeTab (s.env s.chip.r.pc) with
  | read name m =>
    rw [hc] at hrow hpost
    cases hrow
    have hdata := readMode_data flatMem (fetched flatMem s) m .bit
    rw [readMode_load, effAddr_fetched] at hdata
    have hpc := readMode_pc flatMem (fetched flatMem s) m .bit
    rw [hpost]
    refine ⟨(InstrRead.bit.sameData_regs (sameData_of_pc_cycles s.chip.r _ _) _).trans hdata, ?_⟩
    have hbytes : 1 + m.operands = readBytes m.addrMode := by cases m <;> rfl
    refine hpc.trans ?_
    show s.chip.r.pc + 1 + m.operands = _
    rw [BitVec.add_assoc, hbytes]
  | _ =>
    rw [hc] at hrow
    cases hrow

end Bit

/-- The flags of `instr_bit` against those of the 6502. -/
theorem bit_flag_iff (r : Regs) (m : Uint8) {f : Flag} {b : Bool}
    (hf : f.afterBit r.acc m = some b) :
    f.get (InstrRead.bit.regs m r).flags = b ↔ BitAgrees r.acc m f := by
  cases f with
  | neg =>
    obtain rfl := Option.some.inj hf
    show (r.acc &&& m == 0) = m.getLsbD 7 ↔ (r.acc &&& m = 0 ↔ m.getLsbD 7 = true)
    rw [Bool.eq_iff_iff, beq_iff_eq]
  | ov =>
    obtain rfl := Option.some.inj hf
    exact iff_true_intro (truthy_and_twoPow m (by decide : 6 < 8))
  | zero =>
    obtain rfl := Option.some.inj hf
    show (m == 0) = (r.acc &&& m == 0) ↔ m = 0 ∨ r.acc &&& m ≠ 0
    rw [Bool.eq_iff_iff, beq_iff_eq, beq_iff_eq]
    constructor
    · intro h
      by_cases hm : m = 0
      · exact Or.inl hm
      · exact Or.inr (mt h.mpr hm)
    · rintro (rfl | hand)
      · simp
      · refine ⟨?_, fun h0 => absurd h0 hand⟩
        rintro rfl
        exact absurd BitVec.and_zero hand
  | carry => cases hf
  | intdis => cases hf
  | decimal => cases hf

/-- **BIT and a branch.** For every state and memory, the branch after BIT goes by the bits of the
cell exactly if `instr_bit` agrees with the 6502 for A and the cell. -/
theorem bit_then_branch_iff (s : Sys Cpu Mem) {mode : AddrMode} {f : Flag} {v : Bool}
    (hbit : manual (s.env s.chip.r.pc) = some (.read .bit, mode))
    (hf : f = .neg ∨ f = .ov ∨ f = .zero)
    (hbranch : manual (s.env (s.chip.r.pc + readBytes mode)) = some (.branch f v, .branch)) :
    let m := s.env (effAddr s.chip.r s.env (s.chip.r.pc + 1) mode)
    let t := post flatMem instruction s
    BitThenBranch m (s.chip.r.pc + readBytes mode) f v s t (post flatMem instruction t) ↔
      BitAgrees s.chip.r.acc m f := by
  intro m t
  obtain ⟨hdata, hpc⟩ := bit_data hbit
  have htenv : t.env = s.env := instruction_env hbit
  replace hbranch : manual (t.env t.chip.r.pc) = some (.branch f v, .branch) := by
    rw [htenv, hpc]
    exact hbranch
  obtain ⟨b, hb⟩ : ∃ b, f.afterBit s.chip.r.acc m = some b := by
    rcases hf with rfl | rfl | rfl <;> exact ⟨_, rfl⟩
  have hflag : f.get t.chip.r.flags = b ↔ BitAgrees s.chip.r.acc m f := by
    rw [hdata.flags]
    exact bit_flag_iff s.chip.r m hb
  rw [← hflag]
  constructor
  · intro h
    by_contra hne
    by_cases hv : b = v
    · subst hv
      exact (h.taken hb).not_passed (branch_passed hbranch hne)
    · have hb' : b = !v := by
        cases b <;> cases v <;> first | rfl | exact absurd rfl hv
      have hget : f.get t.chip.r.flags = v := by
        rw [hb'] at hne
        simpa using hne
      exact (branch_taken hbranch hget).not_passed (h.passed (hb.trans (congrArg some hb')))
  · intro hget
    have hdata' := branch_data hbranch
    have henv : (post flatMem instruction t).env = s.env :=
      (instruction_env hbranch).trans htenv
    refine ⟨hpc, ?_, ?_, hdata'.acc.trans hdata.acc, hdata'.x.trans hdata.x, hdata'.y.trans hdata.y,
      hdata'.sp.trans hdata.sp, ?_, henv⟩
    · intro hv
      rw [hb] at hv
      exact branch_taken hbranch (hget.trans (Option.some.inj hv))
    · intro hv
      rw [hb] at hv
      refine branch_passed hbranch ?_
      rw [hget, Option.some.inj hv]
      simp
    · rw [hdata'.flags, hdata.flags]
      rfl

/-- `BIT $10` and `BMI` to the instruction behind the next one, with a cell that is one. -/
def bitProgram : Mem := fun a =>
  if a.toNat = 0 then 0x24 else if a.toNat = 1 then 0x10 else if a.toNat = 2 then 0x30
  else if a.toNat = 3 then 2 else if a.toNat = 0x10 then 1 else 0

/-- With a one in A the branch is not taken, in two runs of the CPU. -/
theorem bit_then_branch_one :
    let s : Sys Cpu Mem := ⟨{ r := { acc := 1 } }, bitProgram⟩
    let t := post flatMem run s
    BitThenBranch 1 2 .neg true s t (post flatMem run t) := by
  intro s t
  have hbit : manual (s.env s.chip.r.pc) = some (.read .bit, .zero) := by decide
  have hbranch : manual (s.env (s.chip.r.pc + readBytes .zero)) =
      some (.branch .neg true, .branch) := by decide
  have hagrees : BitAgrees 1 1 .neg := by
    unfold BitAgrees
    decide
  have ht : t = post flatMem instruction s := post_run_eq_instruction flatMem s rfl rfl
  have hu : post flatMem run t = post flatMem instruction t :=
    post_run_eq_instruction flatMem t rfl rfl
  rw [hu, ht]
  exact (bit_then_branch_iff s hbit (Or.inl rfl) hbranch).mpr hagrees

/-- With zero in A, BMI is taken although bit 7 of the cell is clear. -/
theorem not_bit_then_branch_zero :
    let s : Sys Cpu Mem := ⟨{}, bitProgram⟩
    let t := post flatMem instruction s
    (post flatMem instruction t).chip.r.pc = 6 ∧
      ¬BitThenBranch 1 2 .neg true s t (post flatMem instruction t) := by
  intro s t
  have hpc : (post flatMem instruction t).chip.r.pc = 6 := by decide
  refine ⟨hpc, ?_⟩
  intro h
  have hpassed := (h.passed rfl).pc
  rw [hpc] at hpassed
  exact absurd hpassed (by decide)

end Yanesemu.Cpu
