import Yanesemu.CpuSpec

/-!
# How many cycles an instruction takes

Each case of `execute` has a number of cycles of its own after the opcode fetch, and for the
indexed reads and the branches up to two more. With the interrupt sequence this bounds every
`run`: it takes at least one cycle and at most seven, whatever the opcode and whatever is on the
bus.
-/

namespace Yanesemu.Cpu

open Interaction

variable {σ : Type} (H : Handler cpuSig σ) (s : Sys Cpu σ)

/-! ### Cycles of a case -/

def ReadMode.cycles : ReadMode → ℕ
  | imm => 1
  | zero => 2
  | zerox | zeroy | abs | absx | absy => 3
  | indx => 5
  | indy => 4

def ModifyMode.cycles : ModifyMode → ℕ
  | accum => 1
  | zero => 4
  | zerox | abs => 5
  | absx => 6

def WriteMode.cycles : WriteMode → ℕ
  | zero => 2
  | zerox | zeroy | abs => 3
  | absx | absy => 4
  | indx | indy => 5

def InstrImpld.cycles : InstrImpld → ℕ
  | inx | iny | dex | dey | nop => 1
  | php | pha | jmp => 2
  | plp | pla => 3
  | jmpInd => 4
  | jsr | rts | rti => 5
  | brk => 6

/-- The cycles after the opcode fetch, without those for another page. -/
def Case.cycles : Case → ℕ
  | .impld func => func.cycles
  | .read _ mode => mode.cycles
  | .modify _ mode => mode.cycles
  | .write mode _ => mode.cycles
  | .branch .. | .flag .. | .transfer .. => 1
  | .unknown => 0

/-- The further cycles a case may take. -/
def Case.extra : Case → ℕ
  | .read _ .absx | .read _ .absy | .read _ .indy => 1
  | .branch .. => 2
  | _ => 0

/-- `n` cycles have gone by. -/
def Took (n : ℕ) (c c' : Cpu) : Prop := c'.r.cycles = c.r.cycles + BitVec.ofNat 64 n

theorem took_add_ofBool {n : ℕ} {c c' : Cpu} {b : Bool}
    (h : c'.r.cycles = c.r.cycles + (BitVec.ofNat 64 n + ofBool 64 b)) :
    Took (n + b.toNat) c c' := by
  unfold Took
  rw [h, BitVec.ofNat_add]
  cases b <;> rfl

/-- A cycle more, if a page was crossed. -/
theorem took_of_crossing {n : ℕ} {c c' : Cpu}
    (h : ∃ b, c'.r.cycles = c.r.cycles + (BitVec.ofNat 64 n + ofBool 64 b)) :
    ∃ k ≤ 1, Took (n + k) c c' := by
  obtain ⟨b, hb⟩ := h
  exact ⟨b.toNat, b.toNat_le, took_add_ofBool hb⟩

theorem readMode_took (mode : ReadMode) (name : InstrRead) :
    ∃ k ≤ (Case.read name mode).extra,
      Took (mode.cycles + k) s.chip (post H (mode.func name.func) s).chip := by
  cases mode
  case absx | absy | indy =>
    exact took_of_crossing
      ⟨_, by simp [ReadMode.cycles, BitVec.add_assoc]; rfl⟩
  all_goals
    refine ⟨0, Nat.zero_le _, ?_⟩
    simp [Took, ReadMode.cycles, BitVec.add_assoc]

theorem modifyMode_took (mode : ModifyMode) (name : InstrMod) :
    Took mode.cycles s.chip (post H (mode.func name.func) s).chip := by
  cases mode <;> simp [Took, ModifyMode.cycles, BitVec.add_assoc]

theorem writeMode_took (mode : WriteMode) (v : Uint8) :
    Took mode.cycles s.chip (post H (mode.func v) s).chip := by
  cases mode <;> simp [Took, WriteMode.cycles, BitVec.add_assoc]

theorem interrupt_took : Took 6 s.chip (post H interrupt s).chip := by
  simp [Took, interrupt, BitVec.add_assoc]

theorem impld_took (func : InstrImpld) :
    Took func.cycles s.chip (post H func.func s).chip := by
  cases func <;> simp [Took, InstrImpld.cycles, instrBrk, interrupt, BitVec.add_assoc]

/-- The further cycles of a branch: one if it is taken, another one if that is to another page. -/
def branchExtra (take : Bool) : ℕ :=
  let next : Reg16 := s.chip.r.pc + 1
  let target : Reg16 := next + (readVal H s.chip.r.pc s.env).signExtend 16
  if take then 1 + (next.high != target.high).toNat else 0

theorem branchExtra_le (take : Bool) : branchExtra H s take ≤ 2 := by
  unfold branchExtra
  split
  · exact Nat.add_le_add_left (Bool.toNat_le _) 1
  · exact Nat.zero_le _

theorem branch_took (take : Bool) :
    Took (1 + branchExtra H s take) s.chip (post H (instrBranch take) s).chip := by
  cases take with
  | false => simp [Took, instrBranch, branchExtra]
  | true =>
    rw [branchExtra, if_pos rfl, ← Nat.add_assoc]
    apply took_add_ofBool
    simp [instrBranch, BitVec.add_assoc]

/-- **Cycles of an instruction.** -/
theorem exec_took (c : Case) :
    ∃ k ≤ c.extra, Took (c.cycles + k) s.chip (post H c.exec s).chip := by
  cases c with
  | impld func => exact ⟨0, Nat.zero_le _, impld_took H s func⟩
  | read name mode => exact readMode_took H s mode name
  | modify name mode => exact ⟨0, Nat.zero_le _, modifyMode_took H s mode name⟩
  | write mode v => exact ⟨0, Nat.zero_le _, writeMode_took H s mode _⟩
  | branch f v => exact ⟨_, branchExtra_le H s _, branch_took H s _⟩
  | flag f v => exact ⟨0, Nat.zero_le _, by simp [Took, Case.exec, Case.cycles, instrFlag]⟩
  | transfer src dst =>
    exact ⟨0, Nat.zero_le _, by simp [Took, Case.exec, Case.cycles, instrTransfer]⟩
  | unknown => exact ⟨0, Nat.zero_le _, by simp [Took, Case.exec, Case.cycles]⟩

/-! ### Cycles of a run -/

theorem Case.cycles_add_extra_le (c : Case) : c.cycles + c.extra ≤ 6 := by
  cases c with
  | impld func => cases func <;> simp [Case.cycles, Case.extra, InstrImpld.cycles]
  | read name mode => cases mode <;> simp [Case.cycles, Case.extra, ReadMode.cycles]
  | modify name mode => cases mode <;> simp [Case.cycles, Case.extra, ModifyMode.cycles]
  | write mode v => cases mode <;> simp [Case.cycles, Case.extra, WriteMode.cycles]
  | branch f v => simp [Case.cycles, Case.extra]
  | flag f v => simp [Case.cycles, Case.extra]
  | transfer src dst => simp [Case.cycles, Case.extra]
  | unknown => simp [Case.cycles, Case.extra]

theorem Took.trans {m n : ℕ} {c c' c'' : Cpu} (h : Took m c c') (h' : Took n c' c'') :
    Took (m + n) c c'' := by
  unfold Took at *
  rw [h', h, BitVec.add_assoc, BitVec.ofNat_add]

theorem interrupt_run_took (h : s.chip.sig.execnmi ∨ s.chip.sig.execirq) :
    Took 7 s.chip (post H run s).chip := by
  have hone : Took 1 s.chip (ticked s).chip := rfl
  have htook : Took 7 s.chip (post H interrupt (ticked s)).chip :=
    hone.trans (interrupt_took H (ticked s))
  cases hn : s.chip.sig.execnmi with
  | true =>
    rw [post_run_nmi H s hn]
    exact htook
  | false =>
    have hi : s.chip.sig.execirq = true := h.resolve_left (by rw [hn]; decide)
    rw [post_run_irq H s hn hi]
    exact htook

/-- What an instruction takes after its fetch, `run` takes with one cycle more. -/
theorem instr_run_took {n : ℕ} (hn : s.chip.sig.execnmi = false)
    (hi : s.chip.sig.execirq = false)
    (htook : Took n (fetched H s).chip (post H (executeTab (opcode H s)).exec (fetched H s)).chip) :
    Took (1 + n) s.chip (post H run s).chip := by
  have hfetch : Took 1 s.chip (fetched H s).chip := rfl
  rw [post_run_instr H s hn hi]
  exact hfetch.trans htook

/-- **Cycles of a run.** From one, for an unknown opcode, to seven. -/
theorem run_took : ∃ n, 1 ≤ n ∧ n ≤ 7 ∧ Took n s.chip (post H run s).chip := by
  by_cases hexec : s.chip.sig.execnmi ∨ s.chip.sig.execirq
  · exact ⟨7, by decide, by decide, interrupt_run_took H s hexec⟩
  · obtain ⟨hn, hi⟩ := not_or.mp hexec
    rw [Bool.not_eq_true] at hn hi
    have hle := (executeTab (opcode H s)).cycles_add_extra_le
    obtain ⟨k, hk, htook⟩ := exec_took H (fetched H s) (executeTab (opcode H s))
    exact ⟨_, by omega, by omega, instr_run_took H s hn hi htook⟩

/-- The start-up sequence takes the six cycles of an interrupt. -/
theorem power_took : Took 6 s.chip (post H power s).chip := by
  rw [power]
  simp only [post_bind]
  refine Eq.trans (interrupt_took H _) ?_
  rw [post_modify, post_clearBus_chip, post_busWrite, post_busWrite, post_modify,
    post_clearBus_chip, post_modify]

end Yanesemu.Cpu
