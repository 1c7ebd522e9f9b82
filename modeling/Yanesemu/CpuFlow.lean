import Yanesemu.Memory

/-!
# Where an instruction leaves the program counter

The cases of `execute` fall into those that run straight on, past their operand bytes
(`Case.operands`), and the seven that go elsewhere. On a bus whose reads have no side effect the
target of each of these is a function of the state the instruction starts in.
-/

namespace Yanesemu.Cpu

open Interaction

variable {σ : Type} (H : Handler cpuSig σ) (s : Sys Cpu σ)

/-! ### Straight on -/

/-- The operand bytes of a read. -/
def ReadMode.operands : ReadMode → Uint16
  | abs | absx | absy => 2
  | _ => 1

def ModifyMode.operands : ModifyMode → Uint16
  | accum => 0
  | abs | absx => 2
  | _ => 1

def WriteMode.operands : WriteMode → Uint16
  | abs | absx | absy => 2
  | _ => 1

/-- The operand bytes of a case that runs straight on. -/
def Case.operands : Case → Option Uint16
  | .impld .jsr | .impld .jmp | .impld .jmpInd | .impld .rts | .impld .brk | .impld .rti => none
  | .impld _ => some 0
  | .read _ mode => some mode.operands
  | .modify _ mode => some mode.operands
  | .write mode _ => some mode.operands
  | .branch .. => none
  | .flag .. | .transfer .. | .unknown => some 0

theorem add_one_add_one (a : Uint16) : a + 1#16 + 1#16 = a + 2#16 := by
  rw [BitVec.add_assoc]; rfl

theorem readMode_pc (mode : ReadMode) (name : InstrRead) :
    (post H (mode.func name.func) s).chip.r.pc = s.chip.r.pc + mode.operands := by
  cases mode <;> simp [ReadMode.operands, add_one_add_one]

theorem modifyMode_pc (mode : ModifyMode) (name : InstrMod) :
    (post H (mode.func name.func) s).chip.r.pc = s.chip.r.pc + mode.operands := by
  cases mode <;> simp [ModifyMode.operands, add_one_add_one]

theorem writeMode_pc (mode : WriteMode) (v : Uint8) :
    (post H (mode.func v) s).chip.r.pc = s.chip.r.pc + mode.operands := by
  cases mode <;> simp [WriteMode.operands, add_one_add_one]

/-- A case that runs straight on leaves the counter after its operand bytes. -/
theorem exec_pc {c : Case} {n : Uint16} (hc : c.operands = some n) :
    (post H c.exec s).chip.r.pc = s.chip.r.pc + n := by
  cases c with
  | impld func =>
    cases func <;> cases hc <;> simp [Case.exec]
  | read name mode =>
    cases hc
    exact readMode_pc H s mode name
  | modify name mode =>
    cases hc
    exact modifyMode_pc H s mode name
  | write mode val =>
    cases hc
    exact writeMode_pc H s mode _
  | branch f v => cases hc
  | flag f v =>
    cases hc
    simp [Case.exec, instrFlag]
  | transfer src dst =>
    cases hc
    simp [Case.exec, instrTransfer]
  | unknown =>
    cases hc
    simp [Case.exec]

/-! ### Elsewhere -/

theorem branch_pc (take : Bool) :
    (post H (instrBranch take) s).chip.r.pc =
      if take then s.chip.r.pc + 1 + (readVal H s.chip.r.pc s.env).signExtend 16
      else s.chip.r.pc + 1 := by
  cases take <;> simp [instrBranch]

section Pure

variable {H} (hp : PureReads H)
include hp

/-- A word of the bus. -/
def busWord (H : Handler cpuSig σ) (e : σ) (lo hi : Uint16) : Uint16 :=
  Reg16.ofBytes (readVal H lo e) (readVal H hi e)

/-- The operand of the instruction at the program counter, which has passed the opcode. -/
def operand (H : Handler cpuSig σ) (s : Sys Cpu σ) : Uint16 :=
  busWord H s.env s.chip.r.pc (s.chip.r.pc + 1)

theorem jmp_pc : (post H instrJmp s).chip.r.pc = operand H s := by
  simp [operand, busWord, hp.readEnv_eq]

theorem jsr_pc : (post H instrJsr s).chip.r.pc = operand H s := by
  simp [operand, busWord, hp.readEnv_eq]

/-- The address of the high byte of an indirect jump: it stays in the page. -/
def indHigh (op : Uint16) : Uint16 := if Reg16.low op == 0xFF then op &&& 0xFF00 else op + 1

theorem jmpInd_pc :
    (post H instrJmpInd s).chip.r.pc =
      busWord H s.env (operand H s) (indHigh (operand H s)) := by
  simp [operand, busWord, indHigh, hp.readEnv_eq, hp.called_eq]

theorem rts_pc :
    (post H instrRts s).chip.r.pc =
      busWord H s.env (stackAddr (s.chip.r.sp + 1)) (stackAddr (s.chip.r.sp + 1 + 1)) + 1 := by
  simp [busWord, hp.readEnv_eq, hp.called_eq]

theorem rti_pc :
    (post H instrRti s).chip.r.pc =
      busWord H s.env (stackAddr (s.chip.r.sp + 1 + 1))
        (stackAddr (s.chip.r.sp + 1 + 1 + 1)) := by
  simp [busWord, hp.readEnv_eq, hp.called_eq]

/-- The environment after the three pushes of an interrupt. -/
def stacked (H : Handler cpuSig σ) (c : Cpu) (e : σ) : σ :=
  writeEnv H (stackAddr (c.r.sp - 1 - 1)) c.r.flags.toByte
    (writeEnv H (stackAddr (c.r.sp - 1)) c.r.pc.low
      (writeEnv H (stackAddr c.r.sp) c.r.pc.high e))

theorem interrupt_pc :
    (post H interrupt s).chip.r.pc =
      busWord H (stacked H s.chip s.env) s.chip.sig.entry.vec (s.chip.sig.entry.vec + 1) := by
  simp [interrupt, busWord, stacked, hp.readEnv_eq, hp.called_eq]

end Pure

end Yanesemu.Cpu
