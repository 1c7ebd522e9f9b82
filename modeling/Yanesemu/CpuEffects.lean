import Yanesemu.Manual
import Yanesemu.Opargs
import Yanesemu.ZeroPage

/-!
# What an instruction computes

An addressing mode loads an operand, hands it to the instruction function and, for the modes that
write, stores a byte. `load` is the first of these as a program of its own; the lemmas here say
that the registers after a mode are those the instruction function makes of the loaded operand,
whatever the environment, and on a flat memory which cell was loaded and stored.

The registers are compared without the program counter and the cycle count (`SameData`): where
an instruction goes and how long it takes is in `CpuFlow` and `CpuCycles`.
-/

namespace Yanesemu.Cpu

open Interaction

/-! ### Registers -/

/-- Equal in the registers a program computes with: all but the program counter and the cycles. -/
structure SameData (r r' : Regs) : Prop where
  acc : r'.acc = r.acc
  x : r'.x = r.x
  y : r'.y = r.y
  sp : r'.sp = r.sp
  flags : r'.flags = r.flags

theorem sameData_of_pc_cycles (r : Regs) (pc : Reg16) (cycles : Uint64) :
    SameData r { r with pc := pc, cycles := cycles } := ⟨rfl, rfl, rfl, rfl, rfl⟩

theorem SameData.eq_with {r r' : Regs} (h : SameData r r') :
    r' = { r with pc := r'.pc, cycles := r'.cycles } := by
  obtain ⟨hacc, hx, hy, hsp, hflags⟩ := h
  rcases r' with ⟨pc, acc, x, y, sp, flags, cycles⟩
  simp_all

theorem SameData.trans {a b c : Regs} (h : SameData a b) (h' : SameData b c) : SameData a c :=
  ⟨h'.acc.trans h.acc, h'.x.trans h.x, h'.y.trans h.y, h'.sp.trans h.sp, h'.flags.trans h.flags⟩

theorem SameData.get {r r' : Regs} (h : SameData r r') (reg : Reg8) : reg.get r' = reg.get r := by
  rw [h.eq_with]
  cases reg <;> rfl

theorem InstrRead.sameData_regs {r r' : Regs} (h : SameData r r') (name : InstrRead) (v : Uint8) :
    SameData (name.regs v r) (name.regs v r') := by
  rw [h.eq_with]
  cases name <;> exact ⟨rfl, rfl, rfl, rfl, rfl⟩

theorem InstrMod.sameData_regs {r r' : Regs} (h : SameData r r') (name : InstrMod) (v : Uint8) :
    SameData (name.regs v r) (name.regs v r') := by
  rw [h.eq_with]
  cases name <;> exact ⟨rfl, rfl, rfl, rfl, rfl⟩

theorem InstrMod.result_eq {r r' : Regs} (h : SameData r r') (name : InstrMod) (v : Uint8) :
    name.result v r' = name.result v r := by
  rw [h.eq_with]
  cases name <;> rfl

/-! ### The operand -/

/-- Loads what a read mode hands to the instruction function. -/
def ReadMode.load : ReadMode → CpuM Uint8
  | imm => do
    fetchLow
    return (← get).opargs.low
  | zero => do
    fetchLow
    readmem ((← get).opargs.low.setWidth 16)
  | zerox => do
    fetchLow
    let c ← get
    readmem (c.opargs.low.setWidth 16 + c.r.x.setWidth 16)
  | zeroy => do
    fetchLow
    let c ← get
    readmem (c.opargs.low.setWidth 16 + c.r.y.setWidth 16)
  | abs => do
    fetchLow
    fetchHigh
    readmem (← get).opargs
  | absx => do
    fetchLow
    fetchHigh
    let c ← get
    readmem (c.opargs + c.r.x.setWidth 16)
  | absy => do
    fetchLow
    fetchHigh
    let c ← get
    readmem (c.opargs + c.r.y.setWidth 16)
  | indx => do readmem (← indxPointer)
  | indy => do readmem (← indyPointer)

/-- Loads what a modify mode hands to the instruction function. -/
def ModifyMode.load : ModifyMode → CpuM Uint8
  | accum => return (← get).r.acc
  | zero => ReadMode.zero.load
  | zerox => do
    fetchLow
    cycle
    let c ← get
    readmem (c.opargs.low.setWidth 16 + c.r.x.setWidth 16)
  | abs => ReadMode.abs.load
  | absx => ReadMode.absx.load

section Load

variable {σ : Type} (H : Handler cpuSig σ) (s : Sys Cpu σ)

/-- After a read mode the registers are what the instruction function makes of the operand. -/
theorem readMode_data (mode : ReadMode) (name : InstrRead) :
    SameData (name.regs (val H mode.load s) s.chip.r)
      (post H (mode.func name.func) s).chip.r := by
  have hdata (pc : Reg16) (cycles : Uint64) (v : Uint8) :=
    name.sameData_regs (sameData_of_pc_cycles s.chip.r pc cycles) v
  cases mode <;> constructor <;>
    simp [ReadMode.load, name.post_regs, Reg8.get, (hdata _ _ _).acc, (hdata _ _ _).x,
      (hdata _ _ _).y, (hdata _ _ _).sp, (hdata _ _ _).flags]

/-- The registers after a modify mode, the result of the accumulator mode included. -/
def ModifyMode.regs (mode : ModifyMode) (name : InstrMod) (v : Uint8) (r : Regs) : Regs :=
  match mode with
  | accum => { name.regs v r with acc := name.result v r }
  | _ => name.regs v r

theorem modifyMode_data (mode : ModifyMode) (name : InstrMod) :
    SameData (mode.regs name (val H mode.load s) s.chip.r)
      (post H (mode.func name.func) s).chip.r := by
  have hdata (pc : Reg16) (cycles : Uint64) (v : Uint8) :=
    name.sameData_regs (sameData_of_pc_cycles s.chip.r pc cycles) v
  have hresult (pc : Reg16) (cycles : Uint64) (v : Uint8) :=
    name.result_eq (sameData_of_pc_cycles s.chip.r pc cycles) v
  cases mode <;> constructor <;>
    simp [ModifyMode.regs, ModifyMode.load, ReadMode.load, name.post_regs, name.val_result,
      hresult _ _ _, (hdata _ _ _).acc, (hdata _ _ _).x, (hdata _ _ _).y, (hdata _ _ _).sp,
      (hdata _ _ _).flags]

theorem writeMode_data (mode : WriteMode) (v : Uint8) :
    SameData s.chip.r (post H (mode.func v) s).chip.r := by
  cases mode <;> constructor <;> simp

theorem instrBranch_data (take : Bool) :
    SameData s.chip.r (post H (instrBranch take) s).chip.r := by
  cases take <;> constructor <;> simp [instrBranch]

theorem instrFlag_data (f : Flag) (v : Bool) :
    SameData { s.chip.r with flags := f.set s.chip.r.flags v }
      (post H (instrFlag f v) s).chip.r := by
  constructor <;> simp [instrFlag]

/-- The registers after a transfer. -/
def transferred (src dst : Reg8) (r : Regs) : Regs :=
  { dst.set r (src.get r) with flags := r.flags.setZN (src.get r) }

theorem instrTransfer_data (src dst : Reg8) :
    SameData (transferred src dst s.chip.r) (post H (instrTransfer src dst) s).chip.r := by
  cases src <;> cases dst <;> constructor <;>
    simp [instrTransfer, transferred, Reg8.get, Reg8.set]

/-! ### Implied instructions -/

/-- The registers after the interrupt sequence. -/
def entered (r : Regs) : Regs :=
  { r with sp := r.sp - 1 - 1 - 1, flags := { r.flags with breakf := false, intdis := true } }

/-- The registers after INX, INY, DEX and DEY. -/
def counted (reg : Reg8) (delta : Uint8) (r : Regs) : Regs :=
  { reg.set r (reg.get r + delta) with flags := r.flags.setZN (reg.get r + delta) }

/-- The status PLP and RTI make of the byte they pull. -/
def restored (v : Uint8) : ProcStatus := { ProcStatus.ofByte v with breakf := false }

/-- The byte PLP pulls. -/
def plpByte : Uint8 := val H (do cycle; cycle; lastCycle; pull) s

/-- The byte PLA and RTI pull first. -/
def plaByte : Uint8 := val H (do cycle; cycle; pull) s

/-- The registers after an implied instruction. -/
def InstrImpld.regs : InstrImpld → Regs
  | inx => counted .x 1 s.chip.r
  | iny => counted .y 1 s.chip.r
  | dex => counted .x (-1) s.chip.r
  | dey => counted .y (-1) s.chip.r
  | php => { s.chip.r with sp := s.chip.r.sp - 1, flags.breakf := false }
  | pha => { s.chip.r with sp := s.chip.r.sp - 1 }
  | plp => { s.chip.r with sp := s.chip.r.sp + 1, flags := restored (plpByte H s) }
  | pla => { s.chip.r with
      acc := plaByte H s, sp := s.chip.r.sp + 1, flags := s.chip.r.flags.setZN (plaByte H s) }
  | jsr => { s.chip.r with sp := s.chip.r.sp - 1 - 1 }
  | rts => { s.chip.r with sp := s.chip.r.sp + 1 + 1 }
  | brk => entered s.chip.r
  | rti => { s.chip.r with sp := s.chip.r.sp + 1 + 1 + 1, flags := restored (plaByte H s) }
  | jmp | jmpInd | nop => s.chip.r

theorem interrupt_data : SameData (entered s.chip.r) (post H interrupt s).chip.r := by
  constructor <;> simp [interrupt, entered]

theorem impld_data (func : InstrImpld) :
    SameData (func.regs H s) (post H func.func s).chip.r := by
  cases func <;> constructor <;>
    simp [InstrImpld.regs, counted, restored, entered, plpByte, plaByte, instrBrk, interrupt,
      Reg8.get, Reg8.set]

/-- The registers after a case of the switch. -/
def Case.regs : Case → Regs
  | .impld func => func.regs H s
  | .read name mode => name.regs (val H mode.load s) s.chip.r
  | .modify name mode => mode.regs name (val H mode.load s) s.chip.r
  | .flag f v => { s.chip.r with flags := f.set s.chip.r.flags v }
  | .transfer src dst => transferred src dst s.chip.r
  | .write .. | .branch .. | .unknown => s.chip.r

/-- **Registers.** What each case of the switch computes, on any bus. -/
theorem exec_data (c : Case) : SameData (c.regs H s) (post H c.exec s).chip.r := by
  cases c with
  | impld func => exact impld_data H s func
  | read name mode => exact readMode_data H s mode name
  | modify name mode => exact modifyMode_data H s mode name
  | write mode val => exact writeMode_data H s mode _
  | branch f v => exact instrBranch_data H s _
  | flag f v => exact instrFlag_data H s f v
  | transfer src dst => exact instrTransfer_data H s src dst
  | unknown => exact ⟨rfl, rfl, rfl, rfl, rfl⟩

end Load

/-! ### On a flat memory -/

/-- The address of the operand, as the source computes it: `p` is the address of the first
operand byte, which is itself the operand of the immediate mode. -/
def effAddr (r : Regs) (m : Mem) (p : Uint16) : AddrMode → Uint16
  | .zero => zp (m p)
  | .zerox => zp (m p) + zp r.x
  | .zeroy => zp (m p) + zp r.y
  | .abs => Reg16.ofBytes (m p) (m (p + 1))
  | .absx => Reg16.ofBytes (m p) (m (p + 1)) + zp r.x
  | .absy => Reg16.ofBytes (m p) (m (p + 1)) + zp r.y
  | .indx => Reg16.ofBytes (m (zp (m p) + zp r.x)) (m (zp (m p) + zp r.x + 1))
  | .indy => Reg16.ofBytes (m (zp (m p))) (m (zp (m p) + 1)) + zp r.y
  | .impld | .accum | .branch | .imm | .ind => p

section Flat

variable (s : Sys Cpu Mem)

theorem readMode_load (mode : ReadMode) :
    val flatMem mode.load s = s.env (effAddr s.chip.r s.env s.chip.r.pc mode.addrMode) := by
  cases mode <;> simp [ReadMode.load, ReadMode.addrMode, effAddr, zp]

theorem modifyMode_load {mode : ModifyMode} (hmode : mode ≠ .accum) :
    val flatMem mode.load s = s.env (effAddr s.chip.r s.env s.chip.r.pc mode.addrMode) := by
  cases mode with
  | accum => exact absurd rfl hmode
  | _ => simp [ModifyMode.load, ReadMode.load, ModifyMode.addrMode, effAddr, zp]

/-- A modify mode stores its result in the cell it loaded. -/
theorem modifyMode_env {mode : ModifyMode} (hmode : mode ≠ .accum) (name : InstrMod) :
    let a := effAddr s.chip.r s.env s.chip.r.pc mode.addrMode
    (post flatMem (mode.func name.func) s).env =
      Function.update s.env a (name.result (s.env a) s.chip.r) := by
  have hresult (pc : Reg16) (cycles : Uint64) (v : Uint8) :=
    name.result_eq (sameData_of_pc_cycles s.chip.r pc cycles) v
  cases mode with
  | accum => exact absurd rfl hmode
  | _ => simp [ModifyMode.addrMode, effAddr, zp, name.val_result, hresult _ _ _]

theorem writeMode_env (mode : WriteMode) (v : Uint8) :
    (post flatMem (mode.func v) s).env =
      Function.update s.env (effAddr s.chip.r s.env s.chip.r.pc mode.addrMode) v := by
  cases mode <;> simp [WriteMode.addrMode, effAddr, zp, Reg8.get]

/-- The effective address, before and after the opcode is fetched. -/
theorem effAddr_fetched (mode : AddrMode) :
    effAddr (fetched flatMem s).chip.r (fetched flatMem s).env (fetched flatMem s).chip.r.pc mode =
      effAddr s.chip.r s.env (s.chip.r.pc + 1) mode := by
  cases mode <;> rfl

theorem post_run_flat (hn : s.chip.sig.execnmi = false) (hi : s.chip.sig.execirq = false) :
    post flatMem run s =
      post flatMem (executeTab (s.env s.chip.r.pc)).exec (fetched flatMem s) :=
  post_run_instr flatMem s hn hi

end Flat

end Yanesemu.Cpu
