import Yanesemu.Bits

/-!
# Instruction tables

`core/instrinfo.hpp` and `core/instrinfo.cpp`: the processor status, the table `INSTR_MODE` the
disassembler and the debugger work from, the lengths read off it, and the branch helpers.
-/

namespace Yanesemu

/-! ### `ProcStatus` -/

structure ProcStatus where
  carry : Bool := false
  zero : Bool := false
  intdis : Bool := false
  decimal : Bool := false
  breakf : Bool := false
  unused : Bool := true
  ov : Bool := false
  neg : Bool := false
  deriving DecidableEq, Repr

namespace ProcStatus

/-- `operator uint8`. -/
def toByte (p : ProcStatus) : Uint8 :=
  ofBool 8 p.carry ||| ofBool 8 p.zero <<< 1 ||| ofBool 8 p.intdis <<< 2 |||
    ofBool 8 p.decimal <<< 3 ||| ofBool 8 p.breakf <<< 4 ||| ofBool 8 p.unused <<< 5 |||
    ofBool 8 p.ov <<< 6 ||| ofBool 8 p.neg <<< 7

/-- `operator=(const uint8)`. -/
def ofByte (data : Uint8) : ProcStatus where
  carry := truthy (data &&& 0x01)
  zero := truthy (data &&& 0x02)
  intdis := truthy (data &&& 0x04)
  decimal := truthy (data &&& 0x08)
  breakf := truthy (data &&& 0x10)
  unused := truthy (data &&& 0x20)
  ov := truthy (data &&& 0x40)
  neg := truthy (data &&& 0x80)

/-- `reset()`: the default member values. -/
def reset : ProcStatus := {}

/-- A byte survives the way through the flags. -/
theorem toByte_ofByte (data : Uint8) : (ofByte data).toByte = data := by
  revert data; decide

theorem ofByte_toByte (p : ProcStatus) : ofByte p.toByte = p := by
  rcases p with ⟨c, z, i, d, b, u, o, n⟩
  revert c z i d b u o n; decide

end ProcStatus

/-! ### `INSTR_MODE` -/

inductive Mnemonic
  | adc | and | asl | bcc | bcs | beq | bit | bmi | bne | bpl | brk | bvc | bvs | clc | cld
  | cli | clv | cmp | cpx | cpy | dec | dex | dey | eor | inc | inx | iny | jmp | jsr
  | lda | ldx | ldy | lsr | nop | ora | pha | php | pla | plp | rol | ror | rti | rts | sbc
  | sec | sei | sta | stx | sty | tax | tay | tsx | txa | txs | tya
  deriving DecidableEq, Repr

/-- The addressing modes the table tells apart. -/
inductive AddrMode
  | impld | accum | branch | imm | zero | zerox | zeroy | indx | indy | abs | absx | absy | ind
  deriving DecidableEq, Repr

/-- The rows `X(id, name, mode)`. The row of `0xF8` is missing in the source. -/
def instrMode (id : Uint8) : Option (Mnemonic × AddrMode) :=
  match id.toNat with
  | 0x00 => some (.brk, .impld)
  | 0x01 => some (.ora, .indx)
  | 0x05 => some (.ora, .zero)
  | 0x06 => some (.asl, .zero)
  | 0x08 => some (.php, .impld)
  | 0x09 => some (.ora, .imm)
  | 0x0A => some (.asl, .accum)
  | 0x0D => some (.ora, .abs)
  | 0x0E => some (.asl, .abs)
  | 0x10 => some (.bpl, .branch)
  | 0x11 => some (.ora, .indy)
  | 0x15 => some (.ora, .zerox)
  | 0x16 => some (.asl, .zerox)
  | 0x18 => some (.clc, .impld)
  | 0x19 => some (.ora, .absy)
  | 0x1D => some (.ora, .absx)
  | 0x1E => some (.asl, .absx)
  | 0x20 => some (.jsr, .abs)
  | 0x21 => some (.and, .indx)
  | 0x24 => some (.bit, .zero)
  | 0x25 => some (.and, .zero)
  | 0x26 => some (.rol, .zero)
  | 0x28 => some (.plp, .impld)
  | 0x29 => some (.and, .imm)
  | 0x2A => some (.rol, .accum)
  | 0x2C => some (.bit, .abs)
  | 0x2D => some (.and, .abs)
  | 0x2E => some (.rol, .abs)
  | 0x30 => some (.bmi, .branch)
  | 0x31 => some (.and, .indy)
  | 0x35 => some (.and, .zerox)
  | 0x36 => some (.rol, .zerox)
  | 0x38 => some (.sec, .impld)
  | 0x39 => some (.and, .absy)
  | 0x3D => some (.and, .absx)
  | 0x3E => some (.rol, .absx)
  | 0x40 => some (.rti, .impld)
  | 0x41 => some (.eor, .indx)
  | 0x45 => some (.eor, .zero)
  | 0x46 => some (.lsr, .zero)
  | 0x48 => some (.pha, .impld)
  | 0x49 => some (.eor, .imm)
  | 0x4A => some (.lsr, .accum)
  | 0x4C => some (.jmp, .abs)
  | 0x4D => some (.eor, .abs)
  | 0x4E => some (.lsr, .abs)
  | 0x50 => some (.bvc, .branch)
  | 0x51 => some (.eor, .indy)
  | 0x55 => some (.eor, .zerox)
  | 0x56 => some (.lsr, .zerox)
  | 0x58 => some (.cli, .impld)
  | 0x59 => some (.eor, .absy)
  | 0x5D => some (.eor, .absx)
  | 0x5E => some (.lsr, .absx)
  | 0x60 => some (.rts, .impld)
  | 0x61 => some (.adc, .indx)
  | 0x65 => some (.adc, .zero)
  | 0x66 => some (.ror, .zero)
  | 0x68 => some (.pla, .impld)
  | 0x69 => some (.adc, .imm)
  | 0x6A => some (.ror, .accum)
  | 0x6C => some (.jmp, .ind)
  | 0x6D => some (.adc, .abs)
  | 0x6E => some (.ror, .abs)
  | 0x70 => some (.bvs, .branch)
  | 0x71 => some (.adc, .indy)
  | 0x75 => some (.adc, .zerox)
  | 0x76 => some (.ror, .zerox)
  | 0x78 => some (.sei, .impld)
  | 0x79 => some (.adc, .absy)
  | 0x7D => some (.adc, .absx)
  | 0x7E => some (.ror, .absx)
  | 0x81 => some (.sta, .indx)
  | 0x84 => some (.sty, .zero)
  | 0x85 => some (.sta, .zero)
  | 0x86 => some (.stx, .zero)
  | 0x88 => some (.dey, .impld)
  | 0x8A => some (.txa, .impld)
  | 0x8C => some (.sty, .abs)
  | 0x8D => some (.sta, .abs)
  | 0x8E => some (.stx, .abs)
  | 0x90 => some (.bcc, .branch)
  | 0x91 => some (.sta, .indy)
  | 0x94 => some (.sta, .zerox)
  | 0x95 => some (.sta, .zerox)
  | 0x96 => some (.stx, .zeroy)
  | 0x98 => some (.tya, .impld)
  | 0x99 => some (.sta, .absy)
  | 0x9A => some (.txs, .impld)
  | 0x9D => some (.sta, .absx)
  | 0xA0 => some (.ldy, .imm)
  | 0xA1 => some (.lda, .indx)
  | 0xA2 => some (.ldx, .imm)
  | 0xA4 => some (.ldy, .zero)
  | 0xA5 => some (.lda, .zero)
  | 0xA6 => some (.ldx, .zero)
  | 0xA8 => some (.tay, .impld)
  | 0xA9 => some (.lda, .imm)
  | 0xAA => some (.tax, .impld)
  | 0xAC => some (.ldy, .abs)
  | 0xAD => some (.lda, .abs)
  | 0xAE => some (.ldx, .abs)
  | 0xB0 => some (.bcs, .branch)
  | 0xB1 => some (.lda, .indy)
  | 0xB4 => some (.ldy, .zerox)
  | 0xB5 => some (.lda, .zerox)
  | 0xB6 => some (.ldx, .zeroy)
  | 0xB8 => some (.clv, .impld)
  | 0xB9 => some (.lda, .absy)
  | 0xBA => some (.tsx, .impld)
  | 0xBC => some (.ldy, .absx)
  | 0xBD => some (.lda, .absx)
  | 0xBE => some (.ldx, .absy)
  | 0xC0 => some (.cpy, .imm)
  | 0xC1 => some (.cmp, .indx)
  | 0xC4 => some (.cpy, .zero)
  | 0xC5 => some (.cmp, .zero)
  | 0xC6 => some (.dec, .zero)
  | 0xC8 => some (.iny, .impld)
  | 0xC9 => some (.cmp, .imm)
  | 0xCA => some (.dex, .impld)
  | 0xCC => some (.cpy, .abs)
  | 0xCD => some (.cmp, .abs)
  | 0xCE => some (.dec, .abs)
  | 0xD0 => some (.bne, .branch)
  | 0xD1 => some (.cmp, .indy)
  | 0xD5 => some (.cmp, .zerox)
  | 0xD6 => some (.dec, .zerox)
  | 0xD8 => some (.cld, .impld)
  | 0xD9 => some (.cmp, .absy)
  | 0xDD => some (.cmp, .absx)
  | 0xDE => some (.dec, .absx)
  | 0xE0 => some (.cpx, .imm)
  | 0xE1 => some (.sbc, .indx)
  | 0xE4 => some (.cpx, .zero)
  | 0xE5 => some (.sbc, .zero)
  | 0xE6 => some (.inc, .zero)
  | 0xE8 => some (.inx, .impld)
  | 0xE9 => some (.sbc, .imm)
  | 0xEA => some (.nop, .impld)
  | 0xEC => some (.cpx, .abs)
  | 0xED => some (.sbc, .abs)
  | 0xEE => some (.inc, .abs)
  | 0xF0 => some (.beq, .branch)
  | 0xF1 => some (.sbc, .indy)
  | 0xF5 => some (.sbc, .zerox)
  | 0xF6 => some (.inc, .zerox)
  | 0xF9 => some (.sbc, .absy)
  | 0xFD => some (.sbc, .absx)
  | 0xFE => some (.inc, .absx)
  | _ => none

/-- The constants `nb_*` of `num_bytes`. -/
def AddrMode.numBytes : AddrMode → ℕ
  | .impld | .accum => 1
  | .branch | .imm | .zero | .zerox | .zeroy | .indx | .indy => 2
  | .abs | .absx | .absy | .ind => 3

def numBytes (id : Uint8) : ℕ :=
  match instrMode id with
  | some (_, mode) => mode.numBytes
  | none => 1

/-! ### Branches and jumps -/

def tookBranch (instr : Uint8) (ps : ProcStatus) : Bool :=
  match instr.toNat with
  | 0x10 => ps.neg == false
  | 0x30 => ps.neg == true
  | 0x50 => ps.ov == false
  | 0x70 => ps.ov == true
  | 0x90 => ps.carry == false
  | 0xB0 => ps.carry == true
  | 0xD0 => ps.zero == false
  | 0xF0 => ps.zero == true
  | _ => false

def branchPointer (branchArg : Uint8) (pc : Uint16) : Uint16 :=
  pc + 2 + branchArg.signExtend 16

def isJump (instr : Uint8) : Bool := instr == 0x20 || instr == 0x4C || instr == 0x6C

end Yanesemu
