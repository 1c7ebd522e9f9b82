import Yanesemu.Execute

/-!
# The instruction set of the 6502

`Operation.rows` is the manual's list of opcodes, instruction by instruction, and `manual` looks
an opcode up in it. It is written down from the manual and from neither of the two tables of the
source; `executeTab_row` says that the switch of `execute` runs, for every opcode, the operation
and the mode of the manual, and nothing for the opcodes the manual does not have.
-/

namespace Yanesemu.Cpu

/-- What an instruction does, whatever its addressing mode. -/
inductive Operation
  | read (name : InstrRead)
  | modify (name : InstrMod)
  | store (reg : Reg8)
  | branch (flag : Flag) (val : Bool)
  | flag (flag : Flag) (v : Bool)
  | transfer (src dst : Reg8)
  | impld (func : InstrImpld)
  deriving DecidableEq, Repr

/-- One instruction of the manual: its opcode in each of its modes. -/
structure ManualRow where
  op : Operation
  opcodes : List (AddrMode × ℕ)
  deriving DecidableEq, Repr

/-- The 56 instructions with their 151 opcodes; JMP has a row for each of its two modes. -/
def manualRows : List ManualRow := [
  ⟨.read .adc, [(.imm, 0x69), (.zero, 0x65), (.zerox, 0x75), (.abs, 0x6D), (.absx, 0x7D),
    (.absy, 0x79), (.indx, 0x61), (.indy, 0x71)]⟩,
  ⟨.read .and, [(.imm, 0x29), (.zero, 0x25), (.zerox, 0x35), (.abs, 0x2D), (.absx, 0x3D),
    (.absy, 0x39), (.indx, 0x21), (.indy, 0x31)]⟩,
  ⟨.modify .asl, [(.accum, 0x0A), (.zero, 0x06), (.zerox, 0x16), (.abs, 0x0E), (.absx, 0x1E)]⟩,
  ⟨.branch .carry false, [(.branch, 0x90)]⟩,
  ⟨.branch .carry true, [(.branch, 0xB0)]⟩,
  ⟨.branch .zero true, [(.branch, 0xF0)]⟩,
  ⟨.read .bit, [(.zero, 0x24), (.abs, 0x2C)]⟩,
  ⟨.branch .neg true, [(.branch, 0x30)]⟩,
  ⟨.branch .zero false, [(.branch, 0xD0)]⟩,
  ⟨.branch .neg false, [(.branch, 0x10)]⟩,
  ⟨.impld .brk, [(.impld, 0x00)]⟩,
  ⟨.branch .ov false, [(.branch, 0x50)]⟩,
  ⟨.branch .ov true, [(.branch, 0x70)]⟩,
  ⟨.flag .carry false, [(.impld, 0x18)]⟩,
  ⟨.flag .decimal false, [(.impld, 0xD8)]⟩,
  ⟨.flag .intdis false, [(.impld, 0x58)]⟩,
  ⟨.flag .ov false, [(.impld, 0xB8)]⟩,
  ⟨.read .cmp, [(.imm, 0xC9), (.zero, 0xC5), (.zerox, 0xD5), (.abs, 0xCD), (.absx, 0xDD),
    (.absy, 0xD9), (.indx, 0xC1), (.indy, 0xD1)]⟩,
  ⟨.read .cpx, [(.imm, 0xE0), (.zero, 0xE4), (.abs, 0xEC)]⟩,
  ⟨.read .cpy, [(.imm, 0xC0), (.zero, 0xC4), (.abs, 0xCC)]⟩,
  ⟨.modify .dec, [(.zero, 0xC6), (.zerox, 0xD6), (.abs, 0xCE), (.absx, 0xDE)]⟩,
  ⟨.impld .dex, [(.impld, 0xCA)]⟩,
  ⟨.impld .dey, [(.impld, 0x88)]⟩,
  ⟨.read .eor, [(.imm, 0x49), (.zero, 0x45), (.zerox, 0x55), (.abs, 0x4D), (.absx, 0x5D),
    (.absy, 0x59), (.indx, 0x41), (.indy, 0x51)]⟩,
  ⟨.modify .inc, [(.zero, 0xE6), (.zerox, 0xF6), (.abs, 0xEE), (.absx, 0xFE)]⟩,
  ⟨.impld .inx, [(.impld, 0xE8)]⟩,
  ⟨.impld .iny, [(.impld, 0xC8)]⟩,
  ⟨.impld .jmp, [(.abs, 0x4C)]⟩,
  ⟨.impld .jmpInd, [(.ind, 0x6C)]⟩,
  ⟨.impld .jsr, [(.abs, 0x20)]⟩,
  ⟨.read .lda, [(.imm, 0xA9), (.zero, 0xA5), (.zerox, 0xB5), (.abs, 0xAD), (.absx, 0xBD),
    (.absy, 0xB9), (.indx, 0xA1), (.indy, 0xB1)]⟩,
  ⟨.read .ldx, [(.imm, 0xA2), (.zero, 0xA6), (.zeroy, 0xB6), (.abs, 0xAE), (.absy, 0xBE)]⟩,
  ⟨.read .ldy, [(.imm, 0xA0), (.zero, 0xA4), (.zerox, 0xB4), (.abs, 0xAC), (.absx, 0xBC)]⟩,
  ⟨.modify .lsr, [(.accum, 0x4A), (.zero, 0x46), (.zerox, 0x56), (.abs, 0x4E), (.absx, 0x5E)]⟩,
  ⟨.impld .nop, [(.impld, 0xEA)]⟩,
  ⟨.read .ora, [(.imm, 0x09), (.zero, 0x05), (.zerox, 0x15), (.abs, 0x0D), (.absx, 0x1D),
    (.absy, 0x19), (.indx, 0x01), (.indy, 0x11)]⟩,
  ⟨.impld .pha, [(.impld, 0x48)]⟩,
  ⟨.impld .php, [(.impld, 0x08)]⟩,
  ⟨.impld .pla, [(.impld, 0x68)]⟩,
  ⟨.impld .plp, [(.impld, 0x28)]⟩,
  ⟨.modify .rol, [(.accum, 0x2A), (.zero, 0x26), (.zerox, 0x36), (.abs, 0x2E), (.absx, 0x3E)]⟩,
  ⟨.modify .ror, [(.accum, 0x6A), (.zero, 0x66), (.zerox, 0x76), (.abs, 0x6E), (.absx, 0x7E)]⟩,
  ⟨.impld .rti, [(.impld, 0x40)]⟩,
  ⟨.impld .rts, [(.impld, 0x60)]⟩,
  ⟨.read .sbc, [(.imm, 0xE9), (.zero, 0xE5), (.zerox, 0xF5), (.abs, 0xED), (.absx, 0xFD),
    (.absy, 0xF9), (.indx, 0xE1), (.indy, 0xF1)]⟩,
  ⟨.flag .carry true, [(.impld, 0x38)]⟩,
  ⟨.flag .decimal true, [(.impld, 0xF8)]⟩,
  ⟨.flag .intdis true, [(.impld, 0x78)]⟩,
  ⟨.store .acc, [(.zero, 0x85), (.zerox, 0x95), (.abs, 0x8D), (.absx, 0x9D), (.absy, 0x99),
    (.indx, 0x81), (.indy, 0x91)]⟩,
  ⟨.store .x, [(.zero, 0x86), (.zeroy, 0x96), (.abs, 0x8E)]⟩,
  ⟨.store .y, [(.zero, 0x84), (.zerox, 0x94), (.abs, 0x8C)]⟩,
  ⟨.transfer .acc .x, [(.impld, 0xAA)]⟩,
  ⟨.transfer .acc .y, [(.impld, 0xA8)]⟩,
  ⟨.transfer .sp .x, [(.impld, 0xBA)]⟩,
  ⟨.transfer .x .acc, [(.impld, 0x8A)]⟩,
  ⟨.transfer .x .sp, [(.impld, 0x9A)]⟩,
  ⟨.transfer .y .acc, [(.impld, 0x98)]⟩]

/-- The operation and the mode of an opcode; the other 105 are undocumented. -/
def manual (id : Uint8) : Option (Operation × AddrMode) :=
  manualRows.findSome? fun row =>
    (row.opcodes.find? fun p => p.2 == id.toNat).map fun p => (row.op, p.1)

example : (manualRows.map fun row => row.opcodes.length).sum = 151 := by decide

/-! ### The switch against the manual -/

def ReadMode.addrMode : ReadMode → AddrMode
  | imm => .imm
  | zero => .zero
  | zerox => .zerox
  | zeroy => .zeroy
  | abs => .abs
  | absx => .absx
  | absy => .absy
  | indx => .indx
  | indy => .indy

def ModifyMode.addrMode : ModifyMode → AddrMode
  | accum => .accum
  | zero => .zero
  | zerox => .zerox
  | abs => .abs
  | absx => .absx

def WriteMode.addrMode : WriteMode → AddrMode
  | zero => .zero
  | zerox => .zerox
  | zeroy => .zeroy
  | abs => .abs
  | absx => .absx
  | absy => .absy
  | indx => .indx
  | indy => .indy

/-- The mode a directly called function has in the manual. -/
def InstrImpld.addrMode : InstrImpld → AddrMode
  | jsr | jmp => .abs
  | jmpInd => .ind
  | _ => .impld

/-- The operation and the mode a case of the switch runs. -/
def Case.row : Case → Option (Operation × AddrMode)
  | .impld func => some (.impld func, func.addrMode)
  | .read name mode => some (.read name, mode.addrMode)
  | .modify name mode => some (.modify name, mode.addrMode)
  | .write mode val => some (.store val, mode.addrMode)
  | .branch f v => some (.branch f v, .branch)
  | .flag f v => some (.flag f v, .impld)
  | .transfer src dst => some (.transfer src dst, .impld)
  | .unknown => none

theorem ReadMode.addrMode_injective : Function.Injective ReadMode.addrMode := by
  intro a b h
  cases a <;> cases b <;> first | rfl | cases h

theorem ModifyMode.addrMode_injective : Function.Injective ModifyMode.addrMode := by
  intro a b h
  cases a <;> cases b <;> first | rfl | cases h

theorem WriteMode.addrMode_injective : Function.Injective WriteMode.addrMode := by
  intro a b h
  cases a <;> cases b <;> first | rfl | cases h

/-- An operation in a mode is one case of the switch. -/
theorem Case.row_injective : Function.Injective Case.row := by
  intro c c' h
  cases c <;> cases c' <;>
    simp_all [Case.row, ReadMode.addrMode_injective.eq_iff, ModifyMode.addrMode_injective.eq_iff,
      WriteMode.addrMode_injective.eq_iff]

/-- **Decoding.** The switch runs what the manual says, for every opcode. -/
theorem executeTab_row : ∀ id : Uint8, (executeTab id).row = manual id := by
  decide +kernel

/-- What the manual has for an opcode is the case of the switch. -/
theorem executeTab_of_manual {id : Uint8} {c : Case} (h : manual id = c.row) :
    executeTab id = c := Case.row_injective ((executeTab_row id).trans h)

end Yanesemu.Cpu
