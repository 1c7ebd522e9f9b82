import Yanesemu.Instructions

/-!
# Decoding and running

The switch of `CPU::execute` and the entry points of `core/cpu.cpp`. Each case of the switch is
one of the four macros `INSTR_IMPLD`, `INSTR_AMODE`, `INSTR_WRITE` and `INSTR_OTHER`; `Case` has
a constructor for each use of them, `executeTab` lists the cases and `Case.exec` is what the
macros expand to.
-/

namespace Yanesemu

open Interaction

namespace Cpu

/-! ### The cases of the switch -/

/-- Instruction functions of type `InstrFuncRead`. -/
inductive InstrRead
  | lda | ldx | ldy | cmp | cpx | cpy | adc | sbc | ora | and | eor | bit
  deriving DecidableEq, Repr

/-- Instruction functions of type `InstrFuncMod`. -/
inductive InstrMod
  | inc | dec | asl | lsr | rol | ror
  deriving DecidableEq, Repr

/-- Instruction functions called directly. -/
inductive InstrImpld
  | inx | iny | dex | dey | php | pha | plp | pla | jsr | jmp | jmpInd | rts | brk | rti | nop
  deriving DecidableEq, Repr

inductive ReadMode
  | imm | zero | zerox | zeroy | abs | absx | absy | indx | indy
  deriving DecidableEq, Repr

inductive ModifyMode
  | accum | zero | zerox | abs | absx
  deriving DecidableEq, Repr

inductive WriteMode
  | zero | zerox | zeroy | abs | absx | absy | indx | indy
  deriving DecidableEq, Repr

def InstrRead.func : InstrRead → Uint8 → CpuM Unit
  | lda => instrLda
  | ldx => instrLdx
  | ldy => instrLdy
  | cmp => instrCmp
  | cpx => instrCpx
  | cpy => instrCpy
  | adc => instrAdc
  | sbc => instrSbc
  | ora => instrOra
  | and => instrAnd
  | eor => instrEor
  | bit => instrBit

def InstrMod.func : InstrMod → Uint8 → CpuM Uint8
  | inc => instrInc
  | dec => instrDec
  | asl => instrAsl
  | lsr => instrLsr
  | rol => instrRol
  | ror => instrRor

def InstrImpld.func : InstrImpld → CpuM Unit
  | inx => instrInx
  | iny => instrIny
  | dex => instrDex
  | dey => instrDey
  | php => instrPhp
  | pha => instrPha
  | plp => instrPlp
  | pla => instrPla
  | jsr => instrJsr
  | jmp => instrJmp
  | jmpInd => instrJmpInd
  | rts => instrRts
  | brk => instrBrk
  | rti => instrRti
  | nop => instrNop

def ReadMode.func : ReadMode → (Uint8 → CpuM Unit) → CpuM Unit
  | imm => addrmodeImmRead
  | zero => addrmodeZeroRead
  | zerox => addrmodeZeroxRead
  | zeroy => addrmodeZeroyRead
  | abs => addrmodeAbsRead
  | absx => addrmodeAbsxRead
  | absy => addrmodeAbsyRead
  | indx => addrmodeIndxRead
  | indy => addrmodeIndyRead

def ModifyMode.func : ModifyMode → (Uint8 → CpuM Uint8) → CpuM Unit
  | accum => addrmodeAccumModify
  | zero => addrmodeZeroModify
  | zerox => addrmodeZeroxModify
  | abs => addrmodeAbsModify
  | absx => addrmodeAbsxModify

def WriteMode.func : WriteMode → Uint8 → CpuM Unit
  | zero => addrmodeZeroWrite
  | zerox => addrmodeZeroxWrite
  | zeroy => addrmodeZeroyWrite
  | abs => addrmodeAbsWrite
  | absx => addrmodeAbsxWrite
  | absy => addrmodeAbsyWrite
  | indx => addrmodeIndxWrite
  | indy => addrmodeIndyWrite

/-- A case of the switch. -/
inductive Case
  | impld (func : InstrImpld)
  | read (name : InstrRead) (mode : ReadMode)
  | modify (name : InstrMod) (mode : ModifyMode)
  | write (mode : WriteMode) (val : Reg8)
  | branch (flag : Flag) (val : Bool)
  | flag (flag : Flag) (v : Bool)
  | transfer (src dst : Reg8)
  | unknown
  deriving DecidableEq, Repr

/-- The switch of `execute`. -/
def executeTab (instr : Uint8) : Case :=
  match instr.toNat with
  | 0x00 => .impld .brk
  | 0x01 => .read .ora .indx
  | 0x05 => .read .ora .zero
  | 0x06 => .modify .asl .zero
  | 0x08 => .impld .php
  | 0x09 => .read .ora .imm
  | 0x0A => .modify .asl .accum
  | 0x0D => .read .ora .abs
  | 0x0E => .modify .asl .abs
  | 0x10 => .branch .neg false
  | 0x11 => .read .ora .indy
  | 0x15 => .read .ora .zerox
  | 0x16 => .modify .asl .zerox
  | 0x18 => .flag .carry false
  | 0x19 => .read .ora .absy
  | 0x1D => .read .ora .absx
  | 0x1E => .modify .asl .absx
  | 0x20 => .impld .jsr
  | 0x21 => .read .and .indx
  | 0x24 => .read .bit .zero
  | 0x25 => .read .and .zero
  | 0x26 => .modify .rol .zero
  | 0x28 => .impld .plp
  | 0x29 => .read .and .imm
  | 0x2A => .modify .rol .accum
  | 0x2C => .read .bit .abs
  | 0x2D => .read .and .abs
  | 0x2E => .modify .rol .abs
  | 0x30 => .branch .neg true
  | 0x31 => .read .and .indy
  | 0x35 => .read .and .zerox
  | 0x36 => .modify .rol .zerox
  | 0x38 => .flag .carry true
  | 0x39 => .read .and .absy
  | 0x3D => .read .and .absx
  | 0x3E => .modify .rol .absx
  | 0x40 => .impld .rti
  | 0x41 => .read .eor .indx
  | 0x45 => .read .eor .zero
  | 0x46 => .modify .lsr .zero
  | 0x48 => .impld .pha
  | 0x49 => .read .eor .imm
  | 0x4A => .modify .lsr .accum
  | 0x4C => .impld .jmp
  | 0x4D => .read .eor .abs
  | 0x4E => .modify .lsr .abs
  | 0x50 => .branch .ov false
  | 0x51 => .read .eor .indy
  | 0x55 => .read .eor .zerox
  | 0x56 => .modify .lsr .zerox
  | 0x58 => .flag .intdis false
  | 0x59 => .read .eor .absy
  | 0x5D => .read .eor .absx
  | 0x5E => .modify .lsr .absx
  | 0x60 => .impld .rts
  | 0x61 => .read .adc .indx
  | 0x65 => .read .adc .zero
  | 0x66 => .modify .ror .zero
  | 0x68 => .impld .pla
  | 0x69 => .read .adc .imm
  | 0x6A => .modify .ror .accum
  | 0x6C => .impld .jmpInd
  | 0x6D => .read .adc .abs
  | 0x6E => .modify .ror .abs
  | 0x70 => .branch .ov true
  | 0x71 => .read .adc .indy
  | 0x75 => .read .adc .zerox
  | 0x76 => .modify .ror .zerox
  | 0x78 => .flag .intdis true
  | 0x79 => .read .adc .absy
  | 0x7D => .read .adc .absx
  | 0x7E => .modify .ror .absx
  | 0x81 => .write .indx .acc
  | 0x84 => .write .zero .y
  | 0x85 => .write .zero .acc
  | 0x86 => .write .zero .x
  | 0x88 => .impld .dey
  | 0x8A => .transfer .x .acc
  | 0x8C => .write .abs .y
  | 0x8D => .write .abs .acc
  | 0x8E => .write .abs .x
  | 0x90 => .branch .carry false
  | 0x91 => .write .indy .acc
  | 0x94 => .write .zerox .y
  | 0x95 => .write .zerox .acc
  | 0x96 => .write .zeroy .x
  | 0x98 => .transfer .y .acc
  | 0x99 => .write .absy .acc
  | 0x9A => .transfer .x .sp
  | 0x9D => .write .absx .acc
  | 0xA0 => .read .ldy .imm
  | 0xA1 => .read .lda .indx
  | 0xA2 => .read .ldx .imm
  | 0xA4 => .read .ldy .zero
  | 0xA5 => .read .lda .zero
  | 0xA6 => .read .ldx .zero
  | 0xA8 => .transfer .acc .y
  | 0xA9 => .read .lda .imm
  | 0xAA => .transfer .acc .x
  | 0xAC => .read .ldy .abs
  | 0xAD => .read .lda .abs
  | 0xAE => .read .ldx .abs
  | 0xB0 => .branch .carry true
  | 0xB1 => .read .lda .indy
  | 0xB4 => .read .ldy .zerox
  | 0xB5 => .read .lda .zerox
  | 0xB6 => .read .ldx .zeroy
  | 0xB8 => .flag .ov false
  | 0xB9 => .read .lda .absy
  | 0xBA => .transfer .sp .x
  | 0xBC => .read .ldy .absx
  | 0xBD => .read .lda .absx
  | 0xBE => .read .ldx .absy
  | 0xC0 => .read .cpy .imm
  | 0xC1 => .read .cmp .indx
  | 0xC4 => .read .cpy .zero
  | 0xC5 => .read .cmp .zero
  | 0xC6 => .modify .dec .zero
  | 0xC8 => .impld .iny
  | 0xC9 => .read .cmp .imm
  | 0xCA => .impld .dex
  | 0xCC => .read .cpy .abs
  | 0xCD => .read .cmp .abs
  | 0xCE => .modify .dec .abs
  | 0xD0 => .branch .zero false
  | 0xD1 => .read .cmp .indy
  | 0xD5 => .read .cmp .zerox
  | 0xD6 => .modify .dec .zerox
  | 0xD8 => .flag .decimal false
  | 0xD9 => .read .cmp .absy
  | 0xDD => .read .cmp .absx
  | 0xDE => .modify .dec .absx
  | 0xE0 => .read .cpx .imm
  | 0xE1 => .read .sbc .indx
  | 0xE4 => .read .cpx .zero
  | 0xE5 => .read .sbc .zero
  | 0xE6 => .modify .inc .zero
  | 0xE8 => .impld .inx
  | 0xE9 => .read .sbc .imm
  | 0xEA => .impld .nop
  | 0xEC => .read .cpx .abs
  | 0xED => .read .sbc .abs
  | 0xEE => .modify .inc .abs
  | 0xF0 => .branch .zero true
  | 0xF1 => .read .sbc .indy
  | 0xF5 => .read .sbc .zerox
  | 0xF6 => .modify .inc .zerox
  | 0xF8 => .flag .decimal true
  | 0xF9 => .read .sbc .absy
  | 0xFD => .read .sbc .absx
  | 0xFE => .modify .inc .absx
  | _ => .unknown

/-- What a case runs. The arguments of a branch, a write and a transfer are evaluated first. -/
def Case.exec : Case → CpuM Unit
  | impld func => func.func
  | read name mode => mode.func name.func
  | modify name mode => mode.func name.func
  | write mode val => do mode.func (val.get (← get).r)
  | branch f val => do instrBranch (f.get (← get).r.flags == val)
  | flag f v => instrFlag f v
  | transfer src dst => instrTransfer src dst
  | unknown => pure ()

def execute (instr : Uint8) : CpuM Unit := (executeTab instr).exec

/-! ### Entry points -/

def run : CpuM Unit := do
  let c ← get
  (if c.sig.execnmi then do
    cycle
    interrupt
    modify fun c => { c with sig.execnmi := false }
  else if c.sig.execirq then do
    cycle
    interrupt
    modify fun c => { c with sig.execirq := false }
  else do
    execute (← fetch))

/-- `for (uint16 i = start; i < start + n; i++) bus->write(i, 0)`. -/
def clearBus (start : Uint16) : ℕ → CpuM Unit
  | 0 => pure ()
  | n + 1 => do
    clearBus start n
    busWrite (start + BitVec.ofNat 16 n) 0

def power : CpuM Unit := do
  modify fun c => { c with r.acc := 0, r.x := 0, r.y := 0 }
  clearBus 0 0x800
  modify fun c => { c with r.flags := ProcStatus.reset }
  busWrite 0x4017 0
  busWrite 0x4015 0
  clearBus 0x4000 0x13
  -- the interrupt sequence of start-up leaves SP at $FD
  modify fun c => { c with r.sp := 0, sig.resetpending := true }
  interrupt

def reset : CpuM Unit := do
  busWrite 0x4015 0
  modify fun c => { c with sig.resetpending := true }
  interrupt

def fireIrq : CpuM Unit := modify fun c => { c with sig.irqpending := true }

def fireNmi : CpuM Unit := modify fun c => { c with sig.nmipending := true }

/-! ### What the debugger asks the CPU -/

/-- `CPU::Status`. -/
structure Status where
  regs : Regs
  id : Uint8
  op : Reg16
  deriving DecidableEq, Repr

def status : CpuM Status := do
  let r := (← get).r
  let id ← busRead r.pc
  let low ← busRead (r.pc + 1)
  let high ← busRead (r.pc + 2)
  pure ⟨r, id, Reg16.ofBytes low high⟩

/-- A little-endian word of the bus, the low byte read first. -/
def busReadWord (lo hi : Uint16) : CpuM Uint16 := do
  let low ← busRead lo
  let high ← busRead hi
  pure (Reg16.ofBytes low high)

/-- The switch of `nextaddr`. For BRK it gives the vector's own address; the stack addresses do
not wrap. -/
def nextaddrOf (c : Cpu) (id low high : Uint8) : CpuM Uint16 :=
  let op := Reg16.ofBytes low high
  match id.toNat with
  | 0x00 => pure (if c.sig.resetpending then resetVec
      else if c.sig.nmipending then nmiVec
      else irqBrkVec)
  | 0x20 => pure op
  | 0x4C => pure op
  | 0x6C => busReadWord op (if op.low == 0xFF then op &&& 0xFF00 else op + 1)
  | 0x60 => do
    let w ← busReadWord (stackAddr c.r.sp + 1) (stackAddr c.r.sp + 2)
    pure (1 + w)
  | 0x40 => busReadWord (stackAddr c.r.sp + 1) (stackAddr c.r.sp + 2)
  | _ => pure (if tookBranch id c.r.flags then branchPointer low c.r.pc
      else c.r.pc + BitVec.ofNat 16 (numBytes id))

def nextaddr : CpuM Uint16 := do
  let c ← get
  let id ← busRead c.r.pc
  let low ← busRead (c.r.pc + 1)
  let high ← busRead (c.r.pc + 2)
  nextaddrOf c id low high

end Cpu

end Yanesemu
