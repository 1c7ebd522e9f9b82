import Yanesemu.Cpu

/-!
# Addressing modes and instructions

`core/instructions.cpp`. An addressing-mode function takes an instruction function, fetches the
operand and runs it; the implied instructions are called directly. Every instruction has paid one
cycle for its opcode before any function of this file is entered.

Addresses are computed in `int` and truncated to 16 bits when they are passed on, so the sum of
an operand byte and an index register does not wrap at 256.
-/

namespace Yanesemu

open Interaction

/-- `r.flags.zero = v == 0; r.flags.neg = v & 0x80`. -/
def ProcStatus.setZN (p : ProcStatus) (v : Uint8) : ProcStatus :=
  { p with zero := v == 0, neg := truthy (v &&& 0x80) }

namespace Cpu

/-- The 8-bit registers that are passed by reference or by value. -/
inductive Reg8
  | acc | x | y | sp
  deriving DecidableEq, Repr

def Reg8.get (r : Regs) : Reg8 → Uint8
  | acc => r.acc
  | x => r.x
  | y => r.y
  | sp => r.sp

def Reg8.set (r : Regs) (v : Uint8) : Reg8 → Regs
  | acc => { r with acc := v }
  | x => { r with x := v }
  | y => { r with y := v }
  | sp => { r with sp := v }

/-- The flags that are passed by reference or tested by a branch. -/
inductive Flag
  | carry | intdis | decimal | ov | neg | zero
  deriving DecidableEq, Repr

def Flag.get (p : ProcStatus) : Flag → Bool
  | carry => p.carry
  | intdis => p.intdis
  | decimal => p.decimal
  | ov => p.ov
  | neg => p.neg
  | zero => p.zero

def Flag.set (p : ProcStatus) (b : Bool) : Flag → ProcStatus
  | carry => { p with carry := b }
  | intdis => { p with intdis := b }
  | decimal => { p with decimal := b }
  | ov => { p with ov := b }
  | neg => { p with neg := b }
  | zero => { p with zero := b }

/-- `if (b) cycle()`. -/
def cycleIf (b : Bool) : CpuM Unit := if b then cycle else pure ()

/-- `opargs.low = fetchop()`. -/
def fetchLow : CpuM Unit := do
  let v ← fetchop
  modify fun c => { c with opargs := c.opargs.setLow v }

/-- `opargs.high = fetchop()`. -/
def fetchHigh : CpuM Unit := do
  let v ← fetchop
  modify fun c => { c with opargs := c.opargs.setHigh v }

/-! ## Addressing modes: reads -/

def addrmodeImmRead (f : Uint8 → CpuM Unit) : CpuM Unit := do
  fetchLow
  f (← get).opargs.low
  lastCycle

def addrmodeZeroRead (f : Uint8 → CpuM Unit) : CpuM Unit := do
  fetchLow
  f (← readmem ((← get).opargs.low.setWidth 16))
  lastCycle

/-- The body shared by `zerox` and `zeroy`. -/
def addrmodeZeroIdxRead (idx : Reg8) (f : Uint8 → CpuM Unit) : CpuM Unit := do
  fetchLow
  let c ← get
  f (← readmem (c.opargs.low.setWidth 16 + (idx.get c.r).setWidth 16))
  cycle
  lastCycle

def addrmodeZeroxRead : (Uint8 → CpuM Unit) → CpuM Unit := addrmodeZeroIdxRead .x

def addrmodeZeroyRead : (Uint8 → CpuM Unit) → CpuM Unit := addrmodeZeroIdxRead .y

def addrmodeAbsRead (f : Uint8 → CpuM Unit) : CpuM Unit := do
  fetchLow
  fetchHigh
  f (← readmem (← get).opargs)
  lastCycle

/-- The body shared by `absx` and `absy`. `res` holds the byte that was read, so its high byte
is 0 and the extra cycle is taken exactly when the operand's high byte is not. -/
def addrmodeAbsIdxRead (idx : Reg8) (f : Uint8 → CpuM Unit) : CpuM Unit := do
  fetchLow
  fetchHigh
  let c ← get
  let res : Reg16 := (← readmem (c.opargs + (idx.get c.r).setWidth 16)).setWidth 16
  f (res.setWidth 8)
  let c ← get
  cycleIf (c.opargs.high != res.high)
  lastCycle

def addrmodeAbsxRead : (Uint8 → CpuM Unit) → CpuM Unit := addrmodeAbsIdxRead .x

def addrmodeAbsyRead : (Uint8 → CpuM Unit) → CpuM Unit := addrmodeAbsIdxRead .y

/-- The pointer of `(zp,X)`: two bytes from `low + X`. -/
def indxPointer : CpuM Reg16 := do
  fetchLow
  cycle
  let c ← get
  let low ← readmem (c.opargs.low.setWidth 16 + c.r.x.setWidth 16)
  let high ← readmem (c.opargs.low.setWidth 16 + c.r.x.setWidth 16 + 1)
  pure (Reg16.ofBytes low high)

/-- The effective address of `(zp),Y`: two bytes from `low`, plus Y. -/
def indyPointer : CpuM Reg16 := do
  fetchLow
  let c ← get
  let low ← readmem (c.opargs.low.setWidth 16)
  let high ← readmem (c.opargs.low.setWidth 16 + 1)
  pure (Reg16.ofBytes low high + c.r.y.setWidth 16)

def addrmodeIndxRead (f : Uint8 → CpuM Unit) : CpuM Unit := do
  let res ← indxPointer
  f (← readmem res)
  lastCycle

/-- `opargs.high` is what an earlier instruction left there. -/
def addrmodeIndyRead (f : Uint8 → CpuM Unit) : CpuM Unit := do
  let res ← indyPointer
  f (← readmem res)
  let c ← get
  cycleIf (c.opargs.high != res.high)
  lastCycle

/-! ## Addressing modes: read-modify-write -/

def addrmodeAccumModify (f : Uint8 → CpuM Uint8) : CpuM Unit := do
  cycle
  let v ← f (← get).r.acc
  modify fun c => { c with r.acc := v }
  lastCycle

def addrmodeZeroModify (f : Uint8 → CpuM Uint8) : CpuM Unit := do
  fetchLow
  let res ← f (← readmem ((← get).opargs.low.setWidth 16))
  -- an unmodified value is written back
  cycle
  writemem ((← get).opargs.low.setWidth 16) res
  lastCycle

def addrmodeZeroxModify (f : Uint8 → CpuM Uint8) : CpuM Unit := do
  fetchLow
  cycle
  let c ← get
  let res ← f (← readmem (c.opargs.low.setWidth 16 + c.r.x.setWidth 16))
  cycle
  let c ← get
  writemem (c.opargs.low.setWidth 16 + c.r.x.setWidth 16) res
  lastCycle

def addrmodeAbsModify (f : Uint8 → CpuM Uint8) : CpuM Unit := do
  fetchLow
  fetchHigh
  let res ← f (← readmem (← get).opargs)
  cycle
  writemem (← get).opargs res
  lastCycle

def addrmodeAbsxModify (f : Uint8 → CpuM Uint8) : CpuM Unit := do
  fetchLow
  fetchHigh
  let c ← get
  let res ← f (← readmem (c.opargs + c.r.x.setWidth 16))
  -- the effective address is read again, and written once unmodified
  cycle
  cycle
  let c ← get
  writemem (c.opargs + c.r.x.setWidth 16) res
  lastCycle

/-! ## Addressing modes: writes -/

def addrmodeZeroWrite (v : Uint8) : CpuM Unit := do
  fetchLow
  writemem ((← get).opargs.low.setWidth 16) v
  lastCycle

/-- The body shared by `zerox` and `zeroy`. -/
def addrmodeZeroIdxWrite (idx : Reg8) (v : Uint8) : CpuM Unit := do
  fetchLow
  cycle
  let c ← get
  writemem (c.opargs.low.setWidth 16 + (idx.get c.r).setWidth 16) v
  lastCycle

def addrmodeZeroxWrite : Uint8 → CpuM Unit := addrmodeZeroIdxWrite .x

def addrmodeZeroyWrite : Uint8 → CpuM Unit := addrmodeZeroIdxWrite .y

def addrmodeAbsWrite (v : Uint8) : CpuM Unit := do
  fetchLow
  fetchHigh
  writemem (← get).opargs v
  lastCycle

/-- The body shared by `absx` and `absy`. -/
def addrmodeAbsIdxWrite (idx : Reg8) (v : Uint8) : CpuM Unit := do
  fetchLow
  fetchHigh
  cycle
  let c ← get
  writemem (c.opargs + (idx.get c.r).setWidth 16) v
  lastCycle

def addrmodeAbsxWrite : Uint8 → CpuM Unit := addrmodeAbsIdxWrite .x

def addrmodeAbsyWrite : Uint8 → CpuM Unit := addrmodeAbsIdxWrite .y

def addrmodeIndxWrite (v : Uint8) : CpuM Unit := do
  let res ← indxPointer
  writemem res v
  lastCycle

def addrmodeIndyWrite (v : Uint8) : CpuM Unit := do
  let res ← indyPointer
  cycle
  writemem res v
  lastCycle

/-! ## Branches, flags and transfers -/

def instrBranch (take : Bool) : CpuM Unit := do
  lastCycle
  fetchLow
  let tmp := (← get).r.pc
  (if !take then pure ()
  else do
    cycle
    modify fun c => { c with r.pc := c.r.pc + c.opargs.low.signExtend 16 }
    lastCycle
    let c ← get
    cycleIf (tmp.high != c.r.pc.high))

def instrFlag (flag : Flag) (v : Bool) : CpuM Unit := do
  lastCycle
  cycle
  modify fun c => { c with r.flags := flag.set c.r.flags v }

def instrTransfer (src dst : Reg8) : CpuM Unit := do
  let v := src.get (← get).r
  lastCycle
  cycle
  modify fun c => { c with r := dst.set c.r v }
  modify fun c => { c with r.flags := c.r.flags.setZN v }

/-! ## Instructions on a value that was read -/

/-- The body shared by `lda`, `ldx` and `ldy`. -/
def instrLd (reg : Reg8) (v : Uint8) : CpuM Unit := do
  modify fun c => { c with r := reg.set c.r v }
  modify fun c => { c with r.flags := c.r.flags.setZN v }

def instrLda : Uint8 → CpuM Unit := instrLd .acc
def instrLdx : Uint8 → CpuM Unit := instrLd .x
def instrLdy : Uint8 → CpuM Unit := instrLd .y

/-- The body shared by `cmp`, `cpx` and `cpy`; `res` is an `int`. -/
def instrCompare (reg : Reg8) (v : Uint8) : CpuM Unit := modify fun c =>
  let res : Uint32 := (reg.get c.r).setWidth 32 - v.setWidth 32
  { c with
    r.flags.zero := res == 0
    r.flags.neg := truthy (res &&& 0x80)
    r.flags.carry := (0 : Uint32).sle res }

def instrCmp : Uint8 → CpuM Unit := instrCompare .acc
def instrCpx : Uint8 → CpuM Unit := instrCompare .x
def instrCpy : Uint8 → CpuM Unit := instrCompare .y

/-- The sum of `adc` and `sbc` with its flags; `ovArg` is the operand the V flag is computed
from. -/
def addWithCarry (c : Cpu) (v ovArg : Uint8) : Cpu :=
  let sum : Uint32 := c.r.acc.setWidth 32 + v.setWidth 32 + ofBool 32 c.r.flags.carry
  { c with
    r.flags.zero := sum.setWidth 8 == (0 : Uint8)
    r.flags.neg := truthy (sum &&& 0x80)
    r.flags.carry := (0xFF : Uint32).slt sum
    r.flags.ov := truthy ((c.r.acc.setWidth 32 ^^^ sum) &&&
      ~~~(c.r.acc.setWidth 32 ^^^ ovArg.setWidth 32) &&& 0x80)
    r.acc := sum.setWidth 8 }

def instrAdc (v : Uint8) : CpuM Unit := modify fun c => addWithCarry c v v

/-- The operand is complemented for the sum but not for the V flag. -/
def instrSbc (v : Uint8) : CpuM Unit := modify fun c => addWithCarry c (~~~v) v

/-- The body shared by `ora`, `and` and `eor`. -/
def instrLogic (op : Uint8 → Uint8 → Uint8) (v : Uint8) : CpuM Unit := modify fun c =>
  { c with r.acc := op c.r.acc v, r.flags := c.r.flags.setZN (op c.r.acc v) }

def instrOra : Uint8 → CpuM Unit := instrLogic (· ||| ·)
def instrAnd : Uint8 → CpuM Unit := instrLogic (· &&& ·)
def instrEor : Uint8 → CpuM Unit := instrLogic (· ^^^ ·)

def instrBit (v : Uint8) : CpuM Unit := modify fun c =>
  { c with
    r.flags.neg := (c.r.acc &&& v) == 0
    r.flags.zero := v == 0
    r.flags.ov := truthy (v &&& 0x40) }

/-! ## Instructions that modify a value -/

/-- Sets the flags of `v` and returns it. -/
def returnZN (v : Uint8) : CpuM Uint8 := do
  modify fun c => { c with r.flags := c.r.flags.setZN v }
  pure v

def instrInc (v : Uint8) : CpuM Uint8 := returnZN (v + 1)

def instrDec (v : Uint8) : CpuM Uint8 := returnZN (v - 1)

def instrAsl (v : Uint8) : CpuM Uint8 := do
  modify fun c => { c with r.flags.carry := truthy (v &&& 0x80) }
  returnZN (v <<< 1)

def instrLsr (v : Uint8) : CpuM Uint8 := do
  modify fun c => { c with r.flags.carry := truthy (v &&& 1) }
  returnZN (v >>> 1)

def instrRol (v : Uint8) : CpuM Uint8 := do
  let c := (← get).r.flags.carry
  modify fun c => { c with r.flags.carry := truthy (v &&& 0x80) }
  returnZN (v <<< 1 ||| ofBool 8 c)

def instrRor (v : Uint8) : CpuM Uint8 := do
  let c := (← get).r.flags.carry
  modify fun c => { c with r.flags.carry := truthy (v &&& 1) }
  returnZN (v >>> 1 ||| ofBool 8 c <<< 7)

/-! ## Implied instructions -/

/-- The body shared by `inx`, `iny`, `dex` and `dey`. -/
def instrCount (reg : Reg8) (delta : Uint8) : CpuM Unit := do
  cycle
  modify fun c => { c with r := reg.set c.r (reg.get c.r + delta) }
  modify fun c => { c with r.flags := c.r.flags.setZN (reg.get c.r) }
  lastCycle

def instrInx : CpuM Unit := instrCount .x 1
def instrIny : CpuM Unit := instrCount .y 1
def instrDex : CpuM Unit := instrCount .x (-1)
def instrDey : CpuM Unit := instrCount .y (-1)

def instrPhp : CpuM Unit := do
  cycle
  modify fun c => { c with r.flags.breakf := true }
  push (← get).r.flags.toByte
  modify fun c => { c with r.flags.breakf := false }
  lastCycle

def instrPha : CpuM Unit := do
  cycle
  push (← get).r.acc
  lastCycle

/-- The poll comes before the flags are pulled. -/
def instrPlp : CpuM Unit := do
  cycle
  cycle
  lastCycle
  let v ← pull
  modify fun c => { c with r.flags := { ProcStatus.ofByte v with breakf := false } }

def instrPla : CpuM Unit := do
  cycle
  cycle
  let v ← pull
  modify fun c => { c with r.acc := v, r.flags := c.r.flags.setZN v }
  lastCycle

def instrJsr : CpuM Unit := do
  fetchLow
  fetchHigh
  modify fun c => { c with r.pc := c.r.pc - 1 }
  cycle
  push (← get).r.pc.high
  push (← get).r.pc.low
  modify fun c => { c with r.pc := (c.r.pc.setLow c.opargs.low).setHigh c.opargs.high }
  lastCycle

def instrJmp : CpuM Unit := do
  fetchLow
  fetchHigh
  modify fun c => { c with r.pc := c.opargs }
  lastCycle

/-- With `$xxFF` as operand the high byte comes from `$xx00`. -/
def instrJmpInd : CpuM Unit := do
  fetchLow
  fetchHigh
  let op := (← get).opargs
  let lo ← readmem op
  modify fun c => { c with r.pc := c.r.pc.setLow lo }
  let hi ← readmem (if op.low == 0xFF then op &&& 0xFF00 else op + 1)
  modify fun c => { c with r.pc := c.r.pc.setHigh hi }
  lastCycle

/-- `r.pc.low = pull(); r.pc.high = pull()`. -/
def pullPc : CpuM Unit := do
  let lo ← pull
  modify fun c => { c with r.pc := c.r.pc.setLow lo }
  let hi ← pull
  modify fun c => { c with r.pc := c.r.pc.setHigh hi }

def instrRts : CpuM Unit := do
  cycle
  cycle
  pullPc
  modify fun c => { c with r.pc := c.r.pc + 1 }
  cycle
  lastCycle

def instrBrk : CpuM Unit := do
  modify fun c => { c with r.flags.breakf := true }
  interrupt

def instrRti : CpuM Unit := do
  cycle
  cycle
  let v ← pull
  modify fun c => { c with r.flags := { ProcStatus.ofByte v with breakf := false } }
  pullPc
  lastCycle

def instrNop : CpuM Unit := do
  cycle
  lastCycle

end Cpu

end Yanesemu
