import Yanesemu.Lib.Program
import Yanesemu.InstrInfo

/-!
# The CPU and its memory accesses

The state of `core/cpu.hpp` and the part of `core/cpu.cpp` every instruction is built from: the
fetches, `readmem` and `writemem`, the stack, the interrupt polls and `interrupt`.

The CPU reaches the rest of the machine in three ways, the operations of `cpuSig`: a read and a
write of its bus, and the fetch callback the debugger installs. The RAM array the source keeps in
the class is reached through the bus only, so it belongs to the environment here.
-/

namespace Yanesemu

open Interaction

/-! ### Constants of `core/const.hpp` -/

def nmiVec : Uint16 := 0xFFFA
def resetVec : Uint16 := 0xFFFC
def irqBrkVec : Uint16 := 0xFFFE
def stackBase : Uint16 := 0x0100

/-! ### State -/

/-- `CPU::Regs`. -/
structure Regs where
  pc : Reg16 := 0
  acc : Uint8 := 0
  x : Uint8 := 0
  y : Uint8 := 0
  sp : Uint8 := 0
  flags : ProcStatus := {}
  cycles : Uint64 := 0
  deriving DecidableEq, Repr

/-- The arm of the vector choice in `interrupt` that was taken. -/
inductive Entry
  | reset | nmi | irq | default
  deriving DecidableEq, Repr

/-- The interrupt signals. `entries` is not in the source: it records the arms `interrupt` has
taken, newest first, and nothing reads it. -/
structure Signals where
  nmipending : Bool := false
  irqpending : Bool := false
  resetpending : Bool := false
  execnmi : Bool := false
  execirq : Bool := false
  entries : List Entry := []
  deriving DecidableEq, Repr

structure Cpu where
  r : Regs := {}
  sig : Signals := {}
  /-- The scratch register of `instructions.cpp`. -/
  opargs : Reg16 := 0
  deriving DecidableEq, Repr

/-- The `char` the fetch callback is told: an opcode fetch, a read or a write. -/
inductive AccessMode
  | x | r | w
  deriving DecidableEq, Repr

/-! ### Interrupt signals -/

/-- `nmipoll` on the signals. -/
def Signals.nmipoll (i : Signals) : Signals :=
  if !i.execnmi && i.nmipending then { i with execnmi := true } else i

/-- `irqpoll` on the signals, with the I flag. -/
def Signals.irqpoll (intdis : Bool) (i : Signals) : Signals :=
  if !i.execirq && !intdis && i.irqpending then { i with execirq := true } else i

/-- The arm of `interrupt`'s vector choice. The first pending signal in the order reset, NMI, IRQ
is cleared; with none pending (a plain BRK) the last arm is taken. -/
def Signals.entry (i : Signals) : Entry :=
  if i.resetpending then .reset
  else if i.nmipending then .nmi
  else if i.irqpending then .irq
  else .default

/-- The vector of each arm. -/
def Entry.vec : Entry → Uint16
  | .reset => resetVec
  | .nmi => nmiVec
  | .irq => irqBrkVec
  | .default => irqBrkVec

/-- The signals after the vector choice. -/
def Signals.enter (i : Signals) : Signals :=
  match i.entry with
  | .reset => { i with resetpending := false, entries := .reset :: i.entries }
  | .nmi => { i with nmipending := false, entries := .nmi :: i.entries }
  | .irq => { i with irqpending := false, entries := .irq :: i.entries }
  | .default => { i with entries := .default :: i.entries }

/-! ### The environment -/

/-- What the CPU asks for. A fetch callback sees the CPU as it is at the call. -/
inductive CpuOp
  | read (addr : Uint16)
  | write (addr : Uint16) (data : Uint8)
  | fetchCallback (cpu : Cpu) (addr : Uint16) (mode : AccessMode)

abbrev CpuOp.Ans : CpuOp → Type
  | read _ => Uint8
  | write _ _ => Unit
  | fetchCallback _ _ _ => Unit

abbrev cpuSig : Sig := ⟨CpuOp, CpuOp.Ans⟩

abbrev CpuM : Type → Type := ChipM cpuSig Cpu

namespace Cpu

def busRead (addr : Uint16) : CpuM Uint8 := ask (E := cpuSig) (.read addr)

def busWrite (addr : Uint16) (data : Uint8) : CpuM Unit := ask (E := cpuSig) (.write addr data)

/-- `if (fetch_callback) fetch_callback(status(), addr, mode)`. Whether a callback is set and what
it does with the status is up to the environment. -/
def fetchCallback (addr : Uint16) (mode : AccessMode) : CpuM Unit := do
  ask (E := cpuSig) (.fetchCallback (← get) addr mode)

/-! ### Cycles and memory accesses -/

def cycle : CpuM Unit := modify fun c => { c with r.cycles := c.r.cycles + 1 }

def fetch : CpuM Uint8 := do
  let pc := (← get).r.pc
  fetchCallback pc .x
  cycle
  modify fun c => { c with r.pc := c.r.pc + 1 }
  busRead pc

def fetchop : CpuM Uint8 := do
  cycle
  let pc := (← get).r.pc
  modify fun c => { c with r.pc := c.r.pc + 1 }
  busRead pc

def readmem (addr : Uint16) : CpuM Uint8 := do
  fetchCallback addr .r
  cycle
  busRead addr

def writemem (addr : Uint16) (data : Uint8) : CpuM Unit := do
  fetchCallback addr .w
  cycle
  busWrite addr data

/-- The address `r.sp + STACK_BASE`. -/
def stackAddr (sp : Uint8) : Uint16 := sp.setWidth 16 + stackBase

def push (v : Uint8) : CpuM Unit := do
  writemem (stackAddr (← get).r.sp) v
  modify fun c => { c with r.sp := c.r.sp - 1 }

def pull : CpuM Uint8 := do
  modify fun c => { c with r.sp := c.r.sp + 1 }
  readmem (stackAddr (← get).r.sp)

/-! ### Polling -/

def nmipoll : CpuM Unit := modify fun c => { c with sig := c.sig.nmipoll }

def irqpoll : CpuM Unit := modify fun c => { c with sig := c.sig.irqpoll c.r.flags.intdis }

/-- Polls for interrupts; takes no cycle. -/
def lastCycle : CpuM Unit := do
  nmipoll
  irqpoll

/-! ### Interrupts -/

def interrupt : CpuM Unit := do
  -- the next instruction byte is read and thrown away
  cycle
  push (← get).r.pc.high
  push (← get).r.pc.low
  push (← get).r.flags.toByte
  modify fun c => { c with r.flags.breakf := false, r.flags.intdis := true }
  let vec := (← get).sig.entry.vec
  modify fun c => { c with sig := c.sig.enter }
  let lo ← readmem vec
  modify fun c => { c with r.pc := c.r.pc.setLow lo }
  let hi ← readmem (vec + 1)
  modify fun c => { c with r.pc := c.r.pc.setHigh hi }

end Cpu

end Yanesemu
