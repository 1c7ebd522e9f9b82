import Yanesemu.BusMap

/-!
# The command line debugger

The functions of `core/debugger.cpp` that look at the machine, and the commands of
`core/clidbg.cpp` that call them, with `disassemble_block` of `core/instrinfo.hpp`. The texts are
left out: a printed line is what it is made of. The other commands are not here; they set the
debugger's own state or let the machine go on.
-/

namespace Yanesemu

open Interaction EventRun

/-! ### The debugger -/

namespace Debugger

def read (addr : Uint16) (e : Emulator) : Uint8 × Emulator :=
  if 0x2000 ≤ addr.toNat ∧ addr.toNat ≤ 0x2007 then e.onPpu (Ppu.readregNoSideeff addr)
  else e.ramRead addr

def cpuStatus (e : Emulator) : Cpu.Status × Emulator := e.onCpu Cpu.status

def ppuStatus (e : Emulator) : Ppu.Status × Emulator := e.onPpu Ppu.status

end Debugger

/-! ### Commands -/

section Commands

variable {σ : Type} (readval : Uint16 → σ → Uint8 × σ)

/-- The variable of `disassemble_block` and what it has processed: the address and the bytes of
each instruction. -/
structure Disassembly (σ : Type) where
  start : Uint16
  lines : List (Uint16 × Uint8 × Uint8 × Uint8)
  env : σ

/-- The body of the loop of `disassemble_block`. -/
def disassembleNext (d : Disassembly σ) : Disassembly σ :=
  let id := readval d.start d.env
  let low := readval (d.start + 1) id.2
  let high := readval (d.start + 2) low.2
  { start := d.start + BitVec.ofNat 16 (numBytes id.1)
    lines := d.lines ++ [(d.start, id.1, low.1, high.1)]
    env := high.2 }

/-- `disassemble_block`, given up after `fuel` rounds. -/
def disassembleBlock (start last : Uint16) (fuel : ℕ) (e : σ) : Option (Disassembly σ) :=
  whileLoop (fun d => decide (d.start.toNat ≤ last.toNat)) (disassembleNext readval) fuel
    ⟨start, [], e⟩

/-- The variable of the outer loop of `print_block` and what it has printed: the address of each
line and its bytes. -/
structure Printout (σ : Type) where
  i : Uint16
  lines : List (ℕ × List Uint8)
  env : σ

/-- The inner loop of `print_block`, with `n` of the sixteen columns to go. -/
def printColumns (start last : Uint16) : ℕ → Uint16 → σ → (Uint16 × List Uint8) × σ
  | 0, i, e => ((i, []), e)
  | n + 1, i, e =>
    if i.toNat + start.toNat < last.toNat then
      let val := readval (i + start) e
      let rest := printColumns start last n (i + 1) val.2
      ((rest.1.1, val.1 :: rest.1.2), rest.2)
    else ((i, []), e)

def printLine (start last : Uint16) (p : Printout σ) : Printout σ :=
  let columns := printColumns readval start last 16 p.i p.env
  { i := columns.1.1
    lines := p.lines ++ [(p.i.toNat + start.toNat, columns.1.2)]
    env := columns.2 }

/-- `print_block`, given up after `fuel` lines. -/
def printBlock (start last : Uint16) (fuel : ℕ) (e : σ) : Option (Printout σ) :=
  whileLoop (fun p => decide (p.i.toNat < last.toNat - start.toNat)) (printLine readval start last)
    fuel ⟨0, [], e⟩

end Commands

/-- The commands that inspect the machine, with their arguments as `strconv` gives them. -/
inductive Command
  | status (ppu : Bool)
  | readAddr (addr : Option Uint16)
  | block (start last : Option Uint16)
  | disblock (start last : Option Uint16)
  deriving DecidableEq, Repr

/-- The machine after `exec_command`, without the texts printed. The loops of the commands are
given up after `fuel` rounds. -/
def execCommand (fuel : ℕ) (e : Emulator) : Command → Option Emulator
  | .status true => some (Debugger.ppuStatus e).2
  | .status false => some (Debugger.cpuStatus e).2
  | .readAddr (some addr) => some (Debugger.read addr e).2
  | .readAddr none => some e
  | .block (some start) (some last) =>
    if last.toNat ≤ start.toNat then some e
    else (printBlock Debugger.read start last fuel e).map Printout.env
  | .block _ _ => some e
  | .disblock (some start) (some last) =>
    if last.toNat ≤ start.toNat then some e
    else (disassembleBlock Debugger.read start last fuel e).map Disassembly.env
  | .disblock _ _ => some e

end Yanesemu
