import Yanesemu.Lib.Run
import Yanesemu.Cartridge
import Yanesemu.Debugger
import Yanesemu.PpuMain

/-!
# The emulator

`core/emulator.hpp` and `core/emulator.cpp`, with the `attach_bus` functions of the CPU and the
PPU and `PPU::set_mirroring`, which say what is on the two buses. No debugger is enabled.

A chip that runs is taken out of the emulator: its program is run on the emulator as its
environment, and the copy of the chip left in there is not looked at before the chip is put back
(`onCpu`, `onPpu`). Only `PPU::run` calls the NMI callback, and the CPU does not run then, so the
callback finds the CPU in its place.
-/

namespace Yanesemu

open Interaction EventRun

/-! ### What is on the buses -/

/-- `CPU::attach_bus`. -/
def Cpu.attachBus (rambus : RamBus) : RamBus :=
  (rambus.map 0x0000 0x2000 .ram .ram).map 0x4000 0x4020 .apu .apu

/-- `PPU::attach_bus`, on the RAM bus and the VRAM bus. -/
def Ppu.attachBus (b : RamBus × VramBus) : RamBus × VramBus :=
  (b.1.map 0x2000 0x4000 .ppuReg .ppuReg,
    (b.2.map 0x3F00 0x4000 .palette .palette).map 0x2000 0x3F00 .empty .empty)

/-- `PPU::set_mirroring`. The assertion that the mode is one of the two known fails for
`OTHER`, which ends the program. -/
def Ppu.setMirroring (mirroring : Mirroring) (vrambus : VramBus) : VramBus :=
  match mirroring with
  | .other => vrambus
  | _ => vrambus.remap 0x2000 0x3F00 (.nametable mirroring) (.nametable mirroring)

/-- The function `decode` of `set_mirroring`. -/
def Mirroring.decode (mirroring : Mirroring) (addr : Uint16) : Uint16 :=
  match mirroring with
  | .horz =>
    let tmp : Uint64 := (addr &&& 0xFFF).setWidth 64
    let bits := Util.getbits tmp 10 2 >>> 1
    (Util.setbits tmp 10 2 bits).setWidth 16
  | .vert => addr &&& 0x7FF
  -- not installed
  | .other => addr

/-! ### State -/

/-- The arrays of the two chips are here, as the chips reach them through their buses. `vblanks`
and `undefined` are not in the source: the number of times the NMI callback was called, which is
what `vblank_begin` does each time, and the results the compiled program has for shifts C++ does
not define. -/
structure Emulator where
  cpu : Cpu
  ppu : Ppu
  rammem : ℕ → Uint8
  vrammem : ℕ → Uint8
  palmem : ℕ → Uint8
  cartridge : Cartridge
  rambus : RamBus
  vrambus : VramBus
  debugger : Debugger
  cycle : Uint32
  nmi : Bool
  vblanks : ℕ
  undefined : ℤ → Uint8

/-- What the memory of a new emulator holds where nothing is initialized. -/
structure Fresh where
  ppu : Ppu
  rammem : ℕ → Uint8
  vrammem : ℕ → Uint8
  palmem : ℕ → Uint8
  cartridge : Cartridge
  rambus : RamBus
  vrambus : VramBus
  ramLookup : ℕ → ℕ
  vramLookup : ℕ → ℕ
  undefined : ℤ → Uint8

namespace Emulator

/-! ### The PPU's bus -/

def readVram (e : Emulator) (addr : Uint16) : VramArea → Uint8
  | .chrrom => e.cartridge.readChrrom addr
  | .empty => 0
  | .nametable mirroring => e.vrammem (mirroring.decode addr).toNat
  | .palette => e.palmem (addr &&& 0x1F).toNat

def writeVram (e : Emulator) (addr : Uint16) (data : Uint8) : VramArea → Emulator
  | .chrrom => e
  | .empty => e
  | .nametable mirroring =>
    { e with vrammem := Function.update e.vrammem (mirroring.decode addr).toNat data }
  | .palette => { e with palmem := Function.update e.palmem (addr &&& 0x1F).toNat data }

/-- The callback the constructor sets, with `cpu.fire_nmi()`. -/
def nmiCallback (e : Emulator) : Emulator :=
  { e with nmi := true, cpu.sig.nmipending := true, vblanks := e.vblanks + 1 }

/-- The first `n` cells are set to zero. -/
def cleared (n : ℕ) (mem : ℕ → Uint8) : ℕ → Uint8 := fun i => if i < n then 0 else mem i

/-- The environment of the PPU. The canvas is only drawn on. -/
def ppuEnv : Handler ppuSig Emulator
  | .read a, e => (e.readVram a (e.vrambus.reader a), e)
  | .write a d, e => ((), e.writeVram a d (e.vrambus.writer a))
  | .clearMem, e =>
    ((), { e with vrammem := cleared 0x800 e.vrammem, palmem := cleared 0x20 e.palmem })
  | .drawpixel _ _ _, e => ((), e)
  | .nmiCallback, e => ((), e.nmiCallback)
  | .assert _, e => ((), e)
  | .undefinedShift amount, e => (e.undefined amount, e)

def onPpu {α : Type} (m : PpuM α) (e : Emulator) : α × Emulator :=
  (val ppuEnv m ⟨e.ppu, e⟩,
    { (post ppuEnv m ⟨e.ppu, e⟩).env with ppu := (post ppuEnv m ⟨e.ppu, e⟩).chip })

/-! ### The CPU's bus -/

/-- The PPU register at an address: the eight are repeated. -/
def ppuReg (addr : Uint16) : Uint16 := 0x2000 + (addr &&& 0x7)

def readRam (e : Emulator) (addr : Uint16) : RamArea → Uint8 × Emulator
  | .ram => (e.rammem (addr &&& 0x7FF).toNat, e)
  | .ppuReg => e.onPpu (Ppu.readreg (ppuReg addr))
  | .apu => (0, e)
  | .cartridge => (0, e)
  | .prgrom => (e.cartridge.readPrgrom addr, e)

def writeRam (e : Emulator) (addr : Uint16) (data : Uint8) : RamArea → Emulator
  | .ram => { e with rammem := Function.update e.rammem (addr &&& 0x7FF).toNat data }
  | .ppuReg => (e.onPpu (Ppu.writereg (ppuReg addr) data)).2
  | .apu => e
  | .cartridge => e
  | .prgrom => e

/-- The environment of the CPU. -/
def cpuEnv : Handler cpuSig Emulator
  | .read a, e => e.readRam a (e.rambus.reader a)
  | .write a d, e => ((), e.writeRam a d (e.rambus.writer a))
  | .fetchCallback _ _ _, e => ((), e)

def onCpu {α : Type} (m : CpuM α) (e : Emulator) : α × Emulator :=
  (val cpuEnv m ⟨e.cpu, e⟩,
    { (post cpuEnv m ⟨e.cpu, e⟩).env with cpu := (post cpuEnv m ⟨e.cpu, e⟩).chip })

/-! ### Construction -/

/-- The members with initializers, and the wiring. -/
def construct (fresh : Fresh) : Emulator :=
  let rambus := Cpu.attachBus (fresh.rambus.reset 0x10000 fresh.ramLookup)
  let vrambus := fresh.vrambus.reset 0x4000 fresh.vramLookup
  let b := Ppu.attachBus (rambus, vrambus)
  { cpu := {}
    ppu := { fresh.ppu with
      cycles := 0, lines := 0, io.latch := 0, vram.addr := 0, vram.tmp := 0 }
    rammem := fresh.rammem
    vrammem := fresh.vrammem
    palmem := fresh.palmem
    cartridge := { fresh.cartridge with
      name := "", format := "", prgrom.len := 0, chrrom.len := 0, mapper := 0, prgramSize := 0
      ntMirroring := .vert, has := {} }
    rambus := b.1
    vrambus := b.2
    debugger := {}
    cycle := 0
    nmi := false
    vblanks := 0
    undefined := fresh.undefined }

def setScreen (canvas : Bool) (e : Emulator) : Emulator := { e with ppu.screen := canvas }

/-- The answer of `insert_rom` with the emulator and the file it leaves. -/
def insertRom (fresh : FreshRom) (romfile : File) (e : Emulator) : Bool × Emulator × File :=
  let (ok, cartridge, romfile) := Cartridge.parse fresh romfile e.cartridge
  if !ok then (false, { e with cartridge := cartridge }, romfile)
  else
    let b := Cartridge.attachBus (e.rambus, Ppu.setMirroring cartridge.ntMirroring e.vrambus)
    (true, { e with cartridge := cartridge, rambus := b.1, vrambus := b.2 }, romfile)

def power (e : Emulator) : Emulator :=
  let e := (e.onCpu Cpu.power).2
  (e.onPpu Ppu.power).2

def reset (e : Emulator) : Emulator :=
  let e := (e.onCpu Cpu.reset).2
  (e.onPpu Ppu.reset).2

/-! ### Running -/

def ppuRun (e : Emulator) : Emulator := (e.onPpu Ppu.run).2

/-- The arithmetic is that of `int`, with wraparound. -/
def run (e : Emulator) : Emulator :=
  let e := (e.onCpu Cpu.run).2
  let currCycle : Uint32 := e.cpu.r.cycles.setWidth 32
  let cycleDiff := currCycle - e.cycle
  { ppuRun^[(cycleDiff * 3).toInt.toNat] e with cycle := currCycle }

/-- `run_frame`, given up after `fuel` rounds of its loop. -/
def runFrame (fuel : ℕ) (e : Emulator) : Option Emulator :=
  if e.debugger.quit then some e
  else (whileLoop (fun e => !e.nmi) run fuel e).map fun e => { e with nmi := false }

end Emulator

end Yanesemu
