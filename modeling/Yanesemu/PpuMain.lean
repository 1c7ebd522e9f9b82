import Yanesemu.Ppu

/-!
# The PPU: dots and scanlines

`core/ppumain.cpp`. One `run` executes the dot `cycles % 341` of the line `lines % 262`. The
tables `linetab` and `cycletab` of the source hold one instance of a template for each index, so
they are functions of the index here.
-/

namespace Yanesemu.Ppu

open Interaction

/-- Called at dot 340 of line 261. -/
def beginFrame : PpuM Unit := do
  let p ← get
  assert (p.line == 261 && p.dot == 340)
  (if p.oddFrame then modify fun p => { p with lines := 0, cycles := 0 } else pure ())
  modify fun p => { p with oddFrame := !p.oddFrame }

def vblankBegin : PpuM Unit := do
  modify fun p => { p with io.vblank := true }
  ask (E := ppuSig) .nmiCallback

def vblankEnd : PpuM Unit := modify fun p => { p with
  io.vblank := false
  io.spZeroHit := false
  io.spOverflow := false }

/-- The fetch pipeline, two dots for each step. -/
def backgroundCycle : ℕ → PpuM Unit
  | 1 => fetchNt false
  | 2 => fetchNt true
  | 3 => fetchAttr false
  | 4 => fetchAttr true
  | 5 => fetchLowbg false
  | 6 => fetchLowbg true
  | 7 => fetchHighbg false
  | 0 => fetchHighbg true
  | _ => pure ()

/-- The dots on which tiles are fetched. -/
def Fetching (cycle : ℕ) : Prop := (1 ≤ cycle ∧ cycle ≤ 256) ∨ (321 ≤ cycle ∧ cycle ≤ 340)

instance : DecidablePred Fetching := fun _ => inferInstanceAs (Decidable (_ ∨ _))

/-- What a fetching dot does. -/
def fetchCycle (cycle : ℕ) : PpuM Unit := do
  (if 4 ≤ cycle ∧ cycle ≤ 256 then output else pure ())
  backgroundCycle (cycle % 8)
  (if cycle % 8 = 1 ∧ cycle ≠ 1 then shiftFill else pure ())
  (if cycle % 8 ≠ 1 then shiftRun else pure ())
  (if cycle % 8 = 0 ∧ cycle ≠ 256 then incVHorzpos else pure ())
  (if cycle = 256 then incVVertpos else pure ())

def ccycle (cycle : ℕ) : PpuM Unit := do
  (if Fetching cycle then fetchCycle cycle else pure ())
  (if cycle = 257 then copyVHorzpos else pure ())

/-- `cycletab`: dot 0 and the dots 258 to 320 are idle. -/
def cycletab (cycle : ℕ) : PpuM Unit :=
  if cycle = 0 ∨ (258 ≤ cycle ∧ cycle ≤ 320) then pure () else ccycle cycle

/-- What line 261 does after the fetches of its dot. -/
def preRender (cycle : ℕ) : PpuM Unit := do
  (if cycle = 1 then vblankEnd else pure ())
  (if 280 ≤ cycle ∧ cycle ≤ 304 then copyVVertpos else pure ())
  (if cycle = 340 then beginFrame else pure ())

/-- `linetab[line]` at the dot `cycle`. The lines not named here are idle. -/
def lcycle (line cycle : ℕ) : PpuM Unit := do
  assert (decide (cycle ≤ 340))
  (if line < 240 then cycletab cycle
  else if line = 241 then (if cycle = 1 then vblankBegin else pure ())
  else if line = 261 then do
    cycletab cycle
    preRender cycle
  else pure ())

def run : PpuM Unit := do
  let p ← get
  lcycle p.line p.dot
  modify fun p => { p with cycles := p.cycles + 1 }
  modify fun p => { p with lines := p.lines + if p.cycles.toNat % 341 = 0 then 1 else 0 }

/-- `PPU::Status`. -/
structure Status where
  ctrl : Uint8
  mask : Uint8
  status : Uint8
  oamaddr : Uint8
  oamdata : Uint8
  vramScroll : Uint8
  vramAddr : Uint8
  vramData : Uint8
  vram : Vram
  tile : Tile
  shift : Shift
  line : Uint64
  cycle : Uint64

/-- Every register of the status is read from `0x2000`, as in the source. -/
def status : PpuM Status := do
  let p ← get
  return {
    ctrl := ← readregNoSideeff 0x2000
    mask := ← readregNoSideeff 0x2000
    status := ← readregNoSideeff 0x2000
    oamaddr := ← readregNoSideeff 0x2000
    oamdata := ← readregNoSideeff 0x2000
    vramScroll := ← readregNoSideeff 0x2000
    vramAddr := ← readregNoSideeff 0x2000
    vramData := ← readregNoSideeff 0x2000
    vram := p.vram
    tile := p.tile
    shift := p.shift
    line := p.lines
    cycle := p.cycles }

end Yanesemu.Ppu
