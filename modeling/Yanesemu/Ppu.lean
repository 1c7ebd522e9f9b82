import Yanesemu.Lib.Program
import Yanesemu.Bits

/-!
# The PPU: state, registers and background unit

`core/ppu.hpp` and `core/ppu.cpp`. The PPU's name tables and palette are reached through its
bus, so they belong to the environment; `power` clears them directly, which is an operation of
its own. The other operations of `ppuSig` are the bus accesses, `Canvas::drawpixel`, the NMI
callback, an assertion (told whether it holds), and a shift by an amount for which C++ defines
no result.
-/

namespace Yanesemu

open Interaction

/-! ### `VRAMAddress` -/

abbrev VramAddress := Uint16

namespace VramAddress

open Util

def fineY (v : VramAddress) : Uint64 := BitField.read 12 3 v
def nt (v : VramAddress) : Uint64 := BitField.read 10 2 v
def coarseY (v : VramAddress) : Uint64 := BitField.read 5 5 v
def coarseX (v : VramAddress) : Uint64 := BitField.read 0 5 v

def setFineY (v : VramAddress) (d : Uint64) : VramAddress := BitField.assign 12 3 v (d.setWidth 16)
def setNt (v : VramAddress) (d : Uint64) : VramAddress := BitField.assign 10 2 v (d.setWidth 16)
def setCoarseY (v : VramAddress) (d : Uint64) : VramAddress := BitField.assign 5 5 v (d.setWidth 16)
def setCoarseX (v : VramAddress) (d : Uint64) : VramAddress := BitField.assign 0 5 v (d.setWidth 16)

end VramAddress

/-! ### State -/

/-- `PPU::IO`. -/
structure Io where
  latch : Uint8 := 0
  vramInc : Bool := false
  spPtAddr : Bool := false
  bgPtAddr : Bool := false
  spSize : Bool := false
  extBusDir : Bool := false
  nmiEnabled : Bool := false
  grey : Bool := false
  bgShowLeft : Bool := false
  spShowLeft : Bool := false
  bgShow : Bool := false
  spShow : Bool := false
  red : Bool := false
  green : Bool := false
  blue : Bool := false
  spOverflow : Bool := false
  spZeroHit : Bool := false
  vblank : Bool := false
  oamAddr : Uint8 := 0
  scrollLatch : Bool := false
  dataBuf : Uint8 := 0
  deriving DecidableEq, Repr

/-- `PPU::VRAM`. -/
structure Vram where
  addr : VramAddress := 0
  tmp : VramAddress := 0
  fineX : Uint8 := 0
  deriving DecidableEq, Repr

/-- `PPU::Tile`. -/
structure Tile where
  nt : Uint8 := 0
  attr : Uint8 := 0
  low : Uint8 := 0
  high : Uint8 := 0
  deriving DecidableEq, Repr

/-- `PPU::Shift`. -/
structure Shift where
  tlow : Uint16 := 0
  thigh : Uint16 := 0
  alow : Uint8 := 0
  ahigh : Uint8 := 0
  feedLow : Bool := false
  feedHigh : Bool := false
  deriving DecidableEq, Repr

/-- `screen` tells whether a canvas is attached. Members that no function reads (the OAM) are
left out. -/
structure Ppu where
  screen : Bool := false
  cycles : Uint64 := 0
  lines : Uint64 := 0
  oddFrame : Bool := false
  io : Io := {}
  vram : Vram := {}
  tile : Tile := {}
  shift : Shift := {}
  deriving DecidableEq, Repr

/-! ### The environment -/

inductive PpuOp
  | read (addr : Uint16)
  | write (addr : Uint16) (data : Uint8)
  | clearMem
  | drawpixel (x y : ℕ) (color : Uint32)
  | nmiCallback
  | assert (holds : Bool)
  | undefinedShift (amount : ℤ)
  deriving DecidableEq, Repr

abbrev PpuOp.Ans : PpuOp → Type
  | read _ => Uint8
  | undefinedShift _ => Uint8
  | _ => Unit

abbrev ppuSig : Sig := ⟨PpuOp, PpuOp.Ans⟩

abbrev PpuM : Type → Type := ChipM ppuSig Ppu

namespace Ppu

open Util VramAddress

def busRead (addr : Uint16) : PpuM Uint8 := ask (E := ppuSig) (.read addr)

def busWrite (addr : Uint16) (data : Uint8) : PpuM Unit := ask (E := ppuSig) (.write addr data)

def assert (holds : Bool) : PpuM Unit := ask (E := ppuSig) (.assert holds)

/-! ### Power and reset -/

/-- PPUCTRL and PPUMASK as `power` and `reset` leave them. -/
def Io.cleared (io : Io) : Io :=
  { io with
    vramInc := false, spPtAddr := false, bgPtAddr := false, spSize := false, extBusDir := false,
    nmiEnabled := false, grey := false, bgShowLeft := false, spShowLeft := false, bgShow := false,
    spShow := false, red := false, green := false, blue := false }

def power : PpuM Unit := do
  modify fun p => { p with
    vram := { addr := 0, tmp := 0, fineX := 0 }
    io := { Io.cleared p.io with
      spOverflow := true, spZeroHit := false, vblank := true, oamAddr := 0,
      scrollLatch := false, dataBuf := 0 }
    oddFrame := false
    lines := 0
    cycles := 0 }
  ask (E := ppuSig) .clearMem

def reset : PpuM Unit := modify fun p => { p with
  io := { Io.cleared p.io with
    spOverflow := false, spZeroHit := false, scrollLatch := false, dataBuf := 0 }
  vram.fineX := 0
  oddFrame := false
  lines := 0
  cycles := 0 }

/-! ### Registers -/

/-- `vram.addr += (1UL << 5*io.vram_inc)`. -/
def incAddr : PpuM Unit := modify fun p =>
  { p with vram.addr := p.vram.addr + if p.io.vramInc then 32 else 1 }

/-- The status bits of PPUSTATUS. -/
def statusBits (io : Io) : Uint8 :=
  ofBool 8 io.vblank <<< 7 ||| ofBool 8 io.spZeroHit <<< 6 ||| ofBool 8 io.spOverflow <<< 5

/-- PPUSTATUS: the status bits are added to whatever the latch holds. -/
def readStatus : PpuM Unit := modify fun p => { p with
  io.latch := p.io.latch ||| statusBits p.io
  io.vblank := false
  io.scrollLatch := false }

/-- PPUDATA. -/
def readData : PpuM Unit := do
  let p ← get
  (if p.vram.addr.toNat < 0x3F00 then do
    modify fun p => { p with io.latch := p.io.dataBuf }
    let v ← busRead p.vram.addr
    modify fun p => { p with io.dataBuf := v }
  else do
    let v ← busRead p.vram.addr
    modify fun p => { p with io.latch := v })
  incAddr

def readreg (which : Uint16) : PpuM Uint8 := do
  (match which.toNat with
  | 0x2002 => readStatus
  | 0x2004 => modify fun p => { p with io.latch := 0 }
  | 0x2007 => readData
  | _ => pure ())
  return (← get).io.latch

/-- PPUCTRL. -/
def writeCtrl (data : Uint8) : PpuM Unit := modify fun p => { p with
  vram.tmp := setNt p.vram.tmp ((data &&& 0x03).setWidth 64)
  io.vramInc := truthy (data &&& 0x04)
  io.spPtAddr := truthy (data &&& 0x08)
  io.bgPtAddr := truthy (data &&& 0x10)
  io.spSize := truthy (data &&& 0x20)
  io.extBusDir := truthy (data &&& 0x40)
  io.nmiEnabled := truthy (data &&& 0x80) }

/-- PPUMASK. -/
def writeMask (data : Uint8) : PpuM Unit := modify fun p => { p with
  io.grey := truthy (data &&& 0x01)
  io.bgShowLeft := truthy (data &&& 0x02)
  io.spShowLeft := truthy (data &&& 0x04)
  io.bgShow := truthy (data &&& 0x08)
  io.spShow := truthy (data &&& 0x10)
  io.red := truthy (data &&& 0x20)
  io.green := truthy (data &&& 0x40)
  io.blue := truthy (data &&& 0x80) }

/-- PPUSCROLL. -/
def writeScroll (data : Uint8) : PpuM Unit := modify fun p =>
  if !p.io.scrollLatch then
    { p with
      vram.tmp := setCoarseX p.vram.tmp ((data >>> 3 &&& 0x1F).setWidth 64)
      vram.fineX := data &&& 0x7
      io.scrollLatch := !p.io.scrollLatch }
  else
    { p with
      vram.tmp := setFineY (setCoarseY p.vram.tmp ((data >>> 3 &&& 0x1F).setWidth 64))
        ((data &&& 0x7).setWidth 64)
      io.scrollLatch := !p.io.scrollLatch }

/-- PPUADDR: the high byte first, with bit 14 cleared, then the low byte and the copy. -/
def writeAddr (data : Uint8) : PpuM Unit := modify fun p =>
  if !p.io.scrollLatch then
    let tmp : Uint16 :=
      (setbits (p.vram.tmp.setWidth 64) 8 6 ((data &&& 0x3F).setWidth 64)).setWidth 16
    { p with
      vram.tmp := (setbit (tmp.setWidth 64) 14 false).setWidth 16
      io.scrollLatch := !p.io.scrollLatch }
  else
    let tmp : Uint16 := (setbits (p.vram.tmp.setWidth 64) 0 8 (data.setWidth 64)).setWidth 16
    { p with
      vram.tmp := tmp
      vram.addr := tmp
      io.scrollLatch := !p.io.scrollLatch }

/-- PPUDATA. -/
def writeData (data : Uint8) : PpuM Unit := do
  busWrite (← get).vram.addr data
  incAddr

def writereg (which : Uint16) (data : Uint8) : PpuM Unit := do
  modify fun p => { p with io.latch := data }
  (match which.toNat with
  | 0x2000 => writeCtrl data
  | 0x2001 => writeMask data
  | 0x2003 => modify fun p => { p with io.oamAddr := data }
  | 0x2004 => modify fun p => { p with io.oamAddr := p.io.oamAddr + 1 }
  | 0x2005 => writeScroll data
  | 0x2006 => writeAddr data
  | 0x2007 => writeData data
  | _ => pure ())

/-- The debugger's view of the registers. Only PPUDATA beyond the palette start uses the bus. -/
def readregNoSideeff (which : Uint16) : PpuM Uint8 := do
  let p ← get
  match which.toNat with
  | 0x2000 => pure ((nt p.vram.tmp).setWidth 8 ||| ofBool 8 p.io.vramInc <<< 2 |||
      ofBool 8 p.io.spPtAddr <<< 3 ||| ofBool 8 p.io.bgPtAddr <<< 4 |||
      ofBool 8 p.io.spSize <<< 5 ||| ofBool 8 p.io.extBusDir <<< 6 |||
      ofBool 8 p.io.nmiEnabled <<< 7)
  | 0x2001 => pure (ofBool 8 p.io.grey ||| ofBool 8 p.io.bgShowLeft <<< 1 |||
      ofBool 8 p.io.spShowLeft <<< 2 ||| ofBool 8 p.io.bgShow <<< 3 |||
      ofBool 8 p.io.spShow <<< 4 ||| ofBool 8 p.io.red <<< 5 ||| ofBool 8 p.io.green <<< 6 |||
      ofBool 8 p.io.blue <<< 7)
  | 0x2002 => pure (statusBits p.io)
  | 0x2003 => pure p.io.oamAddr
  | 0x2004 => pure 0
  | 0x2005 => pure (if !p.io.scrollLatch then
        p.vram.fineX <<< 5 ||| (coarseX p.vram.tmp).setWidth 8
      else ((fineY p.vram.tmp <<< 5) ||| coarseY p.vram.tmp).setWidth 8)
  | 0x2006 => pure (if !p.io.scrollLatch then p.vram.tmp.setWidth 8
      else (p.vram.tmp >>> 8).setWidth 8)
  | 0x2007 => if p.vram.addr.toNat < 0x3F00 then pure p.io.dataBuf else busRead p.vram.addr
  | _ => pure 0xFF

/-! ### The scroll position -/

def incVHorzpos : PpuM Unit := modify fun p =>
  if !p.io.bgShow then p
  else if coarseX p.vram.addr == 31 then
    let v := setCoarseX p.vram.addr 0
    { p with vram.addr := setNt v (nt v ^^^ 1) }
  else { p with vram.addr := setCoarseX p.vram.addr (coarseX p.vram.addr + 1) }

def incVVertpos : PpuM Unit := modify fun p =>
  if !p.io.bgShow then p
  else if (fineY p.vram.addr).toNat < 7 then
    { p with vram.addr := setFineY p.vram.addr (fineY p.vram.addr + 1) }
  else
    let v := setFineY p.vram.addr 0
    let y : Uint16 := (coarseY v).setWidth 16
    { p with vram.addr :=
        if y == 29 then setCoarseY (setNt v (nt v ^^^ 2)) 0
        else if y == 31 then setCoarseY v 0
        else setCoarseY v ((y + 1).setWidth 64) }

/-- The field assignments between `vram.addr` and `vram.tmp` are copies of bit fields. -/
def copyVHorzpos : PpuM Unit := modify fun p =>
  if !p.io.bgShow then p
  else
    let v : VramAddress := BitField.copy 0 5 p.vram.addr p.vram.tmp
    { p with vram.addr := setNt v (setbit (nt v) 0 (truthy (nt p.vram.tmp &&& 1))) }

def copyVVertpos : PpuM Unit := modify fun p =>
  if !p.io.bgShow then p
  else
    let v : VramAddress := BitField.copy 5 5 p.vram.addr p.vram.tmp
    let v : VramAddress := BitField.copy 12 3 v p.vram.tmp
    { p with vram.addr := setNt v (setbit (nt v) 1 (truthy (nt p.vram.tmp >>> 1 &&& 1))) }

/-! ### Fetches -/

def fetchNt (dofetch : Bool) : PpuM Unit :=
  if !dofetch then pure ()
  else do
    let v ← busRead (0x2000 ||| ((← get).vram.addr &&& 0x0FFF))
    modify fun p => { p with tile.nt := v }

/-- The address `NN 1111 YYY XXX` of the attribute byte. -/
def attrAddr (v : VramAddress) : Uint16 :=
  0x23C0 ||| (nt v).setWidth 16 <<< 10 ||| ((coarseY v).setWidth 16 &&& 0x1C) <<< 1 |||
    ((coarseX v).setWidth 16 &&& 0x1C) >>> 2

def fetchAttr (dofetch : Bool) : PpuM Unit :=
  if !dofetch then pure ()
  else do
    let v ← busRead (attrAddr (← get).vram.addr)
    modify fun p => { p with tile.attr := v }

/-- The address of a row of the tile; `plane` is the bit `P` of `0HRRRRCCCCPTTT`. -/
def patternAddr (p : Ppu) (plane : Uint16) : Uint16 :=
  ofBool 16 p.io.bgPtAddr <<< 12 ||| p.tile.nt.setWidth 16 <<< 4 ||| plane <<< 3 |||
    (fineY p.vram.addr).setWidth 16

def fetchLowbg (dofetch : Bool) : PpuM Unit :=
  if !dofetch then pure ()
  else do
    let v ← busRead (patternAddr (← get) 0)
    modify fun p => { p with tile.low := v }

def fetchHighbg (dofetch : Bool) : PpuM Unit :=
  if !dofetch then pure ()
  else do
    let v ← busRead (patternAddr (← get) 1)
    modify fun p => { p with tile.high := v }

/-! ### Shift registers and output -/

/-- The second assignment to `ahigh` is the source's. -/
def shiftRun : PpuM Unit := modify fun p =>
  let sh := { p.shift with
    tlow := p.shift.tlow >>> 1
    thigh := p.shift.thigh >>> 1
    ahigh := p.shift.ahigh >>> 1
    alow := p.shift.alow >>> 1 }
  let sh := { sh with ahigh := (setbit (sh.ahigh.setWidth 64) 7 sh.feedHigh).setWidth 8 }
  { p with shift := { sh with ahigh := (setbit (sh.alow.setWidth 64) 7 sh.feedLow).setWidth 8 } }

/-- `0b11 << amount` as a `uint8`. The shift has no defined result for a negative amount or one
of 32 and more. -/
def shiftThree (amount : ℤ) : PpuM Uint8 :=
  if 0 ≤ amount ∧ amount < 32 then pure ((3 : Uint32) <<< amount.toNat |>.setWidth 8)
  else ask (E := ppuSig) (.undefinedShift amount)

/-- The shift amount of `attr_mask`: `~` of a 0 or 1, times 2. -/
def attrShift (v : VramAddress) : ℤ :=
  (-1 - ((((v >>> 1) &&& 1) ||| ((v >>> 6) &&& 1)).toNat : ℤ)) * 2

def shiftFill : PpuM Unit := do
  modify fun p => { p with
    shift.tlow := (setbits (p.shift.tlow.setWidth 64) 8 8 (p.tile.low.setWidth 64)).setWidth 16
    shift.thigh := (setbits (p.shift.thigh.setWidth 64) 8 8 (p.tile.high.setWidth 64)).setWidth 16 }
  let attrMask ← shiftThree (attrShift (← get).vram.addr)
  modify fun p => { p with
    shift.feedHigh := truthy (p.tile.attr &&& attrMask)
    shift.feedLow := truthy (p.tile.attr &&& attrMask) }

def getcolor (select : Bool) (pal palind : Uint8) : PpuM Uint8 :=
  busRead (0x3F00 + (ofBool 8 select <<< 4 ||| pal <<< 2 ||| palind).setWidth 16)

def bgOutput : PpuM Uint8 := do
  let p ← get
  let mask : Uint8 := (1 : Uint64) <<< p.vram.fineX.toNat |>.setWidth 8
  let lowbit := truthy (p.shift.tlow &&& mask.setWidth 16)
  let hibit := truthy (p.shift.thigh &&& mask.setWidth 16)
  let at1 := truthy (p.shift.ahigh &&& mask)
  let at2 := truthy (p.shift.alow &&& mask)
  getcolor false (ofBool 8 at1 <<< 1 ||| ofBool 8 at2) (ofBool 8 hibit <<< 1 ||| ofBool 8 lowbit)

/-- The line `lines % 262` and the dot `cycles % 341` the PPU is at. -/
def line (p : Ppu) : ℕ := p.lines.toNat % 262

def dot (p : Ppu) : ℕ := p.cycles.toNat % 341

def output : PpuM Unit := do
  let p ← get
  (if !p.screen then pure ()
  else do
    let bgpixel ← bgOutput
    let color : Uint32 := if bgpixel == 0x30 then 0xFFFFFFFF else 0
    assert ((decide (p.line ≤ 239) || p.line == 261) && decide (p.dot ≤ 256))
    (if p.dot = 256 ∨ p.line = 261 then pure ()
    else ask (E := ppuSig) (.drawpixel p.dot p.line color)))

end Ppu

end Yanesemu
