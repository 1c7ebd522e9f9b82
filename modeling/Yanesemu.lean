import Yanesemu.Lib.Program
import Yanesemu.Lib.Run
import Yanesemu.CpuInterrupts
import Yanesemu.PpuRegisters
import Yanesemu.PpuVblank
import Yanesemu.PpuScroll
import Yanesemu.PpuDraw
import Yanesemu.PpuScanline
import Yanesemu.PpuFetch
import Yanesemu.Cartridge
import Yanesemu.ZeroPage
import Yanesemu.CpuFlow
import Yanesemu.NextAddr
import Yanesemu.Opargs
import Yanesemu.DebuggerStep
import Yanesemu.Frame
import Yanesemu.Lib.Cells
import Yanesemu.Lib.RingStack
import Yanesemu.BusMap
import Yanesemu.Nametables
import Yanesemu.VramUpload
import Yanesemu.Stack
import Yanesemu.Returns
import Yanesemu.IrqMask
import Yanesemu.EmulatorClock
import Yanesemu.CliDebugger
import Yanesemu.RegisterReads
import Yanesemu.Inspect
import Yanesemu.Lib.Digits
import Yanesemu.Manual
import Yanesemu.CpuEffects
import Yanesemu.CpuFrame
import Yanesemu.InstrArith
import Yanesemu.ResultFlags
import Yanesemu.CpuStores
import Yanesemu.Arithmetic
import Yanesemu.Shifts
import Yanesemu.InstrLengths
import Yanesemu.NmiDelivery
import Yanesemu.Disassembly
import Yanesemu.Trace
import Yanesemu.Lib.ShiftRegister
import Yanesemu.PpuPipeline
import Yanesemu.BusSlots
import Yanesemu.INes
import Yanesemu.BitBranch
import Yanesemu.BrkReturn
import Yanesemu.StatusByte
import Yanesemu.StringOps
import Yanesemu.CommandArgs
import Yanesemu.CanvasPixels
import Yanesemu.BlockCommands
import Yanesemu.Backtrace
import Yanesemu.Breakpoints
import Yanesemu.PpuStatus
import Yanesemu.FieldLaws
import Yanesemu.ScrollCounters
import Yanesemu.AttributeRegisters
import Yanesemu.Repl
import Yanesemu.Cmdline
import Yanesemu.Settings
import Yanesemu.EmulatorBoot
import Yanesemu.TestRomRun
import Yanesemu.Picture
