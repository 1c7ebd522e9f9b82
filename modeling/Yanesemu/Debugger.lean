import Yanesemu.NextAddr

/-!
# The debugger

`core/debugger.hpp` and `core/debugger.cpp`. The debugger looks at the CPU and reads its bus; both
are there when the CPU calls back, so a debugger function is a program over the CPU's own
signature with the debugger as its state and the CPU as an argument. `debugged` is the machine
with the debugger enabled: every access of the CPU calls back first.

The trace file is only written to; `Trace` adds it.
-/

namespace Yanesemu

open Interaction

/-! ### State -/

inductive EventType
  | fetch
  | brk
  deriving DecidableEq, Repr

/-- `Debugger::Event`. -/
structure Event where
  type : EventType
  cpuSt : Cpu.Status
  index : ℕ
  deriving DecidableEq, Repr

/-- `Debugger::Breakpoint`, from `start` to `last` inclusive. -/
structure Breakpoint where
  start : Uint16
  last : Uint16
  mode : AccessMode
  deriving DecidableEq, Repr

/-- `events` and `emptyBack` are not in the source: the events delivered to the callback, newest
first, and whether `btrace.back()` has been evaluated on an empty vector. -/
structure Debugger where
  breakvec : List Breakpoint := []
  nextstop : Option Uint16 := some 0
  btrace : List Cpu.Status := []
  quit : Bool := false
  events : List Event := []
  emptyBack : Bool := false
  deriving DecidableEq, Repr

abbrev DebugM : Type → Type := ChipM cpuSig Debugger

/-- The event callback, told the CPU it can look at. -/
abbrev BreakCallback : Type := Cpu → Event → DebugM Unit

namespace Debugger

def busRead (addr : Uint16) : DebugM Uint8 := ask (E := cpuSig) (.read addr)

/-- A program of the CPU that leaves the CPU alone. -/
def onCpu {α : Type} (c : Cpu) (m : CpuM α) : DebugM α := fun d =>
  (m.run c).bind fun r => .ret (r.1, d)

/-! ### Functions -/

def step (c : Cpu) : DebugM Unit := do
  let addr ← onCpu c Cpu.nextaddr
  modify fun d => { d with nextstop := some addr }

def next (c : Cpu) : DebugM Unit := do
  let id ← busRead c.r.pc
  let addr ← (if isJump id then pure (c.r.pc + BitVec.ofNat 16 (numBytes id))
    else onCpu c Cpu.nextaddr)
  modify fun d => { d with nextstop := some addr }

def updateBacktrace (st : Cpu.Status) (d : Debugger) : Debugger :=
  match st.id.toNat with
  | 0x20 | 0x4C | 0x6C => { d with btrace := d.btrace ++ [st] }
  | 0x60 =>
    match d.btrace.getLast? with
    | none => { d with emptyBack := true }
    | some back => if back.id == 0x20 then { d with btrace := d.btrace.dropLast } else d
  | _ => d

/-- The index of the first breakpoint for the access. -/
def findBreak (d : Debugger) (addr : Uint16) (mode : AccessMode) : Option ℕ :=
  d.breakvec.findIdx? fun p =>
    p.mode == mode && decide (p.start.toNat ≤ addr.toNat) && decide (addr.toNat ≤ p.last.toNat)

/-- The callback, with the event noted. -/
def deliver (callback : BreakCallback) (c : Cpu) (ev : Event) : DebugM Unit := do
  modify fun d => { d with events := ev :: d.events }
  callback c ev

/-- The even addresses from `0xFFFA` on, where the vectors are. -/
def IsVector (addr : Uint16) : Prop := 0xFFFA ≤ addr.toNat ∧ addr &&& 1 = 0

instance : DecidablePred IsVector := fun _ => inferInstanceAs (Decidable (_ ∧ _))

/-- The part of `fetch_callback` that handles the commands `next` and `step`. -/
def checkStop (callback : BreakCallback) (c : Cpu) (st : Cpu.Status) (addr : Uint16)
    (mode : AccessMode) : DebugM Unit := do
  let d ← get
  (match d.nextstop with
  | none => pure ()
  | some stop =>
    if mode = .r ∧ IsVector addr then do
      let high ← busRead (addr + 1)
      let low ← busRead addr
      modify fun d => { d with nextstop := some (Reg16.ofBytes low high) }
    else if mode = .x ∧ addr = stop then do
      modify fun d => { d with nextstop := none }
      deliver callback c ⟨.fetch, st, 0⟩
    else pure ())

def checkBreak (callback : BreakCallback) (c : Cpu) (st : Cpu.Status) (addr : Uint16)
    (mode : AccessMode) : DebugM Unit := do
  let d ← get
  (match d.findBreak addr mode with
  | none => pure ()
  | some index => deliver callback c ⟨.brk, st, index⟩)

/-- Without a registered callback there is only a warning. -/
def fetchCallback (callback : Option BreakCallback) (c : Cpu) (st : Cpu.Status) (addr : Uint16)
    (mode : AccessMode) : DebugM Unit := do
  let d ← get
  (if d.quit then pure ()
  else match callback with
  | none => pure ()
  | some callback => do
    (if mode = .x then modify (updateBacktrace st) else pure ())
    checkBreak callback c st addr mode
    checkStop callback c st addr mode)

/-- The machine with the debugger enabled, on the bus `B`. -/
def debugged {σ : Type} (B : Handler cpuSig σ) (callback : Option BreakCallback) :
    Handler cpuSig (Sys Debugger σ)
  | .read a, e => ((B (.read a) e.env).1, ⟨e.chip, (B (.read a) e.env).2⟩)
  | .write a v, e => ((B (.write a v) e.env).1, ⟨e.chip, (B (.write a v) e.env).2⟩)
  | .fetchCallback c addr mode, e =>
    ((), post B (do fetchCallback callback c (← onCpu c Cpu.status) addr mode) e)

end Debugger

end Yanesemu
