import Yanesemu.Execute

/-!
# What the steps of an instruction do

One lemma for each function the instructions are built from: its result and the CPU and
environment it leaves, for any handler. After these no proof unfolds a fetch or an access again.

`Frame` is what the instruction functions proper (`lda`, `adc`, `rol`, …) leave alone; the
addressing modes supply everything else an instruction does.
-/

namespace Yanesemu

open Interaction

namespace Cpu

variable {σ : Type} (H : Handler cpuSig σ) (s : Sys Cpu σ)

/-! ### Accesses -/

/-- The byte a bus read gives. -/
def readVal (a : Uint16) (e : σ) : Uint8 := (H (.read a) e).1

/-- The environment after a bus read. -/
def readEnv (a : Uint16) (e : σ) : σ := (H (.read a) e).2

/-- The environment after a bus write. -/
def writeEnv (a : Uint16) (d : Uint8) (e : σ) : σ := (H (.write a d) e).2

/-- The environment after the fetch callback of an access. -/
def called (c : Cpu) (addr : Uint16) (mode : AccessMode) (e : σ) : σ :=
  (H (.fetchCallback c addr mode) e).2

@[simp] theorem post_busRead (a : Uint16) :
    post H (busRead a) s = ⟨s.chip, readEnv H a s.env⟩ := rfl

@[simp] theorem val_busRead (a : Uint16) : val H (busRead a) s = readVal H a s.env := rfl

@[simp] theorem post_busWrite (a : Uint16) (d : Uint8) :
    post H (busWrite a d) s = ⟨s.chip, writeEnv H a d s.env⟩ := rfl

@[simp] theorem post_cycle :
    post H cycle s = ⟨{ s.chip with r.cycles := s.chip.r.cycles + 1 }, s.env⟩ := rfl

@[simp] theorem post_cycleIf (b : Bool) :
    post H (cycleIf b) s =
      ⟨{ s.chip with r.cycles := s.chip.r.cycles + ofBool 64 b }, s.env⟩ := by
  cases b <;> simp [cycleIf]

@[simp] theorem val_fetch :
    val H fetch s = readVal H s.chip.r.pc (called H s.chip s.chip.r.pc .x s.env) := rfl

@[simp] theorem post_fetch :
    post H fetch s =
      ⟨{ s.chip with r.pc := s.chip.r.pc + 1, r.cycles := s.chip.r.cycles + 1 },
        readEnv H s.chip.r.pc (called H s.chip s.chip.r.pc .x s.env)⟩ := rfl

@[simp] theorem val_fetchop : val H fetchop s = readVal H s.chip.r.pc s.env := rfl

@[simp] theorem post_fetchop :
    post H fetchop s =
      ⟨{ s.chip with r.pc := s.chip.r.pc + 1, r.cycles := s.chip.r.cycles + 1 },
        readEnv H s.chip.r.pc s.env⟩ := rfl

@[simp] theorem post_fetchLow :
    post H fetchLow s =
      ⟨{ s.chip with
          r.pc := s.chip.r.pc + 1
          r.cycles := s.chip.r.cycles + 1
          opargs := s.chip.opargs.setLow (readVal H s.chip.r.pc s.env) },
        readEnv H s.chip.r.pc s.env⟩ := rfl

@[simp] theorem post_fetchHigh :
    post H fetchHigh s =
      ⟨{ s.chip with
          r.pc := s.chip.r.pc + 1
          r.cycles := s.chip.r.cycles + 1
          opargs := s.chip.opargs.setHigh (readVal H s.chip.r.pc s.env) },
        readEnv H s.chip.r.pc s.env⟩ := rfl

@[simp] theorem val_readmem (a : Uint16) :
    val H (readmem a) s = readVal H a (called H s.chip a .r s.env) := rfl

@[simp] theorem post_readmem (a : Uint16) :
    post H (readmem a) s =
      ⟨{ s.chip with r.cycles := s.chip.r.cycles + 1 },
        readEnv H a (called H s.chip a .r s.env)⟩ := rfl

@[simp] theorem post_writemem (a : Uint16) (d : Uint8) :
    post H (writemem a d) s =
      ⟨{ s.chip with r.cycles := s.chip.r.cycles + 1 },
        writeEnv H a d (called H s.chip a .w s.env)⟩ := rfl

@[simp] theorem post_push (v : Uint8) :
    post H (push v) s =
      ⟨{ s.chip with r.cycles := s.chip.r.cycles + 1, r.sp := s.chip.r.sp - 1 },
        writeEnv H (stackAddr s.chip.r.sp) v
          (called H s.chip (stackAddr s.chip.r.sp) .w s.env)⟩ := rfl

/-- The CPU as `pull` has it when it reads: the stack pointer already moved. -/
def popped (c : Cpu) : Cpu := { c with r.sp := c.r.sp + 1 }

@[simp] theorem val_pull :
    val H pull s = readVal H (stackAddr (s.chip.r.sp + 1))
      (called H (popped s.chip) (stackAddr (s.chip.r.sp + 1)) .r s.env) := rfl

@[simp] theorem post_pull :
    post H pull s =
      ⟨{ s.chip with r.cycles := s.chip.r.cycles + 1, r.sp := s.chip.r.sp + 1 },
        readEnv H (stackAddr (s.chip.r.sp + 1))
          (called H (popped s.chip) (stackAddr (s.chip.r.sp + 1)) .r s.env)⟩ := rfl

/-! ### What an access asks for -/

@[simp] theorem asked_busRead (a : Uint16) : asked H (busRead a) s = [.read a] := rfl

@[simp] theorem asked_cycle : asked H cycle s = [] := rfl

@[simp] theorem asked_cycleIf (b : Bool) : asked H (cycleIf b) s = [] := by
  cases b <;> rfl

@[simp] theorem asked_fetch :
    asked H fetch s = [.fetchCallback s.chip s.chip.r.pc .x, .read s.chip.r.pc] := rfl

@[simp] theorem asked_fetchLow : asked H fetchLow s = [.read s.chip.r.pc] := rfl

@[simp] theorem asked_fetchHigh : asked H fetchHigh s = [.read s.chip.r.pc] := rfl

@[simp] theorem asked_readmem (a : Uint16) :
    asked H (readmem a) s = [.fetchCallback s.chip a .r, .read a] := rfl

@[simp] theorem asked_writemem (a : Uint16) (d : Uint8) :
    asked H (writemem a d) s = [.fetchCallback s.chip a .w, .write a d] := rfl

@[simp] theorem asked_push (v : Uint8) :
    asked H (push v) s = [.fetchCallback s.chip (stackAddr s.chip.r.sp) .w,
      .write (stackAddr s.chip.r.sp) v] := rfl

@[simp] theorem asked_pull :
    asked H pull s = [.fetchCallback (popped s.chip) (stackAddr (s.chip.r.sp + 1)) .r,
      .read (stackAddr (s.chip.r.sp + 1))] := rfl

/-! ### Polls -/

end Cpu

/-- The signals after a poll, with the I flag. -/
def Signals.polled (intdis : Bool) (i : Signals) : Signals := i.nmipoll.irqpoll intdis

/-- A second poll changes nothing. -/
@[simp] theorem Signals.polled_polled (b : Bool) (i : Signals) :
    (i.polled b).polled b = i.polled b := by
  rcases i with ⟨n, q, r, en, eq, l⟩
  cases n <;> cases q <;> cases en <;> cases eq <;> cases b <;> rfl

namespace Cpu

variable {σ : Type} (H : Handler cpuSig σ) (s : Sys Cpu σ)

@[simp] theorem post_lastCycle :
    post H lastCycle s =
      ⟨{ s.chip with sig := s.chip.sig.polled s.chip.r.flags.intdis }, s.env⟩ := rfl

@[simp] theorem asked_lastCycle : asked H lastCycle s = [] := rfl

/-! ### Instruction functions -/

@[simp] theorem Reg8.set_flags (r : Regs) (v : Uint8) (reg : Reg8) :
    (reg.set r v).flags = r.flags := by
  cases reg <;> rfl

@[simp] theorem Reg8.set_pc (r : Regs) (v : Uint8) (reg : Reg8) : (reg.set r v).pc = r.pc := by
  cases reg <;> rfl

@[simp] theorem Reg8.set_cycles (r : Regs) (v : Uint8) (reg : Reg8) :
    (reg.set r v).cycles = r.cycles := by
  cases reg <;> rfl

/-- `c'` differs from `c` in A, X, Y and the arithmetic flags only. -/
structure Frame (c c' : Cpu) : Prop where
  pc : c'.r.pc = c.r.pc
  sp : c'.r.sp = c.r.sp
  cycles : c'.r.cycles = c.r.cycles
  intdis : c'.r.flags.intdis = c.r.flags.intdis
  sig : c'.sig = c.sig
  opargs : c'.opargs = c.opargs

theorem InstrRead.frame (name : InstrRead) (v : Uint8) :
    Frame s.chip (post H (name.func v) s).chip := by
  cases name <;> exact ⟨rfl, rfl, rfl, rfl, rfl, rfl⟩

theorem InstrMod.frame (name : InstrMod) (v : Uint8) :
    Frame s.chip (post H (name.func v) s).chip := by
  cases name <;> exact ⟨rfl, rfl, rfl, rfl, rfl, rfl⟩

@[simp] theorem InstrRead.post_env (name : InstrRead) (v : Uint8) :
    (post H (name.func v) s).env = s.env := by
  cases name <;> rfl

@[simp] theorem InstrMod.post_env (name : InstrMod) (v : Uint8) :
    (post H (name.func v) s).env = s.env := by
  cases name <;> rfl

@[simp] theorem InstrRead.asked_func (name : InstrRead) (v : Uint8) :
    asked H (name.func v) s = [] := by
  cases name <;> rfl

@[simp] theorem InstrMod.asked_func (name : InstrMod) (v : Uint8) :
    asked H (name.func v) s = [] := by
  cases name <;> rfl

section Frame

variable {name : InstrRead} {mod : InstrMod} {v : Uint8}

@[simp] theorem read_pc : (post H (name.func v) s).chip.r.pc = s.chip.r.pc :=
  (name.frame H s v).pc
@[simp] theorem read_sp : (post H (name.func v) s).chip.r.sp = s.chip.r.sp :=
  (name.frame H s v).sp
@[simp] theorem read_cycles : (post H (name.func v) s).chip.r.cycles = s.chip.r.cycles :=
  (name.frame H s v).cycles
@[simp] theorem read_intdis :
    (post H (name.func v) s).chip.r.flags.intdis = s.chip.r.flags.intdis :=
  (name.frame H s v).intdis
@[simp] theorem read_sig : (post H (name.func v) s).chip.sig = s.chip.sig :=
  (name.frame H s v).sig
@[simp] theorem read_opargs : (post H (name.func v) s).chip.opargs = s.chip.opargs :=
  (name.frame H s v).opargs

@[simp] theorem mod_x : (post H (mod.func v) s).chip.r.x = s.chip.r.x := by
  cases mod <;> rfl
@[simp] theorem mod_pc : (post H (mod.func v) s).chip.r.pc = s.chip.r.pc :=
  (mod.frame H s v).pc
@[simp] theorem mod_sp : (post H (mod.func v) s).chip.r.sp = s.chip.r.sp :=
  (mod.frame H s v).sp
@[simp] theorem mod_cycles : (post H (mod.func v) s).chip.r.cycles = s.chip.r.cycles :=
  (mod.frame H s v).cycles
@[simp] theorem mod_intdis :
    (post H (mod.func v) s).chip.r.flags.intdis = s.chip.r.flags.intdis :=
  (mod.frame H s v).intdis
@[simp] theorem mod_sig : (post H (mod.func v) s).chip.sig = s.chip.sig :=
  (mod.frame H s v).sig
@[simp] theorem mod_opargs : (post H (mod.func v) s).chip.opargs = s.chip.opargs :=
  (mod.frame H s v).opargs

end Frame

/-- Clearing memory goes through the bus only. -/
@[simp] theorem post_clearBus_chip (start : Uint16) (n : ℕ) :
    (post H (clearBus start n) s).chip = s.chip := by
  induction n with
  | zero => rfl
  | succ n ih => simp [clearBus, ih]

/-! ### The parts of an interrupt -/

/-- What is pushed. -/
def saveState : CpuM Unit := do
  cycle
  push (← get).r.pc.high
  push (← get).r.pc.low
  push (← get).r.flags.toByte

/-- The flags are set and the vector is chosen. -/
def chooseVector : CpuM Uint16 := do
  modify fun c => { c with r.flags.breakf := false, r.flags.intdis := true }
  let vec := (← get).sig.entry.vec
  modify fun c => { c with sig := c.sig.enter }
  return vec

/-- The program counter is loaded from the vector. -/
def loadPc (vec : Uint16) : CpuM Unit := do
  let lo ← readmem vec
  modify fun c => { c with r.pc := c.r.pc.setLow lo }
  let hi ← readmem (vec + 1)
  modify fun c => { c with r.pc := c.r.pc.setHigh hi }

theorem interrupt_eq : interrupt = (do saveState; loadPc (← chooseVector)) := rfl

/-! ### Symbolic execution -/

-- With these, `simp` runs an addressing mode or an implied instruction on an arbitrary state, down
-- to the accesses and instruction functions above. BRK and the branches have lemmas of their own.
attribute [simp] ReadMode.func addrmodeImmRead addrmodeZeroRead addrmodeZeroIdxRead
  addrmodeZeroxRead addrmodeZeroyRead addrmodeAbsRead addrmodeAbsIdxRead addrmodeAbsxRead
  addrmodeAbsyRead addrmodeIndxRead addrmodeIndyRead indxPointer indyPointer

attribute [simp] ModifyMode.func addrmodeAccumModify addrmodeZeroModify addrmodeZeroxModify
  addrmodeAbsModify addrmodeAbsxModify

attribute [simp] WriteMode.func addrmodeZeroWrite addrmodeZeroIdxWrite addrmodeZeroxWrite
  addrmodeZeroyWrite addrmodeAbsWrite addrmodeAbsIdxWrite addrmodeAbsxWrite addrmodeAbsyWrite
  addrmodeIndxWrite addrmodeIndyWrite

attribute [simp] InstrImpld.func instrInx instrIny instrDex instrDey instrCount instrPhp instrPha
  instrPlp instrPla instrJsr instrJmp instrJmpInd instrRts instrRti pullPc instrNop

/-! ### The instruction of a run -/

/-- The opcode `run` fetches when no interrupt is to be executed. -/
def opcode : Uint8 := readVal H s.chip.r.pc (called H s.chip s.chip.r.pc .x s.env)

/-- The CPU and environment after the opcode fetch. -/
def fetched : Sys Cpu σ :=
  ⟨{ s.chip with r.pc := s.chip.r.pc + 1, r.cycles := s.chip.r.cycles + 1 },
    readEnv H s.chip.r.pc (called H s.chip s.chip.r.pc .x s.env)⟩

/-- With no interrupt to execute, `run` executes the instruction at the program counter. -/
theorem post_run_instr (hn : s.chip.sig.execnmi = false) (hi : s.chip.sig.execirq = false) :
    post H run s = post H (executeTab (opcode H s)).exec (fetched H s) := by
  simp [run, hn, hi, execute, opcode, fetched]

theorem asked_run_instr (hn : s.chip.sig.execnmi = false) (hi : s.chip.sig.execirq = false) :
    asked H run s = .fetchCallback s.chip s.chip.r.pc .x :: .read s.chip.r.pc ::
      asked H (executeTab (opcode H s)).exec (fetched H s) := by
  simp [run, hn, hi, execute, opcode, fetched]

/-- The state in which an interrupt sequence starts: one cycle has gone by. -/
def ticked : Sys Cpu σ := ⟨{ s.chip with r.cycles := s.chip.r.cycles + 1 }, s.env⟩

theorem post_run_nmi (hn : s.chip.sig.execnmi = true) :
    post H run s =
      ⟨{ (post H interrupt (ticked s)).chip with sig.execnmi := false },
        (post H interrupt (ticked s)).env⟩ := by
  simp [run, hn, ticked]

theorem post_run_irq (hn : s.chip.sig.execnmi = false) (hi : s.chip.sig.execirq = true) :
    post H run s =
      ⟨{ (post H interrupt (ticked s)).chip with sig.execirq := false },
        (post H interrupt (ticked s)).env⟩ := by
  simp [run, hn, hi, ticked]

theorem asked_run_interrupt (h : s.chip.sig.execnmi = true ∨ s.chip.sig.execirq = true) :
    asked H run s = asked H interrupt (ticked s) := by
  cases hn : s.chip.sig.execnmi with
  | true => simp [run, hn, ticked]
  | false =>
    have hi : s.chip.sig.execirq = true := by simpa [hn] using h
    simp [run, hn, hi, ticked]

/-- All a `run` can do. -/
theorem run_cases :
    (s.chip.sig.execnmi = true ∧
      post H run s = ⟨{ (post H interrupt (ticked s)).chip with sig.execnmi := false },
        (post H interrupt (ticked s)).env⟩) ∨
    (s.chip.sig.execnmi = false ∧ s.chip.sig.execirq = true ∧
      post H run s = ⟨{ (post H interrupt (ticked s)).chip with sig.execirq := false },
        (post H interrupt (ticked s)).env⟩) ∨
    (s.chip.sig.execnmi = false ∧ s.chip.sig.execirq = false ∧
      post H run s = post H (executeTab (opcode H s)).exec (fetched H s)) := by
  cases hn : s.chip.sig.execnmi with
  | true => exact Or.inl ⟨rfl, post_run_nmi H s hn⟩
  | false =>
    cases hi : s.chip.sig.execirq with
    | true => exact Or.inr (Or.inl ⟨rfl, rfl, post_run_irq H s hn hi⟩)
    | false => exact Or.inr (Or.inr ⟨rfl, rfl, post_run_instr H s hn hi⟩)

end Cpu

end Yanesemu
