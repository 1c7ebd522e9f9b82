import Yanesemu.Isa

/-!
# What a step asks of memory

The cells a step of `Isa.State` reads, in order, next to those it writes (`runStores`). The bytes
of the instruction come first, then the pointer of an indirect mode, then the operand.

A step that reads and writes only where two memories agree cannot tell them apart, so these lists
are what a program must keep to in order to run the same in another machine.
-/

namespace Yanesemu.Isa

open Interaction EventRun Cpu

namespace State

variable (s : State)

/-- The operand bytes of an instruction. -/
def operandCells (mode : AddrMode) : List Uint16 :=
  match mode.numBytes with
  | 2 => [s.pc + 1]
  | 3 => [s.pc + 1, s.pc + 2]
  | _ => []

/-- The pointer of an indirect mode. -/
def pointerCells : AddrMode → List Uint16
  | .indx => [zp (s.mem (s.pc + 1)) + zp s.x, zp (s.mem (s.pc + 1)) + zp s.x + 1]
  | .indy => [zp (s.mem (s.pc + 1)), zp (s.mem (s.pc + 1)) + 1]
  | _ => []

/-- The cells an instruction reads after its opcode. -/
def cells : Operation → AddrMode → List Uint16
  | .read _, .imm => s.operandCells .imm
  | .read _, mode => s.operandCells mode ++ s.pointerCells mode ++ [s.address mode]
  | .modify _, .accum => []
  | .modify _, mode => s.operandCells mode ++ [s.address mode]
  | .store _, mode => s.operandCells mode ++ s.pointerCells mode
  | .branch .., _ => [s.pc + 1]
  | .flag .., _ | .transfer .., _ => []
  | .impld .jsr, _ | .impld .jmp, _ => [s.pc + 1, s.pc + 2]
  | .impld .jmpInd, _ =>
    [s.pc + 1, s.pc + 2, s.word (s.pc + 1), indHigh (s.word (s.pc + 1))]
  | .impld .pla, _ | .impld .plp, _ => [stackAddr (s.sp + 1)]
  | .impld .rts, _ => [stackAddr (s.sp + 1), stackAddr (s.sp + 2)]
  | .impld .rti, _ => [stackAddr (s.sp + 1), stackAddr (s.sp + 2), stackAddr (s.sp + 3)]
  | .impld .brk, _ => [s.vector, s.vector + 1]
  | .impld _, _ => []

/-- The cells a step reads. -/
def reads : List Uint16 :=
  if s.sig.execnmi ∨ s.sig.execirq then [s.vector, s.vector + 1]
  else s.pc :: match manual (s.mem s.pc) with
    | some (op, mode) => s.cells op mode
    | none => []

/-- The cells a step writes, with what it writes. -/
def stores : List Store :=
  if s.sig.execnmi ∨ s.sig.execirq then
    pushed s.sp [Reg16.high s.pc, Reg16.low s.pc, s.flags.toByte]
  else match manual (s.mem s.pc) with
    | some (op, mode) => op.stores s.regs s.mem mode
    | none => []

end State

/-! ## The CPU's reads -/

/-- The address of a read. -/
def loaded : CpuOp → Option Uint16
  | .read a => some a
  | .write .. => none
  | .fetchCallback .. => none

/-- The reads of a run, in order. -/
def loads {σ α : Type} (H : Handler cpuSig σ) (m : CpuM α) (s : Sys Cpu σ) : List Uint16 :=
  (asked H m s).filterMap loaded

section Loads

variable (s : Sys Cpu Mem)

theorem loads_interrupt (t : Sys Cpu Mem) :
    loads flatMem interrupt t = [(view t).vector, (view t).vector + 1] := by
  rw [← vec_entry]
  simp [loads, loaded, List.filterMap_cons, interrupt]

theorem loads_readMode (mode : ReadMode) (name : InstrRead) :
    loads flatMem (mode.func name.func) (fetched flatMem s) =
      (view s).cells (.read name) mode.addrMode := by
  have htwo (a : Uint16) : a + 1#16 + 1#16 = a + 2#16 := add_one_add_one a
  cases mode <;>
    simp [loads, loaded, List.filterMap_cons, State.cells, State.operandCells,
      State.pointerCells, State.address, ReadMode.addrMode, AddrMode.numBytes, effAddr, zp,
      fetched, view, ofRegs, State.regs, Reg8.get, htwo]

theorem loads_modifyMode (mode : ModifyMode) (name : InstrMod) :
    loads flatMem (mode.func name.func) (fetched flatMem s) =
      (view s).cells (.modify name) mode.addrMode := by
  have htwo (a : Uint16) : a + 1#16 + 1#16 = a + 2#16 := add_one_add_one a
  cases mode <;>
    simp [loads, loaded, List.filterMap_cons, State.cells, State.operandCells, State.address,
      ModifyMode.addrMode, AddrMode.numBytes, effAddr, zp, fetched, view, ofRegs, State.regs, htwo]

theorem loads_writeMode (mode : WriteMode) (r : Reg8) (v : Uint8) :
    loads flatMem (mode.func v) (fetched flatMem s) =
      (view s).cells (.store r) mode.addrMode := by
  have htwo (a : Uint16) : a + 1#16 + 1#16 = a + 2#16 := add_one_add_one a
  cases mode <;>
    simp [loads, loaded, List.filterMap_cons, State.cells, State.operandCells, State.pointerCells,
      WriteMode.addrMode, AddrMode.numBytes, zp, fetched, view, ofRegs, htwo]

theorem loads_branch (take : Bool) :
    loads flatMem (instrBranch take) (fetched flatMem s) = [s.chip.r.pc + 1] := by
  cases take <;> simp [loads, loaded, instrBranch, fetched]

theorem loads_impld (func : InstrImpld) :
    loads flatMem func.func (fetched flatMem s) =
      (view s).cells (.impld func) func.addrMode := by
  have htwo (a : Uint16) : a + 1#16 + 1#16 = a + 2#16 := add_one_add_one a
  have hpull (v : Uint8) : v + 1#8 + 1#8 = v + 2#8 := by rw [BitVec.add_assoc]; rfl
  have hpull' (v : Uint8) : v + 2#8 + 1#8 = v + 3#8 := by rw [BitVec.add_assoc]; rfl
  cases func with
  | brk =>
    have hbrk := loads_interrupt ⟨{ (fetched flatMem s).chip with r.flags.breakf := true }, s.env⟩
    exact hbrk
  | _ =>
    simp [loads, loaded, List.filterMap_cons, State.cells, State.word, indHigh, fetched, view,
      ofRegs, htwo, hpull, hpull']

theorem loads_exec {c : Case} {op : Operation} {mode : AddrMode} (hc : c.row = some (op, mode)) :
    loads flatMem c.exec (fetched flatMem s) = (view s).cells op mode := by
  cases c with
  | impld func => cases hc; exact loads_impld s func
  | read name m => cases hc; exact loads_readMode s m name
  | modify name m => cases hc; exact loads_modifyMode s m name
  | write m r => cases hc; exact loads_writeMode s m r _
  | branch f v => cases hc; exact loads_branch s _
  | flag f v => cases hc; rfl
  | transfer src dst => cases hc; rfl
  | unknown => cases hc

/-- **Reads.** -/
theorem loads_run : loads flatMem run s = (view s).reads := by
  unfold State.reads
  by_cases hint : s.chip.sig.execnmi = true ∨ s.chip.sig.execirq = true
  · rw [if_pos (c := (view s).sig.execnmi = true ∨ (view s).sig.execirq = true) hint]
    unfold loads
    rw [asked_run_interrupt flatMem s hint]
    exact loads_interrupt (ticked s)
  · rw [if_neg (c := (view s).sig.execnmi = true ∨ (view s).sig.execirq = true) hint]
    simp only [not_or, Bool.not_eq_true] at hint
    have hrun : loads flatMem run s = s.chip.r.pc ::
        loads flatMem (executeTab (s.env s.chip.r.pc)).exec (fetched flatMem s) := by
      unfold loads
      rw [asked_run_instr flatMem s hint.1 hint.2]
      rfl
    have hrow := executeTab_row (s.env s.chip.r.pc)
    rw [hrun]
    refine congrArg (s.chip.r.pc :: ·) ?_
    show _ = match manual (s.env s.chip.r.pc) with
      | some (op, mode) => (view s).cells op mode
      | none => []
    cases hm : manual (s.env s.chip.r.pc) with
    | some p => exact loads_exec s (hrow.trans hm)
    | none =>
      have hunknown : executeTab (s.env s.chip.r.pc) = .unknown :=
        Case.row_injective (hrow.trans hm)
      rw [hunknown]
      rfl

/-- **Writes.** -/
theorem writes_view : writes flatMem run s = (view s).stores := by
  have hops (op : Operation) (mode : AddrMode) :
      op.stores s.chip.r s.env mode = op.stores (view s).regs s.env mode := by
    cases op with
    | store r => cases r <;> cases mode <;> rfl
    | modify name => cases mode <;> rfl
    | impld func => cases func <;> rfl
    | read | branch | flag | transfer => rfl
  rw [writes_run]
  unfold runStores State.stores
  simp only [hops]
  rfl

/-- What a step asks for. -/
theorem asked_run_cases {o : CpuOp} (ho : o ∈ asked flatMem run s) :
    (∃ a ∈ (view s).reads, o = .read a) ∨ (∃ w ∈ (view s).stores, o = .write w.1 w.2) ∨
      ∃ c a m, o = .fetchCallback c a m := by
  cases o with
  | read a =>
    refine Or.inl ⟨a, ?_, rfl⟩
    rw [← loads_run]
    exact List.mem_filterMap.mpr ⟨_, ho, rfl⟩
  | write a d =>
    refine Or.inr (Or.inl ⟨(a, d), ?_, rfl⟩)
    rw [← writes_view]
    exact List.mem_filterMap.mpr ⟨_, ho, rfl⟩
  | fetchCallback c a m => exact Or.inr (Or.inr ⟨c, a, m, rfl⟩)

end Loads

end Yanesemu.Isa
