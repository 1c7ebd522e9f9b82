import Yanesemu.InstrArith

/-!
# What an instruction writes to memory

`Operation.stores` lists the cells each instruction of the manual writes, with the byte it leaves
there. On a flat memory the writes of a `run`, whatever its state and its opcode, are exactly
those of the list, in its order, and memory is otherwise as it was.

That the rest of memory is as it was holds of every program (`env_eq_stored`): a flat memory
changes by the writes it is asked for. What is left is to know the writes of each addressing mode.
-/

namespace Yanesemu.Cpu

open Interaction

/-- A cell and the byte written to it. -/
abbrev Store := Uint16 × Uint8

/-- The write an operation asks for. -/
def store : CpuOp → Option Store
  | .write a d => some (a, d)
  | .read _ => none
  | .fetchCallback .. => none

/-- The writes of a run, in order. -/
def writes {σ α : Type} (H : Handler cpuSig σ) (m : CpuM α) (s : Sys Cpu σ) : List Store :=
  (asked H m s).filterMap store

/-- A memory after some writes. -/
def stored (m : Mem) (ws : List Store) : Mem := ws.foldl (fun m w => Function.update m w.1 w.2) m

theorem prog_env_eq_stored {α : Type} (p : Prog cpuSig α) (m : Mem) :
    (p.run flatMem m).2 = stored m ((p.asked flatMem m).filterMap store) := by
  induction p generalizing m with
  | ret a => rfl
  | ask o k ih =>
    show ((k (flatMem o m).1).run flatMem (flatMem o m).2).2 = _
    rw [ih]
    cases o <;> rfl

/-- A flat memory changes by the writes that are asked for. -/
theorem env_eq_stored {α : Type} (m : CpuM α) (s : Sys Cpu Mem) :
    (post flatMem m s).env = stored s.env (writes flatMem m s) :=
  prog_env_eq_stored (m.run s.chip) s.env

/-! ### The manual's list -/

/-- The writes of pushing some bytes: the stack pointer wraps in its page. -/
def pushed : Uint8 → List Uint8 → List Store
  | _, [] => []
  | sp, v :: vs => (stackAddr sp, v) :: pushed (sp - 1) vs

/-- The writes of an instruction at the program counter. -/
def Operation.stores (r : Regs) (m : Mem) (mode : AddrMode) : Operation → List Store
  | store reg => [(effAddr r m (r.pc + 1) mode, reg.get r)]
  | modify name =>
    let a := effAddr r m (r.pc + 1) mode
    if mode = .accum then []
    else [(a, BitVec.ofNat 8 (name.number r.flags.carry (m a).toNat))]
  | impld .pha => pushed r.sp [r.acc]
  | impld .php => pushed r.sp [{ r.flags with breakf := true }.toByte]
  | impld .jsr => pushed r.sp [Reg16.high (r.pc + 2), Reg16.low (r.pc + 2)]
  | impld .brk => pushed r.sp [Reg16.high (r.pc + 1), Reg16.low (r.pc + 1),
      { r.flags with breakf := true }.toByte]
  | _ => []

/-- The writes of a `run`: of an interrupt sequence, or of the instruction at the program counter.
The undocumented opcodes write nothing. -/
def runStores (s : Sys Cpu Mem) : List Store :=
  let r := s.chip.r
  if s.chip.sig.execnmi ∨ s.chip.sig.execirq then
    pushed r.sp [Reg16.high r.pc, Reg16.low r.pc, r.flags.toByte]
  else match manual (s.env r.pc) with
    | some (op, mode) => op.stores r s.env mode
    | none => []

/-! ### What the addressing modes write -/

/-- An interrupt sequence makes its three pushes on any bus. -/
theorem writes_interrupt {σ : Type} (H : Handler cpuSig σ) (s : Sys Cpu σ) :
    writes H interrupt s = pushed s.chip.r.sp
      [Reg16.high s.chip.r.pc, Reg16.low s.chip.r.pc, s.chip.r.flags.toByte] := by
  simp [writes, store, List.filterMap_cons, interrupt, pushed]

section Writes

variable (s : Sys Cpu Mem)

theorem writes_readMode (mode : ReadMode) (name : InstrRead) :
    writes flatMem (mode.func name.func) s = [] := by
  cases mode <;> simp [writes, store, List.filterMap_cons]

theorem writes_writeMode (mode : WriteMode) (v : Uint8) :
    writes flatMem (mode.func v) s =
      [(effAddr s.chip.r s.env s.chip.r.pc mode.addrMode, v)] := by
  cases mode <;>
    simp [writes, store, List.filterMap_cons, WriteMode.addrMode, effAddr, zp, Reg8.get]

theorem writes_accum (name : InstrMod) :
    writes flatMem (ModifyMode.accum.func name.func) s = [] := by
  simp [writes]

theorem writes_modifyMode {mode : ModifyMode} (hmode : mode ≠ .accum) (name : InstrMod) :
    let a := effAddr s.chip.r s.env s.chip.r.pc mode.addrMode
    writes flatMem (mode.func name.func) s = [(a, name.result (s.env a) s.chip.r)] := by
  have hresult (pc : Reg16) (cycles : Uint64) (v : Uint8) :=
    name.result_eq (sameData_of_pc_cycles s.chip.r pc cycles) v
  cases mode with
  | accum => exact absurd rfl hmode
  | _ =>
    simp [writes, store, List.filterMap_cons, ModifyMode.addrMode, effAddr, zp, name.val_result,
      hresult _ _ _]

theorem writes_branch (take : Bool) : writes flatMem (instrBranch take) s = [] := by
  cases take <;> simp [writes, store, List.filterMap_cons, instrBranch]

/-- The writes of an implied instruction whose opcode is at `pc`. -/
theorem writes_impld (func : InstrImpld) {pc : Uint16} (hpc : s.chip.r.pc = pc + 1) :
    writes flatMem func.func s =
      (Operation.impld func).stores { s.chip.r with pc := pc } s.env func.addrMode := by
  have hnext : pc + 1#16 + 1#16 = pc + 2#16 := add_one_add_one pc
  have hlast : pc + 2#16 + 1#16 - 1#16 = pc + 2#16 := BitVec.add_sub_cancel _ _
  cases func <;>
    simp [writes, store, List.filterMap_cons, Operation.stores, pushed, instrBrk, interrupt, hpc,
      hnext, hlast]

/-- One case of the switch. -/
theorem writes_exec {c : Case} {op : Operation} {mode : AddrMode} (hc : c.row = some (op, mode)) :
    writes flatMem c.exec (fetched flatMem s) = op.stores s.chip.r s.env mode := by
  cases c with
  | impld func =>
    cases hc
    exact writes_impld (fetched flatMem s) func rfl
  | read name m =>
    cases hc
    exact writes_readMode _ m name
  | modify name m =>
    cases hc
    by_cases hm : m = .accum
    · subst hm
      exact writes_accum _ name
    · have hmode : m.addrMode ≠ .accum := by
        cases m with
        | accum => exact absurd rfl hm
        | _ => exact nofun
      have hnumber (v : Uint8) : name.result v (fetched flatMem s).chip.r =
          BitVec.ofNat 8 (name.number s.chip.r.flags.carry v.toNat) := by
        have h := name.toNat_result (fetched flatMem s).chip.r v
        show _ = BitVec.ofNat 8 (name.number (fetched flatMem s).chip.r.flags.carry v.toNat)
        rw [← h, BitVec.ofNat_toNat, BitVec.setWidth_eq]
      refine (writes_modifyMode _ hm name).trans ?_
      rw [effAddr_fetched, hnumber]
      simp only [Operation.stores, if_neg hmode]
      rfl
  | write m reg =>
    cases hc
    refine (writes_writeMode _ m _).trans ?_
    rw [effAddr_fetched]
    cases reg <;> rfl
  | branch f v =>
    cases hc
    exact writes_branch _ _
  | flag f v =>
    cases hc
    rfl
  | transfer src dst =>
    cases hc
    rfl
  | unknown => cases hc

theorem writes_run : writes flatMem run s = runStores s := by
  unfold runStores
  by_cases hint : s.chip.sig.execnmi = true ∨ s.chip.sig.execirq = true
  · rw [if_pos hint]
    unfold writes
    rw [asked_run_interrupt flatMem s hint]
    exact writes_interrupt flatMem (ticked s)
  · rw [if_neg hint]
    simp only [not_or, Bool.not_eq_true] at hint
    have hrun : writes flatMem run s =
        writes flatMem (executeTab (s.env s.chip.r.pc)).exec (fetched flatMem s) := by
      unfold writes
      rw [asked_run_instr flatMem s hint.1 hint.2]
      rfl
    rw [hrun, ← executeTab_row]
    cases hc : (executeTab (s.env s.chip.r.pc)).row with
    | some row => exact writes_exec s hc
    | none =>
      have hcase : executeTab (s.env s.chip.r.pc) = .unknown := Case.row_injective hc
      rw [hcase]
      rfl

/-- The cell a modify mode writes is the one it has just read. -/
theorem accesses_modifyMode {mode : ModifyMode} (hmode : mode ≠ .accum) (name : InstrMod) :
    let a := effAddr s.chip.r s.env s.chip.r.pc mode.addrMode
    [.read a, .write a] <:+ accesses flatMem (mode.func name.func) s := by
  cases mode with
  | accum => exact absurd rfl hmode
  | _ =>
    simp [ModifyMode.addrMode, effAddr, zp]

end Writes

/-- **Memory frames.** For every state and every flat memory, the writes of a `run` are those of
the list and memory is changed by them alone; a read-modify-write instruction writes the cell it
has just read. -/
theorem run_stores (s : Sys Cpu Mem) :
    writes flatMem run s = runStores s ∧
    (post flatMem run s).env = stored s.env (runStores s) ∧
    ∀ name mode, s.chip.sig.execnmi = false → s.chip.sig.execirq = false →
      manual (s.env s.chip.r.pc) = some (.modify name, mode) → mode ≠ .accum →
      let a := effAddr s.chip.r s.env (s.chip.r.pc + 1) mode
      [.read a, .write a] <:+ accesses flatMem run s := by
  refine ⟨writes_run s, ?_, ?_⟩
  · rw [env_eq_stored, writes_run]
  · intro name mode hn hi hop hmode a
    rw [← executeTab_row] at hop
    have hop' : opcode flatMem s = s.env s.chip.r.pc := rfl
    rw [accesses_run flatMem s hn hi, hop']
    apply List.suffix_cons_iff.mpr
    right
    cases hcase : executeTab (s.env s.chip.r.pc) with
    | modify name' m =>
      rw [hcase] at hop
      cases hop
      have hm : m ≠ .accum := by
        rintro rfl
        exact hmode rfl
      rw [show a = _ from (effAddr_fetched s m.addrMode).symm]
      exact accesses_modifyMode (fetched flatMem s) hm name
    | _ => rw [hcase] at hop; cases hop

/-- A memory with `ROR $80,X` at the start. -/
def rorZerox : Mem := fun a => if a.toNat = 0 then 0x76 else if a.toNat = 1 then 0x80 else 3

/-- With X = `$FF` the cell is `$17F`, which becomes `$81` with the carry set. -/
theorem run_stores_ror :
    let s : Sys Cpu Mem := ⟨{ r.x := 0xFF, r.flags.carry := true }, rorZerox⟩
    (post flatMem run s).env = Function.update rorZerox 0x17F 0x81 ∧
      [.read 0x17F, .write 0x17F] <:+ accesses flatMem run s := by
  intro s
  obtain ⟨-, henv, hsame⟩ := run_stores s
  have hstores : runStores s = [(0x17F, 0x81)] := by decide
  refine ⟨?_, hsame .ror .zerox rfl rfl (by decide) (by decide)⟩
  rw [henv, hstores]
  rfl

end Yanesemu.Cpu
