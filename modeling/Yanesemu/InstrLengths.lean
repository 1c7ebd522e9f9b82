import Yanesemu.NextAddr
import Yanesemu.CpuEffects
import Yanesemu.Returns

/-!
# Lengths of instructions

`num_bytes` reads the length of an instruction off the disassembler's table; the CPU finds it out
by fetching operand bytes. An operand fetch is the one access that does not call the fetch
callback first, so it can be told from the others in what a run asks for (`operandFetches`).
-/

namespace Yanesemu.Cpu

open Interaction

/-- The reads that are not announced to the fetch callback; `announced` says whether the callback
has just been called. -/
def unannounced : Bool → List CpuOp → List Uint16
  | _, [] => []
  | _, .fetchCallback .. :: ops => unannounced true ops
  | _, .write .. :: ops => unannounced false ops
  | true, .read _ :: ops => unannounced false ops
  | false, .read a :: ops => a :: unannounced false ops

/-- The addresses of the operand fetches of a run. -/
def operandFetches {σ α : Type} (H : Handler cpuSig σ) (m : CpuM α) (s : Sys Cpu σ) :
    List Uint16 := unannounced false (asked H m s)

/-- The operand bytes of an instruction of `n` bytes at `pc`. -/
def operandAddrs (pc : Uint16) (n : ℕ) : List Uint16 := [pc + 1, pc + 2].take (n - 1)

/-! ### The cases of the switch -/

section Fetches

variable (s : Sys Cpu Mem)

/-- The operand bytes of a case that has fetched its opcode. -/
def operandsAt (p : Uint16) (n : Uint16) : List Uint16 := [p, p + 1].take n.toNat

theorem operandFetches_readMode (mode : ReadMode) (name : InstrRead) :
    operandFetches flatMem (mode.func name.func) s = operandsAt s.chip.r.pc mode.operands := by
  cases mode <;> simp [operandFetches, unannounced, operandsAt, ReadMode.operands]

theorem operandFetches_modifyMode (mode : ModifyMode) (name : InstrMod) :
    operandFetches flatMem (mode.func name.func) s = operandsAt s.chip.r.pc mode.operands := by
  cases mode <;> simp [operandFetches, unannounced, operandsAt, ModifyMode.operands]

theorem operandFetches_writeMode (mode : WriteMode) (v : Uint8) :
    operandFetches flatMem (mode.func v) s = operandsAt s.chip.r.pc mode.operands := by
  cases mode <;> simp [operandFetches, unannounced, operandsAt, WriteMode.operands]

theorem operandFetches_branch (take : Bool) :
    operandFetches flatMem (instrBranch take) s = [s.chip.r.pc] := by
  cases take <;> simp [operandFetches, unannounced, instrBranch]

theorem operandFetches_impld {func : InstrImpld} {n : Uint16}
    (hn : (Case.impld func).operands = some n) :
    operandFetches flatMem func.func s = operandsAt s.chip.r.pc n := by
  cases func <;> cases hn <;> simp [operandFetches, unannounced, operandsAt]

theorem operandFetches_exec {c : Case} {n : Uint16} (hn : c.operands = some n) :
    operandFetches flatMem c.exec s = operandsAt s.chip.r.pc n := by
  cases c with
  | impld func => exact operandFetches_impld s hn
  | read name mode =>
    cases hn
    exact operandFetches_readMode s mode name
  | modify name mode =>
    cases hn
    exact operandFetches_modifyMode s mode name
  | write mode reg =>
    cases hn
    exact operandFetches_writeMode s mode _
  | branch f v => cases hn
  | flag f v =>
    cases hn
    rfl
  | transfer src dst =>
    cases hn
    rfl
  | unknown =>
    cases hn
    rfl

/-- The scratch register holds the operand bytes of a case with `n` of them. -/
structure HoldsOperands (n : Uint16) (p : Uint16) (m : Mem) (opargs : Reg16) : Prop where
  low : 1 ≤ n.toNat → opargs.low = m p
  high : 2 ≤ n.toNat → opargs.high = m (p + 1)

theorem opargs_readMode (mode : ReadMode) (name : InstrRead) :
    HoldsOperands mode.operands s.chip.r.pc s.env
      (post flatMem (mode.func name.func) s).chip.opargs := by
  cases mode <;> constructor <;> simp [ReadMode.operands]

theorem opargs_modifyMode (mode : ModifyMode) (name : InstrMod) :
    HoldsOperands mode.operands s.chip.r.pc s.env
      (post flatMem (mode.func name.func) s).chip.opargs := by
  cases mode <;> constructor <;> simp [ModifyMode.operands]

theorem opargs_writeMode (mode : WriteMode) (v : Uint8) :
    HoldsOperands mode.operands s.chip.r.pc s.env
      (post flatMem (mode.func v) s).chip.opargs := by
  cases mode <;> constructor <;> simp [WriteMode.operands]

theorem opargs_branch (take : Bool) :
    HoldsOperands 1 s.chip.r.pc s.env (post flatMem (instrBranch take) s).chip.opargs := by
  cases take <;> constructor <;> simp [instrBranch]

theorem opargs_exec {c : Case} {n : Uint16} (hn : c.operands = some n) :
    HoldsOperands n s.chip.r.pc s.env (post flatMem c.exec s).chip.opargs := by
  have hzero (opargs : Reg16) : HoldsOperands 0 s.chip.r.pc s.env opargs := ⟨nofun, nofun⟩
  cases c with
  | impld func => cases func <;> cases hn <;> exact hzero _
  | read name mode =>
    cases hn
    exact opargs_readMode s mode name
  | modify name mode =>
    cases hn
    exact opargs_modifyMode s mode name
  | write mode reg =>
    cases hn
    exact opargs_writeMode s mode _
  | branch f v => cases hn
  | flag f v => cases hn; exact hzero _
  | transfer src dst => cases hn; exact hzero _
  | unknown => cases hn; exact hzero _

end Fetches

/-! ### Lengths -/

theorem numBytes_cases (id : Uint8) : numBytes id = 1 ∨ numBytes id = 2 ∨ numBytes id = 3 := by
  unfold numBytes
  cases instrMode id with
  | none => exact .inl rfl
  | some row => rcases row with ⟨-, mode⟩; cases mode <;> simp [AddrMode.numBytes]

/-- A case that runs straight on past `n` operand bytes. -/
structure StraightOn (s : Sys Cpu Mem) (n : Uint16) (s' : Sys Cpu Mem) (fetches : List Uint16) :
    Prop where
  pc : s'.chip.r.pc = s.chip.r.pc + n
  fetches : fetches = operandsAt s.chip.r.pc n
  opargs : HoldsOperands n s.chip.r.pc s.env s'.chip.opargs

theorem straightOn_exec (s : Sys Cpu Mem) {c : Case} {n : Uint16} (hn : c.operands = some n) :
    StraightOn s n (post flatMem c.exec s) (operandFetches flatMem c.exec s) :=
  ⟨exec_pc flatMem s hn, operandFetches_exec s hn, opargs_exec s hn⟩

/-- A branch that is not taken runs straight on too. -/
theorem straightOn_branch (s : Sys Cpu Mem) :
    StraightOn s 1 (post flatMem (instrBranch false) s)
      (operandFetches flatMem (instrBranch false) s) :=
  ⟨branch_pc flatMem s false, operandFetches_branch s false, opargs_branch s false⟩

/-- Off the jumps, the lengths of the table are those of the execution. -/
theorem straightOn_ordinary (s : Sys Cpu Mem) {id : Uint8} (ho : Ordinary id)
    (hb : tookBranch id s.chip.r.flags = false) :
    StraightOn s (BitVec.ofNat 16 (numBytes id) - 1) (post flatMem (executeTab id).exec s)
      (operandFetches flatMem (executeTab id).exec s) := by
  have hdesc := executeTab_describes id
  obtain ⟨h00, h20, h4C, h6C, h60, h40⟩ := ho
  cases hc : executeTab id with
  | branch f v =>
    rw [hc] at hdesc
    obtain ⟨-, hof, hlen⟩ := hdesc
    have hf : (f.get s.chip.r.flags == v) = false := by
      rw [tookBranch_eq, hof] at hb
      exact hb
    have hexec : post flatMem (Case.branch f v).exec s = post flatMem (instrBranch false) s ∧
        operandFetches flatMem (Case.branch f v).exec s =
          operandFetches flatMem (instrBranch false) s := by
      simp [Case.exec, operandFetches, hf]
    rw [hexec.1, hexec.2, hlen]
    exact straightOn_branch s
  | impld func =>
    rw [hc] at hdesc
    apply straightOn_exec
    cases func
    case brk => exact absurd hdesc h00
    case jsr => exact absurd hdesc h20
    case jmp => exact absurd hdesc h4C
    case jmpInd => exact absurd hdesc h6C
    case rts => exact absurd hdesc h60
    case rti => exact absurd hdesc h40
    all_goals exact hdesc.2.2
  | _ =>
    rw [hc] at hdesc
    exact straightOn_exec s hdesc.2.2

/-- **Lengths.** For every state and every flat memory, with no interrupt to execute: any opcode
but the jumps, the calls and the returns, undocumented ones included, and any branch that is not
taken leaves the program counter after the bytes `numBytes` counts, having fetched the operand
bytes the disassembler is shown; and an RTS that finds the return address of a JSR on the stack
goes to the instruction after it. -/
theorem run_length (s : Sys Cpu Mem) (hn : s.chip.sig.execnmi = false)
    (hi : s.chip.sig.execirq = false) :
    let id := s.env s.chip.r.pc
    let s' := post flatMem run s
    let shown := val flatMem status s
    (Ordinary id → tookBranch id s.chip.r.flags = false →
      s'.chip.r.pc = s.chip.r.pc + BitVec.ofNat 16 (numBytes id) ∧
      operandFetches flatMem run s = operandAddrs s.chip.r.pc (numBytes id) ∧
      (2 ≤ numBytes id → s'.chip.opargs.low = shown.op.low) ∧
      (3 ≤ numBytes id → s'.chip.opargs.high = shown.op.high)) ∧
    (id = 0x20 → ∀ t : Sys Cpu Mem, t.chip.sig.execnmi = false → t.chip.sig.execirq = false →
      t.env t.chip.r.pc = 0x60 → t.chip.r.sp = s'.chip.r.sp →
      (∀ i ∈ [s.chip.r.sp, s.chip.r.sp - 1], t.env (stackAddr i) = s'.env (stackAddr i)) →
      (post flatMem run t).chip.r.pc = s.chip.r.pc + BitVec.ofNat 16 (numBytes 0x20)) := by
  intro id s' shown
  constructor
  · intro ho hb
    have hstraight := straightOn_ordinary (fetched flatMem s) ho hb
    have hs' : s' = post flatMem (executeTab id).exec (fetched flatMem s) := post_run_flat s hn hi
    have hfetch : operandFetches flatMem run s =
        operandFetches flatMem (executeTab id).exec (fetched flatMem s) := by
      unfold operandFetches
      rw [asked_run_instr flatMem s hn hi]
      rfl
    have hnext : s.chip.r.pc + 1 + 1 = s.chip.r.pc + 2 := add_one_add_one _
    obtain ⟨hpc, hfetches, hlow, hhigh⟩ := hstraight
    rw [← hs'] at hpc hlow hhigh
    rw [hfetch, hfetches]
    have hshown : shown.op =
        Reg16.ofBytes (s.env (s.chip.r.pc + 1)) (s.env (s.chip.r.pc + 2)) := rfl
    rw [hshown, Reg16.low_ofBytes, Reg16.high_ofBytes, hpc]
    rcases numBytes_cases id with h | h | h <;> rw [h] at hlow hhigh ⊢
    · exact ⟨BitVec.add_assoc .., rfl, nofun, nofun⟩
    · exact ⟨BitVec.add_assoc .., rfl, fun _ => hlow (by decide), nofun⟩
    · refine ⟨BitVec.add_assoc .., ?_, fun _ => hlow (by decide), fun _ => ?_⟩
      · show [s.chip.r.pc + 1, s.chip.r.pc + 1 + 1] = _
        rw [hnext]
        rfl
      · rw [← hnext]
        exact hhigh (by decide)
  · intro hid t hn' hi' hid' hsp hcells
    exact (rts_returns stackPage_flatMem trivial trivial ⟨hn, hi, hid⟩ ⟨hsp, hcells⟩
      ⟨hn', hi', hid'⟩).1

/-- A memory with `JSR $03EA` at the start, an RTS there and NOPs everywhere else. -/
def jsrRts : Mem := fun a =>
  if a.toNat = 0 then 0x20 else if a.toNat = 2 then 0x03 else if a.toNat = 0x3EA then 0x60 else 0xEA

/-- The NOP at 4 is one byte long, and the call at 0 returns to 3. -/
theorem run_length_jsr :
    (post flatMem run ⟨{ r.pc := 4 }, jsrRts⟩).chip.r.pc = 5 ∧
      (post flatMem run (post flatMem run ⟨{}, jsrRts⟩)).chip.r.pc = 3 := by
  have hnop := (run_length ⟨{ r.pc := 4 }, jsrRts⟩ rfl rfl).1 (by decide) rfl
  have hjsr := (run_length ⟨{}, jsrRts⟩ rfl rfl).2 rfl (post flatMem run ⟨{}, jsrRts⟩) rfl rfl rfl
    rfl (fun _ _ => rfl)
  exact ⟨hnop.1, hjsr⟩

end Yanesemu.Cpu
