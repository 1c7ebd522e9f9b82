import Yanesemu.CpuCycles
import Yanesemu.CpuFlow

/-!
# The documented cycle counts

`documented` is the table of the processor's manual, written down opcode by opcode from the
counts and not from the source. The opcodes fall into three kinds: those with a count of their
own, the branches, and the reads in a mode that pays for a page crossing (`PagedMode`).

1. `executeTab_timing`: every case of the switch is of the kind its opcode has in the table.
2. `run_cycles`: the interrupts, the fixed counts and the branches take what the table says.
3. `pagedCount_iff`: the reads of the third kind do so exactly if the bytes the source happens to
   compare differ when the page is crossed, and only then.
-/

namespace Yanesemu.Cpu

open Interaction

/-! ### The table -/

/-- The reads that take another cycle for another page. -/
inductive PagedMode
  | absx | absy | indy
  deriving DecidableEq, Repr

/-- The cycles of such a read in one page. -/
def PagedMode.cycles : PagedMode → ℕ
  | absx | absy => 4
  | indy => 5

/-- How long an instruction takes. -/
inductive Timing
  | fixed (n : ℕ)
  | paged (mode : PagedMode)
  /-- The branch on a flag with this value. -/
  | branch (flag : Flag) (v : Bool)
  deriving DecidableEq, Repr

/-- The 151 documented opcodes. -/
def documented (id : Uint8) : Option Timing :=
  match id.toNat with
  -- immediate
  | 0x09 | 0x29 | 0x49 | 0x69 | 0xA0 | 0xA2 | 0xA9 | 0xC0 | 0xC9 | 0xE0 | 0xE9 => some (.fixed 2)
  -- accumulator
  | 0x0A | 0x2A | 0x4A | 0x6A => some (.fixed 2)
  -- implied: flags, transfers, counting, NOP
  | 0x18 | 0x38 | 0x58 | 0x78 | 0xB8 | 0xD8 | 0xF8 => some (.fixed 2)
  | 0x8A | 0x98 | 0x9A | 0xA8 | 0xAA | 0xBA => some (.fixed 2)
  | 0x88 | 0xC8 | 0xCA | 0xE8 | 0xEA => some (.fixed 2)
  -- zero page: read, write, modify
  | 0x05 | 0x24 | 0x25 | 0x45 | 0x65 | 0xA4 | 0xA5 | 0xA6 | 0xC4 | 0xC5 | 0xE4 | 0xE5 =>
    some (.fixed 3)
  | 0x84 | 0x85 | 0x86 => some (.fixed 3)
  | 0x06 | 0x26 | 0x46 | 0x66 | 0xC6 | 0xE6 => some (.fixed 5)
  -- zero page indexed: read, write, modify
  | 0x15 | 0x35 | 0x55 | 0x75 | 0xB4 | 0xB5 | 0xB6 | 0xD5 | 0xF5 => some (.fixed 4)
  | 0x94 | 0x95 | 0x96 => some (.fixed 4)
  | 0x16 | 0x36 | 0x56 | 0x76 | 0xD6 | 0xF6 => some (.fixed 6)
  -- absolute: read, write, modify
  | 0x0D | 0x2C | 0x2D | 0x4D | 0x6D | 0xAC | 0xAD | 0xAE | 0xCC | 0xCD | 0xEC | 0xED =>
    some (.fixed 4)
  | 0x8C | 0x8D | 0x8E => some (.fixed 4)
  | 0x0E | 0x2E | 0x4E | 0x6E | 0xCE | 0xEE => some (.fixed 6)
  -- absolute indexed: read, write, modify
  | 0x1D | 0x3D | 0x5D | 0x7D | 0xBC | 0xBD | 0xDD | 0xFD => some (.paged .absx)
  | 0x19 | 0x39 | 0x59 | 0x79 | 0xB9 | 0xBE | 0xD9 | 0xF9 => some (.paged .absy)
  | 0x99 | 0x9D => some (.fixed 5)
  | 0x1E | 0x3E | 0x5E | 0x7E | 0xDE | 0xFE => some (.fixed 7)
  -- (zp,X): read, write
  | 0x01 | 0x21 | 0x41 | 0x61 | 0xA1 | 0xC1 | 0xE1 => some (.fixed 6)
  | 0x81 => some (.fixed 6)
  -- (zp),Y: read, write
  | 0x11 | 0x31 | 0x51 | 0x71 | 0xB1 | 0xD1 | 0xF1 => some (.paged .indy)
  | 0x91 => some (.fixed 6)
  -- PHP and PHA, PLP and PLA
  | 0x08 | 0x48 => some (.fixed 3)
  | 0x28 | 0x68 => some (.fixed 4)
  -- JMP, indirect JMP, JSR, RTI, RTS, BRK
  | 0x4C => some (.fixed 3)
  | 0x6C => some (.fixed 5)
  | 0x20 | 0x40 | 0x60 => some (.fixed 6)
  | 0x00 => some (.fixed 7)
  -- branches
  | 0x10 => some (.branch .neg false)
  | 0x30 => some (.branch .neg true)
  | 0x50 => some (.branch .ov false)
  | 0x70 => some (.branch .ov true)
  | 0x90 => some (.branch .carry false)
  | 0xB0 => some (.branch .carry true)
  | 0xD0 => some (.branch .zero false)
  | 0xF0 => some (.branch .zero true)
  | _ => none

example : (List.range 256).countP (fun n => (documented (BitVec.ofNat 8 n)).isSome) = 151 := by
  decide +kernel

/-! ### The switch against the table -/

def PagedMode.read : PagedMode → ReadMode
  | absx => .absx
  | absy => .absy
  | indy => .indy

/-- How long a case of the switch takes; the cycle of the opcode fetch is counted. -/
def Case.timing : Case → Option Timing
  | .read _ .absx => some (.paged .absx)
  | .read _ .absy => some (.paged .absy)
  | .read _ .indy => some (.paged .indy)
  | .branch f v => some (.branch f v)
  | .unknown => none
  | c => some (.fixed (1 + c.cycles))

theorem executeTab_timing : ∀ id : Uint8, (executeTab id).timing = documented id := by
  decide +kernel

/-- A case with a count of its own takes no further cycle. -/
theorem Case.extra_of_fixed {c : Case} {n : ℕ} (hc : c.timing = some (.fixed n)) :
    n = 1 + c.cycles ∧ c.extra = 0 := by
  cases c with
  | read name mode => cases mode <;> cases hc <;> exact ⟨rfl, rfl⟩
  | branch f v => cases hc
  | unknown => cases hc
  | _ =>
    cases hc
    exact ⟨rfl, rfl⟩

theorem Case.eq_of_branch {c : Case} {f : Flag} {v : Bool}
    (hc : c.timing = some (.branch f v)) : c = .branch f v := by
  cases c with
  | read name mode => cases mode <;> cases hc
  | branch f' v' =>
    cases hc
    rfl
  | _ => cases hc

theorem Case.eq_of_paged {c : Case} {mode : PagedMode} (hc : c.timing = some (.paged mode)) :
    ∃ name, c = .read name mode.read := by
  cases c with
  | read name m => cases m <;> cases hc <;> exact ⟨name, rfl⟩
  | _ => cases hc

variable {σ : Type} (H : Handler cpuSig σ) (s : Sys Cpu σ)

/-! ### Fixed counts, branches and interrupts -/

/-- The byte after the opcode, as the instruction reads it. -/
def operandByte : Uint8 := val H fetchop (fetched H s)

/-- The address after a branch. -/
def branchNext (c : Cpu) : Reg16 := c.r.pc + 2

/-- Where a taken branch goes. -/
def branchTarget : Reg16 := branchNext s.chip + (operandByte H s).signExtend 16

/-- The count of a branch: two cycles, one more if it is taken and another one if it is taken to
another page than that of the next instruction. -/
def branchCount (f : Flag) (v : Bool) : ℕ :=
  if f.get s.chip.r.flags = v then
    if Reg16.high (branchTarget H s) ≠ Reg16.high (branchNext s.chip) then 4 else 3
  else 2

theorem branchCount_eq (f : Flag) (v : Bool) :
    branchCount H s f v =
      1 + (1 + branchExtra H (fetched H s) (f.get s.chip.r.flags == v)) := by
  have hnext : branchNext s.chip = (fetched H s).chip.r.pc + 1 := (add_one_add_one _).symm
  have htarget : branchTarget H s =
      branchNext s.chip + (readVal H (fetched H s).chip.r.pc (fetched H s).env).signExtend 16 :=
    rfl
  unfold branchCount branchExtra
  rw [htarget, hnext]
  by_cases htake : f.get s.chip.r.flags = v
  · rw [if_pos htake, if_pos (beq_iff_eq.mpr htake)]
    split
    case isTrue hpage => rw [bne_iff_ne.mpr hpage.symm]; rfl
    case isFalse hpage => rw [not_not.mp hpage, bne_self_eq_false]; rfl
  · rw [if_neg htake, if_neg (mt beq_iff_eq.mp htake)]

/-- The documented count of what `run` executes, the reads that pay for a page apart. -/
def documentedCount : Option ℕ :=
  if s.chip.sig.execnmi ∨ s.chip.sig.execirq then some 7
  else match documented (opcode H s) with
    | some (.fixed n) => some n
    | some (.branch f v) => some (branchCount H s f v)
    | some (.paged _) => none
    | none => none

/-- **Documented counts.** An interrupt takes seven cycles, and an instruction, on any state and
any memory, the count of its opcode and, for a branch, of its flag and its target. -/
theorem run_cycles {n : ℕ} (h : documentedCount H s = some n) :
    Took n s.chip (post H run s).chip := by
  unfold documentedCount at h
  split at h
  case isTrue hexec =>
    cases h
    exact interrupt_run_took H s hexec
  case isFalse hexec =>
    obtain ⟨hn, hi⟩ := not_or.mp hexec
    rw [Bool.not_eq_true] at hn hi
    have htiming := executeTab_timing (opcode H s)
    cases hdoc : documented (opcode H s) with
    | none => rw [hdoc] at h; cases h
    | some timing =>
      rw [hdoc] at h htiming
      cases timing with
      | fixed k =>
        cases h
        obtain ⟨rfl, hextra⟩ := Case.extra_of_fixed htiming
        obtain ⟨k, hk, htook⟩ := exec_took H (fetched H s) (executeTab (opcode H s))
        obtain rfl : k = 0 := by omega
        exact instr_run_took H s hn hi htook
      | paged mode => cases h
      | branch f v =>
        cases h
        rw [branchCount_eq]
        apply instr_run_took H s hn hi
        rw [Case.eq_of_branch htiming]
        exact branch_took H (fetched H s) _

/-- A memory with `BEQ *-2` at `$80FE`: the target `$80FE` and the next instruction `$8100` are
in different pages. -/
def beqBack : Mem := fun a => if a.toNat = 0x80FE then 0xF0 else 0xFE

/-- The branch takes four cycles if Z is set. -/
theorem run_cycles_branch :
    documentedCount flatMem ⟨{ r.pc := 0x80FE, r.flags.zero := true }, beqBack⟩ = some 4 ∧
      Took 4 { r.pc := 0x80FE, r.flags.zero := true }
        (post flatMem run ⟨{ r.pc := 0x80FE, r.flags.zero := true }, beqBack⟩).chip :=
  ⟨by decide, run_cycles flatMem ⟨{ r.pc := 0x80FE, r.flags.zero := true }, beqBack⟩ (by decide)⟩

/-! ### Reads that pay for another page -/

/-- The index register of the mode. -/
def PagedMode.index (c : Cpu) : PagedMode → Uint8
  | absx => c.r.x
  | absy | indy => c.r.y

/-- The absolute operand: the two bytes after the opcode, as the instruction reads them. -/
def absoluteBase : Reg16 :=
  Reg16.ofBytes (operandByte H s) (val H fetchop (post H fetchop (fetched H s)))

/-- The pointer of `(zp),Y`, as the instruction reads it. -/
def indirectBase : Reg16 :=
  let zp : Uint16 := (operandByte H s).setWidth 16
  let s₁ := post H fetchLow (fetched H s)
  Reg16.ofBytes (val H (readmem zp) s₁) (val H (readmem (zp + 1)) (post H (readmem zp) s₁))

/-- The address the index is added to. -/
def PagedMode.base : PagedMode → Reg16
  | absx | absy => absoluteBase H s
  | indy => indirectBase H s

/-- The address of the data. -/
def PagedMode.effective (mode : PagedMode) : Reg16 :=
  mode.base H s + (mode.index s.chip).setWidth 16

/-- The documented count of these reads: a cycle more if the effective address is in another page
than the base. -/
def PagedCount (mode : PagedMode) : Prop :=
  Took (mode.cycles +
      if Reg16.high (mode.effective H s) ≠ Reg16.high (mode.base H s) then 1 else 0)
    s.chip (post H run s).chip

/-- The comparison of the source. Of the absolute modes it compares the base with the high byte
of a data byte, of `(zp),Y` the effective address with what is left in `opargs`. -/
def PagedMode.charged : PagedMode → Bool
  | absx | absy => Reg16.high (absoluteBase H s) != 0
  | indy => Reg16.high s.chip.opargs != Reg16.high (PagedMode.indy.effective H s)

theorem high_byte (v : Uint8) : Reg16.high (v.setWidth 16) = 0 := by
  apply BitVec.eq_of_toNat_eq
  have := v.isLt
  rw [Reg16.toNat_high, BitVec.toNat_setWidth]
  show _ = 0
  omega

theorem paged_took (mode : PagedMode) (name : InstrRead) :
    Took (mode.read.cycles + (mode.charged H s).toNat) (fetched H s).chip
      (post H (Case.read name mode.read).exec (fetched H s)).chip := by
  apply took_add_ofBool
  cases mode with
  | absx | absy =>
    simp [Case.exec, PagedMode.read, PagedMode.charged, absoluteBase, operandByte,
      ReadMode.cycles, BitVec.add_assoc, high_byte]
  | indy =>
    simp [Case.exec, PagedMode.read, PagedMode.charged, PagedMode.effective, PagedMode.base,
      PagedMode.index, indirectBase, operandByte, ReadMode.cycles, BitVec.add_assoc]
    rfl

/-- Adding an index changes the high byte if the low bytes carry. -/
theorem high_add_ne_iff (base : Reg16) (idx : Uint8) :
    Reg16.high (base + idx.setWidth 16) ≠ Reg16.high base ↔
      0x100 ≤ (Reg16.low base).toNat + idx.toNat := by
  have hbase := base.isLt
  have hidx := idx.isLt
  rw [ne_eq, ← BitVec.toNat_inj, Reg16.toNat_high, Reg16.toNat_high, Reg16.toNat_low,
    BitVec.toNat_add, BitVec.toNat_setWidth]
  omega

theorem Took.unique {m n : ℕ} {c c' : Cpu} (hm : m < 2 ^ 64) (hn : n < 2 ^ 64)
    (h : Took m c c') (h' : Took n c c') : m = n := by
  have heq : BitVec.ofNat 64 m = BitVec.ofNat 64 n :=
    (BitVec.add_right_inj _).mp (h.symm.trans h')
  have hnat := congrArg BitVec.toNat heq
  rwa [BitVec.toNat_ofNat, BitVec.toNat_ofNat, Nat.mod_eq_of_lt hm, Nat.mod_eq_of_lt hn] at hnat

/-- The low byte of the base and the index carry into the next page. -/
def PagedMode.Crosses (mode : PagedMode) : Prop :=
  0x100 ≤ (Reg16.low (mode.base H s)).toNat + (mode.index s.chip).toNat

/-- **Page crossings.** A read in one of these modes takes the documented count exactly if the
comparison of the source comes out as the carry does. -/
theorem pagedCount_iff (hn : s.chip.sig.execnmi = false) (hi : s.chip.sig.execirq = false)
    {mode : PagedMode} (hdoc : documented (opcode H s) = some (.paged mode)) :
    PagedCount H s mode ↔ (mode.charged H s = true ↔ mode.Crosses H s) := by
  have htiming := executeTab_timing (opcode H s)
  rw [hdoc] at htiming
  obtain ⟨name, hcase⟩ := Case.eq_of_paged htiming
  have htook : Took (mode.cycles + (mode.charged H s).toNat) s.chip (post H run s).chip := by
    have h := instr_run_took H s hn hi (by rw [hcase]; exact paged_took H s mode name)
    have hcycles : 1 + mode.read.cycles = mode.cycles := by cases mode <;> rfl
    rwa [← Nat.add_assoc, hcycles] at h
  have hcross : Reg16.high (mode.effective H s) ≠ Reg16.high (mode.base H s) ↔
      mode.Crosses H s := high_add_ne_iff _ _
  have hle : mode.cycles ≤ 5 := by cases mode <;> decide
  have hbit := (mode.charged H s).toNat_le
  have hcount : PagedCount H s mode ↔
      (if Reg16.high (mode.effective H s) ≠ Reg16.high (mode.base H s) then 1 else 0) =
        (mode.charged H s).toNat := by
    constructor
    · intro h
      have heq := Took.unique (by split <;> omega) (by omega) h htook
      exact Nat.add_left_cancel heq
    · intro h
      unfold PagedCount
      rwa [h]
  rw [hcount, ← hcross]
  cases mode.charged H s <;> simp

/-- A memory with `LDA abs,X` at the start, operand `lo` and `hi`. -/
def ldaAbsx (lo hi : Uint8) : Mem := fun a =>
  if a.toNat = 0 then 0xBD else if a.toNat = 1 then lo else if a.toNat = 2 then hi else 0

/-- `LDA $80FF,X` with X = 1 crosses a page and takes the fifth cycle. -/
theorem pagedCount_crossing : PagedCount flatMem ⟨{ r.x := 1 }, ldaAbsx 0xFF 0x80⟩ .absx :=
  (pagedCount_iff flatMem ⟨{ r.x := 1 }, ldaAbsx 0xFF 0x80⟩ rfl rfl rfl).mpr (by
    unfold PagedMode.Crosses; decide)

/-- `LDA $8000,X` with X = 0 stays in its page and takes a fifth cycle nevertheless. -/
theorem not_pagedCount_in_page :
    ¬∀ (s : Sys Cpu Mem) (mode : PagedMode), s.chip.sig.execnmi = false →
      s.chip.sig.execirq = false → documented (opcode flatMem s) = some (.paged mode) →
      PagedCount flatMem s mode := by
  intro h
  have hcount := h ⟨{}, ldaAbsx 0 0x80⟩ .absx rfl rfl rfl
  unfold PagedCount Took at hcount
  exact absurd hcount (by decide)

end Yanesemu.Cpu
