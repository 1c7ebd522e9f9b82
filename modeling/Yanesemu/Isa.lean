import Yanesemu.CpuStores
import Yanesemu.InstrArith
import Yanesemu.NmiDelivery
import Yanesemu.StatusByte

/-!
# The machine a program sees

A program for the emulator is written for a machine that executes one instruction of the manual
after the other, or enters an interrupt. `Isa.State` is that machine: the registers, 64 KiB of
memory and the interrupt signals. Its instructions are functions of numbers and cells; it has no
cycles, no scratch register, no order of bus accesses and no addressing-mode functions that take
instruction functions.

It is the machine of this emulator, not of the chip: BIT sets N and Z the way `instrBit` does,
SBC takes the sign of its operand uncomplemented for V, an index does not wrap in the zero page,
TXS sets N and Z, BRK pushes the address of its second byte, and an undocumented opcode is one byte
that does nothing. The signals, with how they are polled and acknowledged, are those of the CPU.

`follows`: whatever sequence of calls is made to the CPU on a flat memory, this machine keeps step
with it.
-/

namespace Yanesemu.Isa

open Interaction EventRun Cpu

/-- Registers, signals and memory. -/
@[ext] structure State where
  pc : Uint16
  acc : Uint8
  x : Uint8
  y : Uint8
  sp : Uint8
  flags : ProcStatus
  sig : Signals
  mem : Mem

namespace State

variable (s : State)

/-! ## Registers and flags -/

def reg : Reg8 → Uint8
  | .acc => s.acc
  | .x => s.x
  | .y => s.y
  | .sp => s.sp

def setReg (v : Uint8) : Reg8 → State
  | .acc => { s with acc := v }
  | .x => { s with x := v }
  | .y => { s with y := v }
  | .sp => { s with sp := v }

/-- Z and N of a result. -/
def showing (v : Uint8) : State :=
  { s with flags.zero := decide (v = 0), flags.neg := decide (128 ≤ v.toNat) }

/-- A result goes to a register. -/
def load (r : Reg8) (v : Uint8) : State := (s.setReg v r).showing v

/-- The accumulator, `n` and the carry. -/
def total (n : ℕ) : ℕ := s.acc.toNat + n + s.flags.carry.toNat

/-- An addition; V is decided by the instruction. -/
def sum (n : ℕ) (ov : Bool) : State :=
  { s.load .acc (BitVec.ofNat 8 (s.total n)) with
    flags.carry := decide (256 ≤ s.total n), flags.ov := ov }

/-- The signed sum of two bytes and a carry is not a signed byte. -/
def addOverflows (a v : Uint8) (c : Bool) : Bool :=
  let n := a.toInt + v.toInt + c.toNat
  decide (n < -128 ∨ 128 ≤ n)

/-- The difference has another sign than the two numbers had. -/
def subOverflows (a v : Uint8) (c : Bool) : Bool :=
  (a.msb == v.msb) && (a.msb != (a + ~~~v + ofBool 8 c).msb)

def compare (r : Reg8) (v : Uint8) : State :=
  { s with
    flags.zero := decide (s.reg r = v)
    flags.carry := decide (v.toNat ≤ (s.reg r).toNat)
    flags.neg := decide (128 ≤ (s.reg r - v).toNat) }

/-! ## Operations -/

/-- An instruction with the operand `v`. -/
def read (v : Uint8) : InstrRead → State
  | .lda => s.load .acc v
  | .ldx => s.load .x v
  | .ldy => s.load .y v
  | .cmp => s.compare .acc v
  | .cpx => s.compare .x v
  | .cpy => s.compare .y v
  | .adc => s.sum v.toNat (addOverflows s.acc v s.flags.carry)
  | .sbc => s.sum (255 - v.toNat) (subOverflows s.acc v s.flags.carry)
  | .ora => s.load .acc (s.acc ||| v)
  | .and => s.load .acc (s.acc &&& v)
  | .eor => s.load .acc (s.acc ^^^ v)
  | .bit => { s with
      flags.neg := decide (s.acc &&& v = 0)
      flags.zero := decide (v = 0)
      flags.ov := v.getLsbD 6 }

/-- What a shift or a count makes of `v`. -/
def result (v : Uint8) (name : InstrMod) : Uint8 :=
  BitVec.ofNat 8 (name.number s.flags.carry v.toNat)

def modify (v : Uint8) (name : InstrMod) : State :=
  { s.showing (s.result v name) with flags.carry := name.carryOut s.flags.carry v.toNat }

def push (v : Uint8) : State :=
  { s with mem := Function.update s.mem (stackAddr s.sp) v, sp := s.sp - 1 }

/-- The byte `n` places up the stack. -/
def stack (n : Uint8) : Uint8 := s.mem (stackAddr (s.sp + n))

/-- The little-endian word at an address. -/
def word (a : Uint16) : Uint16 := Reg16.ofBytes (s.mem a) (s.mem (a + 1))

def regs : Regs :=
  { pc := s.pc, acc := s.acc, x := s.x, y := s.y, sp := s.sp, flags := s.flags }

/-- The address of the operand of the instruction at the program counter. -/
def address (mode : AddrMode) : Uint16 := effAddr s.regs s.mem (s.pc + 1) mode

/-- The address behind the instruction at the program counter. -/
def next (mode : AddrMode) : Uint16 := s.pc + BitVec.ofNat 16 mode.numBytes

def implied : InstrImpld → State
  | .inx => s.load .x (s.x + 1)
  | .iny => s.load .y (s.y + 1)
  | .dex => s.load .x (s.x - 1)
  | .dey => s.load .y (s.y - 1)
  | .pha => s.push s.acc
  | .php => { s.push { s.flags with breakf := true }.toByte with flags.breakf := false }
  | .pla => { s.load .acc (s.stack 1) with sp := s.sp + 1 }
  | .plp => { s with flags := restored (s.stack 1), sp := s.sp + 1 }
  | .jsr => { (s.push (Reg16.high (s.pc + 2))).push (Reg16.low (s.pc + 2)) with
      pc := s.word (s.pc + 1) }
  | .rts => { s with pc := Reg16.ofBytes (s.stack 1) (s.stack 2) + 1, sp := s.sp + 2 }
  | .rti => { s with
      flags := restored (s.stack 1), pc := Reg16.ofBytes (s.stack 2) (s.stack 3), sp := s.sp + 3 }
  | .jmp => { s with pc := s.word (s.pc + 1) }
  | .jmpInd => { s with
      pc := Reg16.ofBytes (s.mem (s.word (s.pc + 1))) (s.mem (indHigh (s.word (s.pc + 1)))) }
  | .nop | .brk => s

/-- Where an instruction leaves the program counter if it does not run straight on. -/
def Jumps : InstrImpld → Prop
  | .jsr | .rts | .rti | .jmp | .jmpInd => True
  | _ => False

instance (func : InstrImpld) : Decidable (Jumps func) := by
  cases func <;> simp only [Jumps] <;> infer_instance

/-- An instruction of the manual; BRK is `interrupt`. -/
def exec : Operation → AddrMode → State
  | .read name, mode => { s.read (s.mem (s.address mode)) name with pc := s.next mode }
  | .modify name, .accum =>
    { s.modify s.acc name with acc := s.result s.acc name, pc := s.next .accum }
  | .modify name, mode =>
    let a := s.address mode
    { s.modify (s.mem a) name with
      mem := Function.update s.mem a (s.result (s.mem a) name), pc := s.next mode }
  | .store r, mode =>
    { s with mem := Function.update s.mem (s.address mode) (s.reg r), pc := s.next mode }
  | .branch f v, _ =>
    { s with pc := if f.get s.flags = v then s.pc + 2 + (s.mem (s.pc + 1)).signExtend 16
        else s.pc + 2 }
  | .flag f v, mode => { s with flags := f.set s.flags v, pc := s.next mode }
  | .transfer src dst, mode => { s.load dst (s.reg src) with pc := s.next mode }
  | .impld func, mode =>
    if Jumps func then s.implied func else { s.implied func with pc := s.next mode }

/-! ## Steps -/

/-- Where the interrupt sequence finds its address: for a reset, an NMI, or an IRQ and BRK. -/
def vector : Uint16 :=
  if s.sig.resetpending then 0xFFFC else if s.sig.nmipending then 0xFFFA else 0xFFFE

/-- A vector lies in the ROM. -/
theorem vector_rom : 0x8000 ≤ s.vector.toNat ∧ 0x8000 ≤ (s.vector + 1).toNat := by
  unfold vector
  split_ifs <;> decide

/-- The interrupt sequence, with what it pushes. -/
def interrupt (ret : Uint16) (flags : ProcStatus) : State :=
  let t := ((s.push (Reg16.high ret)).push (Reg16.low ret)).push flags.toByte
  { t with
    pc := t.word s.vector
    flags := { s.flags with breakf := false, intdis := true }
    sig := s.sig.enter }

/-- The signals are polled with the I flag `b`. -/
def poll (b : Bool) : State := { s with sig := s.sig.polled b }

/-- One instruction with its poll: with the I flag it finds, except that RTI polls with the flag
it has pulled and BRK does not poll. -/
def instr : Operation → AddrMode → State
  | .impld .brk, _ => s.interrupt (s.pc + 1) { s.flags with breakf := true }
  | .impld .rti, _ => (s.implied .rti).poll (s.implied .rti).flags.intdis
  | op, mode => (s.exec op mode).poll s.flags.intdis

/-- One step: an interrupt that was decided on at the last poll, or an instruction. -/
def step : State :=
  if s.sig.execnmi then { s.interrupt s.pc s.flags with sig.execnmi := false }
  else if s.sig.execirq then { s.interrupt s.pc s.flags with sig.execirq := false }
  else match manual (s.mem s.pc) with
    | some (op, mode) => s.instr op mode
    | none => { s with pc := s.pc + 1 }

variable {s} in
theorem step_nmi (hn : s.sig.execnmi = true) :
    s.step = { s.interrupt s.pc s.flags with sig.execnmi := false } := if_pos hn

variable {s} in
theorem step_irq (hn : s.sig.execnmi = false) (hi : s.sig.execirq = true) :
    s.step = { s.interrupt s.pc s.flags with sig.execirq := false } := by
  rw [step, if_neg (Bool.eq_false_iff.mp hn), if_pos hi]

variable {s} in
theorem step_of_manual (hn : s.sig.execnmi = false) (hi : s.sig.execirq = false)
    {op : Operation} {mode : AddrMode} (hm : manual (s.mem s.pc) = some (op, mode)) :
    s.step = s.instr op mode := by
  rw [step, if_neg (Bool.eq_false_iff.mp hn), if_neg (Bool.eq_false_iff.mp hi), hm]

variable {s} in
theorem step_undocumented (hn : s.sig.execnmi = false) (hi : s.sig.execirq = false)
    (hm : manual (s.mem s.pc) = none) : s.step = { s with pc := s.pc + 1 } := by
  rw [step, if_neg (Bool.eq_false_iff.mp hn), if_neg (Bool.eq_false_iff.mp hi), hm]

/-- What `power` clears. -/
def Cleared (a : Uint16) : Prop :=
  a.toNat < 0x800 ∨ (0x4000 ≤ a.toNat ∧ a.toNat < 0x4013) ∨ a = 0x4015 ∨ a = 0x4017

instance (a : Uint16) : Decidable (Cleared a) := by unfold Cleared; infer_instance

def call : Call → State
  | .run => s.step
  | .fireNmi => { s with sig.nmipending := true }
  | .fireIrq => { s with sig.irqpending := true }
  | .reset =>
    { s with
      sig.resetpending := true
      mem := Function.update s.mem 0x4015 0 }.interrupt s.pc s.flags
  | .power =>
    { s with
      acc := 0, x := 0, y := 0, sp := 0, flags := {}, sig.resetpending := true
      mem := fun a => if Cleared a then 0 else s.mem a }.interrupt s.pc {}

end State

/-! ## The CPU as such a machine -/

/-- What a program sees of the registers. -/
def ofRegs (r : Regs) (sig : Signals) (m : Mem) : State :=
  ⟨r.pc, r.acc, r.x, r.y, r.sp, r.flags, sig, m⟩

def view (s : Sys Cpu Mem) : State := ofRegs s.chip.r s.chip.sig s.env

/-! ### Instruction functions -/

theorem setZN_eq (p : ProcStatus) (v : Uint8) :
    p.setZN v = { p with zero := decide (v = 0), neg := decide (128 ≤ v.toNat) } := by
  have hneg : truthy (v &&& 0x80) = decide (128 ≤ v.toNat) := by
    rw [truthy_and_80, BitVec.msb_eq_decide]
  unfold ProcStatus.setZN
  rw [hneg, Bool.beq_eq_decide_eq]

theorem showing_ofRegs (r : Regs) (sig : Signals) (m : Mem) (v : Uint8) :
    (ofRegs r sig m).showing v = ofRegs { r with flags := r.flags.setZN v } sig m := by
  rw [setZN_eq]; rfl

theorem load_ofRegs (r : Regs) (sig : Signals) (m : Mem) (dst : Reg8) (v : Uint8) :
    (ofRegs r sig m).load dst v =
      ofRegs { dst.set r v with flags := r.flags.setZN v } sig m := by
  rw [← Reg8.set_flags r v dst, ← showing_ofRegs (dst.set r v)]
  cases dst <;> rfl

/-- V of an addition, by the signs of the two bytes and of their sum. -/
theorem addOverflows_eq (a v : Uint8) (c : Bool) :
    State.addOverflows a v c =
      ((a.msb ^^ (a + v + ofBool 8 c).msb) && !(a.msb ^^ v.msb)) := by
  have ha := a.isLt
  have hv := v.isLt
  have hc := c.toNat_le
  have hsum : (a + v + ofBool 8 c).toNat = (a.toNat + v.toNat + c.toNat) % 256 := by
    rw [BitVec.toNat_add, BitVec.toNat_add, toNat_ofBool (by decide)]; omega
  simp only [State.addOverflows, BitVec.msb_eq_decide, BitVec.toInt_eq_toNat_cond, hsum]
  by_cases h₁ : 128 ≤ a.toNat <;> by_cases h₂ : 128 ≤ v.toNat <;>
      by_cases h₃ : 128 ≤ (a.toNat + v.toNat + c.toNat) % 256 <;>
        simp [h₁, h₂, h₃] <;> omega

/-- A result whose Z and N are in the flags already. -/
theorem showing_of_showsResult {s : State} {v : Uint8} {p : ProcStatus} (h : p.ShowsResult v) :
    s.showing v = { s with flags.zero := p.zero, flags.neg := p.neg } := by
  have hz : decide (v = 0) = p.zero := by rw [Bool.eq_iff_iff, decide_eq_true_iff, h.1]
  have hn : decide (128 ≤ v.toNat) = p.neg := by rw [h.2, BitVec.msb_eq_decide]
  unfold State.showing
  rw [hz, hn]

/-- One sum for ADC and SBC. -/
theorem sum_ofRegs (r : Regs) (sig : Signals) (m : Mem) (v ovArg : Uint8) :
    (ofRegs r sig m).sum v.toNat ((r.acc.msb ^^ (summed r v ovArg).acc.msb) &&
      !(r.acc.msb ^^ ovArg.msb)) = ofRegs (summed r v ovArg) sig m := by
  have hacc : BitVec.ofNat 8 ((ofRegs r sig m).total v.toNat) = (summed r v ovArg).acc := by
    apply BitVec.eq_of_toNat_eq
    rw [toNat_summed_acc, BitVec.toNat_ofNat]
    rfl
  have hcarry : decide (256 ≤ (ofRegs r sig m).total v.toNat) = (summed r v ovArg).flags.carry :=
    (summed_carry r v ovArg).symm
  unfold State.sum
  unfold State.load
  rw [hacc, hcarry, showing_of_showsResult (summed_showsResult r v ovArg), ← summed_ov r v ovArg]
  rfl

theorem acc_summed (r : Regs) (v ovArg : Uint8) :
    (summed r v ovArg).acc = r.acc + v + ofBool 8 r.flags.carry := by
  apply BitVec.eq_of_toNat_eq
  rw [toNat_summed_acc, BitVec.toNat_add, BitVec.toNat_add, toNat_ofBool (by decide)]
  omega

theorem adc_ofRegs (r : Regs) (sig : Signals) (m : Mem) (v : Uint8) :
    (ofRegs r sig m).read v .adc = ofRegs (summed r v v) sig m := by
  rw [← sum_ofRegs r sig m v v, acc_summed, ← addOverflows_eq]
  rfl

theorem sbc_ofRegs (r : Regs) (sig : Signals) (m : Mem) (v : Uint8) :
    (ofRegs r sig m).read v .sbc = ofRegs (summed r (~~~v) v) sig m := by
  have hnot : (~~~v).toNat = 255 - v.toNat := by rw [BitVec.toNat_not]
  have hov : State.subOverflows r.acc v r.flags.carry =
      ((r.acc.msb ^^ (summed r (~~~v) v).acc.msb) && !(r.acc.msb ^^ v.msb)) := by
    rw [acc_summed, State.subOverflows]
    generalize (r.acc + ~~~v + ofBool 8 r.flags.carry).msb = c
    cases r.acc.msb <;> cases v.msb <;> cases c <;> rfl
  rw [← sum_ofRegs r sig m (~~~v) v, ← hov, hnot]
  rfl

theorem compare_ofRegs (r : Regs) (sig : Signals) (m : Mem) (v : Uint8) {name : InstrRead}
    {src : Reg8} (hname : name.compared = some src) :
    (ofRegs r sig m).compare src v = ofRegs (name.regs v r) sig m := by
  have h := compare_comparesTo r v hname
  have hsrc : (ofRegs r sig m).reg src = src.get r := by cases src <;> rfl
  have hz : decide (src.get r = v) = (name.regs v r).flags.zero := by
    rw [Bool.eq_iff_iff, decide_eq_true_iff, h.zero]
  have hc : decide (v.toNat ≤ (src.get r).toNat) = (name.regs v r).flags.carry := by
    rw [Bool.eq_iff_iff, decide_eq_true_iff, h.carry]
  have hn : decide (128 ≤ (src.get r - v).toNat) = (name.regs v r).flags.neg := by
    rw [h.neg, BitVec.msb_eq_decide]
  unfold State.compare
  rw [hsrc, hz, hc, hn]
  cases name <;> cases hname <;> rfl

theorem bit_ofRegs (r : Regs) (sig : Signals) (m : Mem) (v : Uint8) :
    (ofRegs r sig m).read v .bit = ofRegs (InstrRead.bit.regs v r) sig m := by
  have hov : truthy (v &&& 0x40) = v.getLsbD 6 := truthy_and_twoPow (i := 6) v (by decide)
  simp only [State.read]
  rw [← hov, ← Bool.beq_eq_decide_eq, ← Bool.beq_eq_decide_eq]
  rfl

/-- A read instruction. -/
theorem read_ofRegs (r : Regs) (sig : Signals) (m : Mem) (v : Uint8) (name : InstrRead) :
    (ofRegs r sig m).read v name = ofRegs (name.regs v r) sig m := by
  cases name with
  | lda => exact load_ofRegs r sig m .acc v
  | ldx => exact load_ofRegs r sig m .x v
  | ldy => exact load_ofRegs r sig m .y v
  | cmp => exact compare_ofRegs r sig m v rfl
  | cpx => exact compare_ofRegs r sig m v rfl
  | cpy => exact compare_ofRegs r sig m v rfl
  | adc => exact adc_ofRegs r sig m v
  | sbc => exact sbc_ofRegs r sig m v
  | ora => exact load_ofRegs r sig m .acc (r.acc ||| v)
  | and => exact load_ofRegs r sig m .acc (r.acc &&& v)
  | eor => exact load_ofRegs r sig m .acc (r.acc ^^^ v)
  | bit => exact bit_ofRegs r sig m v

theorem result_ofRegs (r : Regs) (sig : Signals) (m : Mem) (v : Uint8) (name : InstrMod) :
    (ofRegs r sig m).result v name = name.result v r := by
  have h : (name.result v r).toNat < 256 := (name.result v r).isLt
  rw [InstrMod.toNat_result] at h
  apply BitVec.eq_of_toNat_eq
  rw [InstrMod.toNat_result]
  exact (BitVec.toNat_ofNat ..).trans (Nat.mod_eq_of_lt h)

theorem modify_ofRegs (r : Regs) (sig : Signals) (m : Mem) (v : Uint8) (name : InstrMod) :
    (ofRegs r sig m).modify v name = ofRegs (name.regs v r) sig m := by
  have hcarry : name.carryOut (ofRegs r sig m).flags.carry v.toNat = (name.regs v r).flags.carry :=
    (InstrMod.regs_carry r v name).symm
  unfold State.modify
  rw [result_ofRegs, showing_of_showsResult (InstrMod.regs_showsResult r v name), hcarry]
  cases name <;> rfl

/-! ### Instructions -/

section Instr

variable (s : Sys Cpu Mem)

theorem view_eq {t : Sys Cpu Mem} {r : Regs} {pc : Uint16} {sig : Signals} {m : Mem}
    (hdata : SameData r t.chip.r) (hpc : t.chip.r.pc = pc) (hsig : t.chip.sig = sig)
    (hmem : t.env = m) : view t = { ofRegs r sig m with pc := pc } := by
  subst hpc hsig hmem
  ext1
  · rfl
  · exact hdata.acc
  · exact hdata.x
  · exact hdata.y
  · exact hdata.sp
  · exact hdata.flags
  · rfl
  · rfl

theorem sameData_fetched : SameData s.chip.r (fetched flatMem s).chip.r :=
  sameData_of_pc_cycles s.chip.r _ _

theorem address_view (mode : AddrMode) :
    (view s).address mode = effAddr s.chip.r s.env (s.chip.r.pc + 1) mode := by
  cases mode <;> rfl

theorem next_view (mode : AddrMode) {n : Uint16} (hn : BitVec.ofNat 16 mode.numBytes = 1 + n) :
    (fetched flatMem s).chip.r.pc + n = (view s).next mode := by
  show s.chip.r.pc + 1 + n = s.chip.r.pc + _
  rw [hn, BitVec.add_assoc]

theorem view_read (mode : ReadMode) (name : InstrRead) :
    view (post flatMem (mode.func name.func) (fetched flatMem s)) =
      (view s).instr (.read name) mode.addrMode := by
  have hload := readMode_load (fetched flatMem s) mode
  rw [effAddr_fetched, ← address_view] at hload
  have hdata := (InstrRead.sameData_regs (sameData_fetched s) name _).trans
    (readMode_data flatMem (fetched flatMem s) mode name)
  have hmem : (post flatMem (mode.func name.func) (fetched flatMem s)).env = s.env := by
    rw [env_eq_stored, writes_readMode]; rfl
  rw [view_eq hdata (readMode_pc ..) (readMode_sig ..) hmem, hload, ← read_ofRegs,
    next_view s mode.addrMode (by cases mode <;> rfl)]
  cases name <;> rfl

/-- What a modify instruction makes of a byte, before and after the opcode is fetched. -/
theorem result_view (v : Uint8) (name : InstrMod) :
    name.result v (fetched flatMem s).chip.r = (view s).result v name :=
  (InstrMod.result_eq (sameData_fetched s) name v).trans (result_ofRegs ..).symm

theorem modify_view (v : Uint8) (name : InstrMod) :
    (view s).modify v name = ofRegs (name.regs v s.chip.r) s.chip.sig s.env :=
  modify_ofRegs ..

theorem view_accum (name : InstrMod) :
    view (post flatMem (ModifyMode.accum.func name.func) (fetched flatMem s)) =
      (view s).instr (.modify name) .accum := by
  have hmem : (post flatMem (ModifyMode.accum.func name.func) (fetched flatMem s)).env = s.env := by
    rw [env_eq_stored, writes_accum]; rfl
  have hdata : SameData { name.regs s.chip.r.acc s.chip.r with
      acc := (view s).result s.chip.r.acc name }
      (post flatMem (ModifyMode.accum.func name.func) (fetched flatMem s)).chip.r := by
    have h := InstrMod.sameData_regs (sameData_fetched s) name s.chip.r.acc
    have hacc := modifyMode_data flatMem (fetched flatMem s) .accum name
    rw [← result_view]
    exact ⟨hacc.acc, hacc.x.trans h.x, hacc.y.trans h.y, hacc.sp.trans h.sp,
      hacc.flags.trans h.flags⟩
  have hexec : (view s).exec (.modify name) .accum =
      { ofRegs (name.regs s.chip.r.acc s.chip.r) s.chip.sig s.env with
        acc := (view s).result s.chip.r.acc name, pc := (view s).next .accum } := by
    rw [← modify_view]; rfl
  rw [view_eq hdata (modifyMode_pc ..) (modifyMode_sig ..) hmem, next_view s .accum rfl]
  exact congrArg (State.poll · s.chip.r.flags.intdis) hexec.symm

theorem view_modify {mode : ModifyMode} (hmode : mode ≠ .accum) (name : InstrMod) :
    view (post flatMem (mode.func name.func) (fetched flatMem s)) =
      (view s).instr (.modify name) mode.addrMode := by
  set a := (view s).address mode.addrMode with ha
  have hload : val flatMem mode.load (fetched flatMem s) = s.env a := by
    rw [modifyMode_load _ hmode, effAddr_fetched, ← address_view]; rfl
  have hmem : (post flatMem (mode.func name.func) (fetched flatMem s)).env =
      Function.update s.env a ((view s).result (s.env a) name) := by
    rw [modifyMode_env _ hmode, effAddr_fetched, ← address_view, result_view]; rfl
  have hregs : mode.regs name (s.env a) (fetched flatMem s).chip.r =
      name.regs (s.env a) (fetched flatMem s).chip.r := by
    cases mode <;> first | rfl | exact absurd rfl hmode
  have hdata := modifyMode_data flatMem (fetched flatMem s) mode name
  rw [hload, hregs] at hdata
  have hexec : (view s).exec (.modify name) mode.addrMode =
      { (view s).modify (s.env a) name with
        mem := Function.update s.env a ((view s).result (s.env a) name)
        pc := (view s).next mode.addrMode } := by
    cases mode <;> first | rfl | exact absurd rfl hmode
  rw [view_eq ((InstrMod.sameData_regs (sameData_fetched s) name _).trans hdata)
    (modifyMode_pc ..) (modifyMode_sig ..) hmem,
    next_view s mode.addrMode (by cases mode <;> rfl)]
  rw [modify_view] at hexec
  exact congrArg (State.poll · s.chip.r.flags.intdis) hexec.symm

theorem view_write (mode : WriteMode) (r : Reg8) :
    view (post flatMem (Case.write mode r).exec (fetched flatMem s)) =
      (view s).instr (.store r) mode.addrMode := by
  have hreg : r.get (fetched flatMem s).chip.r = (view s).reg r := by cases r <;> rfl
  have hmem := writeMode_env (fetched flatMem s) mode ((view s).reg r)
  rw [effAddr_fetched, ← address_view] at hmem
  show view (post flatMem (mode.func (r.get (fetched flatMem s).chip.r)) (fetched flatMem s)) = _
  rw [hreg, view_eq ((sameData_fetched s).trans (writeMode_data ..)) (writeMode_pc ..)
    (writeMode_sig ..) hmem, next_view s mode.addrMode (by cases mode <;> rfl)]
  rfl

theorem view_branch (f : Flag) (v : Bool) :
    view (post flatMem (Case.branch f v).exec (fetched flatMem s)) =
      (view s).instr (.branch f v) .branch := by
  have hmem (take : Bool) : (post flatMem (instrBranch take) (fetched flatMem s)).env = s.env := by
    rw [env_eq_stored, writes_branch]; rfl
  show view (post flatMem (instrBranch (f.get s.chip.r.flags == v)) (fetched flatMem s)) = _
  rw [view_eq ((sameData_fetched s).trans (instrBranch_data ..)) (branch_pc ..)
    (instrBranch_sig ..) (hmem _)]
  have hpc : (if f.get s.chip.r.flags == v then s.chip.r.pc + 1 + 1 +
      (s.env (s.chip.r.pc + 1)).signExtend 16 else s.chip.r.pc + 1 + 1) =
      ((view s).exec (.branch f v) .branch).pc := by
    rw [show s.chip.r.pc + 1 + 1 = s.chip.r.pc + 2 from add_one_add_one _]
    exact if_congr beq_iff_eq rfl rfl
  exact congrArg (fun pc => State.poll { view s with pc := pc } s.chip.r.flags.intdis) hpc

theorem view_flag (f : Flag) (v : Bool) :
    view (post flatMem (Case.flag f v).exec (fetched flatMem s)) =
      (view s).instr (.flag f v) .impld := rfl

theorem view_transfer (src dst : Reg8) :
    view (post flatMem (Case.transfer src dst).exec (fetched flatMem s)) =
      (view s).instr (.transfer src dst) .impld := by
  have hload := load_ofRegs s.chip.r s.chip.sig s.env dst ((view s).reg src)
  have hexec : (view s).exec (.transfer src dst) .impld =
    { ofRegs { dst.set s.chip.r ((view s).reg src) with
        flags := s.chip.r.flags.setZN ((view s).reg src) } s.chip.sig s.env with
      pc := s.chip.r.pc + 1 } := by
    rw [← hload]; rfl
  refine Eq.trans ?_ (congrArg (State.poll · s.chip.r.flags.intdis) hexec.symm)
  cases src <;> cases dst <;> rfl

theorem view_count (reg : Reg8) (delta : Uint8) :
    view (post flatMem (instrCount reg delta) (fetched flatMem s)) =
      ({ (view s).load reg ((view s).reg reg + delta) with pc := (view s).next .impld }).poll
        (view s).flags.intdis := by
  have hload := load_ofRegs s.chip.r s.chip.sig s.env reg ((view s).reg reg + delta)
  refine Eq.trans ?_ (congrArg (fun t : State =>
    ({ t with pc := (view s).next .impld }).poll (view s).flags.intdis) hload.symm)
  cases reg <;> rfl

theorem view_pla :
    view (post flatMem instrPla (fetched flatMem s)) = (view s).instr (.impld .pla) .impld := by
  have hload := load_ofRegs s.chip.r s.chip.sig s.env .acc ((view s).stack 1)
  exact congrArg (fun t : State => ({ t with
    pc := (view s).next .impld, sp := s.chip.r.sp + 1 }).poll s.chip.r.flags.intdis) hload.symm

theorem view_jumps {func : InstrImpld} (hj : State.Jumps func) :
    view (post flatMem func.func (fetched flatMem s)) =
      (view s).instr (.impld func) func.addrMode := by
  have htwo (v : Uint8) : v + 1 + 1 = v + 2 := by rw [BitVec.add_assoc]; rfl
  have hthree (v : Uint8) : v + 1 + 1 + 1 = v + 3 := by rw [htwo, BitVec.add_assoc]; rfl
  have hpc : (fetched flatMem s).chip.r.pc = s.chip.r.pc + 1 := rfl
  have hmem : (post flatMem func.func (fetched flatMem s)).env =
      stored s.env ((Operation.impld func).stores s.chip.r s.env func.addrMode) := by
    rw [env_eq_stored, writes_impld (fetched flatMem s) func hpc]; rfl
  have hdata := impld_data flatMem (fetched flatMem s) func
  have hpure := pureReads_flatMem
  cases func with
  | jsr =>
    exact (view_eq hdata (jsr_pc _ hpure) (impld_sig_of_found _ _ (by decide)) hmem).trans rfl
  | jmp =>
    exact (view_eq hdata (jmp_pc _ hpure) (impld_sig_of_found _ _ (by decide)) hmem).trans rfl
  | jmpInd =>
    exact (view_eq hdata (jmpInd_pc _ hpure) (impld_sig_of_found _ _ (by decide)) hmem).trans rfl
  | rts =>
    have hpc := rts_pc (fetched flatMem s) hpure
    rw [htwo] at hpc
    refine (view_eq hdata hpc (impld_sig_of_found _ _ (by decide)) hmem).trans ?_
    rw [InstrImpld.regs, htwo]
    rfl
  | rti =>
    have hpc := rti_pc (fetched flatMem s) hpure
    rw [hthree, htwo] at hpc
    refine (view_eq hdata hpc rfl hmem).trans ?_
    rw [InstrImpld.regs, hthree]
    rfl
  | _ => exact hj.elim

/-- BRK aside, which enters an interrupt. -/
theorem view_impld {func : InstrImpld} (hbrk : func ≠ .brk) :
    view (post flatMem func.func (fetched flatMem s)) =
      (view s).instr (.impld func) func.addrMode := by
  have hdec (reg : Reg8) := congrArg (fun v => State.poll
    { (view s).load reg v with pc := (view s).next .impld } (view s).flags.intdis)
    (BitVec.sub_eq_add_neg ((view s).reg reg) 1).symm
  cases func with
  | inx => exact view_count s .x 1
  | iny => exact view_count s .y 1
  | dex => exact (view_count s .x (-1)).trans (hdec .x)
  | dey => exact (view_count s .y (-1)).trans (hdec .y)
  | pla => exact view_pla s
  | jsr | jmp | jmpInd | rts | rti => exact view_jumps s trivial
  | brk => exact absurd rfl hbrk
  | php | pha | plp | nop => rfl

/-- The vectors of the CPU. -/
theorem vec_entry (t : Sys Cpu Mem) : t.chip.sig.entry.vec = (view t).vector :=
  entry_vec t.chip.sig

theorem view_interrupt (t : Sys Cpu Mem) :
    view (post flatMem interrupt t) = (view t).interrupt t.chip.r.pc t.chip.r.flags := by
  have hpc := interrupt_pc t pureReads_flatMem
  rw [vec_entry] at hpc
  exact view_eq (interrupt_data flatMem t) hpc (interrupt_sig flatMem t) rfl

theorem view_brk :
    view (post flatMem instrBrk (fetched flatMem s)) = (view s).instr (.impld .brk) .impld := by
  have hb := view_interrupt ⟨{ (fetched flatMem s).chip with r.flags.breakf := true }, s.env⟩
  exact hb

/-- **Instructions.** -/
theorem view_exec {c : Case} {op : Operation} {mode : AddrMode} (hc : c.row = some (op, mode)) :
    view (post flatMem c.exec (fetched flatMem s)) = (view s).instr op mode := by
  cases c with
  | read name m => cases hc; exact view_read s m name
  | modify name m =>
    cases hc
    by_cases hm : m = .accum
    · subst hm; exact view_accum s name
    · exact view_modify s hm name
  | write m r => cases hc; exact view_write s m r
  | branch f v => cases hc; exact view_branch s f v
  | flag f v => cases hc; exact view_flag s f v
  | transfer src dst => cases hc; exact view_transfer s src dst
  | impld func =>
    cases hc
    by_cases hbrk : func = .brk
    · subst hbrk; exact view_brk s
    · exact view_impld s hbrk
  | unknown => cases hc

theorem view_run : view (post flatMem run s) = (view s).step := by
  have hint : view (post flatMem interrupt (ticked s)) =
      (view s).interrupt s.chip.r.pc s.chip.r.flags := view_interrupt (ticked s)
  rcases run_cases flatMem s with ⟨hn, h⟩ | ⟨hn, hi, h⟩ | ⟨hn, hi, h⟩
  · rw [h, State.step_nmi hn]
    exact congrArg (fun t : State => { t with sig.execnmi := false }) hint
  · rw [h, State.step_irq hn hi]
    exact congrArg (fun t : State => { t with sig.execirq := false }) hint
  · rw [h]
    have hrow := executeTab_row (s.env s.chip.r.pc)
    cases hm : manual (s.env s.chip.r.pc) with
    | some p =>
      rw [State.step_of_manual hn hi hm]
      exact view_exec s (hrow.trans hm)
    | none =>
      have hunknown : executeTab (opcode flatMem s) = .unknown :=
        Case.row_injective (hrow.trans hm)
      rw [State.step_undocumented hn hi hm, hunknown]
      rfl

/-! ### Power and reset -/

theorem clearBus_env_apply {start : Uint16} {n : ℕ} (hn : n ≤ 0x10000) (a : Uint16) :
    (post flatMem (clearBus start n) s).env a =
      if (a - start).toNat < n then 0 else s.env a := by
  induction n with
  | zero => rfl
  | succ n ih =>
    have hcell : a = start + BitVec.ofNat 16 n ↔ (a - start).toNat = n := by
      rw [← BitVec.toNat_inj, BitVec.toNat_add, BitVec.toNat_ofNat, BitVec.toNat_sub]
      have ha := a.isLt
      have hs := start.isLt
      omega
    rw [clearBus, post_bind, busWrite_env, Function.update_apply, ih (by omega)]
    simp only [hcell]
    split_ifs <;> first | rfl | omega

theorem powerPrefix_env_apply (a : Uint16) :
    (post flatMem powerPrefix s).env a = if State.Cleared a then 0 else s.env a := by
  have hlow : (a - 0).toNat < 0x800 ↔ a.toNat < 0x800 := by
    rw [show a - 0 = a from BitVec.sub_zero a]
  have hhigh : (a - 0x4000).toNat < 0x13 ↔ 0x4000 ≤ a.toNat ∧ a.toNat < 0x4013 := by
    have ha := a.isLt
    rw [BitVec.toNat_sub]
    show (0x10000 - 0x4000 + a.toNat) % 0x10000 < 0x13 ↔ _
    omega
  rw [powerPrefix]
  simp only [post_bind]
  rw [modify_env, clearBus_env_apply _ (by decide), busWrite_env, Function.update_apply,
    busWrite_env, Function.update_apply, modify_env, clearBus_env_apply _ (by decide), modify_env]
  simp only [hlow, hhigh]
  by_cases hc : State.Cleared a
  · rw [if_pos hc]
    unfold State.Cleared at hc
    split_ifs <;> first | rfl | tauto
  · rw [if_neg hc]
    unfold State.Cleared at hc
    split_ifs <;> first | rfl | tauto

theorem view_power :
    view (post flatMem power s) =
      { view s with
        acc := 0, x := 0, y := 0, sp := 0, flags := {}, sig.resetpending := true
        mem := fun a => if State.Cleared a then 0 else s.env a }.interrupt s.chip.r.pc {} := by
  have henv : (post flatMem powerPrefix s).env =
      fun a => if State.Cleared a then 0 else s.env a := funext (powerPrefix_env_apply s)
  rw [power_eq, view_interrupt, powerPrefix_chip, view, powerPrefix_chip, henv]
  rfl

theorem view_reset :
    view (post flatMem reset s) =
      { view s with mem := Function.update s.env 0x4015 0, sig.resetpending := true }.interrupt
        s.chip.r.pc s.chip.r.flags := by
  have h := view_interrupt ⟨{ s.chip with sig.resetpending := true },
    Function.update s.env 0x4015 0⟩
  exact h

/-- **Calls.** -/
theorem view_call (c : Call) : view (call flatMem s c) = (view s).call c := by
  cases c with
  | run => exact view_run s
  | fireNmi => rfl
  | fireIrq => rfl
  | reset => exact view_reset s
  | power => exact view_power s

end Instr

/-- **The CPU follows the machine.** Over every sequence of calls, from any state of the CPU and
any memory. -/
theorem follows (s : Sys Cpu Mem) (calls : List Call) :
    view (after (call flatMem) s calls) = after State.call (view s) calls :=
  view_after view view_call s calls

end Yanesemu.Isa
