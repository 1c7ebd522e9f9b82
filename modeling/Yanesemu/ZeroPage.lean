import Yanesemu.Memory

/-!
# Zero-page indexed and indirect addressing

On the 6502 every address of these modes is computed in the zero page, modulo 256. `ZpMode.rule`
is that rule: the accesses an instruction makes after its opcode and operand byte. The addressing
functions compute the addresses in 16 bits, so they follow the rule exactly as long as no sum
leaves the page.
-/

namespace Yanesemu.Cpu

open Interaction

/-- A memory access, without the byte written. -/
inductive Access
  | read (addr : Uint16)
  | write (addr : Uint16)
  deriving DecidableEq, Repr

/-- The access an operation makes; the debugger's callback makes none. -/
def access : CpuOp → Option Access
  | .read a => some (.read a)
  | .write a _ => some (.write a)
  | .fetchCallback .. => none

/-- The accesses of a run. -/
def accesses {σ α : Type} (H : Handler cpuSig σ) (m : CpuM α) (s : Sys Cpu σ) : List Access :=
  (asked H m s).filterMap access

section Accesses

variable {σ α β : Type} (H : Handler cpuSig σ) (s : Sys Cpu σ)

@[simp] theorem accesses_bind (m : CpuM α) (f : α → CpuM β) :
    accesses H (m >>= f) s = accesses H m s ++ accesses H (f (val H m s)) (post H m s) := by
  unfold accesses
  rw [asked_bind, List.filterMap_append]

@[simp] theorem accesses_pure (a : α) : accesses H (pure a : CpuM α) s = [] := rfl

@[simp] theorem accesses_get : accesses H (get : CpuM Cpu) s = [] := rfl

@[simp] theorem accesses_cycle : accesses H cycle s = [] := rfl

@[simp] theorem accesses_cycleIf (b : Bool) : accesses H (cycleIf b) s = [] := by
  cases b <;> rfl

@[simp] theorem accesses_lastCycle : accesses H lastCycle s = [] := rfl

@[simp] theorem accesses_fetchLow : accesses H fetchLow s = [.read s.chip.r.pc] := rfl

@[simp] theorem accesses_readmem (a : Uint16) : accesses H (readmem a) s = [.read a] := rfl

@[simp] theorem accesses_writemem (a : Uint16) (d : Uint8) :
    accesses H (writemem a d) s = [.write a] := rfl

@[simp] theorem accesses_readFunc (name : InstrRead) (v : Uint8) :
    accesses H (name.func v) s = [] := by
  unfold accesses; rw [InstrRead.asked_func]; rfl

@[simp] theorem accesses_modFunc (name : InstrMod) (v : Uint8) :
    accesses H (name.func v) s = [] := by
  unfold accesses; rw [InstrMod.asked_func]; rfl

/-- The opcode is the first byte an instruction reads. -/
theorem accesses_run (hn : s.chip.sig.execnmi = false) (hi : s.chip.sig.execirq = false) :
    accesses H run s =
      .read s.chip.r.pc :: accesses H (executeTab (opcode H s)).exec (fetched H s) := by
  unfold accesses
  rw [asked_run_instr H s hn hi]
  rfl

end Accesses

/-! ### The 6502's rule -/

inductive ZpMode
  | zerox | zeroy | indx | indy
  deriving DecidableEq, Repr

/-- What an instruction does with its operand. -/
inductive Use
  | read | modify | write
  deriving DecidableEq, Repr

def Use.at (a : Uint16) : Use → List Access
  | read => [.read a]
  | modify => [.read a, .write a]
  | write => [.write a]

/-- The mode and use of the instructions this module is about. -/
def Case.zpMode : Case → Option (ZpMode × Use)
  | .read _ .zerox => some (.zerox, .read)
  | .read _ .zeroy => some (.zeroy, .read)
  | .read _ .indx => some (.indx, .read)
  | .read _ .indy => some (.indy, .read)
  | .modify _ .zerox => some (.zerox, .modify)
  | .write .zerox _ => some (.zerox, .write)
  | .write .zeroy _ => some (.zeroy, .write)
  | .write .indx _ => some (.indx, .write)
  | .write .indy _ => some (.indy, .write)
  | _ => none

/-- A byte as an address of the zero page. -/
def zp (b : Uint8) : Uint16 := b.setWidth 16

/-- The word whose two bytes are at `b` and, modulo 256, after it. -/
def zpWord (m : Mem) (b : Uint8) : Uint16 := Reg16.ofBytes (m (zp b)) (m (zp (b + 1)))

/-- The accesses of an instruction with operand byte `low`. -/
def ZpMode.rule (r : Regs) (m : Mem) (low : Uint8) (use : Use) : ZpMode → List Access
  | zerox => use.at (zp (low + r.x))
  | zeroy => use.at (zp (low + r.y))
  | indx => .read (zp (low + r.x)) :: .read (zp (low + r.x + 1)) :: use.at (zpWord m (low + r.x))
  | indy => .read (zp low) :: .read (zp (low + 1)) :: use.at (zpWord m low + zp r.y)

/-- No sum of the address computation leaves the zero page. -/
def ZpMode.InPage (r : Regs) (low : Uint8) : ZpMode → Prop
  | zerox => low.toNat + r.x.toNat ≤ 255
  | zeroy => low.toNat + r.y.toNat ≤ 255
  | indx => low.toNat + r.x.toNat ≤ 254
  | indy => low.toNat ≤ 254

/-! ### What the addressing functions access -/

/-- The addresses as the source computes them. -/
def ZpMode.computed (r : Regs) (m : Mem) (low : Uint8) (use : Use) : ZpMode → List Access
  | zerox => use.at (zp low + zp r.x)
  | zeroy => use.at (zp low + zp r.y)
  | indx => .read (zp low + zp r.x) :: .read (zp low + zp r.x + 1) ::
      use.at (Reg16.ofBytes (m (zp low + zp r.x)) (m (zp low + zp r.x + 1)))
  | indy => .read (zp low) :: .read (zp low + 1) ::
      use.at (Reg16.ofBytes (m (zp low)) (m (zp low + 1)) + zp r.y)

attribute [local simp] Case.exec Reg8.get Use.at ZpMode.computed zp

/-- Each case accesses its operand byte and then what the source computes. -/
theorem accesses_exec {s : Sys Cpu Mem} {c : Case} {mode : ZpMode} {use : Use}
    (hc : c.zpMode = some (mode, use)) :
    accesses flatMem c.exec s =
      .read s.chip.r.pc :: mode.computed s.chip.r s.env (s.env s.chip.r.pc) use := by
  cases c with
  | read name m => cases m <;> cases hc <;> simp
  | modify name m => cases m <;> cases hc; simp
  | write m val => cases m <;> cases hc <;> simp
  | _ => cases hc

/-! ### When the sums stay in the page -/

theorem toNat_zp (b : Uint8) : (zp b).toNat = b.toNat := by
  have := b.isLt
  unfold zp
  rw [BitVec.toNat_setWidth, Nat.mod_eq_of_lt (by omega)]

theorem toNat_zp_add (a b : Uint8) : (zp a + zp b).toNat = a.toNat + b.toNat := by
  have := a.isLt
  have := b.isLt
  rw [BitVec.toNat_add, toNat_zp, toNat_zp, Nat.mod_eq_of_lt (by omega)]

theorem zp_add_eq_iff (a b : Uint8) : zp a + zp b = zp (a + b) ↔ a.toNat + b.toNat ≤ 255 := by
  have := a.isLt
  have := b.isLt
  rw [← BitVec.toNat_inj, toNat_zp_add, toNat_zp, BitVec.toNat_add]
  omega

theorem zp_add_one_eq_iff (a : Uint8) : zp a + 1 = zp (a + 1) ↔ a.toNat ≤ 254 := by
  have h := zp_add_eq_iff a 1
  have hone : (1 : Uint8).toNat = 1 := rfl
  rw [hone] at h
  rw [show (1 : Uint16) = zp 1 from rfl, h]
  omega

theorem Use.at_injective (use : Use) {a b : Uint16} : use.at a = use.at b ↔ a = b := by
  cases use <;> simp [Use.at]

/-- The source computes what the rule says exactly if no sum leaves the page. -/
theorem computed_eq_rule_iff (r : Regs) (m : Mem) (low : Uint8) (use : Use) (mode : ZpMode) :
    mode.computed r m low use = mode.rule r m low use ↔ mode.InPage r low := by
  have hx := zp_add_eq_iff low r.x
  have hxsum := BitVec.toNat_add low r.x
  have hlow := low.isLt
  have hrx := r.x.isLt
  cases mode with
  | zerox => exact use.at_injective.trans hx
  | zeroy => exact use.at_injective.trans (zp_add_eq_iff low r.y)
  | indx =>
    have hone := zp_add_one_eq_iff (low + r.x)
    unfold ZpMode.computed ZpMode.rule ZpMode.InPage zpWord
    constructor
    · intro h
      obtain ⟨h1, h2, -⟩ := by simpa only [List.cons.injEq, Access.read.injEq] using h
      have hsum := hx.mp h1
      rw [h1] at h2
      have := hone.mp h2
      omega
    · intro h
      have h1 : zp low + zp r.x = zp (low + r.x) := hx.mpr (by omega)
      have h2 : zp (low + r.x) + 1 = zp (low + r.x + 1) := hone.mpr (by omega)
      rw [h1, h2]
  | indy =>
    have hone := zp_add_one_eq_iff low
    unfold ZpMode.computed ZpMode.rule ZpMode.InPage zpWord
    constructor
    · intro h
      obtain ⟨-, h2, -⟩ := by simpa only [List.cons.injEq, Access.read.injEq] using h
      exact hone.mp h2
    · intro h
      rw [hone.mpr h]

/-- **Zero page.** An instruction in one of these modes, executed at any state on any memory,
makes the accesses of the 6502 exactly if no sum of its address computation leaves the page. -/
theorem zeroPage_rule_iff (s : Sys Cpu Mem) (hn : s.chip.sig.execnmi = false)
    (hi : s.chip.sig.execirq = false) {mode : ZpMode} {use : Use}
    (hc : (executeTab (s.env s.chip.r.pc)).zpMode = some (mode, use)) :
    let low := s.env (s.chip.r.pc + 1)
    accesses flatMem run s =
        .read s.chip.r.pc :: .read (s.chip.r.pc + 1) :: mode.rule s.chip.r s.env low use ↔
      mode.InPage s.chip.r low := by
  intro low
  have hop : opcode flatMem s = s.env s.chip.r.pc := rfl
  rw [accesses_run flatMem s hn hi, hop, accesses_exec hc]
  rw [← computed_eq_rule_iff s.chip.r s.env low use mode]
  have hregs : mode.computed (fetched flatMem s).chip.r s.env low use =
      mode.computed s.chip.r s.env low use := by
    cases mode <;> rfl
  show (_ :: _ :: mode.computed (fetched flatMem s).chip.r s.env low use = _) ↔ _
  rw [hregs]
  rw [List.cons.injEq, List.cons.injEq]
  exact ⟨fun h => h.2.2, fun h => ⟨rfl, rfl, h⟩⟩

/-- A memory with `LDA $80,X` at the start. -/
def ldaZerox : Mem := fun a => if a.toNat = 0 then 0xB5 else if a.toNat = 1 then 0x80 else 0

/-- `LDA $80,X` with X = 1 reads address `$81`. -/
theorem zeroPage_rule_in_page :
    accesses flatMem run ⟨{ r.x := 1 }, ldaZerox⟩ = [.read 0, .read 1, .read 0x81] :=
  (@zeroPage_rule_iff ⟨{ r.x := 1 }, ldaZerox⟩ rfl rfl .zerox .read rfl).mpr
    (show 0x80 + 1 ≤ 255 by decide)

/-- `LDA $80,X` with X = `$FF` reads page 1 where the 6502 reads `$7F`. -/
theorem zeroPage_rule_out_of_page :
    accesses flatMem run ⟨{ r.x := 0xFF }, ldaZerox⟩ = [.read 0, .read 1, .read 0x17F] ∧
      accesses flatMem run ⟨{ r.x := 0xFF }, ldaZerox⟩ ≠
        .read 0 :: .read 1 :: ZpMode.rule { x := 0xFF } ldaZerox 0x80 .read .zerox := by
  decide

end Yanesemu.Cpu
