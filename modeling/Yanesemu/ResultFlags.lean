import Yanesemu.InstrArith

/-!
# Z and N after a result

An instruction that produces a byte leaves it in a register or in the cell it modifies.
`Operation.dest` says where, instruction by instruction; after `run` on any state and any flat
memory Z and N are those of the byte that is there, and after a comparison Z, C and N are those of
the difference.
-/

namespace Yanesemu.Cpu

open Interaction

/-- Where a result byte is left. -/
inductive Dest
  | reg (r : Reg8)
  | cell
  deriving DecidableEq, Repr

def InstrRead.dest : InstrRead → Option Dest
  | lda | adc | sbc | ora | and | eor => some (.reg .acc)
  | ldx => some (.reg .x)
  | ldy => some (.reg .y)
  | cmp | cpx | cpy | bit => none

def InstrImpld.dest : InstrImpld → Option Dest
  | inx | dex => some (.reg .x)
  | iny | dey => some (.reg .y)
  | pla => some (.reg .acc)
  | _ => none

/-- The destination of an instruction with a result byte. -/
def Operation.dest (mode : AddrMode) : Operation → Option Dest
  | read name => name.dest
  | modify _ => if mode = .accum then some (.reg .acc) else some .cell
  | transfer _ .sp => none
  | transfer _ dst => some (.reg dst)
  | impld func => func.dest
  | store _ | branch _ _ | flag _ _ => none

/-- The byte there; `a` is the effective address. -/
def Dest.byte (s : Sys Cpu Mem) (a : Uint16) : Dest → Uint8
  | reg r => r.get s.chip.r
  | cell => s.env a

/-! ### The instruction functions -/

theorem InstrRead.regs_showsResult {name : InstrRead} {reg : Reg8}
    (hd : name.dest = some (.reg reg)) (v : Uint8) (r : Regs) :
    (name.regs v r).flags.ShowsResult (reg.get (name.regs v r)) := by
  cases name <;> cases hd
  case adc => exact summed_showsResult r v v
  case sbc => exact summed_showsResult r (~~~v) v
  all_goals exact ProcStatus.showsResult_setZN _ _

theorem transferred_showsResult (src dst : Reg8) (r : Regs) :
    (transferred src dst r).flags.ShowsResult (dst.get (transferred src dst r)) := by
  have hbyte : dst.get (transferred src dst r) = src.get r := by
    cases dst <;> rfl
  rw [hbyte]
  exact ProcStatus.showsResult_setZN _ _

theorem InstrImpld.regs_showsResult {func : InstrImpld} {reg : Reg8}
    (hd : func.dest = some (.reg reg)) (s : Sys Cpu Mem) :
    (func.regs flatMem s).flags.ShowsResult (reg.get (func.regs flatMem s)) := by
  cases func <;> cases hd <;> exact ProcStatus.showsResult_setZN _ _

/-! ### One case of the switch -/

section Exec

variable (s : Sys Cpu Mem) {c : Case} {op : Operation} {mode : AddrMode}

/-- The result is in a register. -/
theorem regs_showsResult {reg : Reg8} (hc : c.row = some (op, mode))
    (hd : op.dest mode = some (.reg reg)) :
    (c.regs flatMem s).flags.ShowsResult (reg.get (c.regs flatMem s)) := by
  cases c with
  | read name m =>
    cases hc
    exact InstrRead.regs_showsResult hd _ _
  | modify name m =>
    cases hc
    cases m <;> cases hd
    exact name.regs_showsResult _ _
  | transfer src dst =>
    cases hc
    have hdst : dst = reg := by
      cases dst <;> cases hd <;> rfl
    subst hdst
    exact transferred_showsResult src dst _
  | impld func =>
    cases hc
    exact InstrImpld.regs_showsResult hd s
  | write m val => cases hc; cases hd
  | branch f v => cases hc; cases hd
  | flag f v => cases hc; cases hd
  | unknown => cases hc

/-- Only the modify modes leave their result in a cell. -/
theorem modify_of_dest_cell (hc : c.row = some (op, mode)) (hd : op.dest mode = some .cell) :
    ∃ name m, c = .modify name m ∧ m ≠ .accum ∧ mode = m.addrMode := by
  cases c with
  | read name m => cases hc; cases name <;> cases hd
  | modify name m =>
    cases hc
    refine ⟨name, m, rfl, ?_, rfl⟩
    rintro rfl
    cases hd
  | write m val => cases hc; cases hd
  | branch f v => cases hc; cases hd
  | flag f v => cases hc; cases hd
  | transfer src dst => cases hc; cases dst <;> cases hd
  | impld func => cases hc; cases func <;> cases hd
  | unknown => cases hc

theorem exec_showsResult (hc : c.row = some (op, mode)) {d : Dest} (hd : op.dest mode = some d) :
    (post flatMem c.exec s).chip.r.flags.ShowsResult
      (d.byte (post flatMem c.exec s) (effAddr s.chip.r s.env s.chip.r.pc mode)) := by
  have hdata := exec_data flatMem s c
  cases d with
  | reg reg =>
    rw [hdata.flags]
    show ProcStatus.ShowsResult _ (reg.get _)
    rw [hdata.get reg]
    exact regs_showsResult s hc hd
  | cell =>
    obtain ⟨name, m, rfl, hm, rfl⟩ := modify_of_dest_cell hc hd
    have hregs : (Case.modify name m).regs flatMem s =
        name.regs (val flatMem m.load s) s.chip.r := by
      cases m with
      | accum => exact absurd rfl hm
      | _ => rfl
    have hcell :=
      congrFun (modifyMode_env s hm name) (effAddr s.chip.r s.env s.chip.r.pc m.addrMode)
    rw [Function.update_self] at hcell
    rw [hdata.flags, hregs, modifyMode_load s hm]
    show ProcStatus.ShowsResult _ ((post flatMem (m.func name.func) s).env _)
    rw [hcell]
    exact name.regs_showsResult _ _

theorem exec_comparesTo {name : InstrRead} {reg : Reg8} (hc : c.row = some (.read name, mode))
    (hname : name.compared = some reg) :
    ComparesTo (post flatMem c.exec s).chip.r.flags (reg.get s.chip.r)
      (s.env (effAddr s.chip.r s.env s.chip.r.pc mode)) := by
  have hdata := exec_data flatMem s c
  cases c with
  | read name' m =>
    cases hc
    rw [hdata.flags, ← readMode_load]
    exact compare_comparesTo _ _ hname
  | _ => cases hc

end Exec

/-- **Result flags.** On every state and every flat memory, the byte an instruction leaves in its
register or cell decides Z and N, and a comparison with the operand decides Z, C and N. -/
theorem run_showsResult (s : Sys Cpu Mem) (hn : s.chip.sig.execnmi = false)
    (hi : s.chip.sig.execirq = false) {op : Operation} {mode : AddrMode}
    (hop : manual (s.env s.chip.r.pc) = some (op, mode)) :
    let s' := post flatMem run s
    let a := effAddr s.chip.r s.env (s.chip.r.pc + 1) mode
    (∀ d, op.dest mode = some d → s'.chip.r.flags.ShowsResult (d.byte s' a)) ∧
      ∀ name reg, op = .read name → name.compared = some reg →
        ComparesTo s'.chip.r.flags (reg.get s.chip.r) (s.env a) := by
  intro s' a
  have hs' : s' = post flatMem (executeTab (s.env s.chip.r.pc)).exec (fetched flatMem s) :=
    post_run_flat s hn hi
  have ha : a = _ := (effAddr_fetched s mode).symm
  rw [← executeTab_row] at hop
  constructor
  · intro d hd
    rw [hs', ha]
    exact exec_showsResult (fetched flatMem s) hop hd
  · intro name reg hread hname
    subst hread
    have hreg : reg.get s.chip.r = reg.get (fetched flatMem s).chip.r := by
      cases reg <;> rfl
    rw [hs', ha, hreg]
    exact exec_comparesTo (fetched flatMem s) hop hname

/-- A memory with `DEC $10` at the start and a one in the cell. -/
def decZero : Mem := fun a =>
  if a.toNat = 0 then 0xC6 else if a.toNat = 1 then 0x10 else if a.toNat = 0x10 then 1 else 0

/-- The cell becomes zero and Z is set. -/
theorem run_showsResult_dec :
    (post flatMem run ⟨{}, decZero⟩).env 0x10 = 0 ∧
      (post flatMem run ⟨{}, decZero⟩).chip.r.flags.zero = true := by
  have hop : manual (decZero 0) = some (.modify .dec, .zero) := by decide
  have h := (run_showsResult ⟨{}, decZero⟩ rfl rfl hop).1 .cell rfl
  have hzero : (post flatMem run ⟨{}, decZero⟩).env 0x10 = 0 := by decide
  exact ⟨hzero, h.1.mpr hzero⟩

end Yanesemu.Cpu
