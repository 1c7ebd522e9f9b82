import Yanesemu.CpuEffects

/-!
# Which registers and flags an instruction changes

`Operation.assigned` is the manual's list of the registers and flags of each instruction. It is
compared with what `run` does on any state and any bus, an interrupt sequence counting as the BRK
it shares its routine with. The transfer routine sets N and Z for all six transfers, TXS among
them, and PHP and the interrupt sequence leave B clear; everything else stays within the lists.
-/

namespace Yanesemu.Cpu

open Interaction

/-! ### The manual's lists -/

/-- The flags an instruction is assigned: some of the six, or the status as a whole. -/
inductive FlagSet
  | these (flags : List Flag)
  | all
  deriving DecidableEq, Repr

/-- The registers and flags of an instruction. The program counter, the cycle counter, the scratch
register and the interrupt signals are open to all of them. -/
structure Assigned where
  regs : List Reg8
  flags : FlagSet
  deriving DecidableEq, Repr

def InstrRead.assigned : InstrRead → Assigned
  | lda => ⟨[.acc], .these [.neg, .zero]⟩
  | ldx => ⟨[.x], .these [.neg, .zero]⟩
  | ldy => ⟨[.y], .these [.neg, .zero]⟩
  | cmp | cpx | cpy => ⟨[], .these [.neg, .zero, .carry]⟩
  | adc | sbc => ⟨[.acc], .these [.neg, .ov, .zero, .carry]⟩
  | ora | and | eor => ⟨[.acc], .these [.neg, .zero]⟩
  | bit => ⟨[], .these [.neg, .ov, .zero]⟩

def InstrMod.assigned (mode : AddrMode) (name : InstrMod) : Assigned :=
  let target := if mode = .accum then [Reg8.acc] else []
  match name with
  | inc | dec => ⟨target, .these [.neg, .zero]⟩
  | asl | lsr | rol | ror => ⟨target, .these [.neg, .zero, .carry]⟩

def InstrImpld.assigned : InstrImpld → Assigned
  | inx | dex => ⟨[.x], .these [.neg, .zero]⟩
  | iny | dey => ⟨[.y], .these [.neg, .zero]⟩
  | php | pha => ⟨[.sp], .these []⟩
  | plp | rti => ⟨[.sp], .all⟩
  | pla => ⟨[.acc, .sp], .these [.neg, .zero]⟩
  | jsr | rts => ⟨[.sp], .these []⟩
  | jmp | jmpInd | nop => ⟨[], .these []⟩
  | brk => ⟨[.sp], .these [.intdis]⟩

def Operation.assigned (mode : AddrMode) : Operation → Assigned
  | read name => name.assigned
  | modify name => name.assigned mode
  | store _ => ⟨[], .these []⟩
  | branch _ _ => ⟨[], .these []⟩
  | flag f _ => ⟨[], .these [f]⟩
  | transfer _ .sp => ⟨[.sp], .these []⟩
  | transfer _ dst => ⟨[dst], .these [.neg, .zero]⟩
  | impld func => func.assigned

/-- Only flags of the set differ. B and the unused bit are in no set but the whole. -/
def FlagSet.Confines : FlagSet → ProcStatus → ProcStatus → Prop
  | these flags, p, p' => (∀ f, f ∉ flags → f.get p' = f.get p) ∧
      p'.breakf = p.breakf ∧ p'.unused = p.unused
  | all, _, _ => True

/-- Only what is assigned differs. -/
structure Assigned.Confines (a : Assigned) (r r' : Regs) : Prop where
  regs : ∀ reg, reg ∉ a.regs → reg.get r' = reg.get r
  flags : a.flags.Confines r.flags r'.flags

/-! ### One case of the switch -/

theorem SameData.confines_iff {r r₁ r' : Regs} (h : SameData r₁ r') (a : Assigned) :
    a.Confines r r' ↔ a.Confines r r₁ := by
  constructor
  · rintro ⟨hregs, hflags⟩
    exact ⟨fun reg hreg => (h.get reg).symm.trans (hregs reg hreg), h.flags ▸ hflags⟩
  · rintro ⟨hregs, hflags⟩
    exact ⟨fun reg hreg => (h.get reg).trans (hregs reg hreg), h.flags.symm ▸ hflags⟩

theorem SameData.confines_iff_left {r r₁ r' : Regs} (h : SameData r r₁) (a : Assigned) :
    a.Confines r₁ r' ↔ a.Confines r r' := by
  constructor
  · rintro ⟨hregs, hflags⟩
    exact ⟨fun reg hreg => (hregs reg hreg).trans (h.get reg), h.flags ▸ hflags⟩
  · rintro ⟨hregs, hflags⟩
    exact ⟨fun reg hreg => (hregs reg hreg).trans (h.get reg).symm, h.flags.symm ▸ hflags⟩

theorem InstrRead.confines (name : InstrRead) (v : Uint8) (r : Regs) :
    name.assigned.Confines r (name.regs v r) := by
  constructor
  · intro reg hreg
    cases name <;> cases reg <;> first | exact absurd hreg (by decide) | rfl
  · cases name <;> refine ⟨?_, rfl, rfl⟩ <;> intro f hf <;> cases f <;>
      first | exact absurd hf (by decide) | rfl

theorem InstrMod.confines (name : InstrMod) (mode : ModifyMode) (v : Uint8) (r : Regs) :
    (name.assigned mode.addrMode).Confines r (mode.regs name v r) := by
  constructor
  · intro reg hreg
    cases mode <;> cases name <;> cases reg <;> first | exact absurd hreg (by decide) | rfl
  · cases mode <;> cases name <;> refine ⟨?_, rfl, rfl⟩ <;> intro f hf <;> cases f <;>
      first | exact absurd hf (by decide) | rfl

/-- Only B stands between the registers after a sequence that clears it and the list. -/
theorem confines_clearB_iff {a : Assigned} {flags : List Flag} (ha : a.flags = .these flags)
    {r r' : Regs} (hregs : ∀ reg, reg ∉ a.regs → reg.get r' = reg.get r)
    (hflags : ∀ f, f ∉ flags → f.get r'.flags = f.get r.flags)
    (hbreak : r'.flags.breakf = false) (hunused : r'.flags.unused = r.flags.unused) :
    a.Confines r r' ↔ r.flags.breakf = false := by
  constructor
  · rintro ⟨-, h⟩
    rw [ha] at h
    exact h.2.1.symm.trans hbreak
  · intro h
    refine ⟨hregs, ?_⟩
    rw [ha]
    exact ⟨hflags, hbreak.trans h.symm, hunused⟩

theorem entered_confines_iff (r : Regs) :
    InstrImpld.brk.assigned.Confines r (entered r) ↔ r.flags.breakf = false := by
  have hflags : InstrImpld.brk.assigned.flags = .these [.intdis] := rfl
  apply confines_clearB_iff hflags
  · intro reg hreg
    cases reg <;> first | exact absurd hreg (by decide) | rfl
  · intro f hf
    cases f <;> first | exact absurd hf (by decide) | rfl
  · rfl
  · rfl

theorem Flag.confines (f : Flag) (v : Bool) (p : ProcStatus) :
    (FlagSet.these [f]).Confines p (f.set p v) := by
  refine ⟨?_, ?_, ?_⟩
  · intro g hg
    cases f <;> cases g <;> first | exact absurd hg (by decide) | rfl
  · cases f <;> rfl
  · cases f <;> rfl

/-- What setting N and Z leaves alone. -/
theorem setZN_confines (p : ProcStatus) (v : Uint8) :
    (FlagSet.these [.neg, .zero]).Confines p (p.setZN v) := by
  refine ⟨?_, rfl, rfl⟩
  intro f hf
  cases f <;> first | exact absurd hf (by decide) | rfl

theorem Reg8.get_set_of_ne {reg dst : Reg8} (h : reg ∉ [dst]) (r : Regs) (v : Uint8) :
    reg.get (dst.set r v) = reg.get r := by
  cases reg <;> cases dst <;> first | exact absurd h (by decide) | rfl

/-- The transfer into the stack pointer is assigned no flag, but sets two. -/
theorem transferred_confines_iff (src dst : Reg8) (r : Regs) :
    ((Operation.transfer src dst).assigned .impld).Confines r (transferred src dst r) ↔
      (dst = .sp → r.flags.zero = (src.get r == 0) ∧
        r.flags.neg = truthy (src.get r &&& 0x80)) := by
  have hregs (reg : Reg8) (hreg : reg ∉ [dst]) :
      reg.get (transferred src dst r) = reg.get r := by
    rw [← Reg8.get_set_of_ne hreg r (src.get r)]
    cases reg <;> rfl
  by_cases hsp : dst = .sp
  · subst hsp
    rw [forall_prop_of_true rfl]
    constructor
    · rintro ⟨-, hflags, -⟩
      exact ⟨(hflags .zero (by decide)).symm, (hflags .neg (by decide)).symm⟩
    · rintro ⟨hzero, hneg⟩
      refine ⟨hregs, ?_, rfl, rfl⟩
      intro f hf
      cases f
      case zero => exact hzero.symm
      case neg => exact hneg.symm
      all_goals rfl
  · refine iff_of_true ?_ fun h => absurd h hsp
    cases dst
    case sp => exact absurd rfl hsp
    all_goals exact ⟨hregs, setZN_confines r.flags (src.get r)⟩

section Run

variable {σ : Type} (H : Handler cpuSig σ) (s : Sys Cpu σ)

theorem impld_confines {func : InstrImpld} (hphp : func ≠ .php) (hbrk : func ≠ .brk) :
    func.assigned.Confines s.chip.r (func.regs H s) := by
  cases func
  case php => exact absurd rfl hphp
  case brk => exact absurd rfl hbrk
  case plp | rti =>
    refine ⟨?_, trivial⟩
    intro reg hreg
    cases reg <;> first | exact absurd hreg (by decide) | rfl
  all_goals
    refine ⟨?_, ?_, rfl, rfl⟩
    · intro reg hreg
      cases reg <;> first | exact absurd hreg (by decide) | rfl
    · intro f hf
      cases f <;> first | exact absurd hf (by decide) | rfl

theorem php_confines_iff :
    InstrImpld.php.assigned.Confines s.chip.r (InstrImpld.php.regs H s) ↔
      s.chip.r.flags.breakf = false := by
  have hflags : InstrImpld.php.assigned.flags = .these [] := rfl
  apply confines_clearB_iff hflags
  · intro reg hreg
    cases reg <;> first | exact absurd hreg (by decide) | rfl
  · intro f hf
    cases f <;> rfl
  · rfl
  · rfl

/-- TXS finds N and Z as the value it transfers would set them; PHP and the interrupt sequence
find B clear. -/
def KeepsFrame (r : Regs) : Operation → Prop
  | .transfer src .sp => r.flags.zero = (src.get r == 0) ∧
      r.flags.neg = truthy (src.get r &&& 0x80)
  | .impld .php | .impld .brk => r.flags.breakf = false
  | _ => True

theorem SameData.keepsFrame_iff {r r' : Regs} (h : SameData r r') (op : Operation) :
    KeepsFrame r' op ↔ KeepsFrame r op := by
  cases op with
  | transfer src dst => cases dst <;> simp only [KeepsFrame, h.flags, h.get]
  | impld func => cases func <;> simp only [KeepsFrame, h.flags]
  | _ => exact Iff.rfl

/-- One case of the switch. -/
theorem exec_confines_iff {c : Case} {op : Operation} {mode : AddrMode}
    (hc : c.row = some (op, mode)) :
    (op.assigned mode).Confines s.chip.r (post H c.exec s).chip.r ↔ KeepsFrame s.chip.r op := by
  rw [(exec_data H s c).confines_iff]
  cases c with
  | read name m =>
    cases hc
    exact iff_of_true (name.confines _ _) trivial
  | modify name m =>
    cases hc
    exact iff_of_true (name.confines m _ _) trivial
  | write m val =>
    cases hc
    exact iff_of_true ⟨fun _ _ => rfl, fun _ _ => rfl, rfl, rfl⟩ trivial
  | branch f v =>
    cases hc
    exact iff_of_true ⟨fun _ _ => rfl, fun _ _ => rfl, rfl, rfl⟩ trivial
  | flag f v =>
    cases hc
    exact iff_of_true ⟨fun reg _ => by cases reg <;> rfl, f.confines v _⟩ trivial
  | transfer src dst =>
    cases hc
    refine (transferred_confines_iff src dst s.chip.r).trans ?_
    cases dst
    case sp => exact forall_prop_of_true rfl
    all_goals exact iff_of_true (fun h => nomatch h) trivial
  | impld func =>
    cases hc
    by_cases hphp : func = .php
    · subst hphp
      exact php_confines_iff H s
    by_cases hbrk : func = .brk
    · subst hbrk
      exact entered_confines_iff s.chip.r
    refine iff_of_true (impld_confines H s hphp hbrk) ?_
    cases func <;> trivial
  | unknown => cases hc

/-- What `run` executes: an interrupt sequence counts as the BRK it shares its routine with. -/
def executed : Option (Operation × AddrMode) :=
  if s.chip.sig.execnmi ∨ s.chip.sig.execirq then some (.impld .brk, .impld)
  else manual (opcode H s)

/-- **Frames.** On any state and any bus, `run` changes the registers and flags the manual assigns
to what it executes and no others, exactly if TXS finds the flags it sets as it sets them and PHP
and the interrupt sequence find B clear. -/
theorem run_confines_iff {op : Operation} {mode : AddrMode}
    (hop : executed H s = some (op, mode)) :
    (op.assigned mode).Confines s.chip.r (post H run s).chip.r ↔ KeepsFrame s.chip.r op := by
  have hticked : SameData s.chip.r (ticked s).chip.r := sameData_of_pc_cycles _ _ _
  have hfetched : SameData s.chip.r (fetched H s).chip.r := sameData_of_pc_cycles _ _ _
  have hinterrupt : InstrImpld.brk.assigned.Confines s.chip.r
      (post H interrupt (ticked s)).chip.r ↔ s.chip.r.flags.breakf = false := by
    rw [← hticked.confines_iff_left, (interrupt_data H (ticked s)).confines_iff]
    exact entered_confines_iff _
  unfold executed at hop
  obtain ⟨hn, hrun⟩ | ⟨hn, hi, hrun⟩ | ⟨hn, hi, hrun⟩ := run_cases H s
  · rw [if_pos (Or.inl hn)] at hop
    cases hop
    rw [hrun]
    exact hinterrupt
  · rw [if_pos (Or.inr hi)] at hop
    cases hop
    rw [hrun]
    exact hinterrupt
  · rw [if_neg (by simp [hn, hi]), ← executeTab_row] at hop
    rw [hrun, ← hfetched.confines_iff_left, ← hfetched.keepsFrame_iff]
    exact exec_confines_iff H (fetched H s) hop

end Run

/-- A memory full of TXS. -/
def txss : Mem := fun _ => 0x9A

/-- TXS with X zero and Z set changes the stack pointer only. -/
theorem run_confines_txs :
    let s : Sys Cpu Mem := ⟨{ r.sp := 0xFD, r.flags.zero := true }, txss⟩
    ((Operation.transfer .x .sp).assigned .impld).Confines s.chip.r (post flatMem run s).chip.r :=
  (run_confines_iff flatMem ⟨{ r.sp := 0xFD, r.flags.zero := true }, txss⟩ (by decide)).mpr
    ⟨rfl, rfl⟩

/-- With Z clear it sets Z, which it is not assigned. -/
theorem not_run_confines_txs :
    ¬∀ (s : Sys Cpu Mem) (op : Operation) (mode : AddrMode), executed flatMem s = some (op, mode) →
      (op.assigned mode).Confines s.chip.r (post flatMem run s).chip.r := by
  intro h
  have hframe := h ⟨{}, txss⟩ (.transfer .x .sp) .impld (by decide)
  exact absurd (hframe.flags.1 .zero (by decide)) (by decide)

end Yanesemu.Cpu
