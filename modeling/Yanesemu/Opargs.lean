import Yanesemu.CycleCounts

/-!
# Who can see the scratch register

`opargs` is a member of the CPU class and not of `CPU::Regs`: an instruction leaves its operand in
it and the next one overwrites it. Two runs that start in states equal but for `opargs` are
compared here, run by run.

1. Each addressing mode and each instruction takes such states to such states, because it fetches
   the bytes of `opargs` it uses (`exec_eqButOpargs`). The read mode `(zp),Y` is the exception: it
   fetches the low byte and compares the high one.
2. What it exposes is one cycle (`indy_eqButOpargs_iff`).
3. `eqButOpargs_iff` puts the two together for any number of runs.
-/

namespace Yanesemu.Cpu

open Interaction

variable {σ : Type}

/-- The two states differ in `opargs` at most. -/
structure EqButOpargs (s t : Sys Cpu σ) : Prop where
  r : s.chip.r = t.chip.r
  sig : s.chip.sig = t.chip.sig
  env : s.env = t.env

/-- The fetch callback is given `status()`, which has no `opargs` in it. -/
def IgnoresOpargs (H : Handler cpuSig σ) : Prop :=
  ∀ c o a m e, H (.fetchCallback { c with opargs := o } a m) e = H (.fetchCallback c a m) e

theorem ignoresOpargs_flatMem : IgnoresOpargs flatMem := fun _ _ _ _ _ => rfl

/-- The environment after a fetch callback that was shown a clean `opargs`. -/
def calledClean (H : Handler cpuSig σ) (r : Regs) (sig : Signals) (a : Uint16) (m : AccessMode)
    (e : σ) : σ := called H ⟨r, sig, 0⟩ a m e

theorem IgnoresOpargs.called_eq {H : Handler cpuSig σ} (hH : IgnoresOpargs H) (c : Cpu)
    (a : Uint16) (m : AccessMode) (e : σ) : called H c a m e = calledClean H c.r c.sig a m e :=
  congrArg Prod.snd (hH c 0 a m e).symm

/-! ### Instruction functions -/

/-- The registers an instruction function leaves. -/
def InstrRead.regs (name : InstrRead) (v : Uint8) (r : Regs) : Regs :=
  (post flatMem (name.func v) ⟨{ r := r }, fun _ => 0⟩).chip.r

def InstrMod.regs (name : InstrMod) (v : Uint8) (r : Regs) : Regs :=
  (post flatMem (name.func v) ⟨{ r := r }, fun _ => 0⟩).chip.r

def InstrMod.result (name : InstrMod) (v : Uint8) (r : Regs) : Uint8 :=
  val flatMem (name.func v) ⟨{ r := r }, fun _ => 0⟩

section

variable (H : Handler cpuSig σ) (s : Sys Cpu σ)

theorem InstrRead.post_regs (name : InstrRead) (v : Uint8) :
    (post H (name.func v) s).chip.r = name.regs v s.chip.r := by
  cases name <;> rfl

theorem InstrMod.post_regs (name : InstrMod) (v : Uint8) :
    (post H (name.func v) s).chip.r = name.regs v s.chip.r := by
  cases name <;> rfl

theorem InstrMod.val_result (name : InstrMod) (v : Uint8) :
    val H (name.func v) s = name.result v s.chip.r := by
  cases name <;> rfl

end

/-! ### One case of the switch -/

section Exec

variable {H : Handler cpuSig σ} (hH : IgnoresOpargs H) {s t : Sys Cpu σ} (h : EqButOpargs s t)
include hH h

theorem readMode_eqButOpargs {mode : ReadMode} (hmode : mode ≠ .indy) (name : InstrRead) :
    EqButOpargs (post H (mode.func name.func) s) (post H (mode.func name.func) t) := by
  cases mode with
  | indy => exact absurd rfl hmode
  | _ =>
    constructor <;>
      simp [name.post_regs, hH.called_eq, h.r, h.sig, h.env]

theorem modifyMode_eqButOpargs (mode : ModifyMode) (name : InstrMod) :
    EqButOpargs (post H (mode.func name.func) s) (post H (mode.func name.func) t) := by
  cases mode <;> constructor <;>
    simp [name.post_regs, name.val_result, hH.called_eq, h.r, h.sig, h.env]

theorem writeMode_eqButOpargs (mode : WriteMode) (v : Uint8) :
    EqButOpargs (post H (mode.func v) s) (post H (mode.func v) t) := by
  cases mode <;> constructor <;> simp [hH.called_eq, h.r, h.sig, h.env]

theorem interrupt_eqButOpargs : EqButOpargs (post H interrupt s) (post H interrupt t) := by
  constructor <;> simp [interrupt, hH.called_eq, h.r, h.sig, h.env]

theorem impld_eqButOpargs (func : InstrImpld) :
    EqButOpargs (post H func.func s) (post H func.func t) := by
  cases func <;> constructor <;>
    simp [instrBrk, interrupt, popped, hH.called_eq, h.r, h.sig, h.env]

omit hH in
theorem branch_eqButOpargs (take : Bool) :
    EqButOpargs (post H (instrBranch take) s) (post H (instrBranch take) t) := by
  cases take <;> constructor <;> simp [instrBranch, h.r, h.sig, h.env]

/-- **Blind instructions.** Every case but the `(zp),Y` reads. -/
theorem exec_eqButOpargs {c : Case} (hc : ∀ name, c ≠ .read name .indy) :
    EqButOpargs (post H c.exec s) (post H c.exec t) := by
  cases c with
  | impld func => exact impld_eqButOpargs hH h func
  | read name mode =>
    have hmode : mode ≠ .indy := by
      rintro rfl
      exact hc name rfl
    exact readMode_eqButOpargs hH h hmode name
  | modify name mode => exact modifyMode_eqButOpargs hH h mode name
  | write mode reg =>
    have hreg : reg.get s.chip.r = reg.get t.chip.r := by rw [h.r]
    simp only [Case.exec, post_bind, val_get, post_get, hreg]
    exact writeMode_eqButOpargs hH h mode _
  | branch f v =>
    simp only [Case.exec, post_bind, val_get, post_get, h.r]
    exact branch_eqButOpargs h _
  | flag f v => constructor <;> simp [Case.exec, instrFlag, h.r, h.sig, h.env]
  | transfer src dst => constructor <;> simp [Case.exec, instrTransfer, h.r, h.sig, h.env]
  | unknown => exact h

/-! ### One run -/

omit hH in
theorem eqButOpargs_ticked : EqButOpargs (ticked s) (ticked t) := by
  constructor <;> simp [ticked, h.r, h.sig, h.env]

theorem opcode_eq : opcode H s = opcode H t := by
  simp [opcode, hH.called_eq, h.r, h.sig, h.env]

theorem eqButOpargs_fetched : EqButOpargs (fetched H s) (fetched H t) := by
  constructor <;> simp [fetched, hH.called_eq, h.r, h.sig, h.env]

/-- Both runs compute the same effective address. -/
theorem effective_eq : PagedMode.indy.effective H s = PagedMode.indy.effective H t := by
  have hf := eqButOpargs_fetched hH h
  simp [PagedMode.effective, PagedMode.base, PagedMode.index, indirectBase, operandByte,
    hH.called_eq, hf.r, hf.sig, hf.env, h.r]

/-- The reads of `(zp),Y` lead to states equal but for `opargs` if both comparisons come out
alike, and only then: the cycle each of them adds tells. -/
theorem indy_eqButOpargs_iff {name : InstrRead} :
    EqButOpargs (post H (Case.read name .indy).exec (fetched H s))
        (post H (Case.read name .indy).exec (fetched H t)) ↔
      PagedMode.indy.charged H s = PagedMode.indy.charged H t := by
  have hf := eqButOpargs_fetched hH h
  constructor
  · intro hpost
    have hs := paged_took H s .indy name
    have ht := paged_took H t .indy name
    simp only [PagedMode.read, ReadMode.cycles] at hs ht
    have hle := (PagedMode.indy.charged H s).toNat_le
    have hle' := (PagedMode.indy.charged H t).toNat_le
    -- both runs start at the same count and end at the same count
    have hs' : Took (4 + (PagedMode.indy.charged H s).toNat) (fetched H t).chip
        (post H (Case.read name .indy).exec (fetched H t)).chip := by
      unfold Took at hs ⊢
      rw [← hpost.r, ← hf.r]
      exact hs
    have heq := Nat.add_left_cancel (Took.unique (by omega) (by omega) hs' ht)
    cases hb : PagedMode.indy.charged H s <;> cases hb' : PagedMode.indy.charged H t <;>
      simp [hb, hb'] at heq ⊢
  · intro hc
    simp only [PagedMode.charged, effective_eq hH h] at hc
    simp only [PagedMode.effective, PagedMode.base, PagedMode.index, indirectBase, operandByte,
      val_fetchop, post_fetchLow, val_readmem, post_readmem, hH.called_eq] at hc
    constructor
    · simp [Case.exec, name.post_regs, hH.called_eq, hf.r, hf.sig, hf.env]
      exact congrArg (ofBool 64) hc
    · simp [Case.exec, hH.called_eq, hf.r, hf.sig, hf.env]
    · simp [Case.exec, hH.called_eq, hf.r, hf.sig, hf.env]

/-- The run that starts in these states does not execute a `(zp),Y` read or, if it does, the two
scratch registers compare alike with the high byte of the effective address. -/
def Unexposed (H : Handler cpuSig σ) (s t : Sys Cpu σ) : Prop :=
  s.chip.sig.execnmi = false → s.chip.sig.execirq = false →
    documented (opcode H s) = some (.paged .indy) →
      (Reg16.high s.chip.opargs = Reg16.high (PagedMode.indy.effective H s) ↔
        Reg16.high t.chip.opargs = Reg16.high (PagedMode.indy.effective H s))

theorem charged_eq_iff :
    PagedMode.indy.charged H s = PagedMode.indy.charged H t ↔
      (Reg16.high s.chip.opargs = Reg16.high (PagedMode.indy.effective H s) ↔
        Reg16.high t.chip.opargs = Reg16.high (PagedMode.indy.effective H s)) := by
  simp only [PagedMode.charged, ← effective_eq hH h]
  rw [Bool.eq_iff_iff, bne_iff_ne, bne_iff_ne, not_iff_not]

/-- What one run shows. -/
theorem run_eqButOpargs_iff :
    EqButOpargs (post H run s) (post H run t) ↔ Unexposed H s t := by
  unfold Unexposed
  cases hn : s.chip.sig.execnmi with
  | true =>
    have hint := interrupt_eqButOpargs hH (eqButOpargs_ticked h)
    rw [post_run_nmi H s hn, post_run_nmi H t (by rw [← h.sig, hn])]
    refine iff_of_true ⟨hint.r, ?_, hint.env⟩ (by simp)
    exact congrArg (fun sig : Signals => { sig with execnmi := false }) hint.sig
  | false =>
    have hn' : t.chip.sig.execnmi = false := by rw [← h.sig, hn]
    cases hi : s.chip.sig.execirq with
    | true =>
      have hint := interrupt_eqButOpargs hH (eqButOpargs_ticked h)
      rw [post_run_irq H s hn hi, post_run_irq H t hn' (by rw [← h.sig, hi])]
      refine iff_of_true ⟨hint.r, ?_, hint.env⟩ (by simp)
      exact congrArg (fun sig : Signals => { sig with execirq := false }) hint.sig
    | false =>
      have hi' : t.chip.sig.execirq = false := by rw [← h.sig, hi]
      rw [post_run_instr H s hn hi, post_run_instr H t hn' hi', ← opcode_eq hH h]
      have htiming := executeTab_timing (opcode H s)
      by_cases hdoc : documented (opcode H s) = some (.paged .indy)
      · obtain ⟨name, hcase⟩ := Case.eq_of_paged (htiming.trans hdoc)
        rw [hcase]
        simp only [hdoc, forall_const]
        exact (indy_eqButOpargs_iff hH h).trans (charged_eq_iff hH h)
      · have hcase : ∀ name, executeTab (opcode H s) ≠ .read name .indy := by
          intro name hcase
          rw [hcase] at htiming
          exact hdoc htiming.symm
        refine iff_of_true (exec_eqButOpargs hH (eqButOpargs_fetched hH h) hcase) ?_
        exact fun _ _ hdoc' => absurd hdoc' hdoc

/-! ### Any number of runs -/

/-- **The scratch register.** Two states equal but for `opargs` lead, run after run, to states
equal but for `opargs` exactly if no run on the way exposes it. -/
theorem eqButOpargs_iff (n : ℕ) :
    (∀ k ≤ n, EqButOpargs ((post H run)^[k] s) ((post H run)^[k] t)) ↔
      ∀ k < n, Unexposed H ((post H run)^[k] s) ((post H run)^[k] t) := by
  constructor
  · intro hall k hk
    have hnext := hall (k + 1) hk
    rw [Function.iterate_succ_apply', Function.iterate_succ_apply'] at hnext
    exact (run_eqButOpargs_iff hH (hall k (Nat.le_of_lt hk))).mp hnext
  · intro hall k hk
    induction k with
    | zero => exact h
    | succ k ih =>
      rw [Function.iterate_succ_apply', Function.iterate_succ_apply']
      exact (run_eqButOpargs_iff hH (ih (Nat.le_of_succ_le hk))).mpr (hall k hk)

end Exec

/-- A memory with `LDA ($10),Y` at the start and a zero pointer. -/
def ldaIndy : Mem := fun a => if a.toNat = 0 then 0xB1 else if a.toNat = 1 then 0x10 else 0

/-- The high bytes 1 and 2 both differ from that of the effective address. -/
theorem eqButOpargs_one_run :
    EqButOpargs ((post flatMem run)^[1] ⟨{ opargs := 0x100 }, ldaIndy⟩)
      ((post flatMem run)^[1] ⟨{ opargs := 0x200 }, ldaIndy⟩) := by
  have heq : EqButOpargs (⟨{ opargs := 0x100 }, ldaIndy⟩ : Sys Cpu Mem)
      ⟨{ opargs := 0x200 }, ldaIndy⟩ := ⟨rfl, rfl, rfl⟩
  refine (eqButOpargs_iff ignoresOpargs_flatMem heq 1).mpr ?_ 1 (le_refl 1)
  intro k hk
  obtain rfl : k = 0 := by omega
  intro _ _ _
  decide

/-- The high byte 0 does not: the second run takes a cycle more. -/
theorem not_eqButOpargs_one_run :
    ¬∀ s t : Sys Cpu Mem, EqButOpargs s t →
      EqButOpargs (post flatMem run s) (post flatMem run t) := by
  intro h
  have hpost := h ⟨{ opargs := 0 }, ldaIndy⟩ ⟨{ opargs := 0x100 }, ldaIndy⟩ ⟨rfl, rfl, rfl⟩
  exact absurd (congrArg Regs.cycles hpost.r) (by decide)

end Yanesemu.Cpu
