import Yanesemu.CpuInterrupts

/-!
# Masked and pending IRQs

The I flag is looked at when an instruction polls, and the decision is kept in `execirq` until the
next `run`. Two things can come in between. An NMI entry or a reset sets the I flag and leaves a
decision taken before it in force. And BRK, which enters through the same routine as an interrupt,
consumes a pending IRQ whether or not it is masked.

Where they do not come in between, the flags do what they are for: `Masked` is the invariant of
the time from an entry to the next CLI, PLP or RTI, and only `run`'s own IRQ branch takes a
pending IRQ.
-/

namespace Yanesemu

open Interaction EventRun

/-- A bus access, as opposed to a call of the fetch callback. -/
def CpuOp.isBus : CpuOp → Bool
  | .fetchCallback _ _ _ => false
  | _ => true

/-- Bits 4 and 5 of the status byte. -/
theorem ProcStatus.getLsbD_toByte (p : ProcStatus) :
    p.toByte.getLsbD 4 = p.breakf ∧ p.toByte.getLsbD 5 = p.unused := by
  rcases p with ⟨c, z, i, d, b, u, o, n⟩
  revert c z i d b u o n
  decide

namespace Cpu

variable {σ : Type} (H : Handler cpuSig σ) (s : Sys Cpu σ)

/-! ### The I flag -/

/-- IRQs are masked and none has been decided on. -/
structure Masked (c : Cpu) : Prop where
  intdis : c.r.flags.intdis = true
  execirq : c.sig.execirq = false

@[simp] theorem execirq_enter (i : Signals) : i.enter.execirq = i.execirq := by
  unfold Signals.enter
  split <;> rfl

theorem execirq_polled_of_masked (i : Signals) : (i.polled true).execirq = i.execirq := by
  unfold Signals.polled Signals.nmipoll Signals.irqpoll
  split_ifs <;> simp_all

/-- The I flag is the same, and the B flag is not set. -/
structure SameIB (p p' : ProcStatus) : Prop where
  intdis : p'.intdis = p.intdis
  breakf : p.breakf = false → p'.breakf = false

@[simp] theorem read_breakf (name : InstrRead) (v : Uint8) :
    (post H (name.func v) s).chip.r.flags.breakf = s.chip.r.flags.breakf := by
  cases name <;> rfl

@[simp] theorem mod_breakf (name : InstrMod) (v : Uint8) :
    (post H (name.func v) s).chip.r.flags.breakf = s.chip.r.flags.breakf := by
  cases name <;> rfl

theorem readMode_sameIB (mode : ReadMode) (name : InstrRead) :
    SameIB s.chip.r.flags (post H (mode.func name.func) s).chip.r.flags := by
  constructor <;> cases mode <;> simp +contextual

theorem modifyMode_sameIB (mode : ModifyMode) (name : InstrMod) :
    SameIB s.chip.r.flags (post H (mode.func name.func) s).chip.r.flags := by
  constructor <;> cases mode <;> simp +contextual

theorem writeMode_sameIB (mode : WriteMode) (v : Uint8) :
    SameIB s.chip.r.flags (post H (mode.func v) s).chip.r.flags := by
  constructor <;> cases mode <;> simp +contextual

theorem instrBranch_sameIB (take : Bool) :
    SameIB s.chip.r.flags (post H (instrBranch take) s).chip.r.flags := by
  constructor <;> cases take <;> simp +contextual [instrBranch]

/-- The implied instructions that load the flags from the stack or enter an interrupt. -/
def InstrImpld.LoadsFlags (func : InstrImpld) : Prop := func = .plp ∨ func = .rti ∨ func = .brk

theorem impld_sameIB {func : InstrImpld} (hf : ¬func.LoadsFlags) :
    SameIB s.chip.r.flags (post H func.func s).chip.r.flags := by
  unfold InstrImpld.LoadsFlags at hf
  cases func
  case plp => exact absurd (Or.inl rfl) hf
  case rti => exact absurd (Or.inr (Or.inl rfl)) hf
  case brk => exact absurd (Or.inr (Or.inr rfl)) hf
  all_goals constructor <;> simp +contextual [ProcStatus.setZN]

theorem interrupt_flags :
    (post H interrupt s).chip.r.flags =
      { s.chip.r.flags with breakf := false, intdis := true } := by
  simp [interrupt]

/-- The instruction is CLI, PLP or RTI. -/
def Case.Unmasks (c : Case) : Prop := c = .flag .intdis false ∨ c = .impld .plp ∨ c = .impld .rti

/-- Between an entry and the next CLI, PLP or RTI the mask stays. -/
theorem exec_masked {c : Case} (hc : ¬c.Unmasks) (h : Masked s.chip) :
    Masked (post H c.exec s).chip := by
  have hpoll {p : Cpu} (hsig : p.sig = s.chip.sig.polled s.chip.r.flags.intdis)
      (hflag : p.r.flags.intdis = s.chip.r.flags.intdis) : Masked p := by
    refine ⟨hflag.trans h.intdis, ?_⟩
    rw [hsig, h.intdis, execirq_polled_of_masked, h.execirq]
  unfold Case.Unmasks at hc
  cases c with
  | impld func =>
    by_cases hb : func = .brk
    · subst hb
      show Masked (post H interrupt ⟨{ s.chip with r.flags.breakf := true }, s.env⟩).chip
      refine ⟨?_, ?_⟩
      · rw [interrupt_flags]
      · rw [interrupt_sig, execirq_enter]
        exact h.execirq
    · have hplp : func ≠ .plp := fun hf => hc (Or.inr (Or.inl (by rw [hf])))
      have hrti : func ≠ .rti := fun hf => hc (Or.inr (Or.inr (by rw [hf])))
      exact hpoll (impld_sig_of_found H s ⟨hb, hrti⟩)
        (impld_sameIB H s fun hf => by rcases hf with hf | hf | hf <;> contradiction).intdis
  | read name mode =>
    exact hpoll (readMode_sig H s mode name) (readMode_sameIB H s mode name).intdis
  | modify name mode =>
    exact hpoll (modifyMode_sig H s mode name) (modifyMode_sameIB H s mode name).intdis
  | write mode v => exact hpoll (writeMode_sig H s mode _) (writeMode_sameIB H s mode _).intdis
  | branch f v => exact hpoll (instrBranch_sig H s _) (instrBranch_sameIB H s _).intdis
  | flag f v =>
    have hsig : (post H (instrFlag f v) s).chip.sig =
        s.chip.sig.polled s.chip.r.flags.intdis := by
      simp [instrFlag]
    refine ⟨?_, ?_⟩
    · show (f.set s.chip.r.flags v).intdis = true
      cases f
      case intdis =>
        cases v
        · exact absurd (Or.inl rfl) hc
        · rfl
      all_goals exact h.intdis
    · show (post H (instrFlag f v) s).chip.sig.execirq = false
      rw [hsig, h.intdis, execirq_polled_of_masked, h.execirq]
  | transfer src dst =>
    refine hpoll ?_ ?_
    · simp [Case.exec, instrTransfer]
    · simp [Case.exec, instrTransfer, ProcStatus.setZN]
  | unknown => exact h

/-! ### From an entry to the next CLI, PLP or RTI -/

/-- The call goes through `interrupt`. -/
def Enters (s : Sys Cpu σ) : Call → Prop
  | .run => s.chip.sig.execnmi = true ∨ s.chip.sig.execirq = true ∨
      executeTab (opcode H s) = .impld .brk
  | .reset | .power => True
  | .fireNmi | .fireIrq => False

/-- The call does not execute CLI, PLP or RTI. -/
def StaysMasked (s : Sys Cpu σ) (c : Call) : Prop :=
  ¬(c = .run ∧ s.chip.sig.execnmi = false ∧ s.chip.sig.execirq = false ∧
    (executeTab (opcode H s)).Unmasks)

/-- An NMI entry and a reset find no IRQ decided on. -/
def NoLatchedIrq (s : Sys Cpu σ) (c : Call) : Prop :=
  (c = .run ∧ s.chip.sig.execnmi = true) ∨ c = .reset ∨ c = .power → s.chip.sig.execirq = false

theorem interrupt_masked (h : s.chip.sig.execirq = false) : Masked (post H interrupt s).chip := by
  refine ⟨?_, ?_⟩
  · rw [interrupt_flags]
  · rw [interrupt_sig, execirq_enter, h]

variable {H s}

theorem run_masked (hlatch : NoLatchedIrq s .run)
    (h : Enters H s .run ∨ Masked s.chip ∧ StaysMasked H s .run) :
    Masked (post H run s).chip := by
  obtain ⟨hn, hrun⟩ | ⟨hn, hi, hrun⟩ | ⟨hn, hi, hrun⟩ := run_cases H s
  · rw [hrun]
    have hmask := interrupt_masked H (ticked s) (hlatch (Or.inl ⟨rfl, hn⟩))
    exact ⟨hmask.intdis, hmask.execirq⟩
  · rw [hrun]
    refine ⟨?_, rfl⟩
    show (post H interrupt (ticked s)).chip.r.flags.intdis = true
    rw [interrupt_flags]
  · rw [hrun]
    rcases h with hent | ⟨hmask, hstay⟩
    · have hbrk : executeTab (opcode H s) = .impld .brk := by
        rcases hent with h | h | h
        · rw [hn] at h
          cases h
        · rw [hi] at h
          cases h
        · exact h
      rw [hbrk]
      exact interrupt_masked H ⟨{ (fetched H s).chip with r.flags.breakf := true }, _⟩ hi
    · refine exec_masked H (fetched H s) (fun hc => hstay ⟨rfl, hn, hi, hc⟩) ?_
      exact ⟨hmask.intdis, hmask.execirq⟩

theorem call_masked {c : Call} (hlatch : NoLatchedIrq s c)
    (h : Enters H s c ∨ Masked s.chip ∧ StaysMasked H s c) : Masked (call H s c).chip := by
  unfold call
  cases c with
  | run => exact run_masked hlatch h
  | fireNmi =>
    obtain hent | ⟨hmask, -⟩ := h
    · exact hent.elim
    · exact ⟨hmask.intdis, hmask.execirq⟩
  | fireIrq =>
    obtain hent | ⟨hmask, -⟩ := h
    · exact hent.elim
    · exact ⟨hmask.intdis, hmask.execirq⟩
  | reset =>
    have hfree := hlatch (Or.inr (Or.inl rfl))
    rw [Call.prog, reset, post_bind, post_bind, post_busWrite, post_modify]
    apply interrupt_masked
    exact hfree
  | power =>
    have hfree := hlatch (Or.inr (Or.inr rfl))
    refine ⟨?_, ?_⟩
    · rw [Call.prog, power]
      simp only [post_bind]
      rw [interrupt_flags]
    · rw [Call.prog, power_sig, execirq_enter]
      exact hfree

/-- Since the last entry, IRQs are masked. -/
theorem masked_of_since (calls : List Call)
    (hlatch : ∀ m ∈ moments (call H) s calls, NoLatchedIrq m.1 m.2)
    (h : Since (call H) (Enters H) (StaysMasked H) s calls) :
    Masked (after (call H) s calls).chip := by
  induction calls using List.reverseRecOn with
  | nil => exact absurd h not_since_nil
  | append_singleton calls c ih =>
    rw [moments_concat] at hlatch
    rw [after_concat]
    have hlast := hlatch _ (List.mem_append_right _ (List.mem_singleton_self _))
    refine call_masked hlast ?_
    rcases since_concat.mp h with hent | ⟨hsince, hstay⟩
    · exact Or.inl hent
    · exact Or.inr ⟨ih (fun m hm => hlatch m (List.mem_append_left _ hm)) hsince, hstay⟩

/-- **Masked IRQs.** In every run in which no NMI entry and no reset finds an IRQ decided on: from
the entry of an interrupt to the next CLI, PLP or RTI, `run` does not enter an IRQ. -/
theorem no_irq_while_masked (H : Handler cpuSig σ) (s : Sys Cpu σ) (calls : List Call)
    (hlatch : ∀ m ∈ moments (call H) s calls, NoLatchedIrq m.1 m.2)
    (h : Since (call H) (Enters H) (StaysMasked H) s calls) :
    (after (call H) s calls).chip.sig.execirq = false :=
  (masked_of_since calls hlatch h).execirq

/-- The CPU on a memory of NOPs. -/
def onNops : Sys Cpu Mem := ⟨{}, fun _ => 0xEA⟩

/-- An NMI alone: after its entry an IRQ waits. -/
theorem no_irq_while_masked_nops :
    let calls := [Call.fireNmi, .run, .run, .fireIrq, .run, .run]
    (after (call flatMem) onNops calls).chip.sig.irqpending = true ∧
      (after (call flatMem) onNops calls).chip.sig.execirq = false := by
  refine ⟨by decide +kernel, no_irq_while_masked flatMem onNops _ ?_ ?_⟩
  · intro m hm
    simp only [moments_cons, moments_nil, List.mem_cons, List.not_mem_nil, or_false] at hm
    rcases hm with rfl | rfl | rfl | rfl | rfl | rfl <;> intro _ <;> decide +kernel
  · refine ⟨[.fireNmi, .run], .run, [.fireIrq, .run, .run], rfl, Or.inl (by decide +kernel), ?_⟩
    intro m hm
    simp only [moments_cons, moments_nil, List.mem_cons, List.not_mem_nil, or_false] at hm
    rcases hm with rfl | rfl | rfl
    · rintro ⟨h, -⟩
      cases h
    · rintro ⟨-, -, -, h⟩
      revert h
      unfold Case.Unmasks
      decide +kernel
    · rintro ⟨-, -, -, h⟩
      revert h
      unfold Case.Unmasks
      decide +kernel

/-- Both signals arrive before one NOP, which decides on both. The NMI is entered and sets the I
flag; the next `run` enters the IRQ all the same. -/
theorem irq_while_masked_both :
    let calls := [Call.fireNmi, .fireIrq, .run, .run]
    Since (call flatMem) (Enters flatMem) (StaysMasked flatMem) onNops calls ∧
    (after (call flatMem) onNops calls).chip.r.flags.intdis = true ∧
    (after (call flatMem) onNops calls).chip.sig.execnmi = false ∧
    (after (call flatMem) onNops calls).chip.sig.execirq = true ∧
    (after (call flatMem) onNops (calls ++ [.run])).chip.sig.entries = [.irq, .nmi] := by
  refine ⟨⟨[.fireNmi, .fireIrq, .run], .run, [], rfl, Or.inl (by decide +kernel), by simp⟩, ?_⟩
  decide +kernel

/-! ### Pending IRQs -/

/-- `run` executes BRK. -/
def ExecutesBrk (H : Handler cpuSig σ) (s : Sys Cpu σ) : Prop :=
  s.chip.sig.execnmi = false ∧ s.chip.sig.execirq = false ∧
    executeTab (opcode H s) = .impld .brk

theorem exec_breakf (H : Handler cpuSig σ) {s : Sys Cpu σ} (c : Case)
    (h : s.chip.r.flags.breakf = false) : (post H c.exec s).chip.r.flags.breakf = false := by
  cases c with
  | impld func =>
    by_cases hf : func.LoadsFlags
    · rcases hf with rfl | rfl | rfl
      · show (post H instrPlp s).chip.r.flags.breakf = false
        simp
      · show (post H instrRti s).chip.r.flags.breakf = false
        simp
      · show (post H interrupt ⟨{ s.chip with r.flags.breakf := true }, s.env⟩).chip.r.flags.breakf
          = false
        rw [interrupt_flags]
    · exact (impld_sameIB H s hf).breakf h
  | read name mode => exact (readMode_sameIB H s mode name).breakf h
  | modify name mode => exact (modifyMode_sameIB H s mode name).breakf h
  | write mode v => exact (writeMode_sameIB H s mode _).breakf h
  | branch f v => exact (instrBranch_sameIB H s _).breakf h
  | flag f v =>
    show (f.set s.chip.r.flags v).breakf = false
    cases f <;> exact h
  | transfer src dst =>
    simp only [Case.exec, instrTransfer]
    simpa [ProcStatus.setZN] using h
  | unknown => exact h

/-- The B flag is clear between calls. -/
theorem call_breakf (c : Call) (h : s.chip.r.flags.breakf = false) :
    (call H s c).chip.r.flags.breakf = false := by
  unfold call
  cases c with
  | run =>
    show (post H run s).chip.r.flags.breakf = false
    obtain ⟨-, hrun⟩ | ⟨-, -, hrun⟩ | ⟨-, -, hrun⟩ := run_cases H s
    · rw [hrun]
      show (post H interrupt (ticked s)).chip.r.flags.breakf = false
      rw [interrupt_flags]
    · rw [hrun]
      show (post H interrupt (ticked s)).chip.r.flags.breakf = false
      rw [interrupt_flags]
    · rw [hrun]
      exact exec_breakf H _ h
  | fireNmi => exact h
  | fireIrq => exact h
  | reset =>
    rw [Call.prog, reset, post_bind, post_bind, interrupt_flags]
  | power =>
    rw [Call.prog, power]
    simp only [post_bind]
    rw [interrupt_flags]

@[simp] theorem irqpending_polled (i : Signals) (b : Bool) :
    (i.polled b).irqpending = i.irqpending := by
  unfold Signals.polled Signals.nmipoll Signals.irqpoll
  split_ifs <;> rfl

/-- Only the arm for IRQs clears the pending IRQ. -/
theorem irqpending_enter (i : Signals) :
    i.enter.irqpending = if i.entry = .irq then false else i.irqpending := by
  unfold Signals.enter
  cases i.entry <;> rfl

/-- `run` enters an IRQ: its branch for IRQs pushes the program counter and a status byte with bit
4 clear and loads the program counter from the vector of IRQs. -/
structure IrqEntry (H : Handler cpuSig σ) (s : Sys Cpu σ) : Prop where
  dispatched : s.chip.sig.execnmi = false ∧ s.chip.sig.execirq = true
  accesses : (asked H run s).filter CpuOp.isBus =
    [.write (stackAddr s.chip.r.sp) (Reg16.high s.chip.r.pc),
      .write (stackAddr (s.chip.r.sp - 1)) (Reg16.low s.chip.r.pc),
      .write (stackAddr (s.chip.r.sp - 1 - 1)) s.chip.r.flags.toByte,
      .read irqBrkVec, .read (irqBrkVec + 1)]
  status : s.chip.r.flags.toByte.getLsbD 4 = false
  pc : (post H run s).chip.r.pc =
    (post H (loadPc irqBrkVec) (post H (do saveState; chooseVector) (ticked s))).chip.r.pc

theorem irqEntry_of_irq {s : Sys Cpu σ} (hn : s.chip.sig.execnmi = false)
    (hi : s.chip.sig.execirq = true) (hentry : s.chip.sig.entry = .irq)
    (hb : s.chip.r.flags.breakf = false) : IrqEntry H s where
  dispatched := ⟨hn, hi⟩
  accesses := by
    simp [run, hn, hi, interrupt, CpuOp.isBus, hentry, Entry.vec, List.filter_cons]
  status := (ProcStatus.getLsbD_toByte _).1.trans hb
  pc := by
    have hvec : val H chooseVector (post H saveState (ticked s)) = irqBrkVec := by
      show s.chip.sig.entry.vec = irqBrkVec
      rw [hentry]
      rfl
    rw [post_run_irq H s hn hi, interrupt_eq]
    show (post H (do saveState; loadPc (← chooseVector)) (ticked s)).chip.r.pc = _
    rw [post_bind, post_bind, hvec, post_bind]

/-- An instruction that clears a pending IRQ is BRK, which enters an interrupt. -/
theorem brk_of_cleared {s : Sys Cpu σ} (hpend : s.chip.sig.irqpending = true)
    (hclear : (post H (executeTab (opcode H s)).exec (fetched H s)).chip.sig.irqpending = false) :
    executeTab (opcode H s) = .impld .brk ∧ s.chip.sig.enter.irqpending = false := by
  by_cases hop : executeTab (opcode H s) = .impld .brk
  · rw [hop] at hclear
    replace hclear : (post H interrupt
      ⟨{ (fetched H s).chip with r.flags.breakf := true }, _⟩).chip.sig.irqpending = false := hclear
    rw [interrupt_sig] at hclear
    exact ⟨hop, hclear⟩
  · -- other instructions at most poll
    exfalso
    rcases exec_sig H (fetched H s) _ hop with h | ⟨b, h⟩
    · rw [h] at hclear
      exact absurd (hpend.symm.trans hclear) (by decide)
    · rw [h, irqpending_polled] at hclear
      exact absurd (hpend.symm.trans hclear) (by decide)

/-- What clears a pending IRQ, unless BRK finds it. -/
theorem irqEntry_of_cleared {s : Sys Cpu σ} {c : Call} (hs : Sound s.chip.sig)
    (hb : s.chip.r.flags.breakf = false)
    (hbrk : c = .run → ExecutesBrk H s →
      s.chip.sig.irqpending = false ∨ s.chip.sig.nmipending = true)
    (hpend : s.chip.sig.irqpending = true) (hclear : (call H s c).chip.sig.irqpending = false) :
    c = .run ∧ IrqEntry H s := by
  have hentry (hn : s.chip.sig.enter.irqpending = false) : s.chip.sig.entry = .irq := by
    by_contra hne
    rw [irqpending_enter, if_neg hne, hpend] at hn
    cases hn
  have hinterrupt (h : (post H interrupt (ticked s)).chip.sig.irqpending = false) :
      s.chip.sig.entry = .irq := by
    rw [interrupt_sig] at h
    exact hentry h
  have hnmi (hn : s.chip.sig.nmipending = true) : s.chip.sig.entry ≠ .irq := by
    unfold Signals.entry
    simp [hs.reset, hn]
  unfold call at hclear
  cases c with
  | fireNmi => exact absurd (hpend.symm.trans hclear) (by decide)
  | fireIrq => cases hclear
  | reset =>
    rw [Call.prog, reset_sig, enter_resetpending] at hclear
    exact absurd (hpend.symm.trans hclear) (by decide)
  | power =>
    rw [Call.prog, power_sig, enter_resetpending] at hclear
    exact absurd (hpend.symm.trans hclear) (by decide)
  | run =>
    refine ⟨rfl, ?_⟩
    rw [Call.prog] at hclear
    obtain ⟨hn, hrun⟩ | ⟨hn, hi, hrun⟩ | ⟨hn, hi, hrun⟩ := run_cases H s
    · rw [hrun] at hclear
      exact absurd (hinterrupt hclear) (hnmi (hs.nmi hn))
    · rw [hrun] at hclear
      exact irqEntry_of_irq hn hi (hinterrupt hclear) hb
    · rw [hrun] at hclear
      obtain ⟨hop, henter⟩ := brk_of_cleared hpend hclear
      rcases hbrk rfl ⟨hn, hi, hop⟩ with h | h
      · exact absurd (hpend.symm.trans h) (by decide)
      · exact absurd (hentry henter) (hnmi h)

/-- **Pending IRQs.** In every run in which BRK finds no IRQ pending, or an NMI before it, a
pending IRQ is cleared only by a `run` that enters the IRQ. -/
theorem irq_not_lost (H : Handler cpuSig σ) (s : Sys Cpu σ) (hs : Sound s.chip.sig)
    (hb : s.chip.r.flags.breakf = false) (calls : List Call)
    (hbrk : ∀ m ∈ moments (call H) s calls, m.2 = .run → ExecutesBrk H m.1 →
      m.1.chip.sig.irqpending = false ∨ m.1.chip.sig.nmipending = true) :
    ∀ m ∈ moments (call H) s calls, m.1.chip.sig.irqpending = true →
      (call H m.1 m.2).chip.sig.irqpending = false → m.2 = .run ∧ IrqEntry H m.1 := by
  intro m hm hpend hclear
  obtain ⟨pre, suf, -, hafter⟩ := mem_moments_iff.mp hm
  have hinv : Sound m.1.chip.sig ∧ m.1.chip.r.flags.breakf = false := by
    rw [hafter]
    exact after_inv (I := fun t : Sys Cpu σ => Sound t.chip.sig ∧ t.chip.r.flags.breakf = false)
      (fun t c h => ⟨call_sound c h.1, call_breakf c h.2⟩) ⟨hs, hb⟩ pre
  exact irqEntry_of_cleared hinv.1 hinv.2 (hbrk m hm) hpend hclear

/-- An IRQ on a memory of NOPs: the first NOP decides on it, and the next `run` enters it. -/
theorem irq_not_lost_nops :
    let entered := (after (call flatMem) onNops [.fireIrq, .run])
    (call flatMem entered .run).chip.sig.irqpending = false ∧ IrqEntry flatMem entered := by
  have hsound : Sound onNops.chip.sig := ⟨rfl, nofun, nofun⟩
  have hbrk (m : Sys Cpu Mem × Call)
      (hm : m ∈ moments (call flatMem) onNops [.fireIrq, .run, .run]) (_ : m.2 = .run)
      (h : ExecutesBrk flatMem m.1) :
      m.1.chip.sig.irqpending = false ∨ m.1.chip.sig.nmipending = true := by
    simp only [moments_cons, moments_nil, List.mem_cons, List.not_mem_nil, or_false] at hm
    obtain ⟨-, -, hop⟩ := h
    revert hop
    rcases hm with rfl | rfl | rfl <;> decide +kernel
  refine ⟨by decide +kernel, ?_⟩
  exact (irq_not_lost flatMem onNops hsound rfl [.fireIrq, .run, .run] hbrk
    (_, .run) (mem_moments_iff.mpr ⟨[.fireIrq, .run], [], rfl, rfl⟩) (by decide +kernel)
    (by decide +kernel)).2

/-- SEI and BRK. -/
def seiBrk : Sys Cpu Mem := ⟨{}, fun a => if a = 0 then 0x78 else 0⟩

/-- An IRQ arrives after SEI: the BRK that follows consumes it, and it is never entered. -/
theorem irq_lost_brk :
    let m := after (call flatMem) seiBrk [.run, .fireIrq]
    m.chip.sig.irqpending = true ∧ m.chip.r.flags.intdis = true ∧
      (call flatMem m .run).chip.sig.irqpending = false ∧
      (m, Call.run) ∈ moments (call flatMem) seiBrk [.run, .fireIrq, .run] ∧
      ¬IrqEntry flatMem m := by
  intro m
  have hexec : m.chip.sig.execirq = false := by decide +kernel
  refine ⟨by decide +kernel, by decide +kernel, by decide +kernel, ?_, ?_⟩
  · exact mem_moments_iff.mpr ⟨[.run, .fireIrq], [], rfl, rfl⟩
  · intro h
    rw [h.dispatched.2] at hexec
    cases hexec

end Cpu

end Yanesemu
