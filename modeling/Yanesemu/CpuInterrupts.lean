import Yanesemu.Lib.Run
import Yanesemu.Memory

/-!
# Interrupt signals

How the five interrupt flags move. An instruction other than BRK only polls (`exec_sig`): it
raises `execnmi` and `execirq` for pending signals and touches nothing else. `interrupt` takes
the first pending signal (`interrupt_sig`), and it is entered by the two branches of `run`, by
BRK, by `reset` and by `power`. `run_sig` puts these together.

From them: a raised exec flag always stands for a pending signal, and every NMI that was
signalled is either still pending or has been entered exactly once (`nmi_ledger`).
-/

namespace Yanesemu

open Interaction EventRun

namespace Cpu

variable {σ : Type} (H : Handler cpuSig σ) (s : Sys Cpu σ)

/-! ## Signals after an instruction -/

theorem readMode_sig (mode : ReadMode) (name : InstrRead) :
    (post H (mode.func name.func) s).chip.sig = s.chip.sig.polled s.chip.r.flags.intdis := by
  cases mode <;> simp

theorem modifyMode_sig (mode : ModifyMode) (name : InstrMod) :
    (post H (mode.func name.func) s).chip.sig = s.chip.sig.polled s.chip.r.flags.intdis := by
  cases mode <;> simp

theorem writeMode_sig (mode : WriteMode) (v : Uint8) :
    (post H (mode.func v) s).chip.sig = s.chip.sig.polled s.chip.r.flags.intdis := by
  cases mode <;> simp

theorem instrBranch_sig (take : Bool) :
    (post H (instrBranch take) s).chip.sig = s.chip.sig.polled s.chip.r.flags.intdis := by
  cases take <;> simp [instrBranch]

theorem interrupt_sig : (post H interrupt s).chip.sig = s.chip.sig.enter := by
  simp [interrupt]

/-- An implied instruction other than BRK and RTI polls with the flags it finds. -/
theorem impld_sig_of_found {func : InstrImpld} (hf : func ≠ .brk ∧ func ≠ .rti) :
    (post H func.func s).chip.sig = s.chip.sig.polled s.chip.r.flags.intdis := by
  cases func
  case brk => exact absurd rfl hf.1
  case rti => exact absurd rfl hf.2
  all_goals simp [ProcStatus.setZN]

/-- RTI polls too, with the flags it has pulled. -/
theorem impld_sig (func : InstrImpld) (hb : func ≠ .brk) :
    ∃ b, (post H func.func s).chip.sig = s.chip.sig.polled b := by
  by_cases hrti : func = .rti
  · subst hrti
    exact ⟨_, by simp; rfl⟩
  · exact ⟨_, impld_sig_of_found H s ⟨hb, hrti⟩⟩

/-- **Instructions poll.** Every case but BRK, which enters, polls the signals once. -/
theorem exec_polled (c : Case) (hb : c ≠ .impld .brk) (hu : c ≠ .unknown) :
    ∃ b, (post H c.exec s).chip.sig = s.chip.sig.polled b := by
  cases c with
  | impld func => exact impld_sig H s func fun h => hb (congrArg _ h)
  | read name mode => exact ⟨_, readMode_sig H s mode name⟩
  | modify name mode => exact ⟨_, modifyMode_sig H s mode name⟩
  | write mode v => exact ⟨_, writeMode_sig H s mode _⟩
  | branch f v => exact ⟨_, instrBranch_sig H s _⟩
  | flag f v => exact ⟨s.chip.r.flags.intdis, by simp [Case.exec, instrFlag]⟩
  | transfer src dst => exact ⟨s.chip.r.flags.intdis, by simp [Case.exec, instrTransfer]⟩
  | unknown => exact absurd rfl hu

/-- **Instructions only poll.** An instruction other than BRK leaves the signals as they are or
polls them. -/
theorem exec_sig (c : Case) (hb : c ≠ .impld .brk) :
    (post H c.exec s).chip.sig = s.chip.sig ∨
      ∃ b, (post H c.exec s).chip.sig = s.chip.sig.polled b := by
  by_cases hu : c = .unknown
  · subst hu
    exact Or.inl rfl
  · exact Or.inr (exec_polled H s c hb hu)

/-- What one `run` does to the signals, by what it finds. -/
inductive RunSig (i : Signals) : Signals → Prop
  | nmi (hn : i.execnmi = true) : RunSig i { i.enter with execnmi := false }
  | irq (hn : i.execnmi = false) (hi : i.execirq = true) :
      RunSig i { i.enter with execirq := false }
  | brk (hn : i.execnmi = false) (hi : i.execirq = false) : RunSig i i.enter
  | poll (hn : i.execnmi = false) (hi : i.execirq = false) (b : Bool) : RunSig i (i.polled b)
  | unknown (hn : i.execnmi = false) (hi : i.execirq = false) : RunSig i i

theorem run_sig : RunSig s.chip.sig (post H run s).chip.sig := by
  obtain ⟨hn, hrun⟩ | ⟨hn, hi, hrun⟩ | ⟨hn, hi, hrun⟩ := run_cases H s
  · rw [hrun]
    simp only [interrupt_sig, ticked]
    exact .nmi hn
  · rw [hrun]
    simp only [interrupt_sig, ticked]
    exact .irq hn hi
  · rw [hrun]
    by_cases hb : executeTab (opcode H s) = .impld .brk
    · rw [hb, show (Case.impld .brk).exec = instrBrk from rfl]
      simp only [instrBrk, post_bind, post_modify, interrupt_sig, fetched]
      exact .brk hn hi
    · rcases exec_sig H (fetched H s) _ hb with h | ⟨b, h⟩
      · rw [h]; exact .unknown hn hi
      · rw [h]; exact .poll hn hi b

theorem reset_sig :
    (post H reset s).chip.sig = { s.chip.sig with resetpending := true }.enter := by
  simp [reset, interrupt_sig]

theorem power_sig :
    (post H power s).chip.sig = { s.chip.sig with resetpending := true }.enter := by
  rw [power]
  simp only [post_bind]
  rw [interrupt_sig, post_modify, post_clearBus_chip, post_busWrite, post_busWrite, post_modify,
    post_clearBus_chip, post_modify]

/-! ## Runs -/

/-- The calls the rest of the machine makes to the CPU. -/
inductive Call
  | run | fireNmi | fireIrq | reset | power
  deriving DecidableEq, Repr

def Call.prog : Call → CpuM Unit
  | run => Cpu.run
  | fireNmi => Cpu.fireNmi
  | fireIrq => Cpu.fireIrq
  | reset => Cpu.reset
  | power => Cpu.power

/-- The CPU with its environment after one call. -/
def call (c : Call) : Sys Cpu σ := post H c.prog s

/-- A raised exec flag stands for a pending signal, and no reset is left over between calls. -/
structure Sound (i : Signals) : Prop where
  reset : i.resetpending = false
  nmi : i.execnmi = true → i.nmipending = true
  irq : i.execirq = true → i.irqpending = true

/-- NMI entries, counting a pending one as still to come. -/
def nmiLedger (i : Signals) : ℕ := i.entries.count .nmi + if i.nmipending then 1 else 0

/-- The `fireNmi` calls of a run that found no NMI pending. -/
def freshNmis (calls : List Call) : ℕ :=
  (moments (call H) s calls).countP fun m => m.2 = .fireNmi && !m.1.chip.sig.nmipending

variable {H s}

theorem Sound.polled {i : Signals} (h : Sound i) (b : Bool) : Sound (i.polled b) := by
  obtain ⟨hr, hn, hi⟩ := h
  constructor <;> grind [Signals.polled, Signals.nmipoll, Signals.irqpoll]

theorem nmiLedger_polled (i : Signals) (b : Bool) : nmiLedger (i.polled b) = nmiLedger i := by
  grind [nmiLedger, Signals.polled, Signals.nmipoll, Signals.irqpoll]

/-- Entering an interrupt moves a pending NMI to the entries. -/
theorem nmiLedger_enter (i : Signals) : nmiLedger i.enter = nmiLedger i := by
  grind [nmiLedger, Signals.enter, Signals.entry]

/-- A reset sequence consumes the reset and nothing else. -/
theorem enter_resetpending (i : Signals) :
    { i with resetpending := true }.enter =
      { i with resetpending := false, entries := .reset :: i.entries } := rfl

/-- One `run` keeps `Sound`, and moves at most what was pending to the entries. -/
theorem RunSig.sound {i j : Signals} (h : RunSig i j) (hi : Sound i) :
    Sound j ∧ nmiLedger j = nmiLedger i := by
  obtain ⟨hr, hn, hq⟩ := hi
  have henter := nmiLedger_enter i
  cases h with
  | nmi h => exact ⟨⟨by grind [Signals.enter, Signals.entry], by simp,
      by grind [Signals.enter, Signals.entry]⟩, henter⟩
  | irq h h' => exact ⟨⟨by grind [Signals.enter, Signals.entry],
      by grind [Signals.enter, Signals.entry], by simp⟩, henter⟩
  | brk h h' => exact ⟨⟨by grind [Signals.enter, Signals.entry],
      by grind [Signals.enter, Signals.entry], by grind [Signals.enter, Signals.entry]⟩, henter⟩
  | poll h h' b => exact ⟨Sound.polled ⟨hr, hn, hq⟩ b, nmiLedger_polled i b⟩
  | unknown h h' => exact ⟨⟨hr, hn, hq⟩, rfl⟩

/-- One call keeps `Sound`. -/
theorem call_sound (c : Call) (h : Sound s.chip.sig) : Sound (call H s c).chip.sig := by
  unfold call
  cases c with
  | run => exact ((run_sig H s).sound h).1
  | fireNmi => exact ⟨h.reset, fun _ => rfl, h.irq⟩
  | fireIrq => exact ⟨h.reset, h.nmi, fun _ => rfl⟩
  | reset =>
    rw [Call.prog, reset_sig, enter_resetpending]
    exact ⟨rfl, h.nmi, h.irq⟩
  | power =>
    rw [Call.prog, power_sig, enter_resetpending]
    exact ⟨rfl, h.nmi, h.irq⟩

/-- One call adds to the ledger exactly when it signals an NMI that was not pending. -/
theorem call_nmiLedger (c : Call) (h : Sound s.chip.sig) :
    nmiLedger (call H s c).chip.sig =
      nmiLedger s.chip.sig + if c = .fireNmi ∧ s.chip.sig.nmipending = false then 1 else 0 := by
  unfold call
  cases c with
  | run => simpa [Call.prog] using ((run_sig H s).sound h).2
  | fireNmi =>
    show nmiLedger { s.chip.sig with nmipending := true } = _
    cases hp : s.chip.sig.nmipending <;> simp [nmiLedger, hp]
  | fireIrq => rfl
  | reset =>
    rw [Call.prog, reset_sig, enter_resetpending]
    simp [nmiLedger]
  | power =>
    rw [Call.prog, power_sig, enter_resetpending]
    simp [nmiLedger]

/-- **The NMI ledger.** Over any run, entries plus what is pending grow by the fresh signals. -/
theorem nmi_ledger (calls : List Call) (h : Sound s.chip.sig) :
    nmiLedger (after (call H) s calls).chip.sig =
      nmiLedger s.chip.sig + freshNmis H s calls := by
  induction calls generalizing s with
  | nil => rfl
  | cons c calls ih =>
    rw [after_cons, ih (call_sound c h), call_nmiLedger c h]
    unfold freshNmis
    rw [moments_cons, List.countP_cons]
    simp only [Bool.and_eq_true, decide_eq_true_eq, Bool.not_eq_true']
    omega

/-- A run that finds an exec flag raised enters through the vector of a pending signal. -/
theorem run_entry (h : Sound s.chip.sig)
    (he : s.chip.sig.execnmi = true ∨ s.chip.sig.execirq = true) :
    ∃ e, (post H run s).chip.sig.entries = e :: s.chip.sig.entries ∧ e ≠ .default := by
  have hpend : s.chip.sig.nmipending = true ∨ s.chip.sig.irqpending = true :=
    he.imp h.nmi h.irq
  have henter : s.chip.sig.enter.entries = s.chip.sig.entry :: s.chip.sig.entries := by
    grind [Signals.enter]
  refine ⟨s.chip.sig.entry, ?_, by grind [Signals.entry]⟩
  generalize hj : (post H run s).chip.sig = j
  have hrun := run_sig H s
  rw [hj] at hrun
  cases hrun with
  | nmi _ => exact henter
  | irq _ _ => exact henter
  | brk hn hi => simp [hn, hi] at he
  | poll hn hi _ => simp [hn, hi] at he
  | unknown hn hi => simp [hn, hi] at he

/-- Over any interleaving of calls to the CPU, in any environment, starting with no interrupt
flag set: an exec flag is raised only for a pending signal, an interrupt entered for a raised
flag never takes the default arm, and the NMI entries so far plus the pending one are the NMI
signals that found none pending. -/
theorem interrupts_accounted (H : Handler cpuSig σ) (s : Sys Cpu σ) (calls : List Call)
    (h0 : s.chip.sig = {}) :
    let s' := after (call H) s calls
    (s'.chip.sig.execnmi = true → s'.chip.sig.nmipending = true) ∧
    (s'.chip.sig.execirq = true → s'.chip.sig.irqpending = true) ∧
    (s'.chip.sig.execnmi = true ∨ s'.chip.sig.execirq = true →
      ∃ e, (post H run s').chip.sig.entries = e :: s'.chip.sig.entries ∧ e ≠ .default) ∧
    s'.chip.sig.entries.count .nmi + (if s'.chip.sig.nmipending then 1 else 0) =
      freshNmis H s calls := by
  have hs : Sound s.chip.sig := by rw [h0]; exact ⟨rfl, nofun, nofun⟩
  have hs' : Sound (after (call H) s calls).chip.sig :=
    after_inv (I := fun t : Sys Cpu σ => Sound t.chip.sig) (fun t c h => call_sound c h) hs calls
  have hledger := nmi_ledger (H := H) calls hs
  rw [show nmiLedger s.chip.sig = 0 by rw [h0]; rfl, Nat.zero_add] at hledger
  exact ⟨hs'.nmi, hs'.irq, run_entry hs', hledger⟩

/-- On a memory full of BRK: the second NMI signal finds the first one pending, and the BRK that
follows is entered through the NMI vector. -/
theorem interrupts_accounted_hijack :
    let s : Sys Cpu Mem := ⟨{}, fun _ => 0⟩
    let calls := [Call.fireNmi, .fireNmi, .run]
    (after (call flatMem) s calls).chip.sig.entries = [.nmi] ∧
    (after (call flatMem) s calls).chip.sig.entries.count .nmi +
      (if (after (call flatMem) s calls).chip.sig.nmipending then 1 else 0) =
        freshNmis flatMem s calls :=
  ⟨by decide +kernel, (interrupts_accounted flatMem _ _ rfl).2.2.2⟩

end Cpu

end Yanesemu
