import Yanesemu.CpuInterrupts
import Yanesemu.Manual
import Yanesemu.NextAddr

/-!
# How long an NMI waits

A pending NMI is entered by the next `run` if that executes an interrupt sequence, whichever signal
it is for, or BRK; otherwise the instruction it executes polls, and the `run` after it enters.
What may happen between the two is that further signals are fired.
-/

namespace Yanesemu.Cpu

open Interaction EventRun

variable {σ : Type} (H : Handler cpuSig σ)

/-- `s'` has come out of an interrupt sequence entered in `s` through the NMI vector: its registers
and environment are what loading the program counter from there has left. -/
structure NmiEntered (s s' : Sys Cpu σ) : Prop where
  entries : s'.chip.sig.entries = .nmi :: s.chip.sig.entries
  nmipending : s'.chip.sig.nmipending = false
  loaded : ∃ t : Sys Cpu σ, s'.chip.r = (post H (loadPc nmiVec) t).chip.r ∧
    s'.env = (post H (loadPc nmiVec) t).env

/-- An NMI is the first signal to be taken. -/
structure NmiFirst (i : Signals) : Prop where
  nmi : i.nmipending = true
  reset : i.resetpending = false

theorem NmiFirst.entry {i : Signals} (h : NmiFirst i) : i.entry = .nmi := by
  simp [Signals.entry, h.nmi, h.reset]

theorem NmiFirst.enter {i : Signals} (h : NmiFirst i) :
    i.enter = { i with nmipending := false, entries := .nmi :: i.entries } := by
  simp [Signals.enter, h.entry]

variable {H}

/-- The interrupt sequence enters an NMI that is first. -/
theorem interrupt_nmiEntered {s : Sys Cpu σ} (h : NmiFirst s.chip.sig) :
    NmiEntered H s (post H interrupt s) := by
  have hsig := interrupt_sig H s
  rw [h.enter] at hsig
  refine ⟨by rw [hsig], by rw [hsig], ?_⟩
  have hvec : val H chooseVector (post H saveState s) = nmiVec := by
    show (post H saveState s).chip.sig.entry.vec = nmiVec
    have hsave : (post H saveState s).chip.sig = s.chip.sig := by simp [saveState]
    rw [hsave, h.entry]
    rfl
  have hpost : post H interrupt s =
      post H (loadPc nmiVec) (post H chooseVector (post H saveState s)) := by
    rw [interrupt_eq, post_bind, post_bind, hvec]
  rw [hpost]
  exact ⟨_, rfl, rfl⟩

theorem run_nmiEntered {s : Sys Cpu σ} (h : NmiFirst s.chip.sig)
    (hexec : s.chip.sig.execnmi = true ∨ s.chip.sig.execirq = true ∨ opcode H s = 0x00) :
    NmiEntered H s (post H run s) := by
  obtain ⟨-, hrun⟩ | ⟨-, -, hrun⟩ | ⟨hn, hi, hrun⟩ := run_cases H s
  · obtain ⟨hentries, hpending, hloaded⟩ := interrupt_nmiEntered (s := ticked s) (H := H) h
    rw [hrun]
    exact ⟨hentries, hpending, hloaded⟩
  · obtain ⟨hentries, hpending, hloaded⟩ := interrupt_nmiEntered (s := ticked s) (H := H) h
    rw [hrun]
    exact ⟨hentries, hpending, hloaded⟩
  · have hbrk : opcode H s = 0x00 := by simpa [hn, hi] using hexec
    rw [hrun, hbrk]
    -- BRK sets the B flag and runs the same sequence
    have hentered := interrupt_nmiEntered (H := H)
      (s := ⟨{ (fetched H s).chip with r.flags.breakf := true }, (fetched H s).env⟩) h
    exact ⟨hentered.entries, hentered.nmipending, hentered.loaded⟩

/-- An instruction that does not enter raises the exec flag and keeps the NMI first. -/
theorem run_raises {s : Sys Cpu σ} (h : NmiFirst s.chip.sig) (hn : s.chip.sig.execnmi = false)
    (hi : s.chip.sig.execirq = false) (hdoc : (manual (opcode H s)).isSome)
    (hbrk : opcode H s ≠ 0x00) :
    (post H run s).chip.sig.execnmi = true ∧ NmiFirst (post H run s).chip.sig := by
  have hrow := executeTab_row (opcode H s)
  have hunknown : executeTab (opcode H s) ≠ .unknown := by
    intro hc
    rw [hc] at hrow
    rw [← hrow] at hdoc
    cases hdoc
  have hcase : executeTab (opcode H s) ≠ .impld .brk := by
    intro hc
    have hdesc := executeTab_describes (opcode H s)
    rw [hc] at hdesc
    exact hbrk hdesc
  obtain ⟨b, hsig⟩ := exec_polled H (fetched H s) _ hcase hunknown
  rw [post_run_instr H s hn hi, hsig]
  obtain ⟨hnmi, hreset⟩ := h
  show (s.chip.sig.polled b).execnmi = true ∧ NmiFirst (s.chip.sig.polled b)
  refine ⟨?_, ?_, ?_⟩ <;> grind [Signals.polled, Signals.nmipoll, Signals.irqpoll]

/-- Firing signals keeps the exec flag and the NMI first. -/
theorem after_fires {s : Sys Cpu σ} (h : NmiFirst s.chip.sig) (he : s.chip.sig.execnmi = true)
    {calls : List Call} (hcalls : ∀ c ∈ calls, c = .fireNmi ∨ c = .fireIrq) :
    NmiFirst (after (call H) s calls).chip.sig ∧
      (after (call H) s calls).chip.sig.execnmi = true := by
  induction calls generalizing s with
  | nil => exact ⟨h, he⟩
  | cons c calls ih =>
    rw [after_cons]
    refine ih ?_ ?_ fun c' hc' => hcalls c' (List.mem_cons_of_mem c hc')
    · rcases hcalls c (List.mem_cons_self ..) with rfl | rfl
      · exact ⟨rfl, h.reset⟩
      · exact ⟨h.nmi, h.reset⟩
    · rcases hcalls c (List.mem_cons_self ..) with rfl | rfl <;> exact he

/-- **Delivery.** With an NMI pending and no reset, on any bus: a `run` that finds an exec flag
raised or a BRK enters through the NMI vector. With any other documented opcode it executes the
instruction and leaves `execnmi` set, and whatever is fired in between the next `run` enters. -/
theorem nmi_delivered (H : Handler cpuSig σ) (s : Sys Cpu σ)
    (hnmi : s.chip.sig.nmipending = true) (hreset : s.chip.sig.resetpending = false)
    (hdoc : (manual (opcode H s)).isSome) :
    let s' := post H run s
    ((s.chip.sig.execnmi = true ∨ s.chip.sig.execirq = true ∨ opcode H s = 0x00) ∧
      NmiEntered H s s') ∨
    (s' = post H (executeTab (opcode H s)).exec (fetched H s) ∧ s'.chip.sig.execnmi = true ∧
      ∀ calls : List Call, (∀ c ∈ calls, c = .fireNmi ∨ c = .fireIrq) →
        NmiEntered H (after (call H) s' calls) (post H run (after (call H) s' calls))) := by
  intro s'
  have hfirst : NmiFirst s.chip.sig := ⟨hnmi, hreset⟩
  by_cases hexec : s.chip.sig.execnmi = true ∨ s.chip.sig.execirq = true ∨ opcode H s = 0x00
  · exact .inl ⟨hexec, run_nmiEntered hfirst hexec⟩
  · rw [not_or, not_or, Bool.not_eq_true, Bool.not_eq_true] at hexec
    obtain ⟨hn, hi, hbrk⟩ := hexec
    obtain ⟨hraised, hfirst'⟩ := run_raises hfirst hn hi hdoc hbrk
    refine .inr ⟨post_run_instr H s hn hi, hraised, ?_⟩
    intro calls hcalls
    obtain ⟨hafter, he⟩ := after_fires hfirst' hraised hcalls
    exact run_nmiEntered hafter (.inl he)

/-- On a memory of NOPs: one NOP, then the entry, with an IRQ fired between them. -/
theorem nmi_delivered_nops :
    let s : Sys Cpu Mem := ⟨{ sig.nmipending := true }, fun _ => 0xEA⟩
    NmiEntered flatMem (call flatMem (post flatMem run s) .fireIrq)
      (post flatMem run (call flatMem (post flatMem run s) .fireIrq)) := by
  intro s
  have h := (nmi_delivered flatMem s rfl rfl rfl).resolve_left
    (fun h => absurd h.1 (by decide))
  exact h.2.2 [.fireIrq] (by simp)

end Yanesemu.Cpu
