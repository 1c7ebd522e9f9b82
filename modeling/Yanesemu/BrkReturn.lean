import Yanesemu.Returns

/-!
# BRK and its return

BRK goes through the interrupt sequence, which saves the program counter as it finds it. For an
interrupt that is the next instruction; BRK has only passed its opcode, and the padding byte behind
it is still ahead. RTI therefore resumes at the padding byte, with the stack pointer and the flags
as they were.
-/

namespace Yanesemu.Cpu

open Interaction RingStack

variable {σ : Type} {H : Handler cpuSig σ} {I : σ → Prop} {page : σ → Uint8 → Uint8}

section Brk

variable (hS : StackPage H I page) {s t : Sys Cpu σ}
include hS

/-- BRK saves the address behind its opcode, and the flags with B set. -/
theorem ring_brk (hI : I s.env) (h : Executes H 0x00 s) :
    ring page (post H run s) =
      (((ring page s).push (Reg16.high (s.chip.r.pc + 1))).push
        (Reg16.low (s.chip.r.pc + 1))).push { s.chip.r.flags with breakf := true }.toByte := by
  obtain ⟨hinv, hring⟩ := hS.fetched hI
  have hint := ring_interrupt hS
    (s := ⟨{ (fetched H s).chip with r.flags.breakf := true }, (fetched H s).env⟩) hinv
  rw [h.post_run]
  have hbrk : post H (executeTab 0x00).exec (fetched H s) = post H interrupt
      ⟨{ (fetched H s).chip with r.flags.breakf := true }, (fetched H s).env⟩ := rfl
  rw [hbrk, hint]
  exact congrArg (fun st : Stack 8 Uint8 => ((st.push _).push _).push _) hring

/-- What a BRK in `s` and the matching RTI, leading to `u`, do on the 6502: the padding byte is
passed, and the flags other than B are as before. -/
structure BrkReturns (s u : Sys Cpu σ) : Prop where
  pc : u.chip.r.pc = s.chip.r.pc + 2
  sp : u.chip.r.sp = s.chip.r.sp
  flags : { u.chip.r.flags with breakf := s.chip.r.flags.breakf } = s.chip.r.flags

/-- **BRK and RTI.** In every state, RTI resumes at the padding byte behind the BRK, and never
behind it; the stack pointer and the flags are restored. -/
theorem brk_resumes (hI : I s.env) (hI' : I t.env)
    (hbrk : Executes H 0x00 s)
    (hint : Intact page [s.chip.r.sp, s.chip.r.sp - 1, s.chip.r.sp - 2] (post H run s) t)
    (hrti : Executes H 0x40 t) :
    let u := post H run t
    u.chip.r.pc = s.chip.r.pc + 1 ∧ u.chip.r.sp = s.chip.r.sp ∧
      u.chip.r.flags = { s.chip.r.flags with breakf := false } ∧ ¬BrkReturns s u := by
  intro u
  obtain ⟨hpc, hsp, hflags⟩ := rti_returns hS hI' (ring_brk hS hI hbrk) hint hrti
  refine ⟨hpc, hsp, ?_, ?_⟩
  · rw [hflags, ProcStatus.ofByte_toByte]
  · intro h
    have hsame := h.pc.symm.trans hpc
    bv_omega

end Brk

/-! ### On a flat memory -/

/-- A BRK at the start, and an RTI where the vector points. -/
def brkProgram : Mem := fun a =>
  if a.toNat = 0x300 then 0x40 else if a.toNat = 0xFFFF then 0x03 else 0

theorem brk_resumes_program :
    let s : Sys Cpu Mem := ⟨{}, brkProgram⟩
    let u := post flatMem run (post flatMem run s)
    u.chip.r.pc = 1 ∧ u.chip.r.sp = 0 ∧ u.chip.r.flags = s.chip.r.flags ∧ ¬BrkReturns s u := by
  intro s
  exact brk_resumes stackPage_flatMem (s := s) (t := post flatMem run s) trivial trivial
    ⟨rfl, rfl, rfl⟩ ⟨rfl, fun _ _ => rfl⟩ ⟨rfl, rfl, by decide⟩

/-- The BRK at address zero comes back to address one. -/
theorem not_brkReturns_program :
    let s : Sys Cpu Mem := ⟨{}, brkProgram⟩
    Executes flatMem 0x00 s ∧ s.chip.sig.nmipending = false ∧ s.chip.sig.resetpending = false ∧
      Executes flatMem 0x40 (post flatMem run s) ∧
      ¬BrkReturns s (post flatMem run (post flatMem run s)) := by
  intro s
  refine ⟨⟨rfl, rfl, rfl⟩, rfl, rfl, ⟨rfl, rfl, by decide⟩, ?_⟩
  intro h
  have hpc := h.pc
  exact absurd hpc (by decide)

end Yanesemu.Cpu
