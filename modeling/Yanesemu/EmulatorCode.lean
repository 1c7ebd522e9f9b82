import Yanesemu.IsaCode

/-!
# Code in the emulator

A round of the emulator takes at most 21 dots of the PPU, so a piece of code that has been proved
on the machine runs in the emulator as it is, unless a vertical blank is too near
(`Sync.code`). Where the vertical blank begins, the machine is told of the NMI (`Sync.round`).
-/

namespace Yanesemu.Emulator

open Interaction EventRun MachineCode
open Ppu (OnBeam vblankCount)
open Isa (State Code)

/-- Between two rounds, `n` dots after power: the machine shows what the emulator holds, and the
PPU has followed the CPU. -/
structure Sync (n : ℕ) (e : Emulator) (s : State) : Prop extends Matches e s where
  beam : OnBeam n e.ppu
  lag : e.lag = 0

/-- The machine that shows what the emulator holds. -/
def machine (e : Emulator) : State := Isa.ofRegs e.cpu.r e.cpu.sig e.peek

theorem sync_machine {n : ℕ} {e : Emulator} (hw : RamWired e.rambus) (hb : OnBeam n e.ppu)
    (hlag : e.lag = 0) : Sync n e e.machine := ⟨⟨hw, rfl, fun _ _ => rfl⟩, hb, hlag⟩

section Round

variable {n : ℕ} {e : Emulator} {s : State}

/-- The dots of a round that begins with the PPU up to date. -/
theorem round_dots (hb : OnBeam n e.ppu) (hlag : e.lag = 0) :
    ∃ k, 3 ≤ k ∧ k ≤ 21 ∧ Advanced n (n + k) e e.run := by
  obtain ⟨-, hc1, hc7⟩ := cycles_onCpu e
  have hcount := dotsRun_eq (e := e) (by omega)
  have hkept := kept_onCpu Cpu.run e
  have hdots := dots_iterate (hkept.onBeam hb) e.dotsRun
  refine ⟨e.dotsRun, by omega, by omega, ?_⟩
  rw [run_eq_dotsRun]
  exact {
    beam := hdots.beam
    le := hdots.le
    vblanks := by rw [← hkept.vblanks]; exact hdots.vblanks
    nmi := by rw [← hkept.nmi]; exact hdots.nmi
    quit := hdots.quit.trans hkept.quit }

/-- What a round is, by the dots that are left to the next vertical blank. -/
structure RoundOf (n k : ℕ) (e : Emulator) (s : State) : Prop where
  atLeast : 3 ≤ k
  atMost : k ≤ 21
  quiet : k ≤ left n → Sync (n + k) e.run s.step ∧ e.run.vblanks = e.vblanks
  vblank : left n < k →
    Sync (n + k) e.run (s.step.call .fireNmi) ∧ e.run.vblanks = e.vblanks + 1

/-- **A round** is a step of the machine. -/
theorem Sync.round (h : Sync n e s) (hs : Private s) : ∃ k, RoundOf n k e s := by
  obtain ⟨k, hk3, hk21, hadv⟩ := round_dots h.beam h.lag
  have hbetween : e.Between := ⟨⟨n, h.beam⟩, by have := h.lag; omega⟩
  have hnext := h.toMatches.next hbetween hs
  have hvblanks := hadv.vblanks
  have hsync {t : State} (ht : Matches e.run t) : Sync (n + k) e.run t := ⟨ht, hadv.beam, lag_run e⟩
  refine ⟨k, hk3, hk21, ?_, ?_⟩
  · intro hle
    have hcount := vblankCount_add_of_le hle
    have hv : e.run.vblanks = e.vblanks := by omega
    have hcalls : e.roundCalls = [.run] := by rw [roundCalls, blanks, hv, Nat.sub_self]; rfl
    rw [hcalls] at hnext
    exact ⟨hsync hnext, hv⟩
  · intro hlt
    have hcount := vblankCount_add_of_lt hlt (by omega)
    have hv : e.run.vblanks = e.vblanks + 1 := by omega
    have hcalls : e.roundCalls = [.run, .fireNmi] := by
      rw [roundCalls, blanks, hv, Nat.add_sub_cancel_left]; rfl
    rw [hcalls] at hnext
    exact ⟨hsync hnext, hv⟩

theorem left_add {k : ℕ} (h : k ≤ left n) : left (n + k) = left n - k := by
  unfold left
  rw [vblankCount_add_of_le h, Nat.sub_add_eq]

/-- After a vertical blank it is a long time to the next. -/
theorem le_left_add {k : ℕ} (h : left n < k) (hk : k ≤ 21) : 89300 ≤ left (n + k) := by
  unfold left Ppu.vblankDot vblankCount Ppu.period at *
  split_ifs at * <;> omega

/-- **Code** runs in the emulator if no vertical blank is near. -/
theorem Sync.code {m : ℕ} {t : State} (h : Sync n e s) (hcode : Code m s t)
    (hm : 21 * m ≤ left n) :
    ∃ k ≤ 21 * m, Sync (n + k) (run^[m] e) t ∧ (run^[m] e).vblanks = e.vblanks := by
  -- a step of the code uses up 21 of the dots that are left
  let Sim (b : ℕ) (u : State) (f : Emulator) : Prop :=
    ∃ k, k + 21 * b ≤ 21 * m ∧ Sync (n + k) f u ∧ f.vblanks = e.vblanks
  have hstep (b : ℕ) (u : State) (f : Emulator) (h : Sim (b + 1) u f) (hu : Private u) :
      Sim b u.step f.run := by
    obtain ⟨k, hk, hsync, hv⟩ := h
    obtain ⟨j, hj⟩ := hsync.round hu
    have hj21 := hj.atMost
    have hleft := left_add (n := n) (k := k) (by omega)
    obtain ⟨hsync', hv'⟩ := hj.quiet (by omega)
    exact ⟨k + j, by omega, Nat.add_assoc n k j ▸ hsync', hv'.trans hv⟩
  have hstart : Sim m s e := ⟨0, by omega, h, rfl⟩
  obtain ⟨k, hk, hsync, hv⟩ := hcode.simulate hstep hstart
  exact ⟨k, by omega, hsync, hv⟩

end Round

end Yanesemu.Emulator
