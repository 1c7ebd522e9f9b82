import Yanesemu.CpuCycles
import Yanesemu.Emulator
import Yanesemu.PpuTiming

/-!
# One vertical blank for each frame

`run_frame` waits for a flag that only the NMI callback sets. The PPU's part of the argument is in
the count of dots (`Ppu.OnBeam`): the next vertical blank is never more than 89341 dots away. The
CPU's part is that no bus access moves the beam (`Kept`) and that a `run` takes from one cycle to
seven, so that `Emulator::run` makes at least 3 dots and at most 39. The first number ends the
loop, the second keeps two vertical blanks out of one round.
-/

namespace Yanesemu.Emulator

open Interaction EventRun
open Ppu (OnBeam BeamVblank vblankCount vblankDot period)
open Cpu (Took)

/-! ### What the CPU leaves alone -/

/-- Equal in what decides when a frame ends. -/
structure Kept (e e' : Emulator) : Prop where
  cycles : e'.ppu.cycles = e.ppu.cycles
  lines : e'.ppu.lines = e.ppu.lines
  oddFrame : e'.ppu.oddFrame = e.ppu.oddFrame
  quit : e'.debugger.quit = e.debugger.quit
  cycle : e'.cycle = e.cycle
  nmi : e'.nmi = e.nmi
  vblanks : e'.vblanks = e.vblanks

theorem Kept.refl (e : Emulator) : Kept e e := ⟨rfl, rfl, rfl, rfl, rfl, rfl, rfl⟩

theorem Kept.trans (a b c : Emulator) (h : Kept a b) (h' : Kept b c) : Kept a c :=
  ⟨h'.cycles.trans h.cycles, h'.lines.trans h.lines, h'.oddFrame.trans h.oddFrame,
    h'.quit.trans h.quit, h'.cycle.trans h.cycle, h'.nmi.trans h.nmi, h'.vblanks.trans h.vblanks⟩

theorem Kept.onBeam {n : ℕ} {e e' : Emulator} (h : Kept e e') (hb : OnBeam n e.ppu) :
    OnBeam n e'.ppu :=
  ⟨h.cycles ▸ hb.cycles, h.lines ▸ hb.lines, h.oddFrame ▸ hb.oddFrame⟩

theorem kept_writeVram (e : Emulator) (a : Uint16) (d : Uint8) (area : VramArea) :
    Kept e (e.writeVram a d area) := by
  cases area <;> exact ⟨rfl, rfl, rfl, rfl, rfl, rfl, rfl⟩

/-- A register access changes registers of the PPU and its memory. -/
theorem kept_onPpu {α : Type} {m : PpuM α} {which : Uint16} {e : Emulator}
    (hm : wp (Ppu.RegOp which e.ppu) m (fun _ p => Ppu.Accessed e.ppu p) e.ppu) :
    Kept e (e.onPpu m).2 := by
  obtain ⟨hchip, hops⟩ := wp_post (s := ⟨e.ppu, e⟩) hm ppuEnv
  have hop (o : PpuOp) (e' : Emulator) (ho : Ppu.RegOp which e.ppu o) :
      Kept e' (ppuEnv o e').2 := by
    rcases ho with ⟨-, rfl | ⟨d, rfl⟩⟩
    · exact Kept.refl e'
    · exact kept_writeVram e' _ d _
  have henv := post_env_along Kept.refl Kept.trans hop hops
  have hregs : (post ppuEnv m ⟨e.ppu, e⟩).chip.cycles = e.ppu.cycles ∧
      (post ppuEnv m ⟨e.ppu, e⟩).chip.lines = e.ppu.lines ∧
      (post ppuEnv m ⟨e.ppu, e⟩).chip.oddFrame = e.ppu.oddFrame := by
    rw [hchip]
    exact ⟨rfl, rfl, rfl⟩
  exact ⟨hregs.1, hregs.2.1, hregs.2.2, henv.quit, henv.cycle, henv.nmi, henv.vblanks⟩

theorem kept_readRam (e : Emulator) (a : Uint16) (area : RamArea) :
    Kept e (e.readRam a area).2 := by
  cases area with
  | ppuReg =>
    exact kept_onPpu (wp_mono (Ppu.wp_readreg (ppuReg a) e.ppu) (fun _ ho => ho)
      fun _ _ h => h.accessed)
  | _ => exact Kept.refl e

theorem kept_writeRam (e : Emulator) (a : Uint16) (d : Uint8) (area : RamArea) :
    Kept e (e.writeRam a d area) := by
  cases area with
  | ppuReg =>
    exact kept_onPpu (wp_mono (Ppu.wp_writereg (ppuReg a) d e.ppu) (fun _ ho => ho)
      fun _ _ h => h.accessed)
  | ram => exact ⟨rfl, rfl, rfl, rfl, rfl, rfl, rfl⟩
  | _ => exact Kept.refl e

theorem onCpu_cpu {α : Type} (m : CpuM α) (e : Emulator) :
    (e.onCpu m).2.cpu = (post cpuEnv m ⟨e.cpu, e⟩).chip := rfl

/-- **The CPU does not move the beam**, whatever program it runs. -/
theorem kept_onCpu {α : Type} (m : CpuM α) (e : Emulator) : Kept e (e.onCpu m).2 := by
  have hop (o : CpuOp) (e' : Emulator) (_ : True) : Kept e' (cpuEnv o e').2 := by
    cases o with
    | read a => exact kept_readRam e' a _
    | write a d => exact kept_writeRam e' a d _
    | fetchCallback c a mode => exact Kept.refl e'
  have henv := post_env_along (P := fun _ => True) (m := m) (s := ⟨e.cpu, e⟩) Kept.refl
    Kept.trans hop fun _ _ => trivial
  exact ⟨henv.cycles, henv.lines, henv.oddFrame, henv.quit, henv.cycle, henv.nmi, henv.vblanks⟩

/-! ### Dots -/

/-- From the dot `n` to the dot `n'`: the beam has moved, and the callback has been called for
each vertical blank on the way. -/
structure Advanced (n n' : ℕ) (e e' : Emulator) : Prop where
  beam : OnBeam n' e'.ppu
  le : vblankCount n ≤ vblankCount n'
  vblanks : e'.vblanks + vblankCount n = e.vblanks + vblankCount n'
  nmi : e'.nmi = true ↔ e.nmi = true ∨ vblankCount n < vblankCount n'
  quit : e'.debugger.quit = e.debugger.quit

theorem Advanced.refl {n : ℕ} {e : Emulator} (h : OnBeam n e.ppu) : Advanced n n e e where
  beam := h
  le := Nat.le_refl _
  vblanks := rfl
  nmi := by simp
  quit := rfl

theorem Advanced.trans {n n' n'' : ℕ} {a b c : Emulator} (h : Advanced n n' a b)
    (h' : Advanced n' n'' b c) : Advanced n n'' a c where
  beam := h'.beam
  le := h.le.trans h'.le
  vblanks := by
    have := h.vblanks
    have := h'.vblanks
    omega
  nmi := by
    have hlt : vblankCount n < vblankCount n' ∨ vblankCount n' < vblankCount n'' ↔
        vblankCount n < vblankCount n'' := by
      have := h.le
      have := h'.le
      omega
    rw [h'.nmi, h.nmi, or_assoc, hlt]
  quit := h'.quit.trans h.quit

/-- Dots alone, which leave the CPU's registers and `cycle` as they are. -/
structure Dots (n n' : ℕ) (e e' : Emulator) : Prop extends Advanced n n' e e' where
  regs : e'.cpu.r = e.cpu.r
  cycle : e'.cycle = e.cycle

theorem Dots.trans {n n' n'' : ℕ} {a b c : Emulator} (h : Dots n n' a b) (h' : Dots n' n'' b c) :
    Dots n n'' a c where
  toAdvanced := h.toAdvanced.trans h'.toAdvanced
  regs := h'.regs.trans h.regs
  cycle := h'.cycle.trans h.cycle

/-- Away from the vertical blank a dot changes the PPU only. -/
theorem run_env_of_not {e : Emulator} (h : ¬e.ppu.AtVblankBegin) :
    (post ppuEnv Ppu.run ⟨e.ppu, e⟩).env = e := by
  have hops := (wp_post (s := ⟨e.ppu, e⟩) (Ppu.wp_run e.ppu) ppuEnv).2
  have hop (o : PpuOp) (e' : Emulator) (ho : Ppu.RunOp e.ppu o) : (ppuEnv o e').2 = e' := by
    rcases ho with ho | ⟨hv, -⟩
    · cases o with
      | write a d => exact ho.elim
      | clearMem => exact ho.elim
      | nmiCallback => exact ho.elim
      | _ => rfl
    · exact absurd hv h
  exact post_env_along (R := fun a b : Emulator => b = a) (fun _ => rfl)
    (fun _ _ _ hab hbc => hbc.trans hab) hop hops

theorem run_env_of_vblank {e : Emulator} (h : e.ppu.AtVblankBegin) :
    (post ppuEnv Ppu.run ⟨e.ppu, e⟩).env = e.nmiCallback := by
  unfold Ppu.run
  rw [post_bind, val_get, post_get, post_bind, h.1, h.2]
  rfl

/-- The CPU's registers are not changed by dots. -/
theorem regs_ppuRun (e : Emulator) : e.ppuRun.cpu.r = e.cpu.r := by
  have hrun : e.ppuRun = { (post ppuEnv Ppu.run ⟨e.ppu, e⟩).env with ppu := e.ppuRun.ppu } := rfl
  by_cases hv : e.ppu.AtVblankBegin
  · rw [run_env_of_vblank hv] at hrun
    rw [hrun]
    rfl
  · rw [run_env_of_not hv] at hrun
    rw [hrun]

theorem regs_iterate (e : Emulator) (k : ℕ) : (ppuRun^[k] e).cpu.r = e.cpu.r := by
  induction k with
  | zero => rfl
  | succ k ih => rw [Function.iterate_succ_apply', regs_ppuRun, ih]

theorem dots_ppuRun {n : ℕ} {e : Emulator} (h : OnBeam n e.ppu) : Dots n (n + 1) e e.ppuRun := by
  have hbeam : OnBeam (n + 1) e.ppuRun.ppu :=
    h.tick.of_drawn (wp_post (s := ⟨e.ppu, e⟩) (Ppu.wp_run e.ppu) ppuEnv).1
  have hrun : e.ppuRun = { (post ppuEnv Ppu.run ⟨e.ppu, e⟩).env with ppu := e.ppuRun.ppu } := rfl
  by_cases hv : e.ppu.AtVblankBegin
  · obtain ⟨hcount, -⟩ := Ppu.vblankCount_succ_of_beam (h.atVblankBegin_iff.mp hv)
    rw [run_env_of_vblank hv] at hrun
    have hlt : vblankCount n < vblankCount (n + 1) := by omega
    refine ⟨⟨hbeam, hlt.le, ?_, ?_, ?_⟩, ?_, ?_⟩
    all_goals rw [hrun]
    · show e.vblanks + 1 + vblankCount n = _
      omega
    · exact iff_of_true rfl (Or.inr hlt)
    · rfl
    · rfl
    · rfl
  · have hcount := Ppu.vblankCount_succ_of_not_beam fun hb => hv (h.atVblankBegin_iff.mpr hb)
    rw [run_env_of_not hv] at hrun
    refine ⟨⟨hbeam, hcount.ge, ?_, ?_, ?_⟩, ?_, ?_⟩
    all_goals rw [hrun]
    · rw [hcount]
    · rw [hcount]
      simp

theorem dots_iterate {n : ℕ} {e : Emulator} (h : OnBeam n e.ppu) (k : ℕ) :
    Dots n (n + k) e (ppuRun^[k] e) := by
  induction k with
  | zero => exact ⟨⟨h, Nat.le_refl _, rfl, by simp, rfl⟩, rfl, rfl⟩
  | succ k ih =>
    rw [Function.iterate_succ_apply']
    exact ih.trans (dots_ppuRun ih.beam)

/-! ### One round -/

/-- The cycles of the CPU the PPU has not followed yet. -/
def lag (e : Emulator) : ℕ := (e.cpu.r.cycles.setWidth 32 - e.cycle).toNat

/-- The difference of the cycle counters after the CPU's run, and the dots made for it. -/
theorem toNat_cycleDiff {c : Uint64} {cycle : Uint32} {k : ℕ}
    (hlag : (c.setWidth 32 - cycle).toNat ≤ 6) (hk : k ≤ 7) :
    (((c + BitVec.ofNat 64 k).setWidth 32 - cycle) * 3).toInt.toNat =
      3 * ((c.setWidth 32 - cycle).toNat + k) := by
  have hsplit : (c + BitVec.ofNat 64 k).setWidth 32 - cycle =
      (c.setWidth 32 - cycle) + BitVec.ofNat 32 k := by
    rw [BitVec.setWidth_add _ _ (by decide), BitVec.setWidth_ofNat_of_le (by decide)]
    bv_omega
  rw [hsplit]
  generalize c.setWidth 32 - cycle = x at *
  have hx : ((x + BitVec.ofNat 32 k) * 3).toNat = 3 * (x.toNat + k) := by
    rw [BitVec.toNat_mul, BitVec.toNat_add, BitVec.toNat_ofNat]
    show (x.toNat + k % 2 ^ 32) % 2 ^ 32 * 3 % 2 ^ 32 = _
    omega
  rw [BitVec.toInt_eq_toNat_of_lt (by omega), hx, Int.toNat_natCast]

/-- The calls of `PPU::run` in this `run`. -/
def dotsRun (e : Emulator) : ℕ :=
  (((e.onCpu Cpu.run).2.cpu.r.cycles.setWidth 32 - (e.onCpu Cpu.run).2.cycle) * 3).toInt.toNat

theorem run_eq_dotsRun (e : Emulator) :
    e.run = { ppuRun^[e.dotsRun] (e.onCpu Cpu.run).2 with
      cycle := (e.onCpu Cpu.run).2.cpu.r.cycles.setWidth 32 } := rfl

/-- The cycles this `run` takes. -/
def took (e : Emulator) : ℕ := (e.run.cpu.r.cycles - e.cpu.r.cycles).toNat

theorem cycles_run_eq (e : Emulator) : e.run.cpu.r.cycles = (e.onCpu Cpu.run).2.cpu.r.cycles := by
  rw [run_eq_dotsRun]
  show (ppuRun^[e.dotsRun] (e.onCpu Cpu.run).2).cpu.r.cycles = _
  rw [regs_iterate]

theorem cycles_onCpu (e : Emulator) :
    (e.onCpu Cpu.run).2.cpu.r.cycles = e.cpu.r.cycles + BitVec.ofNat 64 e.took ∧
      1 ≤ e.took ∧ e.took ≤ 7 := by
  obtain ⟨c, hc1, hc7, htook⟩ := Cpu.run_took cpuEnv ⟨e.cpu, e⟩
  have hcyc : (e.onCpu Cpu.run).2.cpu.r.cycles = e.cpu.r.cycles + BitVec.ofNat 64 c := htook
  have hc : e.took = c := by
    unfold took
    rw [cycles_run_eq, hcyc, BitVec.add_comm, BitVec.add_sub_cancel, BitVec.toNat_ofNat]
    omega
  rw [hc]
  exact ⟨hcyc, hc1, hc7⟩

/-- The dots of a round: three for each cycle the PPU has not followed yet. -/
theorem dotsRun_eq {e : Emulator} (hlag : e.lag ≤ 6) : e.dotsRun = 3 * (e.lag + e.took) := by
  obtain ⟨hcyc, -, hc7⟩ := cycles_onCpu e
  unfold dotsRun
  rw [hcyc, (kept_onCpu Cpu.run e).cycle]
  exact toNat_cycleDiff hlag hc7

/-- After a round the copy is the counter again. -/
theorem cycle_run (e : Emulator) : e.run.cycle = e.run.cpu.r.cycles.setWidth 32 := by
  rw [cycles_run_eq]
  rfl

theorem lag_run (e : Emulator) : e.run.lag = 0 := by
  unfold lag
  rw [cycle_run, BitVec.sub_self]
  rfl

/-- **A round** makes at least 3 dots and at most 39, and leaves the PPU up to date. -/
theorem run_advances {n : ℕ} {e : Emulator} (h : OnBeam n e.ppu) (hlag : e.lag ≤ 6) :
    ∃ k, 3 ≤ k ∧ k ≤ 39 ∧ Advanced n (n + k) e e.run ∧ e.run.lag = 0 := by
  obtain ⟨-, hc1, hc7⟩ := cycles_onCpu e
  have hcount := dotsRun_eq hlag
  have hkept := kept_onCpu Cpu.run e
  have hdots := dots_iterate (hkept.onBeam h) e.dotsRun
  refine ⟨e.dotsRun, by omega, by omega, ?_, lag_run e⟩
  rw [run_eq_dotsRun]
  exact {
    beam := hdots.beam
    le := hdots.le
    vblanks := by rw [← hkept.vblanks]; exact hdots.vblanks
    nmi := by rw [← hkept.nmi]; exact hdots.nmi
    quit := hdots.quit.trans hkept.quit }

/-- A round takes three dots at least, and so do all of them. -/
theorem iterate_advances {n : ℕ} {e : Emulator} (h : OnBeam n e.ppu) (hlag : e.lag ≤ 6) (k : ℕ) :
    ∃ m, 3 * k ≤ m ∧ Advanced n (n + m) e (run^[k] e) ∧ (run^[k] e).lag ≤ 6 := by
  induction k with
  | zero => exact ⟨0, Nat.le_refl _, Advanced.refl h, hlag⟩
  | succ k ih =>
    obtain ⟨m, hm, hadv, hlag'⟩ := ih
    obtain ⟨j, hj, -, hround, hzero⟩ := run_advances hadv.beam hlag'
    rw [Function.iterate_succ_apply']
    exact ⟨m + j, by omega, Nat.add_assoc n m j ▸ hadv.trans hround, by omega⟩

/-! ### A frame -/

/-- The dots to the next vertical blank. -/
def left (n : ℕ) : ℕ := vblankDot (vblankCount n) - n

theorem left_le (n : ℕ) : left n ≤ 89341 := by
  unfold left vblankDot vblankCount period
  split_ifs <;> omega

theorem vblankCount_add_of_le {n k : ℕ} (h : k ≤ left n) : vblankCount (n + k) = vblankCount n := by
  unfold left vblankDot vblankCount period at *
  split_ifs at * <;> omega

theorem vblankCount_add_of_lt {n k : ℕ} (h : left n < k) (hk : k ≤ 39) :
    vblankCount (n + k) = vblankCount n + 1 := by
  unfold left vblankDot vblankCount period at *
  split_ifs at * <;> omega

/-- Between two rounds, `n` dots after power. -/
structure Running (n : ℕ) (e : Emulator) : Prop where
  beam : OnBeam n e.ppu
  lag : e.lag ≤ 6
  quit : e.debugger.quit = false

/-- In a frame that has begun with `v` vertical blanks: it is not over yet and will be after at
most `m` rounds, or the one vertical blank it waits for has been. -/
def InFrame (v m : ℕ) (e : Emulator) : Prop :=
  ∃ n, Running n e ∧
    ((e.nmi = false ∧ e.vblanks = v ∧ left n < 3 * m) ∨ (e.nmi = true ∧ e.vblanks = v + 1))

theorem inFrame_run {v m : ℕ} {e : Emulator} (h : InFrame v m e) (hnmi : e.nmi = false) :
    ∃ m' < m, InFrame v m' e.run := by
  obtain ⟨n, hr, ⟨-, hv, hleft⟩ | ⟨hnmi', -⟩⟩ := h
  swap
  · rw [hnmi] at hnmi'
    cases hnmi'
  obtain ⟨k, hk3, hk39, hadv, hlag⟩ := run_advances hr.beam hr.lag
  have hr' : Running (n + k) e.run := ⟨hadv.beam, by omega, hadv.quit.trans hr.quit⟩
  have hvb := hadv.vblanks
  by_cases hk : k ≤ left n
  · have hcount := vblankCount_add_of_le hk
    have hleft' : left (n + k) = left n - k := by
      unfold left
      rw [hcount, Nat.sub_add_eq]
    have hnmi' : e.run.nmi = false := by
      rw [← Bool.not_eq_true, hadv.nmi, hnmi, hcount]
      simp
    exact ⟨m - 1, by omega, n + k, hr', Or.inl ⟨hnmi', by omega, by omega⟩⟩
  · have hcount := vblankCount_add_of_lt (Nat.lt_of_not_le hk) hk39
    have hnmi' : e.run.nmi = true := hadv.nmi.mpr (Or.inr (by omega))
    exact ⟨0, by omega, n + k, hr', Or.inr ⟨hnmi', by omega⟩⟩

/-- Between two frames. -/
def BetweenFrames (e : Emulator) : Prop := e.nmi = false ∧ ∃ n, Running n e

/-- The rounds that are enough for a frame. -/
def frameRounds : ℕ := 29781

/-- **A frame** ends, with one vertical blank. -/
theorem runFrame_of_between {e : Emulator} (h : BetweenFrames e) :
    ∃ e', (∀ fuel ≥ frameRounds, e.runFrame fuel = some e') ∧ BetweenFrames e' ∧
      e'.vblanks = e.vblanks + 1 := by
  obtain ⟨hnmi, n, hr⟩ := h
  have hstart : InFrame e.vblanks frameRounds e := by
    have := left_le n
    exact ⟨n, hr, Or.inl ⟨hnmi, rfl, by unfold frameRounds; omega⟩⟩
  obtain ⟨e₁, m, hloop, ⟨n', hr', hend⟩, htest⟩ :=
    whileLoop_total (t := fun e : Emulator => !e.nmi) (f := run) (I := InFrame e.vblanks)
      (fun m s hs ht => inFrame_run hs (by simpa using ht)) hstart
  have hquit : ¬e.debugger.quit = true := by rw [hr.quit]; decide
  refine ⟨{ e₁ with nmi := false }, ?_, ⟨rfl, n', hr'.beam, hr'.lag, hr'.quit⟩, ?_⟩
  · intro fuel hf
    unfold runFrame
    rw [if_neg hquit, hloop fuel hf]
    rfl
  · rcases hend with ⟨h, -⟩ | ⟨-, h⟩
    · simp [h] at htest
    · exact h

/-! ### Reachable states -/

/-- The states reached from construction by `insert_rom`, whatever the file, `power` and
`run_frame`. A canvas may be attached at any time. -/
inductive Reachable : Emulator → Prop
  | power (fresh : Fresh) (rom : FreshRom) (romfile : File) :
      Reachable ((construct fresh).insertRom rom romfile).2.1.power
  | setScreen {e : Emulator} (he : Reachable e) (canvas : Bool) : Reachable (e.setScreen canvas)
  | runFrame {e e' : Emulator} {fuel : ℕ} (he : Reachable e) (h : e.runFrame fuel = some e') :
      Reachable e'

theorem betweenFrames_ppuPower {e : Emulator} (hnmi : e.nmi = false) (hlag : e.lag ≤ 6)
    (hquit : e.debugger.quit = false) : BetweenFrames (e.onPpu Ppu.power).2 :=
  ⟨hnmi, 0, Ppu.onBeam_start ppuEnv .power ⟨e.ppu, e⟩, hlag, hquit⟩

/-- The start-up sequence takes six cycles. -/
theorem cycles_cpuPower {e : Emulator} (h : e.cpu.r.cycles = 0) :
    (e.onCpu Cpu.power).2.cpu.r.cycles = 6 := by
  have htook := Cpu.power_took cpuEnv ⟨e.cpu, e⟩
  rw [onCpu_cpu, htook, h]
  decide

/-- The cycles of the start-up sequence are the only ones the PPU is behind. -/
theorem betweenFrames_power {e : Emulator} (hnmi : e.nmi = false) (hcycle : e.cycle = 0)
    (hcpu : e.cpu.r.cycles = 0) (hquit : e.debugger.quit = false) : BetweenFrames e.power := by
  have hcycles := cycles_cpuPower hcpu
  have hkept := kept_onCpu Cpu.power e
  unfold power
  generalize (e.onCpu Cpu.power).2 = e₁ at *
  refine betweenFrames_ppuPower (hkept.nmi.trans hnmi) ?_ (hkept.quit.trans hquit)
  unfold lag
  rw [hcycles, hkept.cycle, hcycle]
  decide

theorem Reachable.between {e : Emulator} (h : Reachable e) : BetweenFrames e := by
  induction h with
  | power fresh rom romfile =>
    unfold insertRom
    dsimp only
    split
    · exact betweenFrames_power rfl rfl rfl rfl
    · exact betweenFrames_power rfl rfl rfl rfl
  | setScreen he canvas ih =>
    obtain ⟨hnmi, n, hr⟩ := ih
    exact ⟨hnmi, n, ⟨hr.beam.cycles, hr.beam.lines, hr.beam.oddFrame⟩, hr.lag, hr.quit⟩
  | @runFrame e e' fuel he h ih =>
    obtain ⟨e₁, hrun, hb, -⟩ := runFrame_of_between ih
    have hquit : ¬e.debugger.quit = true := by
      obtain ⟨-, n, hr⟩ := ih
      rw [hr.quit]
      decide
    have hmono : e.runFrame (max fuel frameRounds) = some e' := by
      unfold Emulator.runFrame at h ⊢
      rw [if_neg hquit, Option.map_eq_some_iff] at h ⊢
      obtain ⟨e₂, hloop, he₂⟩ := h
      exact ⟨e₂, whileLoop_of_le hloop (Nat.le_max_left ..), he₂⟩
    rw [hrun _ (Nat.le_max_right ..)] at hmono
    cases hmono
    exact hb

/-- **Frames.** From every reachable state `run_frame` returns, and while it runs `vblank_begin`
is executed exactly once. -/
theorem runFrame_one_vblank {e : Emulator} (h : Reachable e) :
    ∃ e', (∀ fuel ≥ frameRounds, e.runFrame fuel = some e') ∧ e'.vblanks = e.vblanks + 1 := by
  obtain ⟨e', hrun, -, hv⟩ := runFrame_of_between h.between
  exact ⟨e', hrun, hv⟩

/-- Memory full of zeros. -/
def zeroed : Fresh where
  ppu := {}
  rammem := fun _ => 0
  vrammem := fun _ => 0
  palmem := fun _ => 0
  cartridge := Cartridge.blank
  rambus := ⟨⟨0, fun _ => 0⟩, fun _ => .ram, fun _ => .ram, fun _ => false⟩
  vrambus := ⟨⟨0, fun _ => 0⟩, fun _ => .empty, fun _ => .empty, fun _ => false⟩
  ramLookup := fun _ => 0
  vramLookup := fun _ => 0
  undefined := fun _ => 0

/-- A ROM of zeros is accepted, and runs BRK after BRK to the end of the frame. -/
theorem runFrame_one_vblank_zeros :
    let inserted := (construct zeroed).insertRom Cartridge.zeroRom (Cartridge.romFile 2 1)
    inserted.1 = true ∧ ∃ e', (∀ fuel ≥ frameRounds,
      inserted.2.1.power.runFrame fuel = some e') ∧ e'.vblanks = inserted.2.1.power.vblanks + 1 :=
  ⟨rfl, runFrame_one_vblank (Reachable.power _ _ _)⟩

end Yanesemu.Emulator
