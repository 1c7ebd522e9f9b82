import Yanesemu.BusMap
import Yanesemu.EmulatorClock
import Yanesemu.IsaBus

/-!
# Programs in the emulator

A program that reads RAM and the PRG ROM only, and writes neither the mirrors of RAM nor the PRG
ROM, runs in the emulator as on `Isa.State`. The rounds of
`Emulator::run` are the steps of that machine; between two of them the PPU has made its dots, and
what the program notices of these is an NMI for each vertical blank (`ppuRun_iterate_eq`).

`matches_iterate`: after any number of rounds the emulator matches the machine after the same
number of steps, with an NMI fired where a vertical blank has begun.
-/

namespace Yanesemu.Emulator

open Interaction EventRun
open Cpu (Call)
open Ppu (OnBeam vblankCount)
open Isa (State ofRegs view)

/-! ### Memory as a program sees it -/

/-- What a read gives where reading has no effect: RAM with its mirrors, and the PRG ROM. -/
def peek (e : Emulator) : Mem := fun a =>
  if a.toNat < 0x2000 then e.rammem (a.toNat % 0x800)
  else if a.toNat < 0x8000 then 0
  else e.cartridge.readPrgrom a

theorem peek_ram {e : Emulator} {a : Uint16} (h : a.toNat < 0x2000) :
    e.peek a = e.rammem (a.toNat % 0x800) := if_pos h

theorem peek_prgrom {e : Emulator} {a : Uint16} (h : 0x8000 ≤ a.toNat) :
    e.peek a = e.cartridge.readPrgrom a := by
  unfold peek
  rw [if_neg (by omega), if_neg (by omega)]

/-- Cells a program may read: RAM, not through its mirrors, and the PRG ROM. -/
def Readable (a : Uint16) : Prop := a.toNat < 0x800 ∨ 0x8000 ≤ a.toNat

/-- Cells a program may write: RAM, not through its mirrors, the registers of the PPU, and the area
of the APU and the cartridge. -/
def Writable (a : Uint16) : Prop := a.toNat < 0x800 ∨ (0x2000 ≤ a.toNat ∧ a.toNat < 0x8000)

/-- The next step reads and writes such cells only. -/
structure Private (s : State) : Prop where
  reads : ∀ a ∈ s.reads, Readable a
  stores : ∀ w ∈ s.stores, Writable w.1

/-- A memory that shows a program what the emulator would. -/
structure Shows (c : Cartridge) (m : Mem) (e : Emulator) : Prop extends Wired c e where
  mem : ∀ a, Readable a → m a = e.peek a

/-- What a private step asks for. -/
def Asks : CpuOp → Prop
  | .read a => Readable a
  | .write a _ => Writable a
  | .fetchCallback .. => True

theorem ramRead_readable {e : Emulator} (hb : RamWired e.rambus) {a : Uint16} (ha : Readable a) :
    e.ramRead a = (e.peek a, e) := by
  rcases ha with ha | ha
  · rw [ramRead_ram hb (by omega), peek_ram (by omega)]
  · rw [ramRead_prgrom hb ha, peek_prgrom ha]

/-- A write outside RAM is not seen. -/
theorem peek_ramWrite_high {e : Emulator} (hb : RamWired e.rambus) {a : Uint16}
    (ha : 0x2000 ≤ a.toNat) (d : Uint8) : (e.ramWrite (a, d)).peek = e.peek := by
  obtain ⟨p, v, pal, h⟩ := onlyPpu_ramWrite (d := d) hb ha
  rw [h]
  rfl

/-- A write to RAM is seen in its cell and in no other. -/
theorem peek_ramWrite {e : Emulator} (hb : RamWired e.rambus) {a b : Uint16}
    (ha : a.toNat < 0x800) (d : Uint8) (hbr : Readable b) :
    (e.ramWrite (a, d)).peek b = Function.update e.peek a d b := by
  rw [ramWrite_ram hb (by omega)]
  rcases hbr with hlow | hhigh
  · have hiff : b.toNat % 0x800 = a.toNat % 0x800 ↔ b = a := by
      rw [← BitVec.toNat_inj]; omega
    rw [peek_ram (by omega), Function.update_apply, peek_ram (by omega)]
    show Function.update e.rammem (a.toNat % 0x800) d (b.toNat % 0x800) = _
    rw [Function.update_apply]
    simp only [hiff]
  · have hne : b ≠ a := by rintro rfl; omega
    rw [Function.update_of_ne hne, peek_prgrom hhigh, peek_prgrom hhigh]

/-- **The bus.** Flat memory and the emulator answer a private step alike. -/
theorem agree_cpuEnv (c : Cartridge) : Agree Asks (Shows c) flatMem cpuEnv := by
  intro o m e ho hm
  cases o with
  | read a =>
    have hread : cpuEnv (.read a) e = (e.peek a, e) := ramRead_readable hm.rambus ho
    rw [hread]
    exact ⟨hm.mem a ho, hm⟩
  | write a d =>
    refine ⟨rfl, hm.toWired.ramWrite (a, d), ?_⟩
    intro b hb
    show Function.update m a d b = (e.ramWrite (a, d)).peek b
    rcases ho with ha | ⟨ha, ha'⟩
    · rw [peek_ramWrite hm.rambus ha d hb, Function.update_apply, Function.update_apply,
        hm.mem b hb]
    · have hne : b ≠ a := by
        rintro rfl
        rcases hb with hb | hb <;> omega
      rw [peek_ramWrite_high hm.rambus ha, Function.update_of_ne hne]
      exact hm.mem b hb
  | fetchCallback cpu a mode => exact ⟨rfl, hm⟩

/-! ### Dots -/

/-- **Dots.** What `k` dots do besides moving the PPU on is to call the NMI callback once for each
vertical blank. -/
theorem ppuRun_iterate_eq {n : ℕ} {e : Emulator} (h : OnBeam n e.ppu) (k : ℕ) :
    ppuRun^[k] e = { nmiCallback^[vblankCount (n + k) - vblankCount n] e with
      ppu := (ppuRun^[k] e).ppu } := by
  induction k with
  | zero => simp
  | succ k ih =>
    have hd := dots_iterate h k
    set f := ppuRun^[k] e with hf
    have hrun : f.ppuRun =
        { (post ppuEnv Ppu.run ⟨f.ppu, f⟩).env with ppu := f.ppuRun.ppu } := rfl
    rw [Function.iterate_succ_apply']
    by_cases hv : f.ppu.AtVblankBegin
    · obtain ⟨hcount, -⟩ := Ppu.vblankCount_succ_of_beam (hd.beam.atVblankBegin_iff.mp hv)
      have hsub : vblankCount (n + (k + 1)) - vblankCount n =
          vblankCount (n + k) - vblankCount n + 1 := by
        have hle := hd.le
        rw [← Nat.add_assoc, hcount]
        omega
      have hcallback : f.nmiCallback =
          { (nmiCallback^[vblankCount (n + k) - vblankCount n] e).nmiCallback with ppu := f.ppu } :=
        congrArg nmiCallback ih
      rw [hsub, Function.iterate_succ_apply', hrun, run_env_of_vblank hv]
      exact congrArg (fun g : Emulator => { g with ppu := f.ppuRun.ppu }) hcallback
    · have hcount := Ppu.vblankCount_succ_of_not_beam
        fun hb => hv (hd.beam.atVblankBegin_iff.mpr hb)
      rw [← Nat.add_assoc, hcount, hrun, run_env_of_not hv]
      exact congrArg (fun g : Emulator => { g with ppu := f.ppuRun.ppu }) ih

/-! ### Rounds -/

/-- The machine a program sees shows what the emulator holds. -/
structure Matches (e : Emulator) (s : State) : Prop where
  rambus : RamWired e.rambus
  regs : ofRegs e.cpu.r e.cpu.sig s.mem = s
  mem : ∀ a, Readable a → s.mem a = e.peek a

theorem toNat_ramAddr {i : ℕ} (hi : i < 0x800) : (BitVec.ofNat 16 i).toNat = i := by
  rw [BitVec.toNat_ofNat]
  omega

section Fields

variable {e : Emulator} {s : State} (h : Matches e s)

include h

theorem Matches.pc : e.cpu.r.pc = s.pc := congrArg State.pc h.regs
theorem Matches.acc : e.cpu.r.acc = s.acc := congrArg State.acc h.regs
theorem Matches.x : e.cpu.r.x = s.x := congrArg State.x h.regs
theorem Matches.y : e.cpu.r.y = s.y := congrArg State.y h.regs
theorem Matches.sp : e.cpu.r.sp = s.sp := congrArg State.sp h.regs
theorem Matches.flags : e.cpu.r.flags = s.flags := congrArg State.flags h.regs
theorem Matches.sig : e.cpu.sig = s.sig := congrArg State.sig h.regs

/-- The RAM of the emulator is that of the program. -/
theorem Matches.ram {i : ℕ} (hi : i < 0x800) : e.rammem i = s.mem (BitVec.ofNat 16 i) := by
  have htoNat := toNat_ramAddr hi
  rw [h.mem _ (.inl (by rw [htoNat]; exact hi)), peek_ram (by omega), htoNat,
    Nat.mod_eq_of_lt hi]

end Fields

/-- Between two rounds, some dots after power. -/
def Between (e : Emulator) : Prop := (∃ n, OnBeam n e.ppu) ∧ e.lag ≤ 6

/-- The vertical blanks in a round. -/
def blanks (e : Emulator) : ℕ := e.run.vblanks - e.vblanks

/-- What a round is for the CPU: an instruction, then the NMI signals. -/
def roundCalls (e : Emulator) : List Call := .run :: List.replicate e.blanks .fireNmi

/-- A call of the CPU that asks for nothing that disturbs the PPU. -/
theorem Matches.call {e : Emulator} {s : State} (h : Matches e s) {c : Call}
    (hasks : ∀ o ∈ asked flatMem c.prog ⟨e.cpu, s.mem⟩, Asks o) :
    Matches (e.onCpu c.prog).2 (s.call c) := by
  have hview : view ⟨e.cpu, s.mem⟩ = s := h.regs
  obtain ⟨-, hchip, hshows⟩ := post_sim (agree_cpuEnv e.cartridge) hasks
    (t := e) ⟨⟨h.rambus, rfl⟩, h.mem⟩
  have hcall := Isa.view_call ⟨e.cpu, s.mem⟩ c
  rw [hview] at hcall
  have hmem : (s.call c).mem = (post flatMem c.prog ⟨e.cpu, s.mem⟩).env :=
    (congrArg State.mem hcall).symm
  refine ⟨hshows.rambus, ?_, ?_⟩
  · rw [onCpu_cpu, ← hchip, hmem]
    exact hcall
  · intro a ha
    rw [hmem]
    exact hshows.mem a ha

/-- The CPU's part of a round. -/
theorem Matches.onCpu {e : Emulator} {s : State} (h : Matches e s) (hs : Private s) :
    Matches (e.onCpu Cpu.run).2 s.step := by
  have hview : view ⟨e.cpu, s.mem⟩ = s := h.regs
  refine h.call (c := .run) ?_
  intro o ho
  rcases Isa.asked_run_cases _ ho with ⟨a, ha, rfl⟩ | ⟨w, hw, rfl⟩ | ⟨c, a, m, rfl⟩
  · exact hs.reads a (hview ▸ ha)
  · exact hs.stores w (hview ▸ hw)
  · trivial

/-- What the PPU does in its dots is not seen, but for the signal. -/
theorem Matches.nmiCallbacks {e : Emulator} {s : State} (h : Matches e s) (v : ℕ) :
    Matches (nmiCallback^[v] e) (after State.call s (List.replicate v .fireNmi)) := by
  induction v generalizing e s with
  | zero => exact h
  | succ v ih =>
    rw [Function.iterate_succ_apply, List.replicate_succ, after_cons]
    refine ih ⟨h.rambus, ?_, h.mem⟩
    exact congrArg (State.call · .fireNmi) h.regs

theorem vblanks_iterate_nmiCallback (e : Emulator) (v : ℕ) :
    (nmiCallback^[v] e).vblanks = e.vblanks + v := by
  induction v with
  | zero => rfl
  | succ v ih =>
    rw [Function.iterate_succ_apply']
    show (nmiCallback^[v] e).vblanks + 1 = _
    rw [ih, Nat.add_assoc]

/-- A round is the CPU's part, then its vertical blanks. -/
theorem run_eq_nmiCallbacks {e : Emulator} (hb : e.Between) :
    e.run = { nmiCallback^[e.blanks] (e.onCpu Cpu.run).2 with
      ppu := e.run.ppu, cycle := e.run.cycle } := by
  obtain ⟨⟨n, hn⟩, -⟩ := hb
  have hkept := kept_onCpu Cpu.run e
  have hdots := ppuRun_iterate_eq (hkept.onBeam hn) e.dotsRun
  set v := vblankCount (n + e.dotsRun) - vblankCount n with hv
  have hrun : e.run = { nmiCallback^[v] (e.onCpu Cpu.run).2 with
      ppu := e.run.ppu, cycle := e.run.cycle } :=
    (run_eq_dotsRun e).trans (congrArg (fun f : Emulator => { f with cycle := e.run.cycle }) hdots)
  have hblanks : e.blanks = v := by
    have hvblanks : e.run.vblanks = (e.onCpu Cpu.run).2.vblanks + v := by
      rw [hrun]
      exact vblanks_iterate_nmiCallback _ v
    rw [blanks, hvblanks, hkept.vblanks, Nat.add_sub_cancel_left]
  rw [hblanks]
  exact hrun

theorem vblanks_run {e : Emulator} (hb : e.Between) : e.run.vblanks = e.vblanks + e.blanks := by
  have hround := congrArg vblanks (run_eq_nmiCallbacks hb)
  have hcount : (nmiCallback^[e.blanks] (e.onCpu Cpu.run).2).vblanks = e.vblanks + e.blanks := by
    rw [vblanks_iterate_nmiCallback, (kept_onCpu Cpu.run e).vblanks]
  exact hround.trans hcount

/-- **A round** is a step, then the NMI of a vertical blank. -/
theorem Matches.next {e : Emulator} {s : State} (h : Matches e s) (hb : e.Between)
    (hs : Private s) : Matches e.run (after State.call s e.roundCalls) := by
  have hround := (h.onCpu hs).nmiCallbacks e.blanks
  rw [run_eq_nmiCallbacks hb]
  exact ⟨hround.rambus, hround.regs, hround.mem⟩

theorem Between.next {e : Emulator} (h : e.Between) : e.run.Between := by
  obtain ⟨⟨n, hn⟩, hlag⟩ := h
  obtain ⟨k, -, -, hadv, hlag'⟩ := run_advances hn hlag
  exact ⟨⟨n + k, hadv.beam⟩, by omega⟩

theorem Between.iterate {e : Emulator} (h : e.Between) (n : ℕ) : (run^[n] e).Between := by
  induction n with
  | zero => exact h
  | succ n ih =>
    rw [Function.iterate_succ_apply']
    exact ih.next

/-- What `n` rounds are for the CPU. -/
def calls (e : Emulator) : ℕ → List Call
  | 0 => []
  | n + 1 => calls e n ++ (run^[n] e).roundCalls

/-- They are the steps and the vertical blanks. -/
theorem count_calls {e : Emulator} (hb : e.Between) (n : ℕ) :
    (e.calls n).count .run = n ∧ (run^[n] e).vblanks = e.vblanks + (e.calls n).count .fireNmi := by
  induction n with
  | zero => exact ⟨rfl, rfl⟩
  | succ n ih =>
    have hv := vblanks_run (hb.iterate n)
    have hround : (run^[n] e).roundCalls.count .run = 1 ∧
        (run^[n] e).roundCalls.count .fireNmi = (run^[n] e).blanks := by
      simp [roundCalls, List.count_replicate]
    rw [calls, List.count_append, List.count_append, hround.1, hround.2, ih.1,
      Function.iterate_succ_apply', hv, ih.2, Nat.add_assoc]
    exact ⟨rfl, rfl⟩

/-- **Programs in the emulator.** As long as the steps of the machine are private, the rounds of
the emulator are these steps, an NMI fired wherever a vertical blank has begun. -/
theorem matches_iterate {e : Emulator} {s : State} (h : Matches e s) (hb : e.Between) (n : ℕ)
    (hs : ∀ k < n, Private (after State.call s (e.calls k))) :
    Matches (run^[n] e) (after State.call s (e.calls n)) := by
  induction n with
  | zero => exact h
  | succ n ih =>
    rw [Function.iterate_succ_apply', calls, after_append]
    have hn := ih fun k hk => hs k (Nat.lt_succ_of_lt hk)
    exact hn.next (hb.iterate n) (hs n (Nat.lt_succ_self n))

end Yanesemu.Emulator
