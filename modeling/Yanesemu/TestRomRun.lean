import Yanesemu.TestRomFrames

/-!
# Running the test ROM

What the routines of `testrom/test.asm` have done when the emulator has run them: `resetram` and
`clear_spbuf` between two vertical blanks, the interrupt handler, and the main loop for any number
of frames.
-/

namespace Yanesemu.Emulator

open Isa (State Code Line Placed Runs MainCode AtMain Untouched stackAddr_lt)
open Cpu (stackAddr)
open Ppu (OnBeam)

/-- Between two rounds, `n` dots after power, with nothing pending. -/
structure Ready (n : ℕ) (e : Emulator) : Prop where
  rambus : RamWired e.rambus
  beam : OnBeam n e.ppu
  lag : e.lag = 0
  quiet : Isa.Quiet e.cpu.sig

section Ready

variable {n : ℕ} {e : Emulator} (h : Ready n e)

include h

theorem Ready.sync : Sync n e e.machine := sync_machine h.rambus h.beam h.lag

theorem Ready.runs : Runs e.cartridge.readPrgrom e.machine := ⟨h.quiet, fun _ ha => peek_prgrom ha⟩

end Ready

theorem machine_ram (e : Emulator) {i : ℕ} (hi : i < 0x800) :
    e.machine.mem (BitVec.ofNat 16 i) = e.rammem i := by
  have htoNat := toNat_ramAddr hi
  show e.peek _ = _
  rw [peek_ram (by omega), htoNat, Nat.mod_eq_of_lt hi]

/-! ## The routines assembled -/

/-- The routines as they are assembled at `0x8000`: `mainloop`, `waitnmi`, `joypad_poll`,
`gamecode`, `nmi`, `resetram`, `clear_spbuf` and a call of it. -/
def routines : List Uint8 :=
  [0x20, 0x0C, 0x80, 0x20, 0x13, 0x80, 0x20, 0x14, 0x80, 0x4C, 0x00, 0x80,
    0xA5, 0x0A, 0xC5, 0x0A, 0xF0, 0xFC, 0x60, 0x60, 0x60,
    0x48, 0x8A, 0x48, 0x98, 0x48, 0xE6, 0x0A, 0xA9, 0x00, 0x8D, 0x03, 0x20, 0xAD, 0x00, 0x02,
    0x8D, 0x14, 0x40, 0xA5, 0x08, 0x8D, 0x05, 0x20, 0xA5, 0x09, 0x8D, 0x05, 0x20, 0x68, 0xA8,
    0x68, 0xAA, 0x68, 0x40,
    0x95, 0x00, 0x9D, 0x00, 0x01, 0x9D, 0x00, 0x02, 0x9D, 0x00, 0x03, 0x9D, 0x00, 0x04,
    0x9D, 0x00, 0x05, 0x9D, 0x00, 0x06, 0x9D, 0x00, 0x07, 0xE8, 0xD0, 0xE6,
    0xA2, 0x00, 0xA9, 0xFF, 0x9D, 0x00, 0x02, 0xE8, 0xD0, 0xFA, 0x60,
    0x20, 0x51, 0x80]

/-- What a read of the PRG ROM with them gives. -/
def testByte (a : Uint16) : Uint8 :=
  if a = 0xFFFA then 0x15 else if a = 0xFFFB then 0x80 else routines.getD (a.toNat - 0x8000) 0

def testPrg : HeapArray Uint8 := ⟨0x8000, fun i => testByte (BitVec.ofNat 16 (0x8000 + i))⟩

/-- An emulator with them in its cartridge, about to run what is at `pc`. -/
def testEmulator (pc : Uint16) (sig : Signals) : Emulator :=
  let e := ((construct zeroed).insertRom Cartridge.zeroRom (Cartridge.romFile 2 1)).2.1
  { e with cartridge.prgrom := testPrg, cpu := { r.pc := pc, r.sp := 0xFF, sig := sig } }

theorem rambus_testEmulator (pc : Uint16) (sig : Signals) :
    RamWired (testEmulator pc sig).rambus := by
  have haccepted : ((construct zeroed).insertRom Cartridge.zeroRom
      (Cartridge.romFile 2 1)).1 = true := rfl
  exact ramWired_insertRom haccepted

theorem readPrgrom_testEmulator (pc : Uint16) (sig : Signals) {a : Uint16}
    (ha : 0x8000 ≤ a.toNat) : testByte a = (testEmulator pc sig).cartridge.readPrgrom a := by
  have hsize : (testEmulator pc sig).cartridge.prgrom.size = 0x8000 := rfl
  have hindex : BitVec.ofNat 16 (0x8000 + (a.toNat - 0x8000)) = a := by
    rw [Nat.add_sub_cancel' ha, BitVec.ofNat_toNat, BitVec.setWidth_eq]
  have hget (i : ℕ) : (testEmulator pc sig).cartridge.prgrom.get i =
      testByte (BitVec.ofNat 16 (0x8000 + i)) := rfl
  rw [readPrgrom_eq hsize ha, hget, hindex]

theorem ready_testEmulator (pc : Uint16) : Ready 0 (testEmulator pc {}) where
  rambus := rambus_testEmulator pc {}
  beam := ⟨rfl, rfl, rfl⟩
  lag := show ((0 : Uint64).setWidth 32 - (0 : Uint32)).toNat = 0 by decide
  quiet := ⟨rfl, rfl, rfl, rfl⟩

/-! ## Routines -/

section Routines

variable {n : ℕ} {e : Emulator}

/-- **`resetram`** in the emulator. -/
theorem resetram_run (h : Ready n e) (hcode : Placed e.cartridge.readPrgrom e.cpu.r.pc Isa.resetram)
    (hx : e.cpu.r.x = 0) (hn : 53760 ≤ left n) :
    let e' := run^[2560] e
    (∀ i < 0x800, e'.rammem i = e.cpu.r.acc) ∧ e'.cpu.r.pc = e.cpu.r.pc + 26 ∧
      (e'.cpu.r.acc, e'.cpu.r.x, e'.cpu.r.y, e'.cpu.r.sp) =
        (e.cpu.r.acc, 0, e.cpu.r.y, e.cpu.r.sp) ∧
      e'.vblanks = e.vblanks := by
  intro e'
  obtain ⟨k, -, hsync, hv⟩ := h.sync.code (Isa.resetram_fills h.runs hcode hx) hn
  change Sync (n + k) e' _ at hsync
  change e'.vblanks = _ at hv
  clear_value e'
  refine ⟨?_, hsync.pc, ?_, hv⟩
  · intro i hi
    have htoNat := toNat_ramAddr hi
    rw [hsync.ram hi]
    exact if_pos (by rw [htoNat]; exact hi)
  · rw [hsync.acc, hsync.x, hsync.y, hsync.sp, ← hx]
    rfl

/-- With `$5A` in the accumulator. -/
theorem resetram_run_fill :
    let e' := run^[2560] { testEmulator 0x8037 {} with cpu.r.acc := 0x5A }
    (∀ i < 0x800, e'.rammem i = 0x5A) ∧ e'.cpu.r.pc = 0x8051 := by
  have hready := ready_testEmulator 0x8037
  have hcode : Placed testByte 0x8037 Isa.resetram := by decide
  have hrun := resetram_run (e := { testEmulator 0x8037 {} with cpu.r.acc := 0x5A })
    ⟨hready.rambus, hready.beam, hready.lag, hready.quiet⟩
    (hcode.congr fun _ ha => readPrgrom_testEmulator 0x8037 {} ha) rfl (by decide)
  exact ⟨hrun.1, hrun.2.1⟩

/-- **`clear_spbuf`**, called in the emulator: what lies around the sprite buffer is kept, but for
the two cells of the return address. -/
theorem clear_spbuf_run {p : Uint16} (h : Ready n e)
    (hjsr : Line.In ⟨.impld .jsr, .abs, p⟩ e.cartridge.readPrgrom e.cpu.r.pc)
    (hcode : Placed e.cartridge.readPrgrom p Isa.clearSpbuf) (hn : 16212 ≤ left n) :
    let e' := run^[772] e
    (∀ i, 0x200 ≤ i → i < 0x300 → e'.rammem i = 0xFF) ∧
      (∀ i < 0x800, ¬(0x200 ≤ i ∧ i < 0x300) → i ≠ 0x100 + e.cpu.r.sp.toNat →
        i ≠ 0x100 + (e.cpu.r.sp - 1).toNat → e'.rammem i = e.rammem i) ∧
      e'.cpu.r.pc = e.cpu.r.pc + 3 ∧
      (e'.cpu.r.acc, e'.cpu.r.x, e'.cpu.r.y, e'.cpu.r.sp) =
        (0xFF, 0, e.cpu.r.y, e.cpu.r.sp) ∧
      e'.vblanks = e.vblanks := by
  intro e'
  obtain ⟨k, -, hsync, hv⟩ := h.sync.code (Isa.clearSpbuf_clears h.runs hjsr hcode) hn
  change Sync (n + k) e' _ at hsync
  change e'.vblanks = _ at hv
  clear_value e'
  have hbuf {i : ℕ} (hi : i < 0x800) :
      Isa.InRows [Isa.spritebuf] 0 0x100 (BitVec.ofNat 16 i) ↔ 0x200 ≤ i ∧ i < 0x300 := by
    have hsub : (BitVec.ofNat 16 i - Isa.spritebuf).toNat = (65536 - 0x200 + i) % 65536 := by
      rw [BitVec.toNat_sub, BitVec.toNat_ofNat, show Isa.spritebuf.toNat = 0x200 from rfl]
      omega
    unfold Isa.InRows
    simp only [List.mem_singleton, exists_eq_left, hsub]
    omega
  refine ⟨?_, ?_, hsync.pc, ?_, hv⟩
  · intro i hi hi'
    rw [hsync.ram (by omega)]
    exact if_pos ((hbuf (by omega)).mpr ⟨hi, hi'⟩)
  · intro i hi hout hsp hsp'
    rw [hsync.ram hi, ← machine_ram e hi]
    have hmem : (Isa.called p e.machine).mem = Cpu.stored e.machine.mem (Cpu.pushed e.cpu.r.sp
        [Reg16.high (e.cpu.r.pc + 2), Reg16.low (e.cpu.r.pc + 2)]) := rfl
    refine (if_neg (mt (hbuf hi).mp hout)).trans ?_
    rw [hmem]
    refine Isa.stored_of_not_mem ?_ _
    intro w hw heq
    obtain ⟨j, hj, hcell⟩ := Isa.mem_pushed hw
    rw [heq, ← BitVec.toNat_inj, Isa.stackAddr_toNat, BitVec.toNat_ofNat,
      Nat.mod_eq_of_lt (by omega)] at hcell
    have hj2 : j < 2 := hj
    interval_cases j
    · exact hsp (hcell.trans ((congrArg (· + 0x100)
        (congrArg BitVec.toNat (BitVec.sub_zero e.cpu.r.sp))).trans (Nat.add_comm _ _)))
    · exact hsp' (hcell.trans (Nat.add_comm _ _))
  · rw [hsync.acc, hsync.x, hsync.y, hsync.sp]
    rfl

theorem clear_spbuf_run_call :
    let e' := run^[772] (testEmulator 0x805C {})
    (∀ i, 0x200 ≤ i → i < 0x300 → e'.rammem i = 0xFF) ∧ e'.cpu.r.pc = 0x805F := by
  have hjsr : Line.In ⟨.impld .jsr, .abs, 0x8051⟩ testByte 0x805C := by decide
  have hcode : Placed testByte 0x8051 Isa.clearSpbuf := by decide
  have hrun := clear_spbuf_run (ready_testEmulator 0x805C)
    (hjsr.congr fun _ ha => readPrgrom_testEmulator _ _ ha)
    (hcode.congr fun _ ha => readPrgrom_testEmulator _ _ ha) (by decide)
  exact ⟨hrun.1, hrun.2.2.1⟩

/-- **The interrupt handler** in the emulator: an NMI that is about to be entered is counted, and
the program goes on where it was, as if nothing had happened but below its stack pointer. -/
theorem nmi_run (hw : RamWired e.rambus) (hbeam : OnBeam n e.ppu) (hlag : e.lag = 0)
    (hsig : Isa.AtNmi e.cpu.sig)
    (hcode : Placed e.cartridge.readPrgrom (Isa.nmiVector e.cartridge.readPrgrom) Isa.nmiHandler)
    (hn : 441 ≤ left n) :
    let e' := run^[21] e
    e'.cpu.r.pc = e.cpu.r.pc ∧
      (e'.cpu.r.acc, e'.cpu.r.x, e'.cpu.r.y, e'.cpu.r.sp) =
        (e.cpu.r.acc, e.cpu.r.x, e.cpu.r.y, e.cpu.r.sp) ∧
      e'.cpu.r.flags = { e.cpu.r.flags with breakf := false } ∧
      Isa.Quiet e'.cpu.sig ∧
      e'.rammem 10 = e.rammem 10 + 1 ∧
      (∀ i < 0x800, i ≠ 10 → (∀ j < 6, i ≠ 0x100 + (e.cpu.r.sp - BitVec.ofNat 8 j).toNat) →
        e'.rammem i = e.rammem i) ∧
      e'.vblanks = e.vblanks := by
  intro e'
  have hrom : ∀ a, 0x8000 ≤ a.toNat → e.machine.mem a = e.cartridge.readPrgrom a :=
    fun _ ha => peek_prgrom ha
  have hnmi := Isa.nmi_transparent (s := e.machine) hsig hrom hcode
  obtain ⟨k, -, hsync, hv⟩ := (sync_machine hw hbeam hlag).code hnmi hn
  change Sync (n + k) e' _ at hsync
  change e'.vblanks = _ at hv
  clear_value e'
  refine ⟨hsync.pc, ?_, hsync.flags, ?_, ?_, ?_, hv⟩
  · rw [hsync.acc, hsync.x, hsync.y, hsync.sp]
    rfl
  · rw [hsync.sig]
    exact (Isa.runs_nmiDone hsig hrom).quiet
  · rw [hsync.ram (by decide), ← machine_ram e (i := 10) (by decide)]
    exact Isa.nmiDone_flag
  · intro i hi hflag hstack
    have htoNat := toNat_ramAddr hi
    rw [hsync.ram hi, ← machine_ram e hi]
    refine Isa.nmiDone_mem ?_ ?_
    · intro j hj heq
      rw [← BitVec.toNat_inj, Isa.stackAddr_toNat, htoNat, Nat.add_comm] at heq
      exact hstack j hj heq
    · intro hmem
      rcases List.mem_cons.mp hmem with heq | hmem
      · rw [← BitVec.toNat_inj, htoNat] at heq
        exact hflag heq
      · have hhigh : ∀ b ∈ ([0x2003, 0x4014, 0x2005, 0x2005] : List Uint16), 0x800 ≤ b.toNat := by
          simp
        have hge := hhigh _ hmem
        omega

theorem nmi_run_start :
    let e' := run^[21] (testEmulator 0x8000 { nmipending := true, execnmi := true })
    e'.cpu.r.pc = 0x8000 ∧ e'.rammem 10 = 1 := by
  have hcode : Placed testByte 0x8015 Isa.nmiHandler := by decide
  have hrom {a : Uint16} (ha : 0x8000 ≤ a.toNat) :=
    readPrgrom_testEmulator 0x8000 { nmipending := true, execnmi := true } ha
  have hvec : Isa.nmiVector (testEmulator 0x8000
      { nmipending := true, execnmi := true }).cartridge.readPrgrom = 0x8015 := by
    rw [Isa.nmiVector, ← hrom (by decide), ← hrom (by decide)]
    decide
  have hready := ready_testEmulator 0x8000
  have hrun := nmi_run (rambus_testEmulator 0x8000 { nmipending := true, execnmi := true })
    hready.beam hready.lag ⟨rfl, rfl, rfl, rfl, rfl⟩
    (hvec ▸ hcode.congr fun _ ha => hrom ha) (by decide)
  exact ⟨hrun.1, hrun.2.2.2.2.1⟩

end Routines

section Frames

variable {m w joypad gamecode : Uint16} {n : ℕ} {e : Emulator}

/-- **The main loop** goes round once in each frame: from its top, the emulator comes to the top
again and again, each time with one more vertical blank and one more in `nmi_flag`, and with the
RAM that the program does not use as it was. -/
theorem mainloop_frames (h : Ready n e) (hreset : e.cpu.sig.resetpending = false)
    (hcode : MainCode e.cartridge.readPrgrom m w joypad gamecode) (hpc : e.cpu.r.pc = m)
    (hn : 42 ≤ left n) (f : ℕ) :
    ∃ N ≤ 29815 * f,
      let e' := run^[N] e
      e'.cpu.r.pc = m ∧ e'.cpu.r.sp = e.cpu.r.sp ∧ e'.vblanks = e.vblanks + f ∧
        e'.rammem 10 = e.rammem 10 + BitVec.ofNat 8 f ∧
        ∀ i < 0x800, i < 0x100 ∨ 0x200 ≤ i → i ≠ 10 → e'.rammem i = e.rammem i := by
  have hframes : ∃ N ≤ 29815 * f, ∃ n' s', Sync n' (run^[N] e) s' ∧
      AtMain e.cartridge.readPrgrom e.machine.mem m e.cpu.r.sp
        (e.rammem 10 + BitVec.ofNat 8 f) s' ∧
      (run^[N] e).vblanks = e.vblanks + f ∧ 42 ≤ left n' := by
    induction f with
    | zero =>
      refine ⟨0, Nat.zero_le _, n, e.machine, h.sync, ?_, rfl, hn⟩
      exact {
        runs := h.runs
        reset := hreset
        pc := hpc
        flag := (machine_ram e (i := 10) (by decide)).trans (BitVec.add_zero _).symm
        sp := rfl
        kept := fun _ _ => rfl }
    | succ f ih =>
      obtain ⟨N, hN, n', s', hsync, hmain, hv, hn'⟩ := ih
      obtain ⟨k, hk, n'', s'', hsync', hmain', hv', hn''⟩ :=
        mainloop_frame hcode hsync hmain hn'
      refine ⟨k + N, by omega, n'', s'', ?_, ?_, ?_, hn''⟩
      · rw [Function.iterate_add_apply]
        exact hsync'
      · rw [BitVec.ofNat_add, ← BitVec.add_assoc]
        exact hmain'
      · rw [Function.iterate_add_apply, hv', hv, Nat.add_assoc]
  obtain ⟨N, hN, n', s', hsync, hmain, hv, -⟩ := hframes
  refine ⟨N, hN, hsync.pc.trans hmain.pc, hsync.sp.trans hmain.sp, hv, ?_, ?_⟩
  · exact (hsync.ram (by decide)).trans hmain.flag
  · intro i hi hpage hflag
    have htoNat := toNat_ramAddr hi
    rw [hsync.ram hi, ← machine_ram e hi]
    refine hmain.kept _ ⟨?_, ?_⟩
    · rw [htoNat]
      omega
    · intro heq
      rw [← BitVec.toNat_inj, htoNat] at heq
      exact hflag heq

theorem mainloop_frames_start : ∃ N ≤ 29815 * 300,
    let e' := run^[N] (testEmulator 0x8000 {})
    e'.cpu.r.pc = 0x8000 ∧ e'.vblanks = 300 ∧ e'.rammem 10 = 44 := by
  have hrom {a : Uint16} (ha : 0x8000 ≤ a.toNat) := readPrgrom_testEmulator 0x8000 {} ha
  have hvec : Isa.nmiVector (testEmulator 0x8000 {}).cartridge.readPrgrom = 0x8015 := by
    rw [Isa.nmiVector, ← hrom (by decide), ← hrom (by decide)]
    decide
  have hmainloop : Placed testByte 0x8000 (Isa.mainloop 0x800C 0x8013 0x8014 0x8000) := by decide
  have hwaitnmi : Placed testByte 0x800C Isa.waitnmi := by decide
  have hjoypad : Line.In ⟨.impld .rts, .impld, 0⟩ testByte 0x8013 := by decide
  have hgamecode : Line.In ⟨.impld .rts, .impld, 0⟩ testByte 0x8014 := by decide
  have hnmi : Placed testByte 0x8015 Isa.nmiHandler := by decide
  have hcode : MainCode (testEmulator 0x8000 {}).cartridge.readPrgrom 0x8000 0x800C 0x8013
      0x8014 := {
    mainloop := hmainloop.congr fun _ ha => hrom ha
    waitnmi := hwaitnmi.congr fun _ ha => hrom ha
    joypad := hjoypad.congr fun _ ha => hrom ha
    gamecode := hgamecode.congr fun _ ha => hrom ha
    nmi := hvec ▸ hnmi.congr fun _ ha => hrom ha }
  obtain ⟨N, hN, hpc, -, hv, hflag, -⟩ :=
    mainloop_frames (ready_testEmulator 0x8000) rfl hcode rfl (by decide) 300
  exact ⟨N, hN, hpc, hv, hflag⟩

end Frames

end Yanesemu.Emulator
