import Yanesemu.Nametables
import Yanesemu.PpuScroll

/-!
# Uploading to the name tables

A program writes to video memory through two registers: PPUADDR takes the address, PPUDATA the
bytes, and the address moves on by itself. Reading back goes through a buffer, so the first read
gives what the buffer held before.

1. A read of PPUSTATUS and two writes to PPUADDR set the address (`setAddr_eq`). That needs bit 15
   of the temporary address to be clear, which it is in every state the emulator gets to
   (`Started.tmpClear`).
2. A write to PPUDATA stores in the cell of the address, a read fetches it (`ramWrite_data`,
   `ramRead_data`).
3. A list of writes is then the history `EventRun.store`, and the reads are its cells.
-/

namespace Yanesemu.Emulator

open Interaction EventRun Util

/-! ### States of the emulator -/

/-- The states the emulator gets to by its own functions and by accesses of the CPU's bus. -/
inductive Started : Emulator → Prop
  | construct (fresh : Fresh) : Started (construct fresh)
  | insertRom {e : Emulator} (he : Started e) (rom : FreshRom) (romfile : File) :
      Started (e.insertRom rom romfile).2.1
  | setScreen {e : Emulator} (he : Started e) (canvas : Bool) : Started (e.setScreen canvas)
  | power {e : Emulator} (he : Started e) : Started e.power
  | reset {e : Emulator} (he : Started e) : Started e.reset
  | run {e : Emulator} (he : Started e) : Started e.run
  | runFrame {e e' : Emulator} {fuel : ℕ} (he : Started e) (h : e.runFrame fuel = some e') :
      Started e'
  | ramRead {e : Emulator} (he : Started e) (a : Uint16) : Started (e.ramRead a).2
  | ramWrite {e : Emulator} (he : Started e) (w : Uint16 × Uint8) : Started (e.ramWrite w)

/-- Bit 15 of the PPU's temporary address is clear. -/
def TmpClear (e : Emulator) : Prop := e.ppu.vram.tmp.getLsbD 15 = false

theorem tmpClear_cpuEnv {e : Emulator} (h : TmpClear e) (o : CpuOp) :
    TmpClear (cpuEnv o e).2 := by
  cases o with
  | read a =>
    show TmpClear (e.readRam a (e.rambus.reader a)).2
    cases e.rambus.reader a with
    | ppuReg =>
      have hstep := Ppu.bit15_step ppuEnv (s := ⟨e.ppu, e⟩) h (.readreg (ppuReg a))
      rwa [Ppu.step_readreg] at hstep
    | _ => exact h
  | write a d =>
    show TmpClear (e.writeRam a d (e.rambus.writer a))
    cases e.rambus.writer a with
    | ppuReg => exact Ppu.bit15_step ppuEnv (s := ⟨e.ppu, e⟩) h (.writereg (ppuReg a) d)
    | _ => exact h
  | fetchCallback c a mode => exact h

theorem tmpClear_onCpu {α : Type} {e : Emulator} (h : TmpClear e) (m : CpuM α) :
    TmpClear (e.onCpu m).2 := by
  have hop (o : CpuOp) (e' : Emulator) (_ : True) (he : TmpClear e') : TmpClear (cpuEnv o e').2 :=
    tmpClear_cpuEnv he o
  have henv := post_env_along (R := fun a b : Emulator => TmpClear a → TmpClear b) (m := m)
    (s := ⟨e.cpu, e⟩) (fun _ ha => ha) (fun _ _ _ hab hbc ha => hbc (hab ha)) hop
    fun _ _ => trivial
  exact henv h

theorem tmpClear_ppuRun {e : Emulator} (h : TmpClear e) : TmpClear e.ppuRun :=
  Ppu.bit15_step ppuEnv (s := ⟨e.ppu, e⟩) h .run

theorem tmpClear_run {e : Emulator} (h : TmpClear e) : TmpClear e.run := by
  have hdots (k : ℕ) {e' : Emulator} (h' : TmpClear e') : TmpClear (ppuRun^[k] e') := by
    induction k generalizing e' with
    | zero => exact h'
    | succ k ih => exact ih (tmpClear_ppuRun h')
  exact hdots _ (tmpClear_onCpu h Cpu.run)

theorem Started.tmpClear {e : Emulator} (h : Started e) : TmpClear e := by
  induction h with
  | construct fresh => exact BitVec.getLsbD_zero
  | @insertRom e he rom romfile ih =>
    unfold Emulator.insertRom
    dsimp only
    split <;> exact ih
  | setScreen he canvas ih => exact ih
  | power he ih => exact Ppu.bit15_power ppuEnv _
  | reset he ih => exact tmpClear_onCpu ih Cpu.reset
  | run he ih => exact tmpClear_run ih
  | @runFrame e e' fuel he h ih =>
    unfold Emulator.runFrame at h
    split at h
    · cases h
      exact ih
    · obtain ⟨e₁, hloop, rfl⟩ := Option.map_eq_some_iff.mp h
      have hend : TmpClear e₁ := whileLoop_inv (fun _ hs => tmpClear_run hs) hloop ih
      exact hend
  | ramRead he a ih => exact tmpClear_cpuEnv ih (.read a)
  | ramWrite he w ih => exact tmpClear_cpuEnv ih (.write w.1 w.2)

/-! ### Setting the address -/

/-- The PPU keeps its increment and its read buffer. -/
structure SamePort (p p' : Ppu) : Prop where
  vramInc : p'.io.vramInc = p.io.vramInc
  dataBuf : p'.io.dataBuf = p.io.dataBuf

theorem SamePort.trans {p p' p'' : Ppu} (h : SamePort p p') (h' : SamePort p' p'') :
    SamePort p p'' := ⟨h'.vramInc.trans h.vramInc, h'.dataBuf.trans h.dataBuf⟩

section Access

variable {e : Emulator} (hram : RamWired e.rambus)
include hram

theorem ramRead_status :
    ∃ p, (e.ramRead 0x2002).2 = { e with ppu := p } ∧ SamePort e.ppu p ∧
      p.vram = e.ppu.vram ∧ p.io.scrollLatch = false := by
  rw [ramRead_reg hram (by decide) (by decide)]
  exact ⟨_, rfl, ⟨rfl, rfl⟩, rfl, rfl⟩

/-- The first write to PPUADDR. -/
theorem ramWrite_addrHigh (hlatch : e.ppu.io.scrollLatch = false) (d : Uint8) :
    ∃ p, e.ramWrite (0x2006, d) = { e with ppu := p } ∧ SamePort e.ppu p ∧
      p.vram.tmp = Ppu.addrHigh e.ppu.vram.tmp d ∧ p.io.scrollLatch = true := by
  rw [ramWrite_reg hram (by decide) (by decide)]
  refine ⟨_, rfl, ⟨?_, ?_⟩, ?_, ?_⟩ <;>
    simp [ppuReg, Ppu.writereg, Ppu.writeAddr, Ppu.addrHigh, hlatch]

/-- The second write to PPUADDR. -/
theorem ramWrite_addrLow (hlatch : e.ppu.io.scrollLatch = true) (d : Uint8) :
    ∃ p, e.ramWrite (0x2006, d) = { e with ppu := p } ∧ SamePort e.ppu p ∧
      p.vram.tmp = Ppu.addrLow e.ppu.vram.tmp d ∧ p.vram.addr = p.vram.tmp := by
  rw [ramWrite_reg hram (by decide) (by decide)]
  refine ⟨_, rfl, ⟨?_, ?_⟩, ?_, ?_⟩ <;>
    simp [ppuReg, Ppu.writereg, Ppu.writeAddr, Ppu.addrLow, hlatch]

end Access

/-- Setting the address: the toggle is cleared, then the high and the low byte are written. -/
def setAddr (a : Uint16) (e : Emulator) : Emulator :=
  ((e.ramRead 0x2002).2.ramWrite (0x2006, Reg16.high a)).ramWrite (0x2006, Reg16.low a)

theorem ofBytes_mask {a : Uint16} (ha : a.toNat < 0x4000) :
    ((Reg16.high a &&& 0x3F).setWidth 16 <<< 8) ||| (Reg16.low a).setWidth 16 = a := by
  have hhigh : Reg16.high a &&& 0x3F = Reg16.high a := by
    apply BitVec.eq_of_toNat_eq
    rw [BitVec.toNat_and, Reg16.toNat_high]
    show a.toNat / 256 &&& 2 ^ 6 - 1 = a.toNat / 256
    rw [Nat.and_two_pow_sub_one_eq_mod]
    omega
  rw [hhigh]
  exact Reg16.ofBytes_low_high a

theorem setAddr_eq {e : Emulator} (hram : RamWired e.rambus) (htmp : TmpClear e) {a : Uint16}
    (ha : a.toNat < 0x4000) :
    ∃ p, setAddr a e = { e with ppu := p } ∧ SamePort e.ppu p ∧ p.vram.addr = a ∧
      p.vram.tmp.getLsbD 15 = false := by
  obtain ⟨p₁, h₁, hport₁, hvram₁, hlatch₁⟩ := ramRead_status hram
  obtain ⟨p₂, h₂, hport₂, htmp₂, hlatch₂⟩ :=
    ramWrite_addrHigh (e := { e with ppu := p₁ }) hram hlatch₁ (Reg16.high a)
  obtain ⟨p₃, h₃, hport₃, htmp₃, haddr₃⟩ :=
    ramWrite_addrLow (e := { e with ppu := p₂ }) hram hlatch₂ (Reg16.low a)
  have hbytes : p₃.vram.tmp = a := by
    rw [htmp₃, htmp₂, hvram₁, Ppu.addrLow_addrHigh htmp, ofBytes_mask ha]
  refine ⟨p₃, ?_, (hport₁.trans hport₂).trans hport₃, haddr₃.trans hbytes, ?_⟩
  · unfold setAddr
    rw [h₁, h₂, h₃]
  · rw [hbytes, BitVec.getLsbD, Nat.testBit_lt_two_pow (by omega)]

/-! ### Bytes -/

theorem onPpu_writeData (e : Emulator) (d : Uint8) :
    (e.onPpu (Ppu.writereg 0x2007 d)).2 =
      { e.vramWrite e.ppu.vram.addr d with
        ppu := { e.ppu with
          io.latch := d
          vram.addr := e.ppu.vram.addr + if e.ppu.io.vramInc then 32 else 1 } } := rfl

/-- Below the palette a read gives what the buffer held and fills it again. -/
theorem onPpu_readData {e : Emulator} (h : e.ppu.vram.addr.toNat < 0x3F00) :
    e.onPpu (Ppu.readreg 0x2007) =
      (e.ppu.io.dataBuf, { e with
        ppu := { e.ppu with
          io.latch := e.ppu.io.dataBuf
          io.dataBuf := e.vramRead e.ppu.vram.addr
          vram.addr := e.ppu.vram.addr + if e.ppu.io.vramInc then 32 else 1 } }) := by
  have hreg : Ppu.readreg 0x2007 = (do Ppu.readData; return (← get).io.latch) := rfl
  have hdata : post ppuEnv Ppu.readData ⟨e.ppu, e⟩ =
      ⟨{ e.ppu with
        io.latch := e.ppu.io.dataBuf
        io.dataBuf := e.vramRead e.ppu.vram.addr
        vram.addr := e.ppu.vram.addr + if e.ppu.io.vramInc then 32 else 1 }, e⟩ := by
    unfold Ppu.readData
    rw [post_bind, val_get, post_get, post_bind, if_pos h]
    rfl
  unfold onPpu
  rw [hreg, val_bind, post_bind, hdata]
  rfl

section Data

variable {e : Emulator} {mirroring : Mirroring} (hram : RamWired e.rambus)
  (hvram : VramWired mirroring e.vrambus) (haddr : InNametables e.ppu.vram.addr)
include hram hvram haddr

/-- A write to PPUDATA. -/
theorem ramWrite_data (d : Uint8) :
    ∃ p, e.ramWrite (0x2007, d) = { e with
        ppu := p
        vrammem :=
          Function.update e.vrammem (mirroring.decode e.ppu.vram.addr).toNat d } ∧
      SamePort e.ppu p ∧ p.vram.tmp = e.ppu.vram.tmp ∧
      p.vram.addr = e.ppu.vram.addr + if e.ppu.io.vramInc then 32 else 1 := by
  rw [ramWrite_reg hram (by decide) (by decide)]
  show ∃ p, (e.onPpu (Ppu.writereg 0x2007 d)).2 = _ ∧ _
  rw [onPpu_writeData, vramWrite_nametable hvram haddr]
  exact ⟨_, rfl, ⟨rfl, rfl⟩, rfl, rfl⟩

/-- A read of PPUDATA. -/
theorem ramRead_data :
    ∃ p, e.ramRead 0x2007 = (e.ppu.io.dataBuf, { e with ppu := p }) ∧
      p.io.vramInc = e.ppu.io.vramInc ∧
      p.io.dataBuf = e.vrammem (mirroring.decode e.ppu.vram.addr).toNat ∧
      p.vram.addr = e.ppu.vram.addr + if e.ppu.io.vramInc then 32 else 1 := by
  rw [ramRead_reg hram (by decide) (by decide)]
  show ∃ p, e.onPpu (Ppu.readreg 0x2007) = _ ∧ _
  rw [onPpu_readData haddr.2, vramRead_nametable hvram haddr]
  exact ⟨_, rfl, rfl, rfl, rfl⟩

end Data

/-! ### Lists of bytes -/

/-- The number of bytes the address moves on, which bit 2 of PPUCTRL selects. -/
def vramStride (p : Ppu) : ℕ := if p.io.vramInc then 32 else 1

/-- The address after `i` accesses from `a`. -/
def nthAddr (a : Uint16) (stride i : ℕ) : Uint16 := a + BitVec.ofNat 16 (i * stride)

theorem nthAddr_zero (a : Uint16) (stride : ℕ) : nthAddr a stride 0 = a := by
  unfold nthAddr
  rw [Nat.zero_mul]
  exact BitVec.add_zero a

theorem nthAddr_succ (a : Uint16) (p : Ppu) (i : ℕ) :
    nthAddr a (vramStride p) i + (if p.io.vramInc then 32 else 1) =
      nthAddr a (vramStride p) (i + 1) := by
  have hstride : (if p.io.vramInc then 32 else 1 : Uint16) = BitVec.ofNat 16 (vramStride p) := by
    unfold vramStride
    split <;> rfl
  unfold nthAddr
  rw [hstride, Nat.succ_mul, BitVec.ofNat_add, BitVec.add_assoc]

theorem inNametables_nthAddr {a : Uint16} {stride i : ℕ}
    (h : 0x2000 ≤ a.toNat + i * stride ∧ a.toNat + i * stride < 0x3F00) :
    InNametables (nthAddr a stride i) := by
  have hlt : i * stride % 65536 = i * stride := Nat.mod_eq_of_lt (by omega)
  unfold InNametables nthAddr
  rw [BitVec.toNat_add, BitVec.toNat_ofNat, hlt, Nat.mod_eq_of_lt (by omega)]
  exact h

/-- Bytes written to PPUDATA. -/
def upload (bs : List Uint8) (e : Emulator) : Emulator :=
  after (fun e b => e.ramWrite (0x2007, b)) e bs

/-- `n` reads of PPUDATA. -/
def readMany : ℕ → Emulator → List Uint8 × Emulator
  | 0, e => ([], e)
  | n + 1, e => ((e.ramRead 0x2007).1 :: (readMany n (e.ramRead 0x2007).2).1,
      (readMany n (e.ramRead 0x2007).2).2)

section Lists

variable {mirroring : Mirroring} {a : Uint16} {stride : ℕ}

/-- The cell of the `i`-th address. -/
def nthCell (mirroring : Mirroring) (a : Uint16) (stride i : ℕ) : ℕ :=
  (mirroring.decode (nthAddr a stride i)).toNat

/-- Writing a list stores it in the cells of the addresses. -/
theorem upload_eq {bs : List Uint8} {e : Emulator} {i : ℕ} (hram : RamWired e.rambus)
    (hvram : VramWired mirroring e.vrambus) (hstride : vramStride e.ppu = stride)
    (haddr : e.ppu.vram.addr = nthAddr a stride i)
    (hrange : ∀ j, i ≤ j → j < i + bs.length → InNametables (nthAddr a stride j)) :
    ∃ p, upload bs e = { e with
        ppu := p, vrammem := store (nthCell mirroring a stride) i bs e.vrammem } ∧
      SamePort e.ppu p ∧ p.vram.tmp = e.ppu.vram.tmp := by
  induction bs generalizing e i with
  | nil => exact ⟨e.ppu, rfl, ⟨rfl, rfl⟩, rfl⟩
  | cons b bs ih =>
    subst hstride
    rw [List.length_cons] at hrange
    have hin : InNametables e.ppu.vram.addr := by
      rw [haddr]
      exact hrange i (Nat.le_refl i) (by omega)
    obtain ⟨p, hwrite, hport, htmp, hnext⟩ := ramWrite_data hram hvram hin b
    rw [haddr, nthAddr_succ] at hnext
    have hstride' : vramStride p = vramStride e.ppu := by
      unfold vramStride
      rw [hport.vramInc]
    obtain ⟨p', hrest, hport', htmp'⟩ :=
      ih (e := { e with ppu := p, vrammem := _ }) hram hvram hstride' hnext
        fun j hj hj' => hrange j (by omega) (by omega)
    refine ⟨p', ?_, hport.trans hport', htmp'.trans htmp⟩
    show upload bs (e.ramWrite (0x2007, b)) = _
    rw [hwrite, hrest, haddr]
    rfl

/-- Reading gives the buffer first and then the cells one by one. -/
theorem readMany_eq {n : ℕ} {e : Emulator} {i : ℕ} (hram : RamWired e.rambus)
    (hvram : VramWired mirroring e.vrambus) (hstride : vramStride e.ppu = stride)
    (haddr : e.ppu.vram.addr = nthAddr a stride i)
    (hrange : ∀ j, i ≤ j → j ≤ i + n → InNametables (nthAddr a stride j)) :
    (readMany (n + 1) e).1 = e.ppu.io.dataBuf ::
        (List.range' i n).map (fun j => e.vrammem (nthCell mirroring a stride j)) ∧
      ∃ p, (readMany (n + 1) e).2 = { e with ppu := p } := by
  induction n generalizing e i with
  | zero =>
    have hin : InNametables e.ppu.vram.addr := by
      rw [haddr]
      exact hrange i (Nat.le_refl i) (Nat.le_refl i)
    obtain ⟨p, hread, -⟩ := ramRead_data hram hvram hin
    unfold readMany readMany
    rw [hread]
    exact ⟨rfl, p, rfl⟩
  | succ n ih =>
    subst hstride
    have hin : InNametables e.ppu.vram.addr := by
      rw [haddr]
      exact hrange i (Nat.le_refl i) (by omega)
    obtain ⟨p, hread, hinc, hbuf, hnext⟩ := ramRead_data hram hvram hin
    rw [haddr, nthAddr_succ] at hnext
    have hstride' : vramStride p = vramStride e.ppu := by
      unfold vramStride
      rw [hinc]
    obtain ⟨hrest, p', hend⟩ := ih (e := { e with ppu := p }) hram hvram hstride' hnext
      fun j hj hj' => hrange j (by omega) (by omega)
    rw [haddr] at hbuf
    rw [readMany, hread]
    refine ⟨?_, p', hend⟩
    rw [hrest, List.range'_succ, List.map_cons]
    exact congrArg (fun v => e.ppu.io.dataBuf :: v :: _) hbuf

end Lists

/-- **Upload and read back.** In every state of the emulator with its buses wired, bytes uploaded
to different cells of the name tables are read back as they were written, after the one byte the
read buffer held; no other cell changes. -/
theorem upload_read_back {e : Emulator} {mirroring : Mirroring} (he : Started e)
    (hram : RamWired e.rambus) (hvram : VramWired mirroring e.vrambus) (bs : List Uint8)
    (a : Uint16)
    (hrange : ∀ i ≤ bs.length, 0x2000 ≤ a.toNat + i * vramStride e.ppu ∧
      a.toNat + i * vramStride e.ppu < 0x3F00)
    (hcells : ∀ i j, i < j → j < bs.length →
      mirroring.decode (nthAddr a (vramStride e.ppu) i) ≠
        mirroring.decode (nthAddr a (vramStride e.ppu) j)) :
    let back := readMany (bs.length + 1) (setAddr a (upload bs (setAddr a e)))
    back.1 = e.ppu.io.dataBuf :: bs ∧
    (∀ k, (∀ i < bs.length, (mirroring.decode (nthAddr a (vramStride e.ppu) i)).toNat ≠ k) →
      back.2.vrammem k = e.vrammem k) ∧
    back.2.palmem = e.palmem ∧ back.2.cartridge = e.cartridge := by
  have ha : a.toNat < 0x4000 := by
    have := hrange 0 (Nat.zero_le _)
    omega
  have hin (j : ℕ) (hj : j ≤ bs.length) : InNametables (nthAddr a (vramStride e.ppu) j) :=
    inNametables_nthAddr (hrange j hj)
  have hzero := nthAddr_zero a (vramStride e.ppu)
  have hstride {p : Ppu} (hp : SamePort e.ppu p) : vramStride p = vramStride e.ppu := by
    unfold vramStride
    rw [hp.vramInc]
  obtain ⟨p₁, h₁, hport₁, haddr₁, htmp₁⟩ := setAddr_eq hram he.tmpClear ha
  have hupload (j : ℕ) (_ : 0 ≤ j) (hj : j < 0 + bs.length) :
      InNametables (nthAddr a (vramStride e.ppu) j) := hin j (by omega)
  obtain ⟨p₂, h₂, hport₂, htmp₂⟩ := upload_eq (e := { e with ppu := p₁ }) hram hvram
    (hstride hport₁) (haddr₁.trans hzero.symm) hupload
  set cells := store (nthCell mirroring a (vramStride e.ppu)) 0 bs e.vrammem with hstore
  have hclear : p₂.vram.tmp.getLsbD 15 = false := by
    rw [htmp₂]
    exact htmp₁
  obtain ⟨p₃, h₃, hport₃, haddr₃, -⟩ :=
    setAddr_eq (e := { e with ppu := p₂, vrammem := cells }) hram hclear ha
  have hport := (hport₁.trans hport₂).trans hport₃
  obtain ⟨hback, p₄, h₄⟩ := readMany_eq (e := { e with ppu := p₃, vrammem := cells })
    (n := bs.length) (i := 0) hram hvram (hstride hport) (haddr₃.trans hzero.symm)
    fun j _ hj => hin j (by omega)
  intro back
  have hresult : back = readMany (bs.length + 1) { e with ppu := p₃, vrammem := cells } := by
    show readMany _ (setAddr a (upload bs (setAddr a e))) = _
    rw [h₁, h₂, h₃]
  rw [hresult, h₄, hback]
  refine ⟨?_, ?_, rfl, rfl⟩
  · have hread : (List.range' 0 bs.length).map
        (fun j => cells (nthCell mirroring a (vramStride e.ppu) j)) = bs :=
      store_read fun j k _ hjk hk heq =>
        hcells j k hjk (by omega) (BitVec.eq_of_toNat_eq heq)
    exact congrArg₂ List.cons hport.dataBuf hread
  · intro k hk
    exact store_of_ne fun j _ hj => hk j (by omega)

/-- A new emulator of zeros with a ROM of zeros. -/
def insertedZeros : Emulator :=
  ((construct zeroed).insertRom Cartridge.zeroRom (Cartridge.romFile 2 1)).2.1

/-- Two bytes across the border of two name tables. -/
theorem upload_read_back_zeros :
    (readMany ([7, 8].length + 1)
      (setAddr 0x27FF (upload [7, 8] (setAddr 0x27FF insertedZeros)))).1 = [0, 7, 8] := by
  have hram : RamWired insertedZeros.rambus := ramWired_insertRom rfl
  have hvram : VramWired .horz insertedZeros.vrambus :=
    vramWired_insertRom zeroed Cartridge.zeroRom (Cartridge.romFile 2 1) rfl (by decide)
  have hstride : vramStride insertedZeros.ppu = 1 := rfl
  have hbuf : insertedZeros.ppu.io.dataBuf = 0 := rfl
  have hrange (i : ℕ) (hi : i ≤ [7, 8].length) :
      0x2000 ≤ (0x27FF : Uint16).toNat + i * vramStride insertedZeros.ppu ∧
        (0x27FF : Uint16).toNat + i * vramStride insertedZeros.ppu < 0x3F00 := by
    have haddr : (0x27FF : Uint16).toNat = 0x27FF := rfl
    have hlen : [7, 8].length = 2 := rfl
    rw [hstride, haddr]
    omega
  have hcells (i j : ℕ) (hij : i < j) (hj : j < [7, 8].length) :
      Mirroring.horz.decode (nthAddr 0x27FF (vramStride insertedZeros.ppu) i) ≠
        Mirroring.horz.decode (nthAddr 0x27FF (vramStride insertedZeros.ppu) j) := by
    obtain ⟨rfl, rfl⟩ : i = 0 ∧ j = 1 := by
      have hlen : [7, 8].length = 2 := rfl
      omega
    rw [hstride]
    decide
  have hstarted : Started insertedZeros := .insertRom (.construct zeroed) _ _
  have hback := (upload_read_back hstarted hram hvram [7, 8] 0x27FF hrange hcells).1
  rw [hbuf] at hback
  exact hback

end Yanesemu.Emulator
