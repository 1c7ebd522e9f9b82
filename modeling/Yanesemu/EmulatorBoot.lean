import Mathlib.Data.List.GetD
import Yanesemu.EmulatorCode
import Yanesemu.INes

/-!
# From power on

`insert_rom` wires the buses and `power` starts the CPU; what happens then is in the hands of the
program. It cannot change the cartridge or the buses (`Fixed`), so the PRG ROM it runs from is the
same after any number of rounds.

`power` too is a call of the machine that a program sees, so a program is followed from its reset
vector on (`boot_follows`).
-/

namespace Yanesemu.Emulator

open Interaction EventRun
open Cpu (Call)
open Isa (State)

/-! ### What a program cannot change -/

/-- The cartridge and the buses are the same. -/
structure Fixed (e e' : Emulator) : Prop where
  cartridge : e'.cartridge = e.cartridge
  rambus : e'.rambus = e.rambus
  vrambus : e'.vrambus = e.vrambus

theorem Fixed.refl (e : Emulator) : Fixed e e := ⟨rfl, rfl, rfl⟩

theorem Fixed.trans (a b c : Emulator) (h : Fixed a b) (h' : Fixed b c) : Fixed a c :=
  ⟨h'.cartridge.trans h.cartridge, h'.rambus.trans h.rambus, h'.vrambus.trans h.vrambus⟩

theorem fixed_writeVram (e : Emulator) (a : Uint16) (d : Uint8) (area : VramArea) :
    Fixed e (e.writeVram a d area) := by
  cases area <;> exact ⟨rfl, rfl, rfl⟩

theorem fixed_ppuEnv (o : PpuOp) (e : Emulator) : Fixed e (ppuEnv o e).2 := by
  cases o with
  | write a d => exact fixed_writeVram e a d _
  | _ => exact ⟨rfl, rfl, rfl⟩

theorem fixed_onPpu {α : Type} (m : PpuM α) (e : Emulator) : Fixed e (e.onPpu m).2 := by
  have henv := post_env_along (P := fun _ => True) Fixed.refl Fixed.trans
    (fun o e _ => fixed_ppuEnv o e) (m := m) (s := ⟨e.ppu, e⟩) fun _ _ => trivial
  exact ⟨henv.cartridge, henv.rambus, henv.vrambus⟩

theorem fixed_cpuEnv (o : CpuOp) (e : Emulator) : Fixed e (cpuEnv o e).2 := by
  cases o with
  | read a =>
    show Fixed e (e.readRam a (e.rambus.reader a)).2
    cases e.rambus.reader a with
    | ppuReg => exact fixed_onPpu _ e
    | _ => exact Fixed.refl e
  | write a d =>
    show Fixed e (e.writeRam a d (e.rambus.writer a))
    cases e.rambus.writer a with
    | ppuReg => exact fixed_onPpu _ e
    | _ => exact ⟨rfl, rfl, rfl⟩
  | fetchCallback => exact Fixed.refl e

theorem fixed_onCpu {α : Type} (m : CpuM α) (e : Emulator) : Fixed e (e.onCpu m).2 := by
  have henv := post_env_along (P := fun _ => True) Fixed.refl Fixed.trans
    (fun o e _ => fixed_cpuEnv o e) (m := m) (s := ⟨e.cpu, e⟩) fun _ _ => trivial
  exact ⟨henv.cartridge, henv.rambus, henv.vrambus⟩

theorem fixed_dots (e : Emulator) (k : ℕ) : Fixed e (ppuRun^[k] e) := by
  induction k with
  | zero => exact Fixed.refl e
  | succ k ih =>
    rw [Function.iterate_succ_apply']
    exact ih.trans _ _ _ (fixed_onPpu Ppu.run _)

/-- **A round** changes neither the cartridge nor the buses. -/
theorem fixed_run (e : Emulator) : Fixed e e.run := by
  have h := (fixed_onCpu Cpu.run e).trans _ _ _ (fixed_dots (e.onCpu Cpu.run).2 e.dotsRun)
  rw [run_eq_dotsRun]
  exact ⟨h.cartridge, h.rambus, h.vrambus⟩

theorem fixed_power (e : Emulator) : Fixed e e.power :=
  (fixed_onCpu Cpu.power e).trans _ _ _ (fixed_onPpu Ppu.power _)

/-! ### Power -/

section Power

/-- A program of the CPU that does not disturb the PPU, whatever it reads. -/
structure AsksOnly {α : Type} (m : CpuM α) : Prop where
  keeps : Keeps Asks (fun _ _ => True) m

theorem AsksOnly.asks {α : Type} {m : CpuM α} (h : AsksOnly m) (s : Sys Cpu Mem) :
    ∀ o ∈ asked flatMem m s, Asks o := h.keeps.of_asked flatMem s

theorem asksOnly_bind {α β : Type} {m : CpuM α} {f : α → CpuM β} (hm : AsksOnly m)
    (hf : ∀ a, AsksOnly (f a)) : AsksOnly (m >>= f) :=
  ⟨Keeps.bind (fun _ _ _ _ _ => trivial) hm.keeps fun a => (hf a).keeps⟩

theorem asksOnly_get : AsksOnly (get : CpuM Cpu) := ⟨Keeps.get fun _ => trivial⟩

theorem asksOnly_modify (f : Cpu → Cpu) : AsksOnly (modify f : CpuM PUnit) :=
  ⟨Keeps.modify fun _ => trivial⟩

theorem asksOnly_busWrite {a : Uint16} (ha : Writable a) (v : Uint8) :
    AsksOnly (Cpu.busWrite a v) := ⟨Keeps.ask (fun _ => trivial) ha⟩

theorem asksOnly_fetchCallback (a : Uint16) (mode : AccessMode) :
    AsksOnly (Cpu.fetchCallback a mode) :=
  asksOnly_bind asksOnly_get fun _ => ⟨Keeps.ask (fun _ => trivial) trivial⟩

theorem asksOnly_readmem {a : Uint16} (ha : Readable a) : AsksOnly (Cpu.readmem a) :=
  asksOnly_bind (asksOnly_fetchCallback a .r) fun _ =>
    asksOnly_bind (asksOnly_modify _) fun _ => ⟨Keeps.ask (fun _ => trivial) ha⟩

theorem asksOnly_push (v : Uint8) : AsksOnly (Cpu.push v) := by
  refine asksOnly_bind asksOnly_get fun c => asksOnly_bind ?_ fun _ => asksOnly_modify _
  refine asksOnly_bind (asksOnly_fetchCallback _ .w) fun _ => ?_
  refine asksOnly_bind (asksOnly_modify _) fun _ => ?_
  exact asksOnly_busWrite (.inl (Isa.stackAddr_lt _)) v

theorem asksOnly_clearBus (start : Uint16) (n : ℕ)
    (h : ∀ i < n, Writable (start + BitVec.ofNat 16 i)) : AsksOnly (Cpu.clearBus start n) := by
  induction n with
  | zero => exact ⟨Keeps.pure (fun _ => trivial) ()⟩
  | succ n ih =>
    exact asksOnly_bind (ih fun i hi => h i (Nat.lt_succ_of_lt hi)) fun _ =>
      asksOnly_busWrite (h n (Nat.lt_succ_self n)) 0

theorem asksOnly_interrupt : AsksOnly Cpu.interrupt := by
  have hvec (v : Entry) : Readable v.vec ∧ Readable (v.vec + 1) := by
    cases v <;> exact ⟨.inr (by decide), .inr (by decide)⟩
  refine asksOnly_bind (asksOnly_modify _) fun _ => ?_
  refine asksOnly_bind asksOnly_get fun _ => asksOnly_bind (asksOnly_push _) fun _ => ?_
  refine asksOnly_bind asksOnly_get fun _ => asksOnly_bind (asksOnly_push _) fun _ => ?_
  refine asksOnly_bind asksOnly_get fun _ => asksOnly_bind (asksOnly_push _) fun _ => ?_
  refine asksOnly_bind (asksOnly_modify _) fun _ => ?_
  refine asksOnly_bind asksOnly_get fun c => ?_
  refine asksOnly_bind (asksOnly_modify _) fun _ => ?_
  refine asksOnly_bind (asksOnly_readmem (hvec _).1) fun _ => ?_
  refine asksOnly_bind (asksOnly_modify _) fun _ => ?_
  exact asksOnly_bind (asksOnly_readmem (hvec _).2) fun _ => asksOnly_modify _

theorem asksOnly_power : AsksOnly Cpu.power := by
  have hram : ∀ i < 0x800, Writable (0 + BitVec.ofNat 16 i) := by
    intro i hi
    refine .inl ?_
    rw [BitVec.toNat_add, BitVec.toNat_ofNat]
    show (0 + i % 65536) % 65536 < _
    omega
  have happu : ∀ i < 0x13, Writable (0x4000 + BitVec.ofNat 16 i) := by
    intro i hi
    have hsum : ((0x4000 : Uint16) + BitVec.ofNat 16 i).toNat = 0x4000 + i := by
      rw [BitVec.toNat_add, BitVec.toNat_ofNat]
      show (16384 + i % 65536) % 65536 = _
      omega
    exact .inr ⟨by omega, by omega⟩
  have hclear := asksOnly_clearBus 0 0x800 hram
  have hclear' := asksOnly_clearBus 0x4000 0x13 happu
  unfold Cpu.power
  refine asksOnly_bind (asksOnly_modify _) fun _ => ?_
  refine asksOnly_bind hclear fun _ => ?_
  refine asksOnly_bind (asksOnly_modify _) fun _ => ?_
  refine asksOnly_bind (asksOnly_busWrite (.inr (by decide)) 0) fun _ => ?_
  refine asksOnly_bind (asksOnly_busWrite (.inr (by decide)) 0) fun _ => ?_
  refine asksOnly_bind hclear' fun _ => ?_
  exact asksOnly_bind (asksOnly_modify _) fun _ => asksOnly_interrupt

/-- What the PPU does when it is powered is not seen. -/
theorem Matches.ppuPower {e : Emulator} {s : State} (h : Matches e s) :
    Matches (e.onPpu Ppu.power).2 s := ⟨h.rambus, h.regs, h.mem⟩

/-- **Power** is a call of the machine that the program sees. -/
theorem Matches.power {e : Emulator} {s : State} (h : Matches e s) :
    Matches e.power (s.call .power) := by
  have hcpu : Matches (e.onCpu Call.power.prog).2 (s.call .power) :=
    h.call (AsksOnly.asks asksOnly_power ⟨e.cpu, s.mem⟩)
  exact hcpu.ppuPower

end Power

/-! ### The ROMs -/

section Roms

/-- What is done to an emulator with a cartridge. -/
inductive Action
  | run | reset | power
  deriving DecidableEq, Repr

def act (e : Emulator) : Action → Emulator
  | .run => e.run
  | .reset => e.reset
  | .power => e.power

theorem fixed_act (e : Emulator) (a : Action) : Fixed e (e.act a) := by
  cases a with
  | run => exact fixed_run e
  | reset => exact (fixed_onCpu Cpu.reset e).trans _ _ _ (fixed_onPpu Ppu.reset _)
  | power => exact fixed_power e

theorem fixed_after (e : Emulator) (as : List Action) : Fixed e (after act e as) :=
  after_inv (I := Fixed e) (fun _ a h => h.trans _ _ _ (fixed_act _ a)) (Fixed.refl e) as

variable {fresh : Fresh} {rom : FreshRom} {f : File}

/-- An array that was read from a file holds its bytes. -/
theorem get_loaded_drop {bytes : ℕ → Uint8} {rest : List Uint8} {start n i : ℕ} (hi : i < n)
    (hlen : start + n ≤ rest.length) :
    (Cartridge.loaded n bytes (rest.drop start)).get i = rest.getD (start + i) 0 := by
  have hlt : start + i < rest.length := by omega
  rw [Cartridge.get_loaded hi, List.getD_eq_getElem?_getD, List.getD_eq_getElem?_getD,
    List.getElem?_drop, List.getElem?_eq_getElem hlt]
  rfl

theorem parsed_insertRom (h : ((construct fresh).insertRom rom f).1 = true)
    (hcomplete : f.Complete) :
    Cartridge.Parsed rom f.header f (construct fresh).cartridge
      ((construct fresh).insertRom rom f).2.1.cartridge := by
  obtain ⟨hparse, hinserted⟩ := insertRom_of_accepted h
  have hcart := congrArg Emulator.cartridge hinserted
  rw [hcart]
  exact Cartridge.parse_parsed_file hparse (Cartridge.length_of_complete hcomplete)

/-- The PRG ROM holds the bytes behind the header. -/
theorem readPrgrom_of_fixed (h : ((construct fresh).insertRom rom f).1 = true)
    (hcomplete : f.Complete) (hprg : f.header 4 = 2) (hram : (f.header 10).getLsbD 4 = false)
    {e : Emulator} (hfixed : Fixed ((construct fresh).insertRom rom f).2.1 e) {a : Uint16}
    (ha : 0x8000 ≤ a.toNat) : e.cartridge.readPrgrom a =
      f.rest.getD (INes.prgStart f.header + (a.toNat - 0x8000)) 0 := by
  have hprgrom := (parsed_insertRom h hcomplete).prgrom
  have hprgsize : INes.prgSize f.header = 0x8000 := by rw [INes.prgSize, hprg]; rfl
  have hlen : INes.prgStart f.header + 0x8000 ≤ f.rest.length := by
    rw [← hprgsize]
    exact (Nat.le_add_right _ _).trans hcomplete
  have hlt := a.isLt
  rw [← hfixed.cartridge, if_neg (Bool.eq_false_iff.mp hram), hprgsize] at hprgrom
  have hsize : e.cartridge.prgrom.size = 0x8000 := by rw [hprgrom]; rfl
  rw [readPrgrom_eq hsize ha, hprgrom]
  exact get_loaded_drop (by omega) hlen

/-- The CHR ROM holds the bytes behind the PRG ROM. -/
theorem chrrom_of_fixed (h : ((construct fresh).insertRom rom f).1 = true)
    (hcomplete : f.Complete) (hchr : f.header 5 = 1) (hram : (f.header 10).getLsbD 4 = false)
    {e : Emulator} (hfixed : Fixed ((construct fresh).insertRom rom f).2.1 e) {i : ℕ}
    (hi : i < 0x2000) : e.cartridge.chrrom.get i =
      f.rest.getD (INes.chrStart f.header + i) 0 := by
  have hchrrom := (parsed_insertRom h hcomplete).chrrom
  have htakes : ¬(construct fresh).cartridge.TakesChrram f.header := by
    rintro (hzero | hhas)
    · rw [hchr] at hzero
      exact absurd hzero (by decide)
    · exact absurd hhas Bool.false_ne_true
  have hchrsize : INes.chrSize f.header = 0x2000 := by rw [INes.chrSize, hchr]; rfl
  have hoffset : Cartridge.chrOffset f.header = INes.chrStart f.header := by
    rw [Cartridge.chrOffset, if_neg (Bool.eq_false_iff.mp hram), INes.chrStart]
  have hlen : INes.chrStart f.header + 0x2000 ≤ f.rest.length := by
    rw [← hchrsize]
    exact hcomplete
  rw [← hfixed.cartridge, if_neg htakes, hchrsize, hoffset] at hchrrom
  rw [hchrrom]
  exact get_loaded_drop hi hlen

theorem getD_banks (banks : List Uint8) (i : ℕ) :
    (Cartridge.inesFile [2, 1] banks).rest.getD (16 + i) 0 = banks.getD i 0 := by
  obtain ⟨front, hfront, hlen⟩ : ∃ front : List Uint8,
      (Cartridge.inesFile [2, 1] banks).rest = front ++ banks ∧ front.length = 16 :=
    ⟨(Cartridge.inesFile [2, 1] []).rest, rfl, rfl⟩
  rw [hfront, List.getD_append_right _ _ _ _ (by omega), hlen, Nat.add_sub_cancel_left]

/-- Two PRG banks of NOPs and a CHR bank. -/
def nopBanks : List Uint8 := List.replicate 0x8000 0xEA ++ List.replicate 0x2000 0x22

def nopFile : File := Cartridge.inesFile [2, 1] nopBanks

theorem accepted_nopFile :
    ((construct zeroed).insertRom Cartridge.zeroRom nopFile).1 = true := rfl

theorem complete_nopFile : nopFile.Complete := by
  unfold File.Complete nopFile nopBanks
  rw [Cartridge.length_inesFile (by decide), List.length_append, List.length_replicate,
    List.length_replicate]
  exact Nat.le_refl _

theorem prg_nopFile {i : ℕ} (hi : i < 0x8000) : nopFile.rest.getD (16 + i) 0 = 0xEA := by
  have hlen : i < (List.replicate 0x8000 (0xEA : Uint8)).length := by
    rw [List.length_replicate]
    exact hi
  rw [nopFile, getD_banks, nopBanks, List.getD_append _ _ _ _ hlen, List.getD_replicate _ hi]

/-- **The ROMs.** Whatever the program does and however often the machine is reset, the CPU and
the PPU read the bytes of the file. -/
theorem roms_constant (h : ((construct fresh).insertRom rom f).1 = true) (hcomplete : f.Complete)
    (hprg : f.header 4 = 2) (hchr : f.header 5 = 1) (hram : (f.header 10).getLsbD 4 = false)
    (as : List Action) :
    let e := after act ((construct fresh).insertRom rom f).2.1 as
    (∀ a, 0x8000 ≤ a.toNat → (e.ramRead a).1 =
      f.rest.getD (INes.prgStart f.header + (a.toNat - 0x8000)) 0) ∧
    ∀ a, a.toNat < 0x2000 → e.readVram a (e.vrambus.reader a) =
      f.rest.getD (INes.chrStart f.header + a.toNat) 0 := by
  intro e
  have hfixed : Fixed ((construct fresh).insertRom rom f).2.1 e := fixed_after _ as
  have hbus : RamWired e.rambus := by
    rw [hfixed.rambus]; exact ramWired_insertRom h
  refine ⟨?_, ?_⟩
  · intro a ha
    rw [ramRead_prgrom hbus ha]
    exact readPrgrom_of_fixed h hcomplete hprg hram hfixed ha
  · intro a ha
    obtain ⟨id, hs⟩ := serves_insertRom fresh rom f h (a := a.toNat) (by omega)
    rw [if_pos ha, ← hfixed.vrambus] at hs
    show e.readVram a (e.vrambus.reader a) = _
    rw [hs.reader_eq]
    exact chrrom_of_fixed h hcomplete hchr hram hfixed ha

theorem roms_constant_nops :
    let e := after act ((construct zeroed).insertRom Cartridge.zeroRom nopFile).2.1
      [.power, .run, .reset, .run]
    ∀ a, 0x8000 ≤ a.toNat → (e.ramRead a).1 = 0xEA := by
  intro e a ha
  have hlt := a.isLt
  have hread := (roms_constant accepted_nopFile complete_nopFile rfl rfl rfl
    [.power, .run, .reset, .run]).1 a ha
  exact hread.trans (prg_nopFile (by omega))

end Roms

/-! ### Programs from power on -/

section Boot

variable {fresh : Fresh} {rom : FreshRom} {f : File}

theorem between_power (fresh : Fresh) (rom : FreshRom) (f : File) :
    ((construct fresh).insertRom rom f).2.1.power.Between := by
  obtain ⟨-, n, hr⟩ := (Reachable.power fresh rom f).between
  exact ⟨⟨n, hr.beam⟩, hr.lag⟩

theorem vblanks_ppuPower (e : Emulator) : (e.onPpu Ppu.power).2.vblanks = e.vblanks := rfl

theorem vblanks_power (e : Emulator) : e.power.vblanks = e.vblanks := by
  unfold power
  rw [vblanks_ppuPower, (kept_onCpu Cpu.power e).vblanks]

theorem machine_pc (e : Emulator) : e.machine.pc = e.cpu.r.pc := rfl

theorem machine_sig (e : Emulator) : e.machine.sig = e.cpu.sig := rfl

theorem matches_machine {e : Emulator} (hw : RamWired e.rambus) : Matches e e.machine :=
  ⟨hw, rfl, fun _ _ => rfl⟩

/-- What the interrupt sequence pushes. -/
theorem interrupt_mem (s : State) (ret : Uint16) (flags : ProcStatus) :
    (s.interrupt ret flags).mem =
      Cpu.stored s.mem (Cpu.pushed s.sp [Reg16.high ret, Reg16.low ret, flags.toByte]) := rfl

theorem interrupt_regs (s : State) (ret : Uint16) (flags : ProcStatus) :
    (s.interrupt ret flags).acc = s.acc ∧ (s.interrupt ret flags).x = s.x ∧
      (s.interrupt ret flags).y = s.y ∧ (s.interrupt ret flags).sp = s.sp - 1 - 1 - 1 :=
  ⟨rfl, rfl, rfl, rfl⟩

theorem interrupt_flags (s : State) (ret : Uint16) (flags : ProcStatus) :
    (s.interrupt ret flags).flags = { s.flags with breakf := false, intdis := true } := rfl

/-- The sequence reads its vector behind what it has pushed. -/
theorem interrupt_pc (s : State) (ret : Uint16) (flags : ProcStatus) :
    (s.interrupt ret flags).pc = s.word s.vector := by
  have hpc : (s.interrupt ret flags).pc = (s.interrupt ret flags).word s.vector := rfl
  obtain ⟨hlo, hhi⟩ := s.vector_rom
  rw [hpc, State.word, interrupt_mem, Isa.stored_pushed_rom hlo, Isa.stored_pushed_rom hhi]
  rfl

/-- The machine as `power` finds it when it enters the interrupt sequence. -/
def emptied (s : State) : State :=
  { s with
    acc := 0, x := 0, y := 0, sp := 0, flags := {}, sig.resetpending := true
    mem := fun a => if State.Cleared a then 0 else s.mem a }

theorem call_power (s : State) : s.call .power = (emptied s).interrupt s.pc {} := rfl

theorem emptied_rom (s : State) {a : Uint16} (ha : 0x8000 ≤ a.toNat) :
    (emptied s).mem a = s.mem a := by
  refine if_neg ?_
  unfold State.Cleared
  rintro (h | h | rfl | rfl)
  · omega
  · omega
  · exact absurd ha (by decide)
  · exact absurd ha (by decide)

theorem call_power_pc (s : State) :
    (s.call .power).pc = Reg16.ofBytes (s.mem 0xFFFC) (s.mem 0xFFFD) := by
  have hvec : (emptied s).vector = 0xFFFC := rfl
  rw [call_power, interrupt_pc, hvec]
  show Reg16.ofBytes _ ((emptied s).mem 0xFFFD) = _
  rw [emptied_rom s (by decide), emptied_rom s (by decide)]

theorem call_power_regs (s : State) :
    ((s.call .power).acc, (s.call .power).x, (s.call .power).y, (s.call .power).sp) =
      (0, 0, 0, 0xFD) := by
  obtain ⟨hacc, hx, hy, hsp⟩ := interrupt_regs (emptied s) s.pc {}
  have hfirst : (emptied s).sp - 1 - 1 - 1 = 0xFD :=
    show (0 : Uint8) - 1 - 1 - 1 = 0xFD by decide
  rw [call_power, hacc, hx, hy, hsp, hfirst]
  rfl

theorem call_power_flags (s : State) : (s.call .power).flags = { intdis := true } := by
  rw [call_power, interrupt_flags]
  rfl

theorem call_power_sig (s : State) :
    (s.call .power).sig = ({ s.sig with resetpending := true } : Signals).enter := rfl

/-- A new CPU pushes zeros and its flags. -/
theorem call_power_ram {s : State} (hpc : s.pc = 0) {a : Uint16} (ha : a.toNat < 0x800) :
    (s.call .power).mem a = if a = 0x1FE then 0x20 else 0 := by
  have hzero : (emptied s).mem a = 0 := if_pos (.inl ha)
  have hpushed : Cpu.pushed (emptied s).sp
      [Reg16.high s.pc, Reg16.low s.pc, ProcStatus.toByte {}] =
        [(0x100, 0), (0x1FF, 0), (0x1FE, 0x20)] := by
    have hsp : (emptied s).sp = 0 := rfl
    rw [hpc, hsp]
    decide
  rw [call_power, interrupt_mem, hpushed]
  show Function.update (Function.update (Function.update _ _ _) _ _) _ _ a = _
  simp only [Function.update_apply, hzero]
  split_ifs <;> rfl

/-- **Programs from power on.** The emulator with a cartridge is the machine of the program: `power`
is its call `power`, and the rounds after it are steps and an NMI for each vertical blank. -/
theorem boot_follows (h : ((construct fresh).insertRom rom f).1 = true) (n : ℕ) :
    let e := ((construct fresh).insertRom rom f).2.1
    (∀ k < n, Private (after State.call e.machine (.power :: e.power.calls k))) →
    Matches (run^[n] e.power) (after State.call e.machine (.power :: e.power.calls n)) ∧
      (e.power.calls n).count .run = n ∧
      (e.power.calls n).count .fireNmi = (run^[n] e.power).vblanks := by
  intro e hprivate
  have hbetween : e.power.Between := between_power fresh rom f
  have hstart : Matches e.power (e.machine.call .power) :=
    (matches_machine (ramWired_insertRom h)).power
  obtain ⟨hrun, hv⟩ := count_calls hbetween n
  refine ⟨matches_iterate hstart hbetween n hprivate, hrun, ?_⟩
  have hzero : e.vblanks = 0 := congrArg vblanks (insertRom_of_accepted h).2
  rw [hv, vblanks_power, hzero, Nat.zero_add]

/-! #### A loop -/

/-- A PRG ROM with `jmp $8000` at its start, where its vectors point too. -/
def loopByte (i : ℕ) : Uint8 :=
  if i = 0 then 0x4C else if i = 2 ∨ 0x7FFA ≤ i ∧ i % 2 = 1 then 0x80 else 0

def loopBanks : List Uint8 := (List.range 0x8000).map loopByte ++ List.replicate 0x2000 0

def loopFile : File := Cartridge.inesFile [2, 1] loopBanks

theorem accepted_loopFile :
    ((construct zeroed).insertRom Cartridge.zeroRom loopFile).1 = true := rfl

theorem complete_loopFile : loopFile.Complete := by
  unfold File.Complete loopFile loopBanks
  rw [Cartridge.length_inesFile (by decide), List.length_append, List.length_map,
    List.length_range, List.length_replicate]
  exact Nat.le_refl _

theorem prg_loopFile {i : ℕ} (hi : i < 0x8000) : loopFile.rest.getD (16 + i) 0 = loopByte i := by
  have hlen : i < ((List.range 0x8000).map loopByte).length := by
    rw [List.length_map, List.length_range]
    exact hi
  rw [loopFile, getD_banks, loopBanks, List.getD_append _ _ _ _ hlen,
    List.getD_eq_getElem _ _ hlen, List.getElem_map, List.getElem_range]

/-- The program has the loop in its ROM. -/
def LoopRom (s : State) : Prop := ∀ a, 0x8000 ≤ a.toNat → s.mem a = loopByte (a.toNat - 0x8000)

/-- In the loop. -/
structure Looping (s : State) : Prop where
  pc : s.pc = 0x8000
  rom : LoopRom s

section Looping

variable {s : State}

/-- The interrupt sequence leads to the loop, by any vector. -/
theorem looping_interrupt (hrom : LoopRom s) (ret : Uint16) (flags : ProcStatus) :
    Looping (s.interrupt ret flags) := by
  constructor
  · rw [interrupt_pc, State.word, hrom _ s.vector_rom.1, hrom _ s.vector_rom.2]
    unfold State.vector
    split_ifs <;> decide
  · intro a ha
    rw [interrupt_mem, Isa.stored_pushed_rom ha, hrom a ha]

/-- So the first thing the machine does is to get there. -/
theorem looping_power (hrom : LoopRom s) : Looping (s.call .power) := by
  rw [call_power]
  exact looping_interrupt (fun a ha => (emptied_rom s ha).trans (hrom a ha)) s.pc {}

variable (h : Looping s)

include h

theorem Looping.opcode : Cpu.manual (s.mem s.pc) = some (.impld .jmp, .abs) := by
  rw [h.pc, h.rom _ (by decide)]
  decide

theorem Looping.private_step : Private s := by
  by_cases hint : s.sig.execnmi = true ∨ s.sig.execirq = true
  · exact Isa.private_interrupt hint
  · simp only [not_or, Bool.not_eq_true] at hint
    obtain ⟨hreads, hstores⟩ := Isa.reads_of_manual hint.1 hint.2 h.opcode
    refine ⟨?_, ?_⟩
    · rw [hreads, h.pc]
      show ∀ a ∈ [0x8000, s.pc + 1, s.pc + 2], Readable a
      rw [h.pc]
      simp only [List.forall_mem_cons]
      exact ⟨.inr (by decide), .inr (by decide), .inr (by decide), by simp⟩
    · rw [hstores]
      exact List.forall_mem_nil _

theorem Looping.step : Looping s.step := by
  have hloop := looping_interrupt h.rom s.pc s.flags
  by_cases hn : s.sig.execnmi = true
  · rw [State.step_nmi hn]
    exact ⟨hloop.pc, hloop.rom⟩
  rw [Bool.not_eq_true] at hn
  by_cases hi : s.sig.execirq = true
  · rw [State.step_irq hn hi]
    exact ⟨hloop.pc, hloop.rom⟩
  rw [Bool.not_eq_true] at hi
  rw [State.step_of_manual hn hi h.opcode]
  refine ⟨?_, h.rom⟩
  show s.word (s.pc + 1) = 0x8000
  rw [h.pc, State.word, h.rom _ (by decide), h.rom _ (by decide)]
  decide

/-- Whatever is called, the machine stays in the loop. -/
theorem Looping.call (c : Call) : Looping (s.call c) := by
  cases c with
  | run => exact h.step
  | fireNmi => exact ⟨h.pc, h.rom⟩
  | fireIrq => exact ⟨h.pc, h.rom⟩
  | reset =>
    refine looping_interrupt (fun a ha => ?_) s.pc s.flags
    have hne : a ≠ 0x4015 := by
      rintro rfl
      exact absurd ha (by decide)
    exact (Function.update_of_ne hne _ _).trans (h.rom a ha)
  | power => exact looping_power h.rom

end Looping

/-- More than a frame of the loop, with the NMI of a vertical blank. -/
theorem boot_follows_loop :
    let e := ((construct zeroed).insertRom Cartridge.zeroRom loopFile).2.1
    Matches (run^[30000] e.power)
        (after State.call e.machine (.power :: e.power.calls 30000)) ∧
      (e.power.calls 30000).count .run = 30000 ∧ 0 < (e.power.calls 30000).count .fireNmi ∧
      (run^[30000] e.power).cpu.r.pc = 0x8000 := by
  obtain ⟨n, hn⟩ : ∃ n, n = 30000 := ⟨_, rfl⟩
  rw [← hn]
  intro e
  have hrom : LoopRom e.machine := by
    intro a ha
    have hlt := a.isLt
    have hread := readPrgrom_of_fixed accepted_loopFile complete_loopFile rfl rfl (Fixed.refl e) ha
    exact (peek_prgrom ha).trans (hread.trans (prg_loopFile (by omega)))
  have hloop (k : ℕ) : Looping (after State.call e.machine (.power :: e.power.calls k)) :=
    after_inv (I := Looping) (fun _ c h => h.call c) (looping_power hrom) _
  obtain ⟨hmatches, hruns, hnmis⟩ := boot_follows accepted_loopFile n fun k _ =>
    (hloop k).private_step
  obtain ⟨⟨n₀, hbeam⟩, hlag⟩ := between_power zeroed Cartridge.zeroRom loopFile
  obtain ⟨m, hm, hadv, -⟩ := iterate_advances hbeam hlag n
  have hblanks : Ppu.vblankCount n₀ < Ppu.vblankCount (n₀ + m) := by
    unfold Ppu.vblankCount Ppu.period
    split_ifs <;> omega
  have hv := hadv.vblanks
  refine ⟨hmatches, hruns, ?_, hmatches.pc.trans (hloop n).pc⟩
  rw [hnmis]
  omega

/-- **Start-up.** The program starts at its reset vector, with an empty stack and RAM cleared, but
for the flags that the start-up sequence has pushed. -/
theorem boot_state (h : ((construct fresh).insertRom rom f).1 = true) (hcomplete : f.Complete)
    (hprg : f.header 4 = 2) (hram : (f.header 10).getLsbD 4 = false) :
    let e := ((construct fresh).insertRom rom f).2.1.power
    let byte (i : ℕ) := f.rest.getD (INes.prgStart f.header + i) 0
    e.cpu.r.pc = Reg16.ofBytes (byte 0x7FFC) (byte 0x7FFD) ∧
    (e.cpu.r.acc, e.cpu.r.x, e.cpu.r.y, e.cpu.r.sp) = (0, 0, 0, 0xFD) ∧
    e.cpu.r.flags = { intdis := true } ∧
    Isa.Quiet e.cpu.sig ∧
    ∀ i < 0x800, e.rammem i = if i = 0x1FE then 0x20 else 0 := by
  intro e byte
  set e₀ := ((construct fresh).insertRom rom f).2.1 with he₀
  have hcpu : e₀.cpu = {} := congrArg Emulator.cpu (insertRom_of_accepted h).2
  have hmatches : Matches e (e₀.machine.call .power) :=
    (matches_machine (ramWired_insertRom h)).power
  have hvector (a : Uint16) (ha : 0x8000 ≤ a.toNat) :
      e₀.machine.mem a = byte (a.toNat - 0x8000) :=
    (peek_prgrom ha).trans (readPrgrom_of_fixed h hcomplete hprg hram (Fixed.refl e₀) ha)
  have hpc₀ : e₀.machine.pc = 0 := (machine_pc e₀).trans (by rw [hcpu])
  have hsig₀ : e₀.machine.sig = {} := (machine_sig e₀).trans (by rw [hcpu])
  refine ⟨?_, ?_, ?_, ?_, ?_⟩
  · rw [hmatches.pc, call_power_pc, hvector _ (by decide), hvector _ (by decide)]
    rfl
  · rw [hmatches.acc, hmatches.x, hmatches.y, hmatches.sp]
    exact call_power_regs _
  · rw [hmatches.flags]
    exact call_power_flags _
  · rw [hmatches.sig, call_power_sig, hsig₀]
    exact ⟨rfl, rfl, rfl, rfl⟩
  · intro i hi
    have htoNat := toNat_ramAddr hi
    rw [hmatches.ram hi, call_power_ram hpc₀ (by omega)]
    simp only [← BitVec.toNat_inj, htoNat]
    rfl

theorem boot_state_nops :
    let e := ((construct zeroed).insertRom Cartridge.zeroRom nopFile).2.1.power
    e.cpu.r.pc = 0xEAEA := by
  have hpc := (boot_state accepted_nopFile complete_nopFile rfl rfl).1
  exact hpc.trans (congrArg₂ Reg16.ofBytes (prg_nopFile (by decide)) (prg_nopFile (by decide)))

end Boot

end Yanesemu.Emulator
