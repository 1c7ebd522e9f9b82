import Yanesemu.Lib.Cells
import Yanesemu.Frame

/-!
# What is on the buses

The two address maps, as they are after construction and `insert_rom`. The maps are made by calls
of `map` from three classes; each takes the next id of the bus, so that the areas mapped before
keep theirs (`Bus.Serves.map`). `set_mirroring` then exchanges the handlers of the name tables,
but `remap` first looks at the entry before them, which nobody has written yet.

On a wired CPU bus a write changes the cell of RAM it belongs to, or the PPU and its memory.
-/

namespace Yanesemu

open Interaction EventRun

/-! ### The address maps -/

/-- The map of the CPU's bus. -/
def ramArea (addr : Uint16) : RamArea :=
  if addr.toNat < 0x2000 then .ram
  else if addr.toNat < 0x4000 then .ppuReg
  else if addr.toNat < 0x4020 then .apu
  else if addr.toNat < 0x8000 then .cartridge
  else .prgrom

/-- The map of the PPU's bus. -/
def vramArea (mirroring : Mirroring) (addr : Uint16) : VramArea :=
  if addr.toNat < 0x2000 then .chrrom
  else if addr.toNat < 0x3F00 then .nametable mirroring
  else .palette

/-- Every address of the CPU's bus has a handler, the one of its area. -/
def RamWired (b : RamBus) : Prop :=
  ∀ addr : Uint16, b.assigned (b.lookup.get addr.toNat) = true ∧
    b.reader addr = ramArea addr ∧ b.writer addr = ramArea addr

/-- Every address of the PPU's bus is handled by its area. -/
def VramWired (mirroring : Mirroring) (b : VramBus) : Prop :=
  ∀ addr : Uint16, addr.toNat < 0x4000 →
    b.reader addr = vramArea mirroring addr ∧ b.writer addr = vramArea mirroring addr

namespace Emulator

/-! ### Wiring -/

section Insert

variable {fresh : Fresh} {rom : FreshRom} {romfile : File}

theorem insertRom_of_accepted {e : Emulator} (h : (e.insertRom rom romfile).1 = true) :
    (Cartridge.parse rom romfile e.cartridge).1 = true ∧
      (e.insertRom rom romfile).2.1 =
        { e with
          cartridge := (Cartridge.parse rom romfile e.cartridge).2.1
          rambus := (Cartridge.attachBus (e.rambus, e.vrambus)).1
          vrambus := (Ppu.setMirroring (Cartridge.parse rom romfile e.cartridge).2.1.ntMirroring
            e.vrambus).map 0 0x2000 .chrrom .chrrom } := by
  unfold insertRom at h ⊢
  dsimp only at h ⊢
  cases hp : (Cartridge.parse rom romfile e.cartridge).1 with
  | false =>
    rw [hp] at h
    cases h
  | true => exact ⟨rfl, rfl⟩

/-- The areas of the CPU's bus, in the order in which they are mapped. -/
def ramAreas : List (Bus.Area RamArea RamArea) :=
  [⟨0x0000, 0x2000, .ram, .ram⟩, ⟨0x4000, 0x4020, .apu, .apu⟩, ⟨0x2000, 0x4000, .ppuReg, .ppuReg⟩,
    ⟨0x4020, 0x8000, .cartridge, .cartridge⟩, ⟨0x8000, 0x10000, .prgrom, .prgrom⟩]

/-- The five areas cover the bus and do not overlap. -/
theorem exists_ramAreas (addr : Uint16) : ∃ pre suf x, ramAreas = pre ++ x :: suf ∧
    x.Has addr.toNat ∧ (∀ y ∈ suf, ¬y.Has addr.toNat) ∧
    x.reader = ramArea addr ∧ x.writer = ramArea addr := by
  have hlt := addr.isLt
  unfold ramArea
  split_ifs
  · refine ⟨[], _, _, rfl, ?_, ?_, rfl, rfl⟩
    · simp [Bus.Area.Has]; omega
    · simp [Bus.Area.Has]; omega
  · refine ⟨[_, _], _, _, rfl, ?_, ?_, rfl, rfl⟩
    · simp [Bus.Area.Has]; omega
    · simp [Bus.Area.Has]; omega
  · refine ⟨[_], _, _, rfl, ?_, ?_, rfl, rfl⟩
    · simp [Bus.Area.Has]; omega
    · simp [Bus.Area.Has]; omega
  · refine ⟨[_, _, _], _, _, rfl, ?_, ?_, rfl, rfl⟩
    · simp [Bus.Area.Has]; omega
    · simp [Bus.Area.Has]; omega
  · refine ⟨[_, _, _, _], _, _, rfl, ?_, ?_, rfl, rfl⟩
    · simp [Bus.Area.Has]; omega
    · simp [Bus.Area.Has]

theorem ramWired_mapAll {b : RamBus} (hb : b.Taken 0) : RamWired (b.mapAll ramAreas) := by
  intro addr
  obtain ⟨pre, suf, x, hareas, hx, hsuf, hr, hw⟩ := exists_ramAreas addr
  have hlen : 0 + ramAreas.length ≤ Bus.tabsiz := by decide
  have htaken : (b.mapAll ramAreas).Taken (0 + ramAreas.length) := hb.mapAll hlen
  rw [hareas] at hlen htaken ⊢
  have hs := hb.serves_mapAll hlen hx hsuf
  have hid : 0 + pre.length < 0 + (pre ++ x :: suf).length := by
    rw [List.length_append, List.length_cons]
    omega
  refine ⟨?_, hs.reader_eq.trans hr, hs.writer_eq.trans hw⟩
  rw [hs.lookup, htaken _ (by omega)]
  exact decide_eq_true hid

theorem ramWired_insertRom (h : ((construct fresh).insertRom rom romfile).1 = true) :
    RamWired ((construct fresh).insertRom rom romfile).2.1.rambus := by
  rw [(insertRom_of_accepted h).2]
  exact ramWired_mapAll (Bus.taken_reset fresh.rambus 0x10000 fresh.ramLookup)

/-- The PPU's bus after construction. The pattern tables are not mapped yet: their entries hold
what the new memory held. -/
structure Constructed (vramLookup : ℕ → ℕ) (b : VramBus) : Prop where
  taken : b.Taken 2
  palette : ∀ a, 0x3F00 ≤ a → a < 0x4000 → b.Serves a 0 .palette .palette
  empty : ∀ a, 0x2000 ≤ a → a < 0x3F00 → b.Serves a 1 .empty .empty
  unmapped : b.lookup.get 0x1FFF = vramLookup 0x1FFF

theorem constructed_vrambus (fresh : Fresh) :
    Constructed fresh.vramLookup (construct fresh).vrambus := by
  have hb := Bus.taken_reset fresh.vrambus 0x4000 fresh.vramLookup
  have hpal : Bus.Taken 1 ((fresh.vrambus.reset 0x4000 fresh.vramLookup).map 0x3F00 0x4000
      .palette .palette) := hb.map (by decide)
  refine ⟨hpal.map (by decide), ?_, ?_, ?_⟩
  · intro a h h'
    exact (hb.serves_map (by decide) ⟨h, h'⟩).map hpal (by decide) (by decide) (by omega)
  · intro a h h'
    exact hpal.serves_map (by decide) ⟨h, h'⟩
  · show (((fresh.vrambus.reset 0x4000 fresh.vramLookup).map 0x3F00 0x4000 .palette
      .palette).map 0x2000 0x3F00 .empty .empty).lookup.get 0x1FFF = _
    rw [hpal.lookup_map (by decide) (by decide), hb.lookup_map (by decide) (by decide)]
    rfl

end Insert

section SetMirroring

variable {vramLookup : ℕ → ℕ} {b : VramBus} {mirroring : Mirroring}

/-- The handlers of the name tables after `set_mirroring`. -/
def installed (vramLookup : ℕ → ℕ) (mirroring : Mirroring) : VramArea :=
  if vramLookup 0x1FFF = 1 then .empty else .nametable mirroring

theorem setMirroring_eq (hm : mirroring ≠ .other) (b : VramBus) :
    Ppu.setMirroring mirroring b =
      b.remap 0x2000 0x3F00 (.nametable mirroring) (.nametable mirroring) := by
  cases mirroring with
  | other => exact absurd rfl hm
  | _ => rfl

theorem Constructed.nametables (h : Constructed vramLookup b) (hm : mirroring ≠ .other) {a : ℕ}
    (ha : 0x2000 ≤ a) (ha' : a < 0x3F00) :
    (Ppu.setMirroring mirroring b).Serves a 1 (installed vramLookup mirroring)
      (installed vramLookup mirroring) := by
  have hfirst : b.lookup.get 0x2000 = 1 := (h.empty 0x2000 (by omega) (by omega)).lookup
  have hlast : b.lookup.get (0x3F00 - 1) = 1 := (h.empty 0x3EFF (by omega) (by omega)).lookup
  have hbefore : b.lookup.get (0x2000 - 1) = vramLookup 0x1FFF := h.unmapped
  rw [setMirroring_eq hm]
  unfold installed
  split
  · next h1 =>
    rw [Bus.remap_eq_self (by decide) (by rw [hbefore, hfirst, h1])]
    exact h.empty a ha ha'
  · next h1 =>
    exact (h.empty a ha ha').remap hfirst hlast (Or.inr (by rw [hbefore]; exact h1))

theorem Constructed.palettes (h : Constructed vramLookup b) (hm : mirroring ≠ .other) {a : ℕ}
    (ha : 0x3F00 ≤ a) (ha' : a < 0x4000) :
    (Ppu.setMirroring mirroring b).Serves a 0 .palette .palette := by
  have hfirst : b.lookup.get 0x2000 ≠ 0 := by
    rw [(h.empty 0x2000 (by omega) (by omega)).lookup]
    decide
  rw [setMirroring_eq hm]
  exact (h.palette a ha ha').remap_other hfirst

theorem Constructed.taken_setMirroring (h : Constructed vramLookup b) (hm : mirroring ≠ .other) :
    (Ppu.setMirroring mirroring b).Taken 2 := by
  rw [setMirroring_eq hm]
  exact h.taken.remap

/-- What each address of the PPU's bus gets. -/
theorem Constructed.serves (h : Constructed vramLookup b) (hm : mirroring ≠ .other) {a : ℕ}
    (ha : a < 0x4000) :
    ∃ id, ((Ppu.setMirroring mirroring b).map 0 0x2000 .chrrom .chrrom).Serves a id
      (if a < 0x2000 then .chrrom else if a < 0x3F00 then installed vramLookup mirroring
        else .palette)
      (if a < 0x2000 then .chrrom else if a < 0x3F00 then installed vramLookup mirroring
        else .palette) := by
  have htaken := h.taken_setMirroring hm
  split_ifs with h2 h3
  · exact ⟨2, htaken.serves_map (by decide) ⟨Nat.zero_le _, h2⟩⟩
  · exact ⟨1, (h.nametables hm (by omega) h3).map htaken (by decide) (by decide) (by omega)⟩
  · exact ⟨0, (h.palettes hm (by omega) ha).map htaken (by decide) (by decide) (by omega)⟩

end SetMirroring

section Vrambus

variable (fresh : Fresh) (rom : FreshRom) (romfile : File)

/-- What each address of the PPU's bus gets from an accepted ROM. -/
theorem serves_insertRom (h : ((construct fresh).insertRom rom romfile).1 = true) {a : ℕ}
    (ha : a < 0x4000) :
    let e := ((construct fresh).insertRom rom romfile).2.1
    let area := if a < 0x2000 then .chrrom
      else if a < 0x3F00 then installed fresh.vramLookup e.cartridge.ntMirroring else .palette
    ∃ id, e.vrambus.Serves a id area area := by
  obtain ⟨hparse, he⟩ := insertRom_of_accepted h
  rw [he]
  exact (constructed_vrambus fresh).serves (Cartridge.parse_ntMirroring hparse) ha

theorem vramWired_insertRom (h : ((construct fresh).insertRom rom romfile).1 = true)
    (h1 : fresh.vramLookup 0x1FFF ≠ 1) :
    VramWired ((construct fresh).insertRom rom romfile).2.1.cartridge.ntMirroring
      ((construct fresh).insertRom rom romfile).2.1.vrambus := by
  intro addr haddr
  obtain ⟨id, hs⟩ := serves_insertRom fresh rom romfile h haddr
  rw [hs.reader_eq, hs.writer_eq]
  simp [vramArea, installed, h1]

theorem reader_insertRom_of_eq (h : ((construct fresh).insertRom rom romfile).1 = true)
    (h1 : fresh.vramLookup 0x1FFF = 1) :
    ((construct fresh).insertRom rom romfile).2.1.vrambus.reader 0x2000 = .empty := by
  obtain ⟨id, hs⟩ := serves_insertRom fresh rom romfile h (a := (0x2000 : Uint16).toNat)
    (by decide)
  rw [hs.reader_eq]
  simp [installed, h1]

/-- **The PPU's bus.** An accepted ROM leaves the PPU's bus wired exactly if the new lookup table
does not happen to hold the id of the name tables just before them. -/
theorem vramWired_insertRom_iff (h : ((construct fresh).insertRom rom romfile).1 = true) :
    VramWired ((construct fresh).insertRom rom romfile).2.1.cartridge.ntMirroring
        ((construct fresh).insertRom rom romfile).2.1.vrambus ↔
      fresh.vramLookup 0x1FFF ≠ 1 := by
  constructor
  · intro hwired h1
    have hr := (hwired 0x2000 (by decide)).1
    rw [reader_insertRom_of_eq fresh rom romfile h h1] at hr
    cases hr
  · intro h1
    exact vramWired_insertRom fresh rom romfile h h1

end Vrambus

theorem vramWired_insertRom_zeros :
    let e := (construct zeroed).insertRom Cartridge.zeroRom (Cartridge.romFile 2 1)
    e.1 = true ∧ VramWired e.2.1.cartridge.ntMirroring e.2.1.vrambus :=
  ⟨rfl, (vramWired_insertRom_iff zeroed Cartridge.zeroRom (Cartridge.romFile 2 1) rfl).mpr
    (by decide)⟩

/-- The new lookup table may hold ones: then the name tables stay empty. -/
theorem not_vramWired_ones :
    let e := (construct { zeroed with vramLookup := fun _ => 1 }).insertRom Cartridge.zeroRom
      (Cartridge.romFile 2 1)
    e.1 = true ∧ e.2.1.vrambus.reader 0x2000 = .empty ∧
      ¬VramWired e.2.1.cartridge.ntMirroring e.2.1.vrambus := by
  have hempty := reader_insertRom_of_eq { zeroed with vramLookup := fun _ => 1 } Cartridge.zeroRom
    (Cartridge.romFile 2 1) rfl rfl
  refine ⟨rfl, hempty, ?_⟩
  intro hwired
  have hr := (hwired 0x2000 (by decide)).1
  rw [hempty] at hr
  cases hr

/-! ### What an access leaves alone -/

/-- Equal but for the PPU and its memory. -/
def OnlyPpu (e e' : Emulator) : Prop :=
  ∃ ppu vrammem palmem, e' = { e with ppu := ppu, vrammem := vrammem, palmem := palmem }

theorem OnlyPpu.refl (e : Emulator) : OnlyPpu e e := ⟨e.ppu, e.vrammem, e.palmem, rfl⟩

theorem OnlyPpu.trans (a b c : Emulator) : OnlyPpu a b → OnlyPpu b c → OnlyPpu a c := by
  rintro ⟨p, v, pal, rfl⟩ ⟨p', v', pal', rfl⟩
  exact ⟨p', v', pal', rfl⟩

theorem onlyPpu_writeVram (e : Emulator) (a : Uint16) (d : Uint8) (area : VramArea) :
    OnlyPpu e (e.writeVram a d area) := by
  cases area with
  | nametable mirroring => exact ⟨e.ppu, _, e.palmem, rfl⟩
  | palette => exact ⟨e.ppu, e.vrammem, _, rfl⟩
  | _ => exact OnlyPpu.refl e

/-- A register access stays within the PPU and what is behind its bus. -/
theorem onlyPpu_onPpu {α : Type} {m : PpuM α} {which : Uint16} {e : Emulator}
    (hm : ∀ o ∈ asked ppuEnv m ⟨e.ppu, e⟩, Ppu.RegOp which e.ppu o) :
    OnlyPpu e (e.onPpu m).2 := by
  have hop (o : PpuOp) (e' : Emulator) (ho : Ppu.RegOp which e.ppu o) :
      OnlyPpu e' (ppuEnv o e').2 := by
    rcases ho with ⟨-, rfl | ⟨d, rfl⟩⟩
    · exact OnlyPpu.refl e'
    · exact onlyPpu_writeVram e' _ d _
  obtain ⟨p, v, pal, henv⟩ := post_env_along OnlyPpu.refl OnlyPpu.trans hop hm
  refine ⟨(post ppuEnv m ⟨e.ppu, e⟩).chip, v, pal, ?_⟩
  unfold onPpu
  rw [henv]

theorem onlyPpu_readreg (e : Emulator) (which : Uint16) :
    OnlyPpu e (e.onPpu (Ppu.readreg which)).2 :=
  onlyPpu_onPpu (wp_post (s := ⟨e.ppu, e⟩) (Ppu.wp_readreg which e.ppu) ppuEnv).2

theorem onlyPpu_writereg (e : Emulator) (which : Uint16) (d : Uint8) :
    OnlyPpu e (e.onPpu (Ppu.writereg which d)).2 :=
  onlyPpu_onPpu (wp_post (s := ⟨e.ppu, e⟩) (Ppu.wp_writereg which d e.ppu) ppuEnv).2

theorem onlyPpu_readRam (e : Emulator) (a : Uint16) (area : RamArea) :
    OnlyPpu e (e.readRam a area).2 := by
  cases area with
  | ppuReg => exact onlyPpu_readreg e _
  | _ => exact OnlyPpu.refl e

/-- The CPU's bus stays as it is. -/
theorem rambus_cpuEnv (o : CpuOp) (e : Emulator) : (cpuEnv o e).2.rambus = e.rambus := by
  cases o with
  | read a =>
    obtain ⟨p, v, pal, h⟩ := onlyPpu_readRam e a (e.rambus.reader a)
    show (e.readRam a (e.rambus.reader a)).2.rambus = _
    rw [h]
  | write a d =>
    show (e.writeRam a d (e.rambus.writer a)).rambus = _
    cases e.rambus.writer a with
    | ppuReg =>
      obtain ⟨p, v, pal, h⟩ := onlyPpu_writereg e (ppuReg a) d
      show (e.onPpu (Ppu.writereg (ppuReg a) d)).2.rambus = _
      rw [h]
    | _ => rfl
  | fetchCallback c a mode => rfl

theorem rambus_ppuEnv (o : PpuOp) (e : Emulator) : (ppuEnv o e).2.rambus = e.rambus := by
  cases o with
  | write a d =>
    show (e.writeVram a d (e.vrambus.writer a)).rambus = _
    cases e.vrambus.writer a <;> rfl
  | _ => rfl

theorem rambus_onCpu {α : Type} (m : CpuM α) (e : Emulator) :
    (e.onCpu m).2.rambus = e.rambus :=
  post_env_along (R := fun a b : Emulator => b.rambus = a.rambus) (m := m) (s := ⟨e.cpu, e⟩)
    (fun _ => rfl) (fun _ _ _ hab hbc => hbc.trans hab)
    (fun o e' (_ : True) => rambus_cpuEnv o e') fun _ _ => trivial

theorem rambus_onPpu {α : Type} (m : PpuM α) (e : Emulator) :
    (e.onPpu m).2.rambus = e.rambus :=
  post_env_along (R := fun a b : Emulator => b.rambus = a.rambus) (m := m) (s := ⟨e.ppu, e⟩)
    (fun _ => rfl) (fun _ _ _ hab hbc => hbc.trans hab)
    (fun o e' (_ : True) => rambus_ppuEnv o e') fun _ _ => trivial

theorem rambus_power (e : Emulator) : e.power.rambus = e.rambus := by
  unfold power
  rw [rambus_onPpu, rambus_onCpu]

/-! ### The CPU's bus -/

/-- `rambus.read(addr)`. -/
def ramRead (e : Emulator) (addr : Uint16) : Uint8 × Emulator := cpuEnv (.read addr) e

/-- `rambus.write(addr, data)`. -/
def ramWrite (e : Emulator) (w : Uint16 × Uint8) : Emulator := (cpuEnv (.write w.1 w.2) e).2

theorem toNat_and_7FF (a : Uint16) : (a &&& 0x7FF).toNat = a.toNat % 0x800 := by
  rw [BitVec.toNat_and]
  exact Nat.and_two_pow_sub_one_eq_mod a.toNat 11

section Wired

variable {e : Emulator} {a : Uint16} {d : Uint8} (hb : RamWired e.rambus)
include hb

theorem ramRead_eq : e.ramRead a = e.readRam a (ramArea a) := by
  unfold ramRead
  show e.readRam a (e.rambus.reader a) = _
  rw [(hb a).2.1]

theorem ramWrite_eq : e.ramWrite (a, d) = e.writeRam a d (ramArea a) := by
  unfold ramWrite
  show e.writeRam a d (e.rambus.writer a) = _
  rw [(hb a).2.2]

/-- RAM is repeated four times. -/
theorem ramRead_ram (ha : a.toNat < 0x2000) : e.ramRead a = (e.rammem (a.toNat % 0x800), e) := by
  rw [ramRead_eq hb, ramArea, if_pos ha, readRam, toNat_and_7FF]

theorem ramWrite_ram (ha : a.toNat < 0x2000) :
    e.ramWrite (a, d) = { e with rammem := Function.update e.rammem (a.toNat % 0x800) d } := by
  rw [ramWrite_eq hb, ramArea, if_pos ha, writeRam, toNat_and_7FF]

/-- Outside RAM a write changes the PPU and its memory at most. -/
theorem onlyPpu_ramWrite (ha : 0x2000 ≤ a.toNat) : OnlyPpu e (e.ramWrite (a, d)) := by
  rw [ramWrite_eq hb]
  unfold ramArea
  split_ifs
  · omega
  · exact onlyPpu_writereg e _ d
  · exact OnlyPpu.refl e
  · exact OnlyPpu.refl e
  · exact OnlyPpu.refl e

omit hb in
theorem ramArea_reg (ha : 0x2000 ≤ a.toNat) (ha' : a.toNat < 0x4000) : ramArea a = .ppuReg := by
  rw [ramArea, if_neg (by omega), if_pos ha']

/-- The registers are repeated every eight bytes. -/
theorem ramRead_reg (ha : 0x2000 ≤ a.toNat) (ha' : a.toNat < 0x4000) :
    e.ramRead a = e.onPpu (Ppu.readreg (ppuReg a)) := by
  rw [ramRead_eq hb, ramArea_reg ha ha', readRam]

theorem ramWrite_reg (ha : 0x2000 ≤ a.toNat) (ha' : a.toNat < 0x4000) :
    e.ramWrite (a, d) = (e.onPpu (Ppu.writereg (ppuReg a) d)).2 := by
  rw [ramWrite_eq hb, ramArea_reg ha ha', writeRam]

theorem ramRead_unused (ha : 0x4000 ≤ a.toNat) (ha' : a.toNat < 0x8000) :
    e.ramRead a = (0, e) := by
  rw [ramRead_eq hb]
  unfold ramArea
  split_ifs
  · omega
  · omega
  · rfl
  · rfl

theorem ramRead_prgrom (ha : 0x8000 ≤ a.toNat) : e.ramRead a = (e.cartridge.readPrgrom a, e) := by
  rw [ramRead_eq hb]
  unfold ramArea
  split_ifs
  · omega
  · omega
  · omega
  · omega
  · rfl

end Wired

/-- The first of the registers `addr` stands for. -/
theorem toNat_ppuReg (a : Uint16) : (ppuReg a).toNat = 0x2000 + a.toNat % 8 := by
  unfold ppuReg
  have hand : (a &&& 0x7).toNat = a.toNat % 8 := by
    rw [BitVec.toNat_and]
    exact Nat.and_two_pow_sub_one_eq_mod a.toNat 3
  rw [BitVec.toNat_add, hand]
  show (0x2000 + a.toNat % 8) % 65536 = _
  omega

theorem ppuReg_ppuReg (a : Uint16) : ppuReg (ppuReg a) = ppuReg a := by
  apply BitVec.eq_of_toNat_eq
  rw [toNat_ppuReg, toNat_ppuReg]
  omega

/-- With 32 KiB the ROM starts at `0x8000`. -/
theorem readPrgrom_eq {c : Cartridge} {a : Uint16} (hc : c.prgrom.size = 0x8000)
    (ha : 0x8000 ≤ a.toNat) : c.readPrgrom a = c.prgrom.get (a.toNat - 0x8000) := by
  have := a.isLt
  unfold Cartridge.readPrgrom
  have hindex : (0x8000 + a.toNat) % 65536 = a.toNat - 0x8000 := by omega
  rw [Cartridge.toNat_prgIndex, hc, hindex]

/-- What a machine with a wired CPU bus and the ROM `c` keeps under writes. -/
structure Wired (c : Cartridge) (e : Emulator) : Prop where
  rambus : RamWired e.rambus
  cartridge : e.cartridge = c

theorem Wired.ramWrite {c : Cartridge} {e : Emulator} (h : Wired c e) (w : Uint16 × Uint8) :
    Wired c (e.ramWrite w) := by
  obtain ⟨a, d⟩ := w
  by_cases ha : a.toNat < 0x2000
  · rw [ramWrite_ram h.rambus ha]
    exact ⟨h.rambus, h.cartridge⟩
  · obtain ⟨p, v, pal, he⟩ := onlyPpu_ramWrite h.rambus (d := d) (Nat.le_of_not_lt ha)
    rw [he]
    exact ⟨h.rambus, h.cartridge⟩

/-- Two addresses of one cell of RAM. -/
def RamAlias (a b : Uint16) : Prop := b.toNat < 0x2000 ∧ b.toNat % 0x800 = a.toNat % 0x800

instance (a : Uint16) : DecidablePred (RamAlias a) := fun b => by
  unfold RamAlias
  infer_instance

theorem rammem_ramWrite_of_alias {c : Cartridge} {e : Emulator} {a : Uint16} {w : Uint16 × Uint8}
    (h : Wired c e) (hw : RamAlias a w.1) : (e.ramWrite w).rammem (a.toNat % 0x800) = w.2 := by
  rw [ramWrite_ram h.rambus hw.1, hw.2]
  exact Function.update_self ..

theorem rammem_ramWrite_of_not_alias {c : Cartridge} {e : Emulator} {a : Uint16}
    {w : Uint16 × Uint8} (h : Wired c e) (hw : ¬RamAlias a w.1) :
    (e.ramWrite w).rammem (a.toNat % 0x800) = e.rammem (a.toNat % 0x800) := by
  obtain ⟨b, d⟩ := w
  by_cases hb : b.toNat < 0x2000
  · rw [ramWrite_ram h.rambus hb]
    exact Function.update_of_ne (fun heq => hw ⟨hb, heq.symm⟩) ..
  · obtain ⟨p, v, pal, he⟩ := onlyPpu_ramWrite h.rambus (d := d) (Nat.le_of_not_lt hb)
    rw [he]

/-- **The CPU's bus.** After construction and `insert_rom` with 32 KiB of PRG ROM, whatever has
been written since: every address has a handler; RAM holds what was last written to the cell; a
register is the same at all its addresses; the area below the ROM reads as zero; the ROM reads as
the ROM; and only writes below `0x2000` change RAM. -/
theorem cpuBus_after_writes (fresh : Fresh) (rom : FreshRom) (romfile : File)
    (h : ((construct fresh).insertRom rom romfile).1 = true)
    (hprg : ((construct fresh).insertRom rom romfile).2.1.cartridge.prgrom.size = 0x8000)
    (ws : List (Uint16 × Uint8)) (a : Uint16) :
    let start := ((construct fresh).insertRom rom romfile).2.1
    let e := after ramWrite start ws
    (e.rambus.assigned (e.rambus.lookup.get a.toNat) = true ∧
      e.rambus.reader a = ramArea a ∧ e.rambus.writer a = ramArea a) ∧
    (a.toNat < 0x2000 → (e.ramRead a).1 =
      (lastWrite (fun b => b.toNat < 0x2000 ∧ b.toNat % 0x800 = a.toNat % 0x800) ws).getD
        (start.rammem (a.toNat % 0x800))) ∧
    (0x2000 ≤ a.toNat → a.toNat < 0x4000 → e.ramRead a = e.ramRead (0x2000 + (a &&& 7)) ∧
      ∀ d, e.ramWrite (a, d) = e.ramWrite (0x2000 + (a &&& 7), d)) ∧
    (0x4000 ≤ a.toNat → a.toNat < 0x8000 → (e.ramRead a).1 = 0) ∧
    (0x8000 ≤ a.toNat → (e.ramRead a).1 = start.cartridge.prgrom.get (a.toNat - 0x8000)) ∧
    (0x2000 ≤ a.toNat → ∀ d, (e.ramWrite (a, d)).rammem = e.rammem) := by
  intro start e
  have hstart : Wired start.cartridge start := ⟨ramWired_insertRom h, rfl⟩
  have he : Wired start.cartridge e :=
    after_inv (I := Wired start.cartridge) (fun _ w hs => hs.ramWrite w) hstart ws
  have hreg := toNat_ppuReg a
  refine ⟨he.rambus a, ?_, ?_, ?_, ?_, ?_⟩
  · intro ha
    rw [ramRead_ram he.rambus ha]
    exact read_after_writes (P := RamAlias a) (I := Wired start.cartridge)
      (fun e => e.rammem (a.toNat % 0x800)) (fun _ w hs => hs.ramWrite w)
      (fun _ _ hs hw => rammem_ramWrite_of_alias hs hw)
      (fun _ _ hs hw => rammem_ramWrite_of_not_alias hs hw) hstart ws
  · intro ha ha'
    have hlo : 0x2000 ≤ (ppuReg a).toNat := by omega
    have hhi : (ppuReg a).toNat < 0x4000 := by omega
    refine ⟨?_, ?_⟩
    · show e.ramRead a = e.ramRead (ppuReg a)
      rw [ramRead_reg he.rambus ha ha', ramRead_reg he.rambus hlo hhi, ppuReg_ppuReg]
    · intro d
      show e.ramWrite (a, d) = e.ramWrite (ppuReg a, d)
      rw [ramWrite_reg he.rambus ha ha', ramWrite_reg he.rambus hlo hhi, ppuReg_ppuReg]
  · intro ha ha'
    rw [ramRead_unused he.rambus ha ha']
  · intro ha
    rw [ramRead_prgrom he.rambus ha, he.cartridge]
    exact readPrgrom_eq hprg ha
  · intro ha d
    obtain ⟨p, v, pal, hw⟩ := onlyPpu_ramWrite he.rambus (d := d) ha
    rw [hw]

/-- Writes to RAM, to its mirror, to a register and to the ROM. -/
theorem cpuBus_after_writes_zeros :
    let start := ((construct zeroed).insertRom Cartridge.zeroRom (Cartridge.romFile 2 1)).2.1
    let e := after ramWrite start [(0x0012, 1), (0x0812, 2), (0x2001, 3), (0x9000, 4)]
    start.cartridge.prgrom.size = 0x8000 ∧ (e.ramRead 0x1012).1 = 2 ∧
      e.ramRead 0x3FFA = e.ramRead 0x2002 ∧
      (e.ramRead 0x9000).1 = start.cartridge.prgrom.get 0x1000 := by
  have hall := cpuBus_after_writes zeroed Cartridge.zeroRom (Cartridge.romFile 2 1) rfl (by decide)
    [(0x0012, 1), (0x0812, 2), (0x2001, 3), (0x9000, 4)]
  refine ⟨by decide, ?_, ?_, ?_⟩
  · exact (hall 0x1012).2.1 (by decide)
  · exact ((hall 0x3FFA).2.2.1 (by decide) (by decide)).1
  · exact (hall 0x9000).2.2.2.2.1 (by decide)

end Emulator

end Yanesemu
