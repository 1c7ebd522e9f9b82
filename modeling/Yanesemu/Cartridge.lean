import Yanesemu.Bus

/-!
# Cartridges

`core/cartridge.hpp` and `core/cartridge.cpp`, with the part of `util/file.hpp` they use. The
header and the trainer are buffers inside the object: a short file overwrites only the start of
them. Fields that are only printed are left out.
-/

namespace Yanesemu

/-! ### `Util::File` -/

/-- A file opened for reading: whether that worked, its name and the bytes not yet read. -/
structure File where
  isOpen : Bool
  filename : String
  rest : List Uint8

namespace File

/-- `bread(buf, nb)`: the bytes read, fewer than `nb` at the end of the file. -/
def bread (f : File) (nb : ℕ) : List Uint8 × File :=
  (f.rest.take nb, { f with rest := f.rest.drop nb })

end File

/-! ### `Cartridge` -/

/-- The flags `has`. -/
structure Has where
  prgram : Bool := false
  chrram : Bool := false
  battery : Bool := false
  trainer : Bool := false

structure Cartridge where
  name : String := ""
  format : String := ""
  prgrom : HeapArray Uint8
  chrrom : HeapArray Uint8
  header : ℕ → Uint8
  trainer : ℕ → Uint8
  mapper : Uint16 := 0
  prgramSize : Uint32 := 0
  ntMirroring : Mirroring := .vert
  has : Has := {}

/-- The contents of the memory a parse allocates. -/
structure FreshRom where
  prg : ℕ → Uint8
  chr : ℕ → Uint8

namespace Cartridge

def headerLen : ℕ := 16
def trainerLen : ℕ := 512

/-- The header is `NES` and an end-of-file character. -/
def isInes (header : ℕ → Uint8) : Bool :=
  header 0 == 0x4E && header 1 == 0x45 && header 2 == 0x53 && header 3 == 0x1A

def isNes20 (header : ℕ → Uint8) : Bool := header 7 &&& 0xC == 0x8

def parseCommon (c : Cartridge) : Cartridge :=
  { c with
    ntMirroring := if c.header 6 &&& 1 == 0 then .horz else .vert
    has.battery := truthy (c.header 6 &&& 2)
    has.trainer := truthy (c.header 6 &&& 4)
    mapper := ((c.header 6 &&& 0xF0) >>> 4 ||| c.header 7 &&& 0xF0).setWidth 16 }

/-- `has.chrram` is set when the header has no CHR banks and never cleared. -/
def parseInes (c : Cartridge) : Cartridge :=
  { c with
    has.chrram := if c.header 5 == 0 then true else c.has.chrram
    prgramSize := (c.header 8).setWidth 32
    has.prgram := truthy (c.header 10 &&& 0x10) }

def loadTrainer (s : Cartridge × File) : Cartridge × File :=
  if s.1.has.trainer then
    let (bytes, f) := s.2.bread trainerLen
    ({ s.1 with trainer := overlay bytes s.1.trainer }, f)
  else s

def loadPrgrom (fresh : FreshRom) (s : Cartridge × File) : Cartridge × File :=
  if !s.1.has.prgram then
    let prgrom := HeapArray.reset ((s.1.header 4).toNat * 16384) fresh.prg
    let (bytes, f) := s.2.bread prgrom.size
    ({ s.1 with prgrom := prgrom.load bytes }, f)
  else s

def loadChrrom (fresh : FreshRom) (s : Cartridge × File) : Cartridge × File :=
  if !s.1.has.chrram then
    let chrrom := HeapArray.reset ((s.1.header 5).toNat * 8192) fresh.chr
    let (bytes, f) := s.2.bread chrrom.size
    ({ s.1 with chrrom := chrrom.load bytes }, f)
  else s

/-- The header as `parse` has it after the first read. -/
def readHeader (c : Cartridge) (f : File) : ℕ → Uint8 := overlay (f.bread headerLen).1 c.header

/-- The answer of `parse`, the cartridge and the file it leaves. -/
def parse (fresh : FreshRom) (f : File) (c : Cartridge) : Bool × Cartridge × File :=
  if !f.isOpen then (false, c, f)
  else
    let c := { c with name := f.filename, header := c.readHeader f }
    let f := (f.bread headerLen).2
    if !isInes c.header then (false, c, f)
    else if isNes20 c.header then (false, c, f)
    else
      let c := parseInes (parseCommon { c with format := "iNES" })
      (true, loadChrrom fresh (loadPrgrom fresh (loadTrainer (c, f))))

/-- The index `read_prgrom(addr)` uses. -/
def prgIndex (c : Cartridge) (addr : Uint16) : Uint16 :=
  let offset : Uint16 := addr - 0x8000
  let start : Uint16 := (BitVec.ofNat 64 c.prgrom.size - 0x8000).setWidth 16
  start + offset

def readPrgrom (c : Cartridge) (addr : Uint16) : Uint8 := c.prgrom.get (c.prgIndex addr).toNat

def readChrrom (c : Cartridge) (addr : Uint16) : Uint8 := c.chrrom.get addr.toNat

def attachBus (b : RamBus × VramBus) : RamBus × VramBus :=
  (((b.1.map 0x4020 0x8000 .cartridge .cartridge).map 0x8000 0x10000 .prgrom .prgrom),
    b.2.map 0 0x2000 .chrrom .chrrom)

/-! ### Which reads are in range -/

/-- Every read the buses pass on to the ROMs is in range. -/
def InRange (c : Cartridge) : Prop :=
  (∀ addr : Uint16, 0x8000 ≤ addr.toNat → (c.prgIndex addr).toNat < c.prgrom.size) ∧
  ∀ addr : Uint16, addr.toNat < 0x2000 → addr.toNat < c.chrrom.size

/-- The index is the sum of size and address: the two offsets of `0x8000` cancel. -/
theorem toNat_prgIndex (c : Cartridge) (addr : Uint16) :
    (c.prgIndex addr).toNat = (c.prgrom.size + addr.toNat) % 65536 := by
  unfold prgIndex
  have haddr := addr.isLt
  have h16 : (0x8000 : Uint16).toNat = 0x8000 := rfl
  have h64 : (0x8000 : Uint64).toNat = 0x8000 := rfl
  simp only [BitVec.toNat_add, BitVec.toNat_sub, BitVec.toNat_setWidth, BitVec.toNat_ofNat,
    h16, h64]
  omega

/-- The window of the ROM is in range exactly if there are 32 KiB of PRG ROM and 8 KiB of CHR
ROM. -/
theorem inRange_iff (c : Cartridge) :
    c.InRange ↔ 0x8000 ≤ c.prgrom.size ∧ 0x2000 ≤ c.chrrom.size := by
  unfold InRange
  constructor
  · rintro ⟨hprg, hchr⟩
    have hp := hprg 0x8000 (by decide)
    have hc := hchr 0x1FFF (by decide)
    rw [toNat_prgIndex] at hp
    have h8000 : (0x8000 : Uint16).toNat = 0x8000 := rfl
    have h1FFF : (0x1FFF : Uint16).toNat = 0x1FFF := rfl
    omega
  · rintro ⟨hprg, hchr⟩
    refine ⟨?_, fun addr ha => by omega⟩
    intro addr ha
    have haddr := addr.isLt
    rw [toNat_prgIndex]
    omega

section Loading

variable (fresh : FreshRom) (s : Cartridge × File)

theorem loadTrainer_roms :
    (loadTrainer s).1.prgrom = s.1.prgrom ∧ (loadTrainer s).1.chrrom = s.1.chrrom ∧
      (loadTrainer s).1.header = s.1.header ∧ (loadTrainer s).1.has = s.1.has := by
  unfold loadTrainer
  split <;> exact ⟨rfl, rfl, rfl, rfl⟩

theorem loadPrgrom_size :
    (loadPrgrom fresh s).1.prgrom.size =
      if s.1.has.prgram then s.1.prgrom.size else (s.1.header 4).toNat * 16384 := by
  unfold loadPrgrom
  cases h : s.1.has.prgram <;> rfl

theorem loadPrgrom_others :
    (loadPrgrom fresh s).1.chrrom = s.1.chrrom ∧ (loadPrgrom fresh s).1.header = s.1.header ∧
      (loadPrgrom fresh s).1.has = s.1.has := by
  unfold loadPrgrom
  split <;> exact ⟨rfl, rfl, rfl⟩

theorem loadChrrom_size :
    (loadChrrom fresh s).1.chrrom.size =
      if s.1.has.chrram then s.1.chrrom.size else (s.1.header 5).toNat * 8192 := by
  unfold loadChrrom
  cases h : s.1.has.chrram <;> rfl

theorem loadChrrom_prgrom : (loadChrrom fresh s).1.prgrom = s.1.prgrom := by
  unfold loadChrrom
  split <;> rfl

theorem load_ntMirroring :
    (loadChrrom fresh (loadPrgrom fresh (loadTrainer s))).1.ntMirroring = s.1.ntMirroring := by
  have htrainer : (loadTrainer s).1.ntMirroring = s.1.ntMirroring := by
    unfold loadTrainer
    split <;> rfl
  have hprg (t : Cartridge × File) : (loadPrgrom fresh t).1.ntMirroring = t.1.ntMirroring := by
    unfold loadPrgrom
    split <;> rfl
  have hchr (t : Cartridge × File) : (loadChrrom fresh t).1.ntMirroring = t.1.ntMirroring := by
    unfold loadChrrom
    split <;> rfl
  rw [hchr, hprg, htrainer]

end Loading

theorem parse_of_accepted {fresh : FreshRom} {f : File} {c : Cartridge}
    (h : (parse fresh f c).1 = true) :
    (parse fresh f c).2 = loadChrrom fresh (loadPrgrom fresh (loadTrainer
      (parseInes (parseCommon
        { c with name := f.filename, header := c.readHeader f, format := "iNES" }),
        (f.bread headerLen).2))) := by
  unfold parse at *
  by_cases hopen : (!f.isOpen) = true
  · rw [if_pos hopen] at h
    cases h
  by_cases hines : (!isInes (c.readHeader f)) = true
  · rw [if_neg hopen, if_pos hines] at h
    cases h
  by_cases hnes : isNes20 (c.readHeader f) = true
  · rw [if_neg hopen, if_neg hines, if_pos hnes] at h
    cases h
  rw [if_neg hopen, if_neg hines, if_neg hnes]

/-- The sizes an accepted file leaves. -/
theorem parse_sizes {fresh : FreshRom} {f : File} {c : Cartridge}
    (h : (parse fresh f c).1 = true) :
    (parse fresh f c).2.1.prgrom.size =
      (if truthy (c.readHeader f 10 &&& 0x10) then c.prgrom.size
        else (c.readHeader f 4).toNat * 16384) ∧
    (parse fresh f c).2.1.chrrom.size =
      if (if c.readHeader f 5 == 0 then true else c.has.chrram) then c.chrrom.size
      else (c.readHeader f 5).toNat * 8192 := by
  rw [parse_of_accepted h]
  set s : Cartridge × File := (parseInes (parseCommon
    { c with name := f.filename, header := c.readHeader f, format := "iNES" }),
    (f.bread headerLen).2)
  obtain ⟨htp, htc, hth, hthas⟩ := loadTrainer_roms s
  obtain ⟨hpc, hph, hphas⟩ := loadPrgrom_others fresh (loadTrainer s)
  constructor
  · rw [loadChrrom_prgrom, loadPrgrom_size, hthas, htp, hth]
    rfl
  · rw [loadChrrom_size, hpc, hph, hphas, htc, hth, hthas]
    rfl

/-- The mode of an accepted file is one of the two the PPU knows. -/
theorem parse_ntMirroring {fresh : FreshRom} {f : File} {c : Cartridge}
    (h : (parse fresh f c).1 = true) : (parse fresh f c).2.1.ntMirroring ≠ .other := by
  rw [parse_of_accepted h, load_ntMirroring]
  show (if _ then Mirroring.horz else .vert) ≠ .other
  split <;> decide

/-- What the file and the cartridge as it was must provide: 32 KiB of PRG ROM, from the file
unless its header announces PRG RAM, and 8 KiB of CHR ROM, from the file unless the cartridge is
taken to have CHR RAM. -/
def RomFits (f : File) (c : Cartridge) : Prop :=
  (if truthy (c.readHeader f 10 &&& 0x10) then 0x8000 ≤ c.prgrom.size
    else 2 ≤ (c.readHeader f 4).toNat) ∧
  (c.readHeader f 5 = 0 ∨ c.has.chrram = true → 0x2000 ≤ c.chrrom.size)

/-- **Reads in range.** For an accepted file, every read of the ROMs through the buses is in
range exactly if the ROM fits. -/
theorem parse_inRange_iff (fresh : FreshRom) (f : File) (c : Cartridge)
    (h : (parse fresh f c).1 = true) : (parse fresh f c).2.1.InRange ↔ RomFits f c := by
  obtain ⟨hp, hc⟩ := parse_sizes h
  rw [inRange_iff, hp, hc]
  unfold RomFits
  refine and_congr ?_ ?_
  · split
    · exact Iff.rfl
    · omega
  · by_cases h5 : c.readHeader f 5 = 0
    · simp [h5]
    · have hpos : 0 < (c.readHeader f 5).toNat :=
        Nat.pos_of_ne_zero fun h0 => h5 (BitVec.eq_of_toNat_eq h0)
      cases hram : c.has.chrram
      · simp only [h5, beq_iff_eq, if_false, Bool.false_eq_true, false_or, false_implies,
          iff_true]
        omega
      · simp

/-- A new cartridge: nothing allocated, the buffers holding zeros. -/
def blank : Cartridge where
  prgrom := ⟨0, fun _ => 0⟩
  chrrom := ⟨0, fun _ => 0⟩
  header := fun _ => 0
  trainer := fun _ => 0

/-- A file with the given numbers of PRG and CHR banks, all zero. -/
def romFile (prg chr : Uint8) : File where
  isOpen := true
  filename := "rom.nes"
  rest := [0x4E, 0x45, 0x53, 0x1A, prg, chr, 0, 0, 0, 0, 0, 0, 0, 0, 0, 0] ++
    List.replicate (prg.toNat * 16384 + chr.toNat * 8192) 0

def zeroRom : FreshRom := ⟨fun _ => 0, fun _ => 0⟩

theorem parse_inRange_two_banks :
    (parse zeroRom (romFile 2 1) blank).1 = true ∧
      (parse zeroRom (romFile 2 1) blank).2.1.InRange :=
  ⟨rfl, (parse_inRange_iff zeroRom (romFile 2 1) blank rfl).mpr
    ⟨by decide, by intro h; rcases h with h | h <;> cases h⟩⟩

/-- A file with one PRG bank is accepted, and a read at `0x8000` is out of range. -/
theorem not_inRange_one_bank :
    (parse zeroRom (romFile 1 1) blank).1 = true ∧
      ¬(parse zeroRom (romFile 1 1) blank).2.1.InRange := by
  refine ⟨rfl, ?_⟩
  intro h
  have hprg := h.1 0x8000 (by decide)
  exact absurd hprg (by decide)

end Cartridge

end Yanesemu
